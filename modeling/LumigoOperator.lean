import LumigoOperator.Go.Strings
import LumigoOperator.Go.Utf8
import LumigoOperator.Go.Memory
import LumigoOperator.Internal.ImageName
import LumigoOperator.Internal.OperatorFeature
import LumigoOperator.Api.DeepCopy
