import LumigoOperator.Internal.ImageName

/-! The setup of `LumigoOperatorFeature`: a Helm install of the operator chart, with the
controller and telemetry-proxy images of the test context passed as separate repositories and
tags. Each image is rebuilt from the two values the install passes for it.
-/

namespace LumigoOperator.Internal

open LumigoOperator.Go

end LumigoOperator.Internal
