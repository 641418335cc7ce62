import LumigoOperator.Go.Utf8

/-! The image references of the e2e setup, cut by `splitContainerImageNameAndTag` into the
repository and the tag that the Helm install sets separately. The tag follows the last colon,
unless a path separator follows that colon, which then belongs to a registry port.
-/

namespace LumigoOperator.Internal

open LumigoOperator.Go

/-- `splitContainerImageNameAndTag`: the repository and the tag of an image reference; the tag
is empty when the reference has no colon, or when its last colon comes before its last slash.
`none` is a run-time panic of one of the two slice expressions.
-/
def splitContainerImageNameAndTag (imageName : GoString) : Option (GoString × GoString) :=
  let lastColonIndex := lastIndex imageName (lit ":")
  let lastSlashIndex := lastIndex imageName (lit "/")
  if lastColonIndex < 0 || lastSlashIndex > lastColonIndex then
    some (imageName, lit "")
  else do
    let name ← slice imageName 0 lastColonIndex
    let tag ← slice imageName (lastColonIndex + 1) imageName.length
    pure (name, tag)

/-- The byte of `:` in a Go string. -/
def colon : UInt8 := 0x3A

/-- The byte of `/` in a Go string. -/
def slash : UInt8 := 0x2F

@[simp] theorem lit_colon : lit ":" = [colon] := rfl

@[simp] theorem lit_slash : lit "/" = [slash] := rfl

@[simp] theorem lit_empty : lit "" = [] := rfl

theorem slash_ne_colon : slash ≠ colon := by decide

-----------------------------------------------------------------------------------------
-- Tagged references
-----------------------------------------------------------------------------------------

/-- `s` is the repository `r`, a colon and the tag `t`, and the tag holds neither a colon nor a
path separator. The alphabet is a parameter: bytes for the Go code, characters for the text
that the bytes encode.
-/
structure TagSplit {α : Type} (colon slash : α) (s r t : List α) : Prop where
  eq : s = r ++ colon :: t
  colon_not_mem : colon ∉ t
  slash_not_mem : slash ∉ t

variable {s r t : GoString}

/-- The colon of a tag split is the last colon of the reference. -/
theorem TagSplit.lastIndex_colon (h : TagSplit colon slash s r t)
    : lastIndex s (lit ":") = r.length := by
  rw [h.eq, lit_colon, lastIndex_singleton_append_cons r h.colon_not_mem]

/-- No slash follows the colon of a tag split: the last slash, if any, is in the repository. -/
theorem TagSplit.lastIndex_slash_lt (h : TagSplit colon slash s r t)
    : lastIndex s (lit "/") < r.length := by
  have hs : slash ∉ colon :: t := by simp [slash_ne_colon, h.slash_not_mem]
  rw [h.eq, lit_slash, lastIndex_singleton_append_of_not_mem r hs]
  exact lastIndex_singleton_lt_length r slash

/-- A tag split is what the code returns: the colon test passes, the slash test fails, and
both slices lie within the reference. -/
theorem splitContainerImageNameAndTag_of_tagSplit (h : TagSplit colon slash s r t)
    : splitContainerImageNameAndTag s = some (r, t) := by
  have hc := h.lastIndex_colon
  have hs := h.lastIndex_slash_lt
  have hlen : r.length + 1 ≤ s.length := by simp [h.eq]
  simp only [splitContainerImageNameAndTag, hc]
  rw [if_neg (by simp only [Bool.or_eq_true, decide_eq_true_eq, not_or]; omega),
    slice_of_le s (by omega) (by omega) (by omega), slice_of_le s (by omega) (by omega) (by omega)]
  simp only [Int.toNat_ofNat, Int.toNat_ofNat_add_one, List.take_length]
  simp [h.eq]

/-- A reference splits in at most one way, as the code's result is determined. -/
theorem TagSplit.unique {r' t' : GoString} (h : TagSplit colon slash s r t)
    (h' : TagSplit colon slash s r' t')
    : r = r' ∧ t = t' := by
  have he := (splitContainerImageNameAndTag_of_tagSplit h).symm.trans
    (splitContainerImageNameAndTag_of_tagSplit h')
  exact Prod.mk.inj (Option.some.inj he)

/-- A reference has no tag split exactly when it has no colon, or a slash follows its last
colon, by cases on the last colon. -/
theorem not_exists_tagSplit_iff (s : GoString)
    : (¬ ∃ r t, TagSplit colon slash s r t)
      ↔ colon ∉ s ∨ ∃ r t, s = r ++ colon :: t ∧ colon ∉ t ∧ slash ∈ t := by
  constructor
  · intro hn
    rcases lastIndex_singleton_cases s colon with ⟨hs, -⟩ | ⟨r, t, rfl, ht, -⟩
    · exact Or.inl hs
    · refine Or.inr ⟨r, t, rfl, ht, ?_⟩
      by_contra hsl
      exact hn ⟨r, t, ⟨rfl, ht, hsl⟩⟩
  · rintro (hs | ⟨r, t, rfl, ht, hsl⟩) ⟨r', t', h'⟩
    · exact hs (by rw [h'.eq]; simp)
    · have hlen : r.length = r'.length := by
        have := h'.lastIndex_colon
        rw [lit_colon, lastIndex_singleton_append_cons r ht] at this
        omega
      obtain ⟨-, htt⟩ := List.append_inj h'.eq hlen
      obtain ⟨-, rfl⟩ := List.cons.inj htt
      exact h'.slash_not_mem hsl

/-- Without a tag split the code returns the whole reference and an empty tag: either the
colon test fails, or the last slash lies past the last colon. -/
theorem splitContainerImageNameAndTag_of_not_exists (hn : ¬ ∃ r t, TagSplit colon slash s r t)
    : splitContainerImageNameAndTag s = some (s, lit "") := by
  have hcond : lastIndex s (lit ":") < 0 ∨ lastIndex s (lit ":") < lastIndex s (lit "/") := by
    rcases (not_exists_tagSplit_iff s).mp hn with hs | ⟨r, t, rfl, ht, hsl⟩
    · rw [lit_colon, lastIndex_singleton_of_not_mem hs]
      omega
    · have hc := lastIndex_singleton_append_cons r ht
      have hsl := length_le_lastIndex_singleton_append (r ++ [colon]) hsl
      simp only [List.append_assoc, List.singleton_append, List.length_append,
        List.length_singleton] at hsl
      simp only [lit_colon, lit_slash, hc]
      omega
  simp only [splitContainerImageNameAndTag]
  rw [if_pos (by simpa only [Bool.or_eq_true, decide_eq_true_eq, gt_iff_lt] using hcond)]

/-- `splitContainerImageNameAndTag` decomposes every image reference. A tag split is what it
returns, and there is at most one: its colon is the last colon and no slash follows it. A
reference without one, having no colon or a slash after its last colon, comes back whole with
an empty tag. So a repository, with a registry port or other colons of its own, and a tag free
of colons and slashes come back from their join, and what the code returns for a tagged
reference recombines to it.
-/
theorem splitContainerImageNameAndTag_decomposes
    : (∀ s r t, TagSplit colon slash s r t → splitContainerImageNameAndTag s = some (r, t))
      ∧ (∀ s r t, TagSplit colon slash s r t →
          lastIndex s (lit ":") = r.length ∧ lastIndex s (lit "/") < r.length)
      ∧ (∀ s r t r' t', TagSplit colon slash s r t → TagSplit colon slash s r' t' →
          r = r' ∧ t = t')
      ∧ (∀ s, (¬ ∃ r t, TagSplit colon slash s r t)
          ↔ colon ∉ s ∨ ∃ r t, s = r ++ colon :: t ∧ colon ∉ t ∧ slash ∈ t)
      ∧ (∀ s, (¬ ∃ r t, TagSplit colon slash s r t) →
          splitContainerImageNameAndTag s = some (s, lit ""))
      ∧ (∀ r t, colon ∉ t → slash ∉ t →
          splitContainerImageNameAndTag (r ++ lit ":" ++ t) = some (r, t))
      ∧ ∀ s name tag, (∃ r t, TagSplit colon slash s r t) →
          splitContainerImageNameAndTag s = some (name, tag) → name ++ lit ":" ++ tag = s := by
  refine ⟨fun _ _ _ => splitContainerImageNameAndTag_of_tagSplit,
    fun _ _ _ h => ⟨h.lastIndex_colon, h.lastIndex_slash_lt⟩,
    fun _ _ _ _ _ => TagSplit.unique, not_exists_tagSplit_iff,
    fun _ => splitContainerImageNameAndTag_of_not_exists,
    fun r t hc hs => splitContainerImageNameAndTag_of_tagSplit ⟨by simp, hc, hs⟩, ?_⟩
  rintro s name tag ⟨r, t, h⟩ hst
  rw [splitContainerImageNameAndTag_of_tagSplit h, Option.some.injEq, Prod.mk.injEq] at hst
  obtain ⟨rfl, rfl⟩ := hst
  simp [h.eq]

example : splitContainerImageNameAndTag (lit "host.docker.internal:5000/controller:latest")
    = some (lit "host.docker.internal:5000/controller", lit "latest") := by decide

example : splitContainerImageNameAndTag (lit "host.docker.internal:5000/controller")
    = some (lit "host.docker.internal:5000/controller", lit "") := by decide

-----------------------------------------------------------------------------------------
-- Image references as text
-----------------------------------------------------------------------------------------

@[simp] theorem colon_mem_utf8 (t : List Char) : colon ∈ utf8 t ↔ ':' ∈ t :=
  toUInt8_mem_utf8 (a := ':') (by decide) t

@[simp] theorem slash_mem_utf8 (t : List Char) : slash ∈ utf8 t ↔ '/' ∈ t :=
  toUInt8_mem_utf8 (a := '/') (by decide) t

/-- The UTF-8 of a text split at its tag is a split of the bytes. -/
theorem TagSplit.map_utf8 {s r t : List Char} (h : TagSplit ':' '/' s r t)
    : TagSplit colon slash (utf8 s) (utf8 r) (utf8 t) where
  eq := by rw [h.eq, utf8_append, utf8_cons, utf8EncodeChar_of_le (by decide)]; rfl
  colon_not_mem := by simpa using h.colon_not_mem
  slash_not_mem := by simpa using h.slash_not_mem

/-- A split of the bytes of a text encodes a split of the text: its colon byte is a colon of the
text, and the bytes on either side encode the text on either side. -/
theorem TagSplit.of_utf8 {s : List Char} {R T : GoString} (h : TagSplit colon slash (utf8 s) R T)
    : ∃ r t, TagSplit ':' '/' s r t ∧ R = utf8 r ∧ T = utf8 t := by
  obtain ⟨r, t, hs, rfl, rfl⟩ := utf8_eq_append_cons (a := ':') (by decide) h.eq
  exact ⟨r, t, ⟨hs, by simpa using h.colon_not_mem, by simpa using h.slash_not_mem⟩, rfl, rfl⟩

/-- The code cuts the UTF-8 bytes of a text image reference where the text is cut: at the
text's tag split when it has one, and nowhere otherwise. -/
theorem splitContainerImageNameAndTag_utf8 (s : List Char)
    : (∀ r t, TagSplit ':' '/' s r t →
        splitContainerImageNameAndTag (utf8 s) = some (utf8 r, utf8 t))
      ∧ ((¬ ∃ r t, TagSplit ':' '/' s r t) →
        splitContainerImageNameAndTag (utf8 s) = some (utf8 s, lit "")) := by
  refine ⟨fun r t h => splitContainerImageNameAndTag_of_tagSplit h.map_utf8, fun hn => ?_⟩
  apply splitContainerImageNameAndTag_of_not_exists
  rintro ⟨R, T, h⟩
  obtain ⟨r, t, ht, -⟩ := h.of_utf8
  exact hn ⟨r, t, ht⟩

end LumigoOperator.Internal
