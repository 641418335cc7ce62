import Mathlib.Data.List.Basic

/-! Go strings and the search of the `strings` package that the e2e setup relies on.
A Go string is a byte sequence that need not be valid UTF-8, so it is modelled by its bytes;
`strings.LastIndex` is the downward scan over candidate start positions.
-/

namespace LumigoOperator.Go

/-- A Go `string`: an immutable sequence of bytes. -/
abbrev GoString := List UInt8

/-- The UTF-8 bytes of a text, which is how Go stores a string written as text. -/
def utf8 (cs : List Char) : GoString := cs.flatMap String.utf8EncodeChar

/-- The bytes of a string literal of the Go source. -/
def lit (s : String) : GoString := utf8 s.toList

/-- The slice expression `s[low:high]`: the bytes from `low` up to `high`. Go panics unless
`0 ≤ low ≤ high ≤ len(s)`, and `none` is that panic. -/
def slice (s : GoString) (low high : Int) : Option GoString :=
  if 0 ≤ low ∧ low ≤ high ∧ high ≤ s.length then some ((s.take high.toNat).drop low.toNat)
  else none

theorem slice_of_le (s : GoString) {low high : Int} (h₀ : 0 ≤ low) (h : low ≤ high)
    (hs : high ≤ s.length)
    : slice s low high = some ((s.take high.toNat).drop low.toNat) :=
  if_pos ⟨h₀, h, hs⟩

/-- The scan of `strings.LastIndex` over the candidate starts below `n`, highest first:
the first start at which `substr` occurs, or `-1` once no candidate is left. -/
def lastIndexFrom (s substr : GoString) : Nat → Int
  | 0 => -1
  | n + 1 => if substr.isPrefixOf (s.drop n) then n else lastIndexFrom s substr n

/-- `strings.LastIndex(s, substr)`: the index of the last instance of `substr` in `s`, or
`-1` if `substr` is not present. The candidates are `len(s) - len(substr)` down to `0`;
for a one-byte `substr` this is the byte loop of `bytealg.LastIndexByteString`.
-/
def lastIndex (s substr : GoString) : Int :=
  lastIndexFrom s substr (s.length + 1 - substr.length)

-----------------------------------------------------------------------------------------
-- One-byte needles: the scan sees one byte per candidate
-----------------------------------------------------------------------------------------

variable {c : UInt8}

/-- Bytes appended after the scanned range do not change the scan, by induction on the
number of candidates; each candidate below `s.length` reads a byte of `s`. -/
theorem lastIndexFrom_singleton_append (s u : GoString) (c : UInt8) {n : Nat}
    (hn : n ≤ s.length)
    : lastIndexFrom (s ++ u) [c] n = lastIndexFrom s [c] n := by
  induction n with
  | zero => rfl
  | succ n ih =>
      obtain ⟨y, rest, hy⟩ : ∃ y rest, s.drop n = y :: rest :=
        List.exists_cons_of_ne_nil (by simp; omega)
      simp only [lastIndexFrom, List.drop_append_of_le_length (by omega : n ≤ s.length), hy,
        List.cons_append, List.isPrefixOf, ih (by omega)]

@[simp]
theorem lastIndex_singleton_nil (c : UInt8) : lastIndex [] [c] = -1 := rfl

/-- One more byte at the end is the first candidate the scan tries. -/
theorem lastIndex_singleton_snoc (s : GoString) (x c : UInt8)
    : lastIndex (s ++ [x]) [c] = if x = c then (s.length : Int) else lastIndex s [c] := by
  have hx : [c].isPrefixOf [x] = decide (x = c) := by
    simp [List.isPrefixOf, Bool.beq_eq_decide_eq, eq_comm]
  simp only [lastIndex, List.length_append, List.length_singleton, Nat.add_sub_cancel,
    lastIndexFrom, List.drop_left, hx, lastIndexFrom_singleton_append s [x] c le_rfl]
  split <;> simp_all

/-- Without the byte, the scan runs out of candidates. -/
theorem lastIndex_singleton_of_not_mem {s : GoString} (h : c ∉ s) : lastIndex s [c] = -1 := by
  induction s using List.reverseRecOn with
  | nil => rfl
  | append_singleton s x ih =>
      have hx : x ≠ c := fun e => h (by simp [e])
      rw [lastIndex_singleton_snoc, if_neg hx, ih (fun hm => h (List.mem_append_left _ hm))]

/-- Bytes other than the needle after `s` leave the last index where it was in `s`. -/
theorem lastIndex_singleton_append_of_not_mem (s : GoString) {u : GoString} (h : c ∉ u)
    : lastIndex (s ++ u) [c] = lastIndex s [c] := by
  induction u using List.reverseRecOn with
  | nil => rw [List.append_nil]
  | append_singleton u x ih =>
      have hx : x ≠ c := fun e => h (by simp [e])
      rw [← List.append_assoc, lastIndex_singleton_snoc, if_neg hx,
        ih (fun hm => h (List.mem_append_left _ hm))]

/-- An occurrence followed by no other is the one found. -/
theorem lastIndex_singleton_append_cons (r : GoString) {t : GoString} (h : c ∉ t)
    : lastIndex (r ++ c :: t) [c] = r.length := by
  rw [← List.singleton_append, ← List.append_assoc, lastIndex_singleton_append_of_not_mem _ h,
    lastIndex_singleton_snoc, if_pos rfl]

/-- The last index is a position of `s`, or `-1`. -/
theorem lastIndex_singleton_lt_length (s : GoString) (c : UInt8)
    : lastIndex s [c] < s.length := by
  induction s using List.reverseRecOn with
  | nil => simp
  | append_singleton s x ih =>
      rw [lastIndex_singleton_snoc]
      split <;> simp only [List.length_append, List.length_singleton] <;> omega

/-- Every byte of a list has a last occurrence, by reverse induction. -/
theorem exists_eq_append_cons_of_mem {s : GoString} (h : c ∈ s)
    : ∃ r t, s = r ++ c :: t ∧ c ∉ t := by
  induction s using List.reverseRecOn with
  | nil => simp at h
  | append_singleton s x ih =>
      by_cases hx : x = c
      · exact ⟨s, [], by rw [hx], List.not_mem_nil c⟩
      · have hs : c ∈ s := by simpa [Ne.symm hx] using h
        obtain ⟨r, t, rfl, ht⟩ := ih hs
        exact ⟨r, t ++ [x], by simp, by simp [ht, Ne.symm hx]⟩

/-- An occurrence in the suffix `u` puts the last index at or past `s`. -/
theorem length_le_lastIndex_singleton_append (s : GoString) {u : GoString} (h : c ∈ u)
    : (s.length : Int) ≤ lastIndex (s ++ u) [c] := by
  obtain ⟨u₁, u₂, rfl, hu⟩ := exists_eq_append_cons_of_mem h
  rw [← List.append_assoc, lastIndex_singleton_append_cons _ hu, List.length_append]
  omega

/-- What `strings.LastIndex` returns for a one-byte needle: `-1` when the byte is absent,
and otherwise the length of the prefix before its last occurrence.
-/
theorem lastIndex_singleton_cases (s : GoString) (c : UInt8)
    : (c ∉ s ∧ lastIndex s [c] = -1)
      ∨ ∃ r t, s = r ++ c :: t ∧ c ∉ t ∧ lastIndex s [c] = r.length := by
  by_cases h : c ∈ s
  · obtain ⟨r, t, rfl, ht⟩ := exists_eq_append_cons_of_mem h
    exact Or.inr ⟨r, t, rfl, ht, lastIndex_singleton_append_cons r ht⟩
  · exact Or.inl ⟨h, lastIndex_singleton_of_not_mem h⟩

-----------------------------------------------------------------------------------------
-- Any needle: the scan finds the last occurrence
-----------------------------------------------------------------------------------------

/-- The scan over the candidates below `n` returns the highest one at which `substr` starts,
or `-1` when none does, by induction on `n`. -/
theorem lastIndexFrom_cases (s substr : GoString) (n : Nat)
    : (lastIndexFrom s substr n = -1 ∧ ∀ i < n, ¬ substr <+: s.drop i)
      ∨ ∃ i < n, lastIndexFrom s substr n = i ∧ substr <+: s.drop i
          ∧ ∀ j, i < j → j < n → ¬ substr <+: s.drop j := by
  induction n with
  | zero => exact Or.inl ⟨rfl, fun i hi => absurd hi (Nat.not_lt_zero i)⟩
  | succ n ih =>
      by_cases hn : substr <+: s.drop n
      · refine Or.inr ⟨n, Nat.lt_succ_self n, ?_, hn, fun j hj hj' => absurd hj' (by omega)⟩
        simp [lastIndexFrom, List.isPrefixOf_iff_prefix.mpr hn]
      · have hstep : lastIndexFrom s substr (n + 1) = lastIndexFrom s substr n := by
          simp [lastIndexFrom, List.isPrefixOf_iff_prefix, hn]
        rw [hstep]
        rcases ih with ⟨h, hnone⟩ | ⟨i, hi, h, hp, hmax⟩
        · refine Or.inl ⟨h, fun i hi => ?_⟩
          rcases Nat.lt_succ_iff_lt_or_eq.mp hi with hi | rfl
          · exact hnone i hi
          · exact hn
        · refine Or.inr ⟨i, by omega, h, hp, fun j hj hj' => ?_⟩
          rcases Nat.lt_succ_iff_lt_or_eq.mp hj' with hj' | rfl
          · exact hmax j hj hj'
          · exact hn

/-- `substr` occurs at `i` in `s` exactly when it starts what follows position `i` and fits in
`s` from there. -/
theorem exists_occurrence_iff (s substr : GoString) (i : Nat)
    : (∃ a b, s = a ++ substr ++ b ∧ a.length = i)
      ↔ substr <+: s.drop i ∧ i + substr.length ≤ s.length := by
  constructor
  · rintro ⟨a, b, rfl, rfl⟩
    refine ⟨⟨b, ?_⟩, by simp⟩
    rw [List.append_assoc, List.drop_left]
  · rintro ⟨⟨b, hb⟩, hi⟩
    refine ⟨s.take i, b, ?_, by simp; omega⟩
    rw [List.append_assoc, hb, List.take_append_drop]

/-- `strings.LastIndex(s, substr)` returns the start of the last occurrence of `substr` in `s`,
or `-1` when there is none: every occurrence starts among the scanned candidates. -/
theorem lastIndex_last_occurrence (s substr : GoString)
    : (lastIndex s substr = -1 ∧ ¬ ∃ a b, s = a ++ substr ++ b)
      ∨ ∃ a b, s = a ++ substr ++ b ∧ lastIndex s substr = a.length
          ∧ ∀ a' b', s = a' ++ substr ++ b' → a'.length ≤ a.length := by
  have hbound : ∀ a b, s = a ++ substr ++ b → a.length < s.length + 1 - substr.length := by
    rintro a b rfl
    simp only [List.length_append]
    omega
  have hstart : ∀ a b, s = a ++ substr ++ b → substr <+: s.drop a.length := fun a b hs =>
    ((exists_occurrence_iff s substr a.length).mp ⟨a, b, hs, rfl⟩).1
  rcases lastIndexFrom_cases s substr (s.length + 1 - substr.length)
    with ⟨h, hnone⟩ | ⟨i, hi, h, hp, hmax⟩
  · exact Or.inl ⟨h, fun ⟨a, b, hs⟩ => hnone a.length (hbound a b hs) (hstart a b hs)⟩
  · obtain ⟨a, b, hs, rfl⟩ := (exists_occurrence_iff s substr i).mpr ⟨hp, by omega⟩
    refine Or.inr ⟨a, b, hs, h, fun a' b' hs' => ?_⟩
    by_contra hlt
    exact hmax a'.length (by omega) (hbound a' b' hs') (hstart a' b' hs')

end LumigoOperator.Go
