import LumigoOperator.Go.Strings

/-! The bytes of a text. UTF-8 keeps the bytes below `0x80` for the ASCII characters: every
byte of a longer encoding has its high bit set. So an ASCII byte found in the UTF-8 of a text
is an occurrence of its character, and the bytes around it encode the text around it.
-/

namespace LumigoOperator.Go

theorem UInt8.toNat_lor (x y : UInt8) : (x ||| y).toNat = x.toNat ||| y.toNat :=
  BitVec.toNat_or x.toBitVec y.toBitVec

/-- A byte with its high bit forced on is no ASCII byte. -/
theorem le_toNat_lor (x : UInt8) {m : UInt8} (hm : m.toNat.testBit 7 = true)
    : 128 ≤ (x ||| m).toNat := by
  rw [UInt8.toNat_lor]
  exact Nat.testBit_implies_ge (by rw [Nat.testBit_or x.toNat, hm, Bool.or_true])

/-- An ASCII byte of an encoding makes it the one-byte encoding of an ASCII character, by
cases on the encoding's length: the bytes of the longer ones carry a high tag bit. -/
theorem eq_of_mem_utf8EncodeChar {b : UInt8} {c : Char} (hb : b.toNat < 128)
    (h : b ∈ String.utf8EncodeChar c)
    : c.val ≤ 0x7f ∧ b = c.toUInt8 := by
  simp only [String.utf8EncodeChar] at h
  split_ifs at h with h1
  · exact ⟨h1, List.mem_singleton.mp h⟩
  all_goals
    simp only [List.mem_cons, List.mem_singleton, List.not_mem_nil, or_false] at h
    rcases h with rfl | rfl | rfl | rfl <;>
      exact absurd hb (Nat.not_lt.mpr (le_toNat_lor _ (by decide)))

theorem toNat_le_of_val_le {c : Char} (h : c.val ≤ 0x7f) : c.toNat ≤ 127 :=
  UInt32.toNat_le_of_le (m := 127) (by decide) h

theorem toNat_toUInt8_of_le {c : Char} (h : c.val ≤ 0x7f) : c.toUInt8.toNat = c.toNat := by
  have := toNat_le_of_val_le h
  show (UInt8.ofNat c.val.toNat).toNat = c.val.toNat
  rw [UInt8.toNat_ofNat_of_lt (by simp only [Char.toNat] at this; simp [UInt8.size]; omega)]

theorem utf8EncodeChar_of_le {c : Char} (h : c.val ≤ 0x7f)
    : String.utf8EncodeChar c = [c.toUInt8] := by
  simp only [String.utf8EncodeChar, if_pos h]
  rfl

/-- The byte of an ASCII character occurs in an encoding only when it encodes that character. -/
theorem toUInt8_mem_utf8EncodeChar {a c : Char} (ha : a.val ≤ 0x7f)
    : a.toUInt8 ∈ String.utf8EncodeChar c ↔ c = a := by
  constructor
  · intro h
    have hl := toNat_le_of_val_le ha
    obtain ⟨hc, he⟩ := eq_of_mem_utf8EncodeChar (by rw [toNat_toUInt8_of_le ha]; omega) h
    have hn := congrArg UInt8.toNat he
    rw [toNat_toUInt8_of_le ha, toNat_toUInt8_of_le hc] at hn
    exact Char.ext (UInt32.toNat.inj hn.symm)
  · rintro rfl
    simp [utf8EncodeChar_of_le ha]

-----------------------------------------------------------------------------------------
-- Texts
-----------------------------------------------------------------------------------------

@[simp] theorem utf8_nil : utf8 [] = [] := rfl

@[simp] theorem utf8_cons (c : Char) (cs : List Char)
    : utf8 (c :: cs) = String.utf8EncodeChar c ++ utf8 cs := rfl

@[simp] theorem utf8_append (r t : List Char) : utf8 (r ++ t) = utf8 r ++ utf8 t :=
  List.flatMap_append r t _

theorem toUInt8_mem_utf8 {a : Char} (ha : a.val ≤ 0x7f) (s : List Char)
    : a.toUInt8 ∈ utf8 s ↔ a ∈ s := by
  simp [utf8, List.mem_flatMap, toUInt8_mem_utf8EncodeChar ha]

/-- An ASCII byte in the UTF-8 of a text is an occurrence of its character, and the bytes on
either side encode the text on either side, by induction on the text. -/
theorem utf8_eq_append_cons {a : Char} (ha : a.val ≤ 0x7f) {s : List Char} {R T : GoString}
    (h : utf8 s = R ++ a.toUInt8 :: T)
    : ∃ r t, s = r ++ a :: t ∧ R = utf8 r ∧ T = utf8 t := by
  induction s generalizing R with
  | nil => simp at h
  | cons c s ih =>
      rw [utf8_cons] at h
      rcases List.append_eq_append_iff.mp h with ⟨R', rfl, hs⟩ | ⟨C, hc, hs⟩
      · obtain ⟨r, t, rfl, rfl, rfl⟩ := ih hs
        exact ⟨c :: r, t, rfl, rfl, rfl⟩
      · cases C with
        | nil =>
            obtain ⟨r, t, rfl, hr, rfl⟩ := ih (R := []) hs.symm
            exact ⟨c :: r, t, rfl, by simp [hc, ← hr], rfl⟩
        | cons x C =>
            obtain ⟨rfl, rfl⟩ := List.cons.inj hs
            obtain rfl : c = a := (toUInt8_mem_utf8EncodeChar ha).mp (by simp [hc])
            rw [utf8EncodeChar_of_le ha] at hc
            obtain ⟨rfl, rfl⟩ : R = [] ∧ C = [] := by
              rcases R with _ | ⟨y, R⟩
              · simpa [eq_comm] using hc
              · simp at hc
            exact ⟨[], s, rfl, rfl, rfl⟩

end LumigoOperator.Go
