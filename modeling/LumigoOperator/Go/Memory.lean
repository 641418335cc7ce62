import Mathlib.Data.List.Nodup

/-! Go slices over an explicit heap of backing arrays, and the slice-field copy that the
generated `DeepCopyInto` functions repeat: `nil` stays `nil`, and anything else gets a new
array from `make` filled by a `for i := range` loop. A slice refers to cells of one array, so
two slices share storage exactly when they refer to a common cell.
-/

namespace LumigoOperator.Go

/-- A slice header: `nil`, or the `len` elements of the backing array at `addr` from
`offset` on. The capacity is left out: nothing modelled appends to a slice. -/
inductive Slice where
  | nil
  | window (addr offset len : Nat)
  deriving DecidableEq, Repr

/-- The zero value of a slice type is `nil`. -/
instance : Inhabited Slice := ⟨.nil⟩

/-- The backing arrays of one element type, by address. -/
abbrev Store (α : Type) := List (List α)

variable {α σ : Type} [Inhabited α]

/-- The element at index `i` of the array at `addr`; the zero value where there is none. -/
def Store.read (s : Store α) (addr i : Nat) : α := ((s[addr]?.getD [])[i]?).getD default

/-- `make([]T, n)`: a new array of `n` zero values, at the next address. -/
def Store.alloc (s : Store α) (n : Nat) : Store α := s ++ [List.replicate n default]

/-- `arr[i] = v` on the array at `addr`. -/
def Store.write (s : Store α) (addr i : Nat) (v : α) : Store α :=
  s.set addr ((s[addr]?.getD []).set i v)

/-- The elements of a window, read in order. -/
def Store.contents (s : Store α) (addr offset len : Nat) : List α :=
  (List.range len).map fun i => s.read addr (offset + i)

/-- What a slice holds: `none` for `nil`, otherwise the elements of its window. -/
def Slice.view (s : Store α) : Slice → Option (List α)
  | .nil => none
  | .window addr offset len => some (s.contents addr offset len)

/-- The cells a slice refers to, as addresses and indices. -/
def Slice.cells : Slice → List (Nat × Nat)
  | .nil => []
  | .window addr offset len => (List.range len).map fun i => (addr, offset + i)

/-- The slice points into an array that exists. -/
def Slice.Allocated (s : Store α) : Slice → Prop
  | .nil => True
  | .window addr _ _ => addr < s.length

instance (s : Store α) : (x : Slice) → Decidable (x.Allocated s)
  | .nil => isTrue trivial
  | .window addr _ _ => inferInstanceAs (Decidable (addr < s.length))

@[simp]
theorem Store.contents_length (s : Store α) (addr offset len : Nat)
    : (s.contents addr offset len).length = len := by
  simp [Store.contents]

omit [Inhabited α] in
/-- The cells of a slice are distinct. -/
theorem Slice.cells_nodup (x : Slice) : x.cells.Nodup := by
  cases x with
  | nil => exact List.nodup_nil
  | window addr offset len =>
      exact List.Nodup.map (fun i j e => by simpa using e) (List.nodup_range len)

omit [Inhabited α] in
/-- A cell of an allocated slice lies in an array that exists. -/
theorem Slice.fst_lt_of_mem_cells {s : Store α} {x : Slice} (h : x.Allocated s)
    {c : Nat × Nat} (hc : c ∈ x.cells) : c.1 < s.length := by
  cases x with
  | nil => simp [Slice.cells] at hc
  | window addr offset len =>
      obtain ⟨i, -, rfl⟩ := List.mem_map.mp hc
      exact h

omit [Inhabited α] in
theorem Slice.Allocated.append {s : Store α} {x : Slice} (h : x.Allocated s) (t : Store α)
    : x.Allocated (s ++ t) := by
  cases x with
  | nil => trivial
  | window addr offset len =>
      simp only [Slice.Allocated, List.length_append] at h ⊢
      omega

-----------------------------------------------------------------------------------------
-- Reads after allocation and writes
-----------------------------------------------------------------------------------------

theorem Store.read_append_of_lt {s : Store α} (t : Store α) {addr : Nat} (h : addr < s.length)
    (i : Nat) : (s ++ t).read addr i = s.read addr i := by
  simp [Store.read, List.getElem?_append_left h]

/-- A new last array whose first `ys.length` cells are written reads as before the
allocation at every later index. -/
theorem Store.read_append_partial (s : Store α) (ys : List α) (k addr : Nat) {i : Nat}
    (hi : ys.length ≤ i)
    : (s ++ [ys ++ List.replicate k default]).read addr i = s.read addr i := by
  rcases Nat.lt_trichotomy addr s.length with h | rfl | h
  · exact Store.read_append_of_lt _ h i
  · simp only [Store.read, List.getElem?_append_right le_rfl, Nat.sub_self,
      List.getElem?_cons_zero, Option.getD_some, List.getElem?_append_right hi,
      List.getElem?_replicate, List.getElem?_eq_none le_rfl, Option.getD_none]
    split <;> rfl
  · have hl : (s ++ [ys ++ List.replicate k default]).length ≤ addr := by
      simp only [List.length_append, List.length_singleton]
      omega
    simp only [Store.read, List.getElem?_eq_none hl,
      List.getElem?_eq_none (by omega : s.length ≤ addr)]

omit [Inhabited α] in
theorem Store.write_append_last (s : Store α) (arr : List α) (i : Nat) (v : α)
    : (s ++ [arr]).write s.length i v = s ++ [arr.set i v] := by
  simp [Store.write, List.set_append_right _ _ le_rfl]

/-- A write leaves every other cell as it was. -/
theorem Store.read_write_of_ne (s : Store α) {addr i addr' i' : Nat} (v : α)
    (h : (addr', i') ≠ (addr, i))
    : (s.write addr i v).read addr' i' = s.read addr' i' := by
  simp only [Store.read, Store.write, List.getElem?_set]
  by_cases ha : addr = addr'
  · subst ha
    have hi : i ≠ i' := fun e => h (by rw [e])
    by_cases hl : addr < s.length
    · simp [hl, List.getElem?_set, hi]
    · simp [hl, List.getElem?_eq_none (Nat.le_of_not_lt hl)]
  · rw [if_neg ha]

theorem Store.contents_append_of_lt {s : Store α} (t : Store α) {addr : Nat}
    (h : addr < s.length) (offset len : Nat)
    : (s ++ t).contents addr offset len = s.contents addr offset len := by
  simp [Store.contents, Store.read_append_of_lt t h]

/-- The window of a whole array that was just appended reads that array. -/
theorem Store.contents_append_last (s : Store α) (arr : List α) (t : Store α) {len : Nat}
    (hlen : arr.length = len)
    : (s ++ arr :: t).contents s.length 0 len = arr := by
  subst hlen
  apply List.ext_getElem (by simp)
  intro i h₁ h₂
  simp [Store.contents, Store.read, List.getElem?_append_right le_rfl, h₂]

/-- A write to a cell outside a window leaves what the window holds. -/
theorem Store.contents_write_of_not_mem (s : Store α) {addr i : Nat} (v : α)
    {addr' offset len : Nat} (h : (addr, i) ∉ (Slice.window addr' offset len).cells)
    : (s.write addr i v).contents addr' offset len = s.contents addr' offset len := by
  simp only [Store.contents, List.map_inj_left, List.mem_range]
  intro j hj
  exact Store.read_write_of_ne s v fun e =>
    h (by simp only [Slice.cells, List.mem_map, List.mem_range]; exact ⟨j, hj, e⟩)

theorem Slice.view_write_of_not_mem (s : Store α) {addr i : Nat} (v : α) {x : Slice}
    (h : (addr, i) ∉ x.cells)
    : x.view (s.write addr i v) = x.view s := by
  cases x with
  | nil => rfl
  | window addr' offset len => simp [Slice.view, Store.contents_write_of_not_mem s v h]

theorem Slice.view_append_of_allocated {s : Store α} (t : Store α) {x : Slice}
    (h : x.Allocated s)
    : x.view (s ++ t) = x.view s := by
  cases x with
  | nil => rfl
  | window addr offset len => simp [Slice.view, Store.contents_append_of_lt t h]

-----------------------------------------------------------------------------------------
-- The slice-field copy of `DeepCopyInto`
-----------------------------------------------------------------------------------------

/-- The loop `for i := range *in { (*in)[i].DeepCopyInto(&(*out)[i]) }` from index `i`, with
`k` indices left: element `offset + i` of the array at `src` is copied into cell `i` of the
array at `dst`. `get` and `put` reach the store of the element type inside the state, and the
element's own copy may change the rest of the state.
-/
def rangeCopy (get : σ → Store α) (put : σ → Store α → σ) (copy : σ → α → σ × α)
    (src offset dst : Nat) : Nat → Nat → σ → σ
  | _, 0, h => h
  | i, k + 1, h =>
      let r := copy h ((get h).read src (offset + i))
      rangeCopy get put copy src offset dst (i + 1) k (put r.1 ((get r.1).write dst i r.2))

/-- The copy of a slice field after `*out = *in`: a `nil` slice stays `nil`; any other gets
`*out = make([]T, len(*in))`, filled by the range loop. -/
def deepCopySlice (get : σ → Store α) (put : σ → Store α → σ) (copy : σ → α → σ × α)
    (h : σ) : Slice → σ × Slice
  | .nil => (h, .nil)
  | .window src offset len =>
      let dst := (get h).length
      (rangeCopy get put copy src offset dst 0 len (put h ((get h).alloc len)),
        .window dst 0 len)

/-- The element copies of a list, in order, threading the state. -/
def copyEach (copy : σ → α → σ × α) : σ → List α → σ × List α
  | h, [] => (h, [])
  | h, x :: xs =>
      let r := copy h x
      let rs := copyEach copy r.1 xs
      (rs.1, r.2 :: rs.2)

omit [Inhabited α] in
@[simp] theorem copyEach_length (copy : σ → α → σ × α) (h : σ) (xs : List α)
    : (copyEach copy h xs).2.length = xs.length := by
  induction xs generalizing h with
  | nil => rfl
  | cons x xs ih => simp [copyEach, ih]

omit [Inhabited α] in
/-- A copy that only returns a value leaves the state and maps the list. -/
@[simp] theorem copyEach_pure (f : α → α) (h : σ) (xs : List α)
    : copyEach (fun h x => (h, f x)) h xs = (h, xs.map f) := by
  induction xs with
  | nil => rfl
  | cons x xs ih => simp [copyEach, ih]

/-- `get` and `put` read and replace one store of the state, and `copy` neither reads nor
changes that store. -/
structure StoreLens (get : σ → Store α) (put : σ → Store α → σ) (copy : σ → α → σ × α) :
    Prop where
  get_put : ∀ h s, get (put h s) = s
  put_put : ∀ h s s', put (put h s) s' = put h s'
  copy_put : ∀ h s x, copy (put h s) x = (put (copy h x).1 s, (copy h x).2)

/-- The range loop over a partly filled new last array: every step reads an element that is
not yet overwritten, so the loop stores the copies of what the window held before, by
induction on the indices left.
-/
theorem rangeCopy_spec {get : σ → Store α} {put : σ → Store α → σ} {copy : σ → α → σ × α}
    (hl : StoreLens get put copy) (s : Store α) (src offset : Nat) (k : Nat)
    : ∀ (g : σ) (ys : List α),
      rangeCopy get put copy src offset s.length ys.length k
          (put g (s ++ [ys ++ List.replicate k default]))
        = let r := copyEach copy g ((List.range k).map fun j => s.read src (offset + ys.length + j))
          put r.1 (s ++ [ys ++ r.2]) := by
  induction k with
  | zero => intro g ys; simp [rangeCopy, copyEach]
  | succ k ih =>
      intro g ys
      have hread : (s ++ [ys ++ List.replicate (k + 1) default]).read src (offset + ys.length)
          = s.read src (offset + ys.length) := Store.read_append_partial s ys _ src (by omega)
      have hwrite (x : α) : (s ++ [ys ++ List.replicate (k + 1) default]).write s.length
            ys.length x = s ++ [ys ++ x :: List.replicate k default] := by
        rw [Store.write_append_last, List.set_append_right _ _ le_rfl, Nat.sub_self,
          List.replicate_succ, List.set_cons_zero]
      have hshift : ((List.range k).map fun j => s.read src (offset + (ys.length + 1) + j))
          = (List.range k).map ((fun j => s.read src (offset + ys.length + j)) ∘ Nat.succ) :=
        List.map_congr_left fun j _ => by simp only [Function.comp]; congr 1; omega
      have hnext := ih (copy g (s.read src (offset + ys.length))).1
        (ys ++ [(copy g (s.read src (offset + ys.length))).2])
      simp only [List.length_append, List.length_singleton, List.append_assoc,
        List.singleton_append, hshift] at hnext
      simp only [rangeCopy, hl.get_put, hread, hl.copy_put, hwrite, hl.put_put, hnext,
        List.range_succ_eq_map, List.map_cons, List.map_map, copyEach, Nat.add_zero]

/-- The copy of a non-nil slice appends one array: the copies of the window's elements, made
in order. -/
theorem deepCopySlice_window {get : σ → Store α} {put : σ → Store α → σ}
    {copy : σ → α → σ × α} (hl : StoreLens get put copy) (h : σ) (src offset len : Nat)
    : deepCopySlice get put copy h (.window src offset len)
      = let r := copyEach copy h ((get h).contents src offset len)
        (put r.1 (get h ++ [r.2]), .window (get h).length 0 len) := by
  have := rangeCopy_spec hl (get h) src offset len h []
  simp only [List.length_nil, List.nil_append, Nat.add_zero] at this
  simp only [deepCopySlice, Store.alloc, this, Store.contents]

end LumigoOperator.Go
