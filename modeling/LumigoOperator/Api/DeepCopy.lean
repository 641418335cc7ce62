import LumigoOperator.Go.Memory

/-! The generated deep copies of the `v1alpha1` API types. A `Lumigo` holds its status
conditions in a slice, and a `LumigoList` holds its items in one, so a copy must allocate new
arrays for both, one per item inside the items loop. The copy denotes the same value as the
original, and no cell of those arrays is shared between them or between two items of the
copy. The spec is assigned as it is (`out.Spec = in.Spec`), so what a spec points to stays
shared.
-/

namespace LumigoOperator.V1alpha1

open LumigoOperator.Go

/-- `LumigoStatus`: the `Conditions` slice; its other fields are values that `*out = *in`
copies. -/
structure LumigoStatus where
  conditions : Slice
  deriving DecidableEq, Repr

/-- `Lumigo`: `TypeMeta` and the spec, which the copy assigns (`out.Spec = in.Spec`), so a
pointer inside them is shared with the original; `ObjectMeta`, which apimachinery's
`ObjectMeta.DeepCopyInto` copies (not in `src/`): the model keeps the value that copy
reproduces, not the storage behind its maps and slices; and the status, holding the slice. -/
structure Lumigo (TypeMeta ObjectMeta Spec : Type) where
  typeMeta : TypeMeta
  objectMeta : ObjectMeta
  spec : Spec
  status : LumigoStatus
  deriving DecidableEq, Repr

/-- `LumigoList`: `TypeMeta`, the list metadata (kept as the value that apimachinery's
`ListMeta.DeepCopyInto` reproduces), and the `Items` slice. -/
structure LumigoList (TypeMeta ListMeta : Type) where
  typeMeta : TypeMeta
  listMeta : ListMeta
  items : Slice
  deriving DecidableEq, Repr

/-- The arrays behind `[]Lumigo` and `[]LumigoCondition` slices. -/
structure Heap (L C : Type) where
  items : Store L
  conditions : Store C

instance : Inhabited LumigoStatus := ⟨⟨.nil⟩⟩

instance {TypeMeta ObjectMeta Spec : Type} [Inhabited TypeMeta] [Inhabited ObjectMeta]
    [Inhabited Spec] : Inhabited (Lumigo TypeMeta ObjectMeta Spec) :=
  ⟨⟨default, default, default, default⟩⟩

variable {TypeMeta ObjectMeta ListMeta Spec Condition : Type} [Inhabited Condition]

/-- `LumigoCondition.DeepCopyInto`: `*out = *in`; the two timestamps are `metav1.Time`, whose
`DeepCopyInto` (apimachinery) is `*out = *in` as well. -/
def LumigoCondition.deepCopyInto (c : Condition) : Condition := c

/-- `LumigoStatus.DeepCopyInto`: `*out = *in`, then a new array for a non-nil `Conditions`. -/
def LumigoStatus.deepCopyInto (cs : Store Condition) (st : LumigoStatus)
    : Store Condition × LumigoStatus :=
  let r := deepCopySlice id (fun _ s => s)
    (fun s c => (s, LumigoCondition.deepCopyInto c)) cs st.conditions
  (r.1, { st with conditions := r.2 })

/-- `Lumigo.DeepCopyInto`: `*out = *in`; `out.TypeMeta = in.TypeMeta` and
`out.Spec = in.Spec` assign, `ObjectMeta.DeepCopyInto` reproduces the metadata's value, and
`LumigoStatus.DeepCopyInto` copies the status. -/
def Lumigo.deepCopyInto (cs : Store Condition) (x : Lumigo TypeMeta ObjectMeta Spec)
    : Store Condition × Lumigo TypeMeta ObjectMeta Spec :=
  let r := x.status.deepCopyInto cs
  (r.1, { typeMeta := x.typeMeta, objectMeta := x.objectMeta, spec := x.spec, status := r.2 })

/-- A `Lumigo` with its conditions read out of the heap. -/
structure LumigoValue (TypeMeta ObjectMeta Spec Condition : Type) where
  typeMeta : TypeMeta
  objectMeta : ObjectMeta
  spec : Spec
  conditions : Option (List Condition)

def Lumigo.view (cs : Store Condition) (x : Lumigo TypeMeta ObjectMeta Spec)
    : LumigoValue TypeMeta ObjectMeta Spec Condition :=
  ⟨x.typeMeta, x.objectMeta, x.spec, x.status.conditions.view cs⟩

-----------------------------------------------------------------------------------------
-- One resource: `Lumigo.DeepCopyInto`
-----------------------------------------------------------------------------------------

omit [Inhabited Condition] in
theorem statusLens
    : StoreLens (id : Store Condition → Store Condition) (fun _ s => s)
        (fun s c => (s, LumigoCondition.deepCopyInto c)) :=
  ⟨fun _ _ => rfl, fun _ _ _ => rfl, fun _ _ _ => rfl⟩

/-- The status copy appends one array, holding what the conditions held, when they are not
`nil`. -/
theorem LumigoStatus.deepCopyInto_window (cs : Store Condition) (addr offset len : Nat)
    : LumigoStatus.deepCopyInto cs ⟨.window addr offset len⟩
      = (cs ++ [cs.contents addr offset len], ⟨.window cs.length 0 len⟩) := by
  have hid : (LumigoCondition.deepCopyInto : Condition → Condition) = id := rfl
  simp only [LumigoStatus.deepCopyInto, deepCopySlice_window statusLens, copyEach_pure]
  simp [hid]

variable (cs : Store Condition) (x : Lumigo TypeMeta ObjectMeta Spec)

/-- The copy only appends to the condition store. -/
theorem Lumigo.deepCopyInto_extends : ∃ t, (x.deepCopyInto cs).1 = cs ++ t := by
  rcases x with ⟨_, _, _, ⟨_ | ⟨addr, offset, len⟩⟩⟩
  · exact ⟨[], (List.append_nil cs).symm⟩
  · exact ⟨[cs.contents addr offset len], by
      simp [Lumigo.deepCopyInto, LumigoStatus.deepCopyInto_window]⟩

/-- The copy denotes what the original did, with no condition on the heap: its conditions are
the appended array, which holds what the original's window read. -/
theorem Lumigo.view_deepCopyInto
    : (x.deepCopyInto cs).2.view (x.deepCopyInto cs).1 = x.view cs := by
  rcases x with ⟨_, _, _, ⟨_ | ⟨addr, offset, len⟩⟩⟩
  · rfl
  · simp [Lumigo.deepCopyInto, LumigoStatus.deepCopyInto_window, Lumigo.view, Slice.view,
      Store.contents_append_last]

/-- The copy's conditions lie in the array it appended. -/
theorem Lumigo.cells_deepCopyInto
    : ∀ c ∈ (x.deepCopyInto cs).2.status.conditions.cells, cs.length ≤ c.1 := by
  rcases x with ⟨_, _, _, ⟨_ | ⟨addr, offset, len⟩⟩⟩
  · simp [Lumigo.deepCopyInto, LumigoStatus.deepCopyInto, deepCopySlice, Slice.cells]
  · simp [Lumigo.deepCopyInto, LumigoStatus.deepCopyInto_window, Slice.cells]

theorem Lumigo.allocated_deepCopyInto
    : (x.deepCopyInto cs).2.status.conditions.Allocated (x.deepCopyInto cs).1 := by
  rcases x with ⟨_, _, _, ⟨_ | ⟨addr, offset, len⟩⟩⟩
  · trivial
  · simp [Lumigo.deepCopyInto, LumigoStatus.deepCopyInto_window, Slice.Allocated]

/-- `Lumigo.DeepCopyInto`, for every condition store and resource, only appends to the store,
and its copy denotes what the resource denoted, from conditions that all lie in the array it
appended. -/
theorem Lumigo.deepCopyInto_copies_fresh
    : (∃ t, (x.deepCopyInto cs).1 = cs ++ t)
      ∧ (x.deepCopyInto cs).2.view (x.deepCopyInto cs).1 = x.view cs
      ∧ ∀ c ∈ (x.deepCopyInto cs).2.status.conditions.cells, cs.length ≤ c.1 :=
  ⟨Lumigo.deepCopyInto_extends cs x, Lumigo.view_deepCopyInto cs x, Lumigo.cells_deepCopyInto cs x⟩

variable {cs}

/-- What an allocated resource denotes does not change when arrays are appended. -/
theorem Lumigo.view_append {x : Lumigo TypeMeta ObjectMeta Spec}
    (hx : x.status.conditions.Allocated cs) (t : Store Condition)
    : x.view (cs ++ t) = x.view cs := by
  simp [Lumigo.view, Slice.view_append_of_allocated t hx]

theorem Lumigo.map_view_append {xs : List (Lumigo TypeMeta ObjectMeta Spec)}
    (hxs : ∀ x ∈ xs, x.status.conditions.Allocated cs) (t : Store Condition)
    : xs.map (Lumigo.view (cs ++ t)) = xs.map (Lumigo.view cs) :=
  List.map_congr_left fun x hx => Lumigo.view_append (hxs x hx) t

/-- A write outside a resource's conditions leaves what it denotes. -/
theorem Lumigo.view_write_of_not_mem {addr i : Nat} (c : Condition)
    (h : (addr, i) ∉ x.status.conditions.cells)
    : x.view (cs.write addr i c) = x.view cs := by
  simp [Lumigo.view, Slice.view_write_of_not_mem cs c h]

-----------------------------------------------------------------------------------------
-- The items loop: fresh copies, one resource after another
-----------------------------------------------------------------------------------------

/-- What the items loop guarantees of the copies `ys` it made of `xs`, from the condition store
`cs` to `cs'`: it only appended arrays, the copies denote what the originals did and hold
their specs as they are, and their conditions lie in distinct cells of the appended arrays. -/
structure FreshCopies (cs : Store Condition) (xs : List (Lumigo TypeMeta ObjectMeta Spec))
    (cs' : Store Condition) (ys : List (Lumigo TypeMeta ObjectMeta Spec)) : Prop where
  length : ys.length = xs.length
  appends : ∃ t, cs' = cs ++ t
  view : (∀ x ∈ xs, x.status.conditions.Allocated cs)
    → ys.map (Lumigo.view cs') = xs.map (Lumigo.view cs)
  allocated : ∀ y ∈ ys, y.status.conditions.Allocated cs'
  fresh : ∀ y ∈ ys, ∀ c ∈ y.status.conditions.cells, cs.length ≤ c.1
  nodup : (ys.flatMap (·.status.conditions.cells)).Nodup
  spec : ys.map Lumigo.spec = xs.map Lumigo.spec

theorem FreshCopies.nil : FreshCopies cs ([] : List (Lumigo TypeMeta ObjectMeta Spec)) cs [] :=
  ⟨rfl, ⟨[], (List.append_nil cs).symm⟩, fun _ => rfl, by simp, by simp, List.nodup_nil, rfl⟩

/-- One resource's copy is a fresh copy. -/
theorem Lumigo.freshCopies : FreshCopies cs [x] (x.deepCopyInto cs).1 [(x.deepCopyInto cs).2] where
  length := rfl
  appends := Lumigo.deepCopyInto_extends cs x
  view _ := by simp [Lumigo.view_deepCopyInto]
  allocated := by simpa using Lumigo.allocated_deepCopyInto cs x
  fresh := by simpa using Lumigo.cells_deepCopyInto cs x
  nodup := by simpa using Slice.cells_nodup _
  spec := rfl

/-- Fresh copies made one after the other are fresh copies of both lists: the second run
reads the originals where the first left them, and appends past every array of the first. -/
theorem FreshCopies.append {cs₁ cs₂ : Store Condition}
    {xs xs' ys ys' : List (Lumigo TypeMeta ObjectMeta Spec)}
    (h₁ : FreshCopies cs xs cs₁ ys) (h₂ : FreshCopies cs₁ xs' cs₂ ys')
    : FreshCopies cs (xs ++ xs') cs₂ (ys ++ ys') := by
  obtain ⟨t₁, rfl⟩ := h₁.appends
  obtain ⟨t₂, rfl⟩ := h₂.appends
  have hlen : cs.length ≤ (cs ++ t₁).length := by simp
  have hsep : ∀ c ∈ ys.flatMap (·.status.conditions.cells), c.1 < (cs ++ t₁).length := by
    simp only [List.mem_flatMap]
    exact fun c ⟨y, hy, hc⟩ => Slice.fst_lt_of_mem_cells (h₁.allocated y hy) hc
  refine ⟨by simp [h₁.length, h₂.length], ⟨t₁ ++ t₂, by simp⟩, fun hx => ?_, ?_, ?_, ?_,
    by simp only [List.map_append, h₁.spec, h₂.spec]⟩
  · have hxs : ∀ x ∈ xs, x.status.conditions.Allocated cs := fun x h => hx x (by simp [h])
    have hxs' : ∀ x ∈ xs', x.status.conditions.Allocated cs := fun x h => hx x (by simp [h])
    rw [List.map_append, List.map_append, Lumigo.map_view_append h₁.allocated, h₁.view hxs,
      h₂.view fun x h => (hxs' x h).append t₁, Lumigo.map_view_append hxs']
  · simp only [List.mem_append]
    rintro y (hy | hy)
    · simpa using (h₁.allocated y hy).append t₂
    · exact h₂.allocated y hy
  · simp only [List.mem_append]
    rintro y (hy | hy) c hc
    · exact h₁.fresh y hy c hc
    · exact hlen.trans (h₂.fresh y hy c hc)
  · rw [List.flatMap_append, List.nodup_append]
    refine ⟨h₁.nodup, h₂.nodup, fun c hc hc' => ?_⟩
    obtain ⟨y, hy, hcy⟩ := List.mem_flatMap.mp hc'
    exact (h₂.fresh y hy c hcy).not_lt (hsep c hc)

/-- The items loop makes fresh copies of the items it reads, by induction on the items. -/
theorem copyEach_freshCopies (xs : List (Lumigo TypeMeta ObjectMeta Spec))
    : FreshCopies cs xs (copyEach Lumigo.deepCopyInto cs xs).1
        (copyEach Lumigo.deepCopyInto cs xs).2 := by
  induction xs generalizing cs with
  | nil => exact .nil
  | cons x xs ih => exact (Lumigo.freshCopies x).append ih

-----------------------------------------------------------------------------------------
-- The list: `LumigoList.DeepCopyInto`
-----------------------------------------------------------------------------------------

variable [Inhabited TypeMeta] [Inhabited ObjectMeta] [Inhabited Spec]

/-- The copy of one item in `LumigoList.DeepCopyInto`'s loop, on the whole heap. -/
def Heap.copyLumigo (h : Heap (Lumigo TypeMeta ObjectMeta Spec) Condition)
    (x : Lumigo TypeMeta ObjectMeta Spec)
    : Heap (Lumigo TypeMeta ObjectMeta Spec) Condition × Lumigo TypeMeta ObjectMeta Spec :=
  let r := x.deepCopyInto h.conditions
  ({ h with conditions := r.1 }, r.2)

/-- `LumigoList.DeepCopyInto`: `*out = *in`; `ListMeta.DeepCopyInto` reproduces the list
metadata's value, and a non-nil `Items` gets a new array whose items are copied by
`Lumigo.DeepCopyInto`. -/
def LumigoList.deepCopyInto (h : Heap (Lumigo TypeMeta ObjectMeta Spec) Condition)
    (l : LumigoList TypeMeta ListMeta)
    : Heap (Lumigo TypeMeta ObjectMeta Spec) Condition × LumigoList TypeMeta ListMeta :=
  let r := deepCopySlice Heap.items (fun h s => { h with items := s }) Heap.copyLumigo h l.items
  (r.1, { typeMeta := l.typeMeta, listMeta := l.listMeta, items := r.2 })

/-- `Items[i] = v` on the items array at `addr`. -/
def Heap.writeItem (h : Heap (Lumigo TypeMeta ObjectMeta Spec) Condition) (addr i : Nat)
    (v : Lumigo TypeMeta ObjectMeta Spec) : Heap (Lumigo TypeMeta ObjectMeta Spec) Condition :=
  { h with items := h.items.write addr i v }

/-- `Status.Conditions[i] = c` on the conditions array at `addr`. -/
def Heap.writeCondition (h : Heap (Lumigo TypeMeta ObjectMeta Spec) Condition) (addr i : Nat)
    (c : Condition) : Heap (Lumigo TypeMeta ObjectMeta Spec) Condition :=
  { h with conditions := h.conditions.write addr i c }

/-- A `LumigoList` with its items, and their conditions, read out of the heap. -/
structure LumigoListValue (TypeMeta ListMeta ObjectMeta Spec Condition : Type) where
  typeMeta : TypeMeta
  listMeta : ListMeta
  items : Option (List (LumigoValue TypeMeta ObjectMeta Spec Condition))

def LumigoList.view (h : Heap (Lumigo TypeMeta ObjectMeta Spec) Condition)
    (l : LumigoList TypeMeta ListMeta)
    : LumigoListValue TypeMeta ListMeta ObjectMeta Spec Condition :=
  ⟨l.typeMeta, l.listMeta, (l.items.view h.items).map (List.map (Lumigo.view h.conditions))⟩

/-- The items the list holds, `nil` read as none. -/
def LumigoList.members (h : Heap (Lumigo TypeMeta ObjectMeta Spec) Condition)
    (l : LumigoList TypeMeta ListMeta) : List (Lumigo TypeMeta ObjectMeta Spec) :=
  (l.items.view h.items).getD []

/-- The condition cells that the items of the list refer to. -/
def LumigoList.conditionCells (h : Heap (Lumigo TypeMeta ObjectMeta Spec) Condition)
    (l : LumigoList TypeMeta ListMeta) : List (Nat × Nat) :=
  (l.members h).flatMap (·.status.conditions.cells)

/-- Every slice reachable from the list points into an array that exists. -/
def LumigoList.Allocated (h : Heap (Lumigo TypeMeta ObjectMeta Spec) Condition)
    (l : LumigoList TypeMeta ListMeta) : Prop :=
  l.items.Allocated h.items ∧ ∀ x ∈ l.members h, x.status.conditions.Allocated h.conditions

instance (h : Heap (Lumigo TypeMeta ObjectMeta Spec) Condition)
    (l : LumigoList TypeMeta ListMeta) : Decidable (l.Allocated h) :=
  inferInstanceAs (Decidable (_ ∧ ∀ x ∈ l.members h, _))

theorem FreshCopies.length_contents {s : Store (Lumigo TypeMeta ObjectMeta Spec)}
    {cs' : Store Condition} {ys : List (Lumigo TypeMeta ObjectMeta Spec)} {src offset len : Nat}
    (fc : FreshCopies cs (s.contents src offset len) cs' ys) : ys.length = len :=
  fc.length.trans (Store.contents_length _ _ _ _)

omit [Inhabited TypeMeta] [Inhabited ObjectMeta] [Inhabited Spec] in
theorem itemsLens
    : StoreLens (Heap.items : Heap (Lumigo TypeMeta ObjectMeta Spec) Condition → _)
        (fun h s => { h with items := s }) Heap.copyLumigo :=
  ⟨fun _ _ => rfl, fun _ _ _ => rfl, fun _ _ _ => rfl⟩

omit [Inhabited TypeMeta] [Inhabited ObjectMeta] [Inhabited Spec] in
/-- The loop on the heap threads only the condition store, by induction on the items. -/
theorem copyEach_copyLumigo (h : Heap (Lumigo TypeMeta ObjectMeta Spec) Condition)
    (xs : List (Lumigo TypeMeta ObjectMeta Spec))
    : copyEach Heap.copyLumigo h xs
      = ({ h with conditions := (copyEach Lumigo.deepCopyInto h.conditions xs).1 },
          (copyEach Lumigo.deepCopyInto h.conditions xs).2) := by
  induction xs generalizing h with
  | nil => rfl
  | cons x xs ih => simp [copyEach, Heap.copyLumigo, ih]

variable (h : Heap (Lumigo TypeMeta ObjectMeta Spec) Condition)
  {h' : Heap (Lumigo TypeMeta ObjectMeta Spec) Condition} {l l' : LumigoList TypeMeta ListMeta}

/-- What `LumigoList.DeepCopyInto` can do: leave a `nil` list and the heap as they are, or
append one items array, of fresh copies of the items, and point the copy at it. -/
theorem LumigoList.deepCopyInto_cases (hr : l.deepCopyInto h = (h', l'))
    : (l.items = .nil ∧ h' = h ∧ l' = l)
      ∨ ∃ src offset len cs' ys, l.items = .window src offset len
          ∧ FreshCopies h.conditions (h.items.contents src offset len) cs' ys
          ∧ h' = ⟨h.items ++ [ys], cs'⟩
          ∧ l' = ⟨l.typeMeta, l.listMeta, .window h.items.length 0 len⟩ := by
  rcases l with ⟨tm, lm, _ | ⟨src, offset, len⟩⟩
  · simp only [LumigoList.deepCopyInto, deepCopySlice, Prod.mk.injEq] at hr
    exact .inl ⟨rfl, hr.1.symm, hr.2 ▸ rfl⟩
  · refine .inr ⟨src, offset, len, _, _, rfl, copyEach_freshCopies _, ?_⟩
    simp only [LumigoList.deepCopyInto, deepCopySlice_window itemsLens, copyEach_copyLumigo,
      Prod.mk.injEq] at hr
    exact ⟨hr.1.symm, hr.2.symm⟩

omit [Inhabited Condition] in
/-- The items of a list in a heap that grew are those it held, when its array existed. -/
theorem LumigoList.members_append (hl : l.items.Allocated h.items)
    (ti : Store (Lumigo TypeMeta ObjectMeta Spec)) (cs' : Store Condition)
    : l.members ⟨h.items ++ ti, cs'⟩ = l.members h := by
  simp [LumigoList.members, Slice.view_append_of_allocated ti hl]

omit [Inhabited Condition] in
/-- The items of a list pointing at the whole last array are that array. -/
theorem LumigoList.members_last (cs' : Store Condition)
    {ys : List (Lumigo TypeMeta ObjectMeta Spec)} {len : Nat} (hlen : ys.length = len)
    : LumigoList.members ⟨h.items ++ [ys], cs'⟩
        (⟨l.typeMeta, l.listMeta, .window h.items.length 0 len⟩ : LumigoList TypeMeta ListMeta)
      = ys := by
  simp [LumigoList.members, Slice.view, Store.contents_append_last _ _ _ hlen]

omit [Inhabited Condition] in
theorem LumigoList.conditionCells_append (hl : l.items.Allocated h.items)
    (ti : Store (Lumigo TypeMeta ObjectMeta Spec)) (cs' : Store Condition)
    : l.conditionCells ⟨h.items ++ ti, cs'⟩ = l.conditionCells h := by
  simp [LumigoList.conditionCells, LumigoList.members_append h hl]

omit [Inhabited Condition] in
theorem LumigoList.fst_lt_of_mem_conditionCells (hl : l.Allocated h) {c : Nat × Nat}
    (hc : c ∈ l.conditionCells h) : c.1 < h.conditions.length := by
  obtain ⟨x, hx, hcx⟩ := List.mem_flatMap.mp hc
  exact Slice.fst_lt_of_mem_cells (hl.2 x hx) hcx

/-- What an allocated list denotes does not change when arrays are appended. -/
theorem LumigoList.view_append (hl : l.Allocated h)
    (ti : Store (Lumigo TypeMeta ObjectMeta Spec)) (tc : Store Condition)
    : l.view ⟨h.items ++ ti, h.conditions ++ tc⟩ = l.view h := by
  have hx := hl.2
  simp only [LumigoList.view, Slice.view_append_of_allocated ti hl.1]
  simp only [LumigoList.members] at hx
  cases hv : l.items.view h.items with
  | none => simp only [Option.map_none']
  | some xs =>
      rw [hv, Option.getD_some] at hx
      simp [Lumigo.map_view_append hx]

/-- A write outside the list's items array leaves what the list denotes. -/
theorem LumigoList.view_writeItem {addr i : Nat} (v : Lumigo TypeMeta ObjectMeta Spec)
    (hc : (addr, i) ∉ l.items.cells) : l.view (h.writeItem addr i v) = l.view h := by
  simp [LumigoList.view, Heap.writeItem, Slice.view_write_of_not_mem h.items v hc]

/-- A write outside every condition cell of the list's items leaves what the list denotes. -/
theorem LumigoList.view_writeCondition {addr i : Nat} (c : Condition)
    (hc : (addr, i) ∉ l.conditionCells h) : l.view (h.writeCondition addr i c) = l.view h := by
  simp only [LumigoList.conditionCells, LumigoList.members, List.mem_flatMap, not_exists,
    not_and] at hc
  simp only [LumigoList.view, Heap.writeCondition]
  cases hv : l.items.view h.items with
  | none => simp only [Option.map_none']
  | some xs =>
      rw [hv, Option.getD_some] at hc
      rw [Option.map_some', Option.map_some',
        List.map_congr_left fun x hx => Lumigo.view_write_of_not_mem x c (hc x hx)]

-----------------------------------------------------------------------------------------
-- What the list copy allocates, and what it denotes
-----------------------------------------------------------------------------------------

/-- The copy only appends arrays to the heap. -/
theorem LumigoList.deepCopyInto_appends (hr : l.deepCopyInto h = (h', l'))
    : ∃ ti tc, h' = ⟨h.items ++ ti, h.conditions ++ tc⟩ := by
  rcases LumigoList.deepCopyInto_cases h hr with ⟨-, rfl, -⟩ | ⟨_, _, _, _, ys, -, fc, rfl, -⟩
  · exact ⟨[], [], by simp⟩
  · obtain ⟨tc, rfl⟩ := fc.appends
    exact ⟨[ys], tc, rfl⟩

/-- The copy's items lie in the array it appended. -/
theorem LumigoList.cells_deepCopyInto (hr : l.deepCopyInto h = (h', l'))
    : ∀ c ∈ l'.items.cells, h.items.length ≤ c.1 := by
  rcases LumigoList.deepCopyInto_cases h hr with ⟨hnil, -, rfl⟩ | ⟨-, -, -, -, -, -, -, -, rfl⟩
  · simp [hnil, Slice.cells]
  · simp [Slice.cells]

/-- The copy's items refer to distinct condition cells, all in arrays it appended. -/
theorem LumigoList.conditionCells_deepCopyInto (hr : l.deepCopyInto h = (h', l'))
    : (∀ c ∈ l'.conditionCells h', h.conditions.length ≤ c.1) ∧ (l'.conditionCells h').Nodup := by
  rcases LumigoList.deepCopyInto_cases h hr
    with ⟨hnil, rfl, rfl⟩ | ⟨src, offset, len, cs', ys, -, fc, rfl, rfl⟩
  · simp [LumigoList.conditionCells, LumigoList.members, hnil, Slice.view]
  · rw [LumigoList.conditionCells, LumigoList.members_last h cs' fc.length_contents]
    refine ⟨fun c hc => ?_, fc.nodup⟩
    obtain ⟨y, hy, hcy⟩ := List.mem_flatMap.mp hc
    exact fc.fresh y hy c hcy

/-- The copy is allocated in the heap it leaves: its items are the array it appended, and
their conditions lie in arrays the loop appended. -/
theorem LumigoList.allocated_deepCopyInto (hr : l.deepCopyInto h = (h', l')) : l'.Allocated h' := by
  rcases LumigoList.deepCopyInto_cases h hr
    with ⟨hnil, rfl, rfl⟩ | ⟨src, offset, len, cs', ys, -, fc, rfl, rfl⟩
  · exact ⟨by simp [hnil, Slice.Allocated], by simp [LumigoList.members, hnil, Slice.view]⟩
  · refine ⟨by simp [Slice.Allocated], ?_⟩
    rw [LumigoList.members_last h cs' fc.length_contents]
    exact fc.allocated

/-- The copy of an allocated list denotes what the list did. -/
theorem LumigoList.view_deepCopyInto (hl : l.Allocated h) (hr : l.deepCopyInto h = (h', l'))
    : l'.view h' = l.view h := by
  rcases LumigoList.deepCopyInto_cases h hr
    with ⟨-, rfl, rfl⟩ | ⟨src, offset, len, cs', ys, hw, fc, rfl, rfl⟩
  · rfl
  · have hx : ∀ x ∈ h.items.contents src offset len, x.status.conditions.Allocated h.conditions :=
      by simpa [LumigoList.members, hw, Slice.view] using hl.2
    simp [LumigoList.view, hw, Slice.view, Store.contents_append_last _ _ _ fc.length_contents,
      fc.view hx]

-----------------------------------------------------------------------------------------
-- A deep copy shares nothing with the original
-----------------------------------------------------------------------------------------

/-- The copy of an allocated list denotes what the list denotes, and the list still denotes it
in the heap the copy leaves. -/
theorem LumigoList.deepCopyInto_same_value (hl : l.Allocated h)
    (hr : l.deepCopyInto h = (h', l'))
    : l'.view h' = l.view h ∧ l.view h' = l.view h := by
  have hcopy := LumigoList.view_deepCopyInto h hl hr
  obtain ⟨ti, tc, rfl⟩ := LumigoList.deepCopyInto_appends h hr
  exact ⟨hcopy, LumigoList.view_append h hl ti tc⟩

/-- `LumigoList.DeepCopyInto` gives every item of the copy the original item's spec as it is,
for every heap and list: `Lumigo.DeepCopyInto` assigns `out.Spec = in.Spec` and copies no
storage a spec points to. -/
theorem LumigoList.deepCopyInto_keeps_specs (l : LumigoList TypeMeta ListMeta)
    : ((l.deepCopyInto h).2.members (l.deepCopyInto h).1).map Lumigo.spec
      = (l.members h).map Lumigo.spec := by
  generalize hr : l.deepCopyInto h = r
  obtain ⟨h', l'⟩ := r
  rcases LumigoList.deepCopyInto_cases h hr
    with ⟨-, rfl, rfl⟩ | ⟨src, offset, len, cs', ys, hw, fc, rfl, rfl⟩
  · rfl
  · rw [LumigoList.members_last h cs' fc.length_contents, fc.spec]
    simp [LumigoList.members, hw, Slice.view]

/-- Every copy is allocated in the heap it leaves, so it can itself be copied, and the copy
of the copy denotes what the copy does. -/
theorem LumigoList.deepCopyInto_copy_again (l : LumigoList TypeMeta ListMeta)
    : (l.deepCopyInto h).2.Allocated (l.deepCopyInto h).1
      ∧ ((l.deepCopyInto h).2.deepCopyInto (l.deepCopyInto h).1).2.view
          ((l.deepCopyInto h).2.deepCopyInto (l.deepCopyInto h).1).1
        = (l.deepCopyInto h).2.view (l.deepCopyInto h).1 :=
  ⟨LumigoList.allocated_deepCopyInto h rfl,
    LumigoList.view_deepCopyInto _ (LumigoList.allocated_deepCopyInto h rfl) rfl⟩

/-- One resource with two conditions, in a list of one. -/
def sampleHeap : Heap (Lumigo Unit Unit Unit) Nat :=
  ⟨[[⟨(), (), (), ⟨.window 0 0 2⟩⟩]], [[1, 2]]⟩

def sampleList : LumigoList Unit Unit := ⟨(), (), .window 0 0 1⟩

def sampleCopy : Heap (Lumigo Unit Unit Unit) Nat × LumigoList Unit Unit :=
  sampleList.deepCopyInto sampleHeap

theorem deepCopyInto_same_value_sample
    : sampleList.Allocated sampleHeap
      ∧ sampleCopy.2.view sampleCopy.1 = sampleList.view sampleHeap
      ∧ sampleList.view sampleCopy.1 = sampleList.view sampleHeap :=
  ⟨by decide, LumigoList.deepCopyInto_same_value sampleHeap (by decide) rfl⟩

/-- After the copy of an allocated list, the two sides share no cell of the arrays the copy
re-allocates: an assignment to an item or a condition of the copy does not reach the
original, and one to an item or a condition of the original does not reach the copy. What a
spec points to is outside this: the copy keeps the original's specs. Witness: the cells of
the two sides are in arrays below and past the heap the copy started from. -/
theorem LumigoList.deepCopyInto_independent (hl : l.Allocated h)
    (hr : l.deepCopyInto h = (h', l')) (addr i : Nat) (v : Lumigo TypeMeta ObjectMeta Spec)
    (c : Condition)
    : ((addr, i) ∈ l'.items.cells → l.view (h'.writeItem addr i v) = l.view h)
      ∧ ((addr, i) ∈ l'.conditionCells h' → l.view (h'.writeCondition addr i c) = l.view h)
      ∧ ((addr, i) ∈ l.items.cells → l'.view (h'.writeItem addr i v) = l.view h)
      ∧ ((addr, i) ∈ l.conditionCells h' → l'.view (h'.writeCondition addr i c) = l.view h) := by
  have hitems := LumigoList.cells_deepCopyInto h hr
  have hconds := (LumigoList.conditionCells_deepCopyInto h hr).1
  have hcopy := LumigoList.view_deepCopyInto h hl hr
  obtain ⟨ti, tc, rfl⟩ := LumigoList.deepCopyInto_appends h hr
  have horig : ∀ c ∈ l.items.cells, c.1 < h.items.length := fun _ =>
    Slice.fst_lt_of_mem_cells hl.1
  have horig' : ∀ c ∈ l.conditionCells ⟨h.items ++ ti, h.conditions ++ tc⟩,
      c.1 < h.conditions.length := by
    rw [LumigoList.conditionCells_append h hl.1]
    exact fun _ => LumigoList.fst_lt_of_mem_conditionCells h hl
  refine ⟨fun hc => ?_, fun hc => ?_, fun hc => ?_, fun hc => ?_⟩
  · rw [LumigoList.view_writeItem _ v fun hc' => (hitems _ hc).not_lt (horig _ hc'),
      LumigoList.view_append h hl]
  · rw [LumigoList.view_writeCondition _ c fun hc' => (hconds _ hc).not_lt (horig' _ hc'),
      LumigoList.view_append h hl]
  · rw [LumigoList.view_writeItem _ v fun hc' => (hitems _ hc').not_lt (horig _ hc), hcopy]
  · rw [LumigoList.view_writeCondition _ c fun hc' => (hconds _ hc').not_lt (horig' _ hc), hcopy]

/-- At `(1, 0)`, the first cell of the copy's items array and of its first item's conditions;
at `(0, 0)`, the same cells of the original. -/
theorem deepCopyInto_independent_sample
    : sampleList.Allocated sampleHeap
      ∧ (((1, 0) ∈ sampleCopy.2.items.cells
          → sampleList.view (sampleCopy.1.writeItem 1 0 default) = sampleList.view sampleHeap)
        ∧ ((1, 0) ∈ sampleCopy.2.conditionCells sampleCopy.1
          → sampleList.view (sampleCopy.1.writeCondition 1 0 0) = sampleList.view sampleHeap)
        ∧ ((1, 0) ∈ sampleList.items.cells
          → sampleCopy.2.view (sampleCopy.1.writeItem 1 0 default) = sampleList.view sampleHeap)
        ∧ ((1, 0) ∈ sampleList.conditionCells sampleCopy.1
          → sampleCopy.2.view (sampleCopy.1.writeCondition 1 0 0)
            = sampleList.view sampleHeap))
      ∧ (((0, 0) ∈ sampleCopy.2.items.cells
          → sampleList.view (sampleCopy.1.writeItem 0 0 default) = sampleList.view sampleHeap)
        ∧ ((0, 0) ∈ sampleCopy.2.conditionCells sampleCopy.1
          → sampleList.view (sampleCopy.1.writeCondition 0 0 0) = sampleList.view sampleHeap)
        ∧ ((0, 0) ∈ sampleList.items.cells
          → sampleCopy.2.view (sampleCopy.1.writeItem 0 0 default) = sampleList.view sampleHeap)
        ∧ ((0, 0) ∈ sampleList.conditionCells sampleCopy.1
          → sampleCopy.2.view (sampleCopy.1.writeCondition 0 0 0)
            = sampleList.view sampleHeap)) :=
  ⟨by decide, LumigoList.deepCopyInto_independent sampleHeap (by decide) rfl 1 0 default 0,
    LumigoList.deepCopyInto_independent sampleHeap (by decide) rfl 0 0 default 0⟩

end LumigoOperator.V1alpha1
