import Mathlib.Data.List.Forall2
import ObjectLang.Store.Capture
import ObjectLang.Store.Describe

/-!
What each operation on the store does to what can be read from it.
An operation is seen through `object`, `cell`, `table` and `bindings`; later modules use these
equations and never open the heaps again.
-/
namespace ObjectLang

theorem exists_of_forall₂ {α β : Type} {R : α → β → Prop} {xs : List α} {ys : List β}
    (h : List.Forall₂ R xs ys) {x : α} (hx : x ∈ xs) : ∃ y ∈ ys, R x y := by
  induction h with
  | nil => cases hx
  | cons hr _ ih =>
    rcases List.mem_cons.mp hx with rfl | hx
    · exact ⟨_, List.mem_cons_self .., hr⟩
    · obtain ⟨y, hy, hxy⟩ := ih hx
      exact ⟨y, List.mem_cons_of_mem _ hy, hxy⟩

section Sorting

variable {α : Type} (less : α → α → Bool)

theorem insertBy_perm (a : α) (l : List α) : (insertBy less a l).Perm (a :: l) := by
  induction l with
  | nil => exact .refl _
  | cons b rest ih =>
    rw [insertBy]
    split
    · exact (ih.cons b).trans (.swap ..)
    · exact .refl _

theorem sortBy_perm (l : List α) : (sortBy less l).Perm l := by
  induction l with
  | nil => exact .refl _
  | cons a rest ih => exact (insertBy_perm less a _).trans (ih.cons a)

theorem mem_sortBy {a : α} {l : List α} : a ∈ sortBy less l ↔ a ∈ l := (sortBy_perm less l).mem_iff

end Sorting

namespace Store

variable (s : Store)

def HasObject (o : ObjectId) : Prop := o.index < s.objects.size

/-- The object that is made next. -/
@[simp] abbrev fresh : ObjectId := ⟨s.objects.size⟩

def HasCell (c : CellId) : Prop := c.index < s.cells.size

def Holds : TableId → Prop
  | .free i => i < s.tables.size
  | .part o _ => s.HasObject o

def HasTable (t : TableId) : Prop := ∃ i, t = .free i ∧ i < s.tables.size

def table (i : Nat) : Table := s.tables.getD i .empty

variable {s}

theorem HasTable.holds {t : TableId} (h : s.HasTable t) : s.Holds t := by
  obtain ⟨i, rfl, hi⟩ := h
  exact hi

theorem HasObject.holds {o : ObjectId} (h : s.HasObject o) (p : Part) : s.Holds (.part o p) := h

theorem HasObject.ne_new {o : ObjectId} (h : s.HasObject o) : o ≠ s.fresh := by
  rintro rfl
  exact Nat.lt_irrefl _ h

theorem HasTable.ne_part {t : TableId} (h : s.HasTable t) (o : ObjectId) (p : Part) :
    t ≠ .part o p := by
  obtain ⟨i, rfl, -⟩ := h
  simp

theorem object_of_not_has {o : ObjectId} (h : ¬ s.HasObject o) : s.object o = .vacant := by
  have hsize : s.objects.size ≤ o.index := Nat.not_lt.mp h
  rw [object, Heap.getD_of_size_le _ _ hsize]

theorem has_of_kind {o : ObjectId} (h : s.kind o ≠ .plain) : s.HasObject o := by
  apply Classical.byContradiction
  intro hn
  exact h (by rw [kind, object_of_not_has hn]; rfl)

theorem table_of_size_le {i : Nat} (h : s.tables.size ≤ i) : s.table i = .empty :=
  Heap.getD_of_size_le _ _ h

theorem lookup_of_local? {t : TableId} {n : String} {c : CellId} (h : s.local? t n = some c) :
    s.lookup t n = some c := by
  rw [lookup, List.findSome?_cons, h]

/-- The tables that show members of the target to the accessor. -/
inductive Shows (s : Store) (accessor target : ObjectId) : TableId → Prop where
  | members : Shows s accessor target (.part target .members)
  | fields (h : accessor = target ∨ s.face accessor = target) :
      Shows s accessor target (.part accessor .fields)
  | hidden {p : ModuleParts} (h : s.kind target = .ofModule p) : Shows s accessor target p.hidden
  | shown {p : ModuleParts} (h : s.kind target = .ofModule p ∨
      ∃ o, s.kind target = .moduleAlias o p) :
      Shows s accessor target p.shown

theorem shows_of_mem {accessor target : ObjectId} {t : TableId}
    (ht : t ∈ s.memberScope accessor target) : s.Shows accessor target t := by
  have hpublic (ht : t ∈ s.publicScope target) : s.Shows accessor target t := by
    rw [publicScope] at ht
    split at ht
    · next hkind => exact List.mem_singleton.mp ht ▸ .shown (Or.inl hkind)
    · next hkind => exact List.mem_singleton.mp ht ▸ .shown (Or.inr ⟨_, hkind⟩)
    · exact List.mem_singleton.mp ht ▸ .members
  have hown (h : accessor = target ∨ s.face accessor = target)
      (ht : t ∈ [.part target .members, .part accessor .fields]) : s.Shows accessor target t := by
    rcases List.mem_cons.mp ht with rfl | ht
    · exact .members
    · obtain rfl := List.mem_singleton.mp ht
      exact .fields h
  rw [memberScope] at ht
  split at ht
  · next heq =>
    subst heq
    rw [privateScope] at ht
    split at ht
    · next hkind => exact List.mem_singleton.mp ht ▸ .hidden hkind
    · next hkind => exact List.mem_singleton.mp ht ▸ .shown (Or.inr ⟨_, hkind⟩)
    · exact hown (Or.inl rfl) ht
  · split at ht
    · next hface => exact hown (Or.inr hface.1) ht
    · exact hpublic ht

variable (s) {β : Type}

theorem bindings_free (i : Nat) : s.bindings (.free i) = (s.table i).bindings := rfl

theorem bindings_part (o : ObjectId) (p : Part) :
    s.bindings (.part o p) = (s.object o).bindings p := rfl

section Cells

variable (c : Cell)

@[simp] theorem newCell_fst : (s.newCell c).1 = ⟨s.cells.size⟩ := rfl

@[simp] theorem newCell_objects : (s.newCell c).2.objects = s.objects := rfl

@[simp] theorem newCell_tables : (s.newCell c).2.tables = s.tables := rfl

@[simp] theorem newCell_cells_size : (s.newCell c).2.cells.size = s.cells.size + 1 := by
  simp [newCell]

@[simp] theorem object_newCell : (s.newCell c).2.object = s.object := rfl

@[simp] theorem table_newCell : (s.newCell c).2.table = s.table := rfl

@[simp] theorem bindings_newCell : (s.newCell c).2.bindings = s.bindings := by
  funext t
  cases t <;> rfl

theorem cell_newCell (x : CellId) :
    (s.newCell c).2.cell x = if x.index = s.cells.size then c else s.cell x :=
  Heap.getD_push ..

theorem cell_newCell_of_has {x : CellId} (h : s.HasCell x) : (s.newCell c).2.cell x = s.cell x := by
  rw [cell_newCell, if_neg (Nat.ne_of_lt h)]

@[simp] theorem cell_newCell_self : (s.newCell c).2.cell ⟨s.cells.size⟩ = c := by
  rw [cell_newCell, if_pos rfl]

end Cells

section Assign

variable (c : CellId) (v : ObjectId)

@[simp] theorem assign_objects : (s.assign c v).objects = s.objects := rfl

@[simp] theorem assign_tables : (s.assign c v).tables = s.tables := rfl

@[simp] theorem assign_cells_size : (s.assign c v).cells.size = s.cells.size := by
  simp [assign]

@[simp] theorem object_assign : (s.assign c v).object = s.object := rfl

@[simp] theorem table_assign : (s.assign c v).table = s.table := rfl

@[simp] theorem bindings_assign : (s.assign c v).bindings = s.bindings := by
  funext t
  cases t <;> rfl

/-- An assignment reaches a variable cell and nothing else. -/
theorem cell_assign (x : CellId) :
    (s.assign c v).cell x =
      if x = c then
        match s.cell x with
        | .var _ => .var v
        | other => other
      else s.cell x := by
  simp only [assign, cell, Heap.getD_modify]
  by_cases hx : x = c
  · subst hx
    by_cases hsize : x.index < s.cells.size
    · rw [if_pos (rfl : x = x)]
      exact if_pos ⟨rfl, hsize⟩
    · rw [if_neg fun h => hsize h.2, if_pos rfl, Heap.getD_of_size_le _ _ (Nat.not_lt.mp hsize)]
  · have hindex : c.index ≠ x.index := by
      intro h
      exact hx (by cases x; cases c; simp_all)
    rw [if_neg fun h => hindex h.1, if_neg hx]

/-- Assigning to a cell that is no variable changes nothing at all. -/
theorem assign_eq_self (h : ∀ old, s.cell c ≠ .var old) : s.assign c v = s := by
  obtain ⟨objects, cells, tables⟩ := s
  simp only [assign, mk.injEq, true_and, and_true]
  refine Heap.ext rfl fun i => ?_
  rw [Heap.get?_modify]
  split
  · next hi =>
    subst hi
    have hcell : ∀ old, cells.get? c.index ≠ some (.var old) := by
      intro old hsome
      exact h old (by simp [cell, Heap.getD, hsome])
    cases hget : cells.get? c.index with
    | none => rfl
    | some x =>
      cases x with
      | var old => exact absurd hget (hcell old)
      | _ => rfl
  · rfl

end Assign

section Tables

variable (t : Table)

@[simp] theorem newTable_fst : (s.newTable t).1 = .free s.tables.size := rfl

@[simp] theorem newTable_objects : (s.newTable t).2.objects = s.objects := rfl

@[simp] theorem newTable_cells : (s.newTable t).2.cells = s.cells := rfl

@[simp] theorem newTable_tables_size : (s.newTable t).2.tables.size = s.tables.size + 1 := by
  simp [newTable]

@[simp] theorem object_newTable : (s.newTable t).2.object = s.object := rfl

@[simp] theorem cell_newTable : (s.newTable t).2.cell = s.cell := rfl

theorem table_newTable (i : Nat) :
    (s.newTable t).2.table i = if i = s.tables.size then t else s.table i := by
  exact Heap.getD_push ..

theorem bindings_newTable (x : TableId) :
    (s.newTable t).2.bindings x = if x = .free s.tables.size then t.bindings else s.bindings x := by
  cases x with
  | free i =>
    rw [bindings_free, table_newTable]
    by_cases hi : i = s.tables.size
    · simp [hi]
    · simp [hi, bindings_free]
  | part o p => simp [bindings_part]

end Tables

section Objects

variable (o : ObjectId) (f : Object → Object) {x : ObjectId}

@[simp] theorem modifyObject_cells : (s.modifyObject o f).cells = s.cells := rfl

@[simp] theorem modifyObject_tables : (s.modifyObject o f).tables = s.tables := rfl

@[simp] theorem modifyObject_objects_size :
    (s.modifyObject o f).objects.size = s.objects.size := by
  simp [modifyObject]

@[simp] theorem cell_modifyObject : (s.modifyObject o f).cell = s.cell := rfl

@[simp] theorem table_modifyObject : (s.modifyObject o f).table = s.table := rfl

theorem object_modifyObject (x : ObjectId) :
    (s.modifyObject o f).object x =
      if x = o ∧ x.index < s.objects.size then f (s.object x) else s.object x := by
  simp only [modifyObject, object, Heap.getD_modify]
  by_cases hx : x = o
  · subst hx
    simp only [true_and]
  · have hindex : o.index ≠ x.index := by
      intro h
      exact hx (by cases x; cases o; simp_all)
    rw [if_neg fun h => hindex h.1, if_neg (by simp [hx])]

theorem object_modifyObject_of_ne (h : x ≠ o) :
    (s.modifyObject o f).object x = s.object x := by
  rw [object_modifyObject, if_neg (by simp [h])]

theorem object_modifyObject_self (h : s.HasObject o) :
    (s.modifyObject o f).object o = f (s.object o) := by
  rw [object_modifyObject, if_pos ⟨rfl, h⟩]

/-- What every change of an object leaves alone is the same in all objects. -/
theorem modifyObject_keeps (g : Object → β) (h : ∀ x, g (f x) = g x) (x : ObjectId) :
    g ((s.modifyObject o f).object x) = g (s.object x) := by
  rw [object_modifyObject]
  split
  · exact h _
  · rfl

variable (base : Option ObjectId) (kind : Kind)

def levelsOf : Option ObjectId → List ObjectId
  | some b => s.levels b
  | none => []

@[simp] theorem newObject_fst : (s.newObject base kind).1 = s.fresh := by
  cases base <;> rfl

@[simp] theorem newObject_cells : (s.newObject base kind).2.cells = s.cells := rfl

@[simp] theorem newObject_tables : (s.newObject base kind).2.tables = s.tables := rfl

@[simp] theorem newObject_objects_size :
    (s.newObject base kind).2.objects.size = s.objects.size + 1 := by
  simp [newObject]

@[simp] theorem cell_newObject : (s.newObject base kind).2.cell = s.cell := rfl

@[simp] theorem table_newObject : (s.newObject base kind).2.table = s.table := rfl

theorem object_newObject (x : ObjectId) :
    (s.newObject base kind).2.object x =
      if x = s.fresh then .make kind (s.levelsOf base) else s.object x := by
  simp only [newObject, object, Heap.getD_push]
  by_cases hx : x = s.fresh
  · subst hx
    cases base <;> simp [levelsOf]
  · have hindex : x.index ≠ s.objects.size := by
      intro h
      exact hx (by cases x; simp_all)
    rw [if_neg hindex, if_neg hx]

theorem object_newObject_of_has (h : s.HasObject x) :
    (s.newObject base kind).2.object x = s.object x := by
  rw [object_newObject, if_neg h.ne_new]

theorem object_newObject_self :
    (s.newObject base kind).2.object s.fresh = .make kind (s.levelsOf base) := by
  rw [object_newObject, if_pos rfl]

theorem bindings_newObject (t : TableId) :
    (s.newObject base kind).2.bindings t = s.bindings t := by
  cases t with
  | free i => rfl
  | part x p =>
    rw [bindings_part, object_newObject]
    split
    · next hx =>
      have hvacant : s.object x = .vacant := object_of_not_has (by simp [hx, HasObject])
      rw [bindings_part, hvacant]
      cases p <;> rfl
    · rfl

end Objects

section Bind

variable (t : TableId) (name : String) (c : CellId)

@[simp] theorem bind_cells : (s.bind t name c).cells = s.cells := by
  cases t <;> rfl

@[simp] theorem bind_objects_size : (s.bind t name c).objects.size = s.objects.size := by
  cases t <;> simp [bind]

@[simp] theorem bind_tables_size : (s.bind t name c).tables.size = s.tables.size := by
  cases t <;> simp [bind]

@[simp] theorem cell_bind : (s.bind t name c).cell = s.cell := by
  cases t <;> rfl

/-- A binding changes nothing of an object but its bindings. -/
theorem bind_keeps (g : Object → β) (h : ∀ x p n c, g (Object.bind x p n c) = g x) (x : ObjectId) :
    g ((s.bind t name c).object x) = g (s.object x) := by
  cases t with
  | free i => rfl
  | part o p => exact modifyObject_keeps s o _ g (fun x => h x p name c) x

theorem object_bind_kind (x : Object) (p : Part) : (x.bind p name c).kind = x.kind := by
  cases p <;> rfl

theorem object_bind_below (x : Object) (p : Part) : (x.bind p name c).below = x.below := by
  cases p <;> rfl

theorem object_bind_face (x : Object) (p : Part) : (x.bind p name c).face = x.face := by
  cases p <;> rfl

theorem object_bind_type (x : Object) (p : Part) : (x.bind p name c).type = x.type := by
  cases p <;> rfl

theorem object_bind_bindings (x : Object) (p q : Part) :
    (x.bind p name c).bindings q = if q = p then (name, c) :: x.bindings q else x.bindings q := by
  cases p <;> cases q <;> rfl

theorem kind_bind (x : ObjectId) : ((s.bind t name c).object x).kind = (s.object x).kind :=
  bind_keeps s t name c Object.kind (fun x p n c => object_bind_kind n c x p) x

theorem below_bind (x : ObjectId) : ((s.bind t name c).object x).below = (s.object x).below :=
  bind_keeps s t name c Object.below (fun x p n c => object_bind_below n c x p) x

theorem face_bind (x : ObjectId) : ((s.bind t name c).object x).face = (s.object x).face :=
  bind_keeps s t name c Object.face (fun x p n c => object_bind_face n c x p) x

theorem type_bind (x : ObjectId) : ((s.bind t name c).object x).type = (s.object x).type :=
  bind_keeps s t name c Object.type (fun x p n c => object_bind_type n c x p) x

theorem table_bind (i : Nat) :
    (s.bind t name c).table i =
      if t = .free i ∧ i < s.tables.size then
        { s.table i with bindings := (name, c) :: (s.table i).bindings }
      else s.table i := by
  cases t with
  | free j =>
    simp only [bind, table, Heap.getD_modify, TableId.free.injEq]
  | part o p =>
    rw [if_neg (by simp)]
    rfl

theorem bindings_bind (x : TableId) (h : s.Holds t) :
    (s.bind t name c).bindings x = if x = t then (name, c) :: s.bindings x else s.bindings x := by
  cases x with
  | free i =>
    rw [bindings_free, table_bind]
    by_cases ht : t = .free i
    · subst ht
      have hi : i < s.tables.size := h
      simp [hi, bindings_free]
    · have hne : (TableId.free i) ≠ t := fun hh => ht hh.symm
      simp [ht, hne, bindings_free]
  | part o p =>
    rw [bindings_part]
    cases t with
    | free i =>
      rw [if_neg (by simp)]
      rfl
    | part o' p' =>
      simp only [bind]
      rw [object_modifyObject]
      by_cases ho : o = o'
      · subst ho
        have hsize : o.index < s.objects.size := h
        rw [if_pos ⟨rfl, hsize⟩, object_bind_bindings, bindings_part]
        by_cases hp : p = p'
        · simp [hp]
        · simp [hp]
      · rw [if_neg (by simp [ho]), if_neg (by simp [ho]), bindings_part]

end Bind

section Faces

variable (o f : ObjectId)

theorem object_setFace (x : ObjectId) :
    (s.setFace o f).object x =
      if x = o ∧ x.index < s.objects.size then { s.object x with face := some f } else s.object x :=
  object_modifyObject s o _ x

theorem object_setType (x : ObjectId) :
    (s.setType o f).object x =
      if x = o ∧ x.index < s.objects.size then { s.object x with type := some f } else s.object x :=
  object_modifyObject s o _ x

/-- Wearing a face gives it to the levels of the chain and changes nothing else. -/
theorem object_foldl_setFace (ls : List ObjectId) (x : ObjectId) :
    (ls.foldl (fun s level => s.setFace level f) s).object x =
      if x ∈ ls ∧ x.index < s.objects.size then { s.object x with face := some f }
      else s.object x := by
  induction ls generalizing s with
  | nil => simp
  | cons l rest ih =>
    have hsize : (s.setFace l f).objects.size = s.objects.size := modifyObject_objects_size s l _
    rw [List.foldl_cons, ih, object_setFace, hsize]
    by_cases hx : x.index < s.objects.size
    · by_cases hl : x = l
      · subst hl
        by_cases hr : x ∈ rest <;> simp [hx, hr]
      · by_cases hr : x ∈ rest <;> simp [hx, hl, hr]
    · simp [hx]

theorem object_wearFace (x : ObjectId) :
    (s.wearFace o).object x =
      if x ∈ s.levels o ∧ x.index < s.objects.size then { s.object x with face := some o }
      else s.object x :=
  object_foldl_setFace s o (s.levels o) x

theorem foldl_setFace_rest (ls : List ObjectId) :
    (ls.foldl (fun s level => s.setFace level f) s).cells = s.cells ∧
      (ls.foldl (fun s level => s.setFace level f) s).tables = s.tables ∧
      (ls.foldl (fun s level => s.setFace level f) s).objects.size = s.objects.size := by
  induction ls generalizing s with
  | nil => exact ⟨rfl, rfl, rfl⟩
  | cons l rest ih =>
    obtain ⟨hcells, htables, hsize⟩ := ih (s.setFace l f)
    exact ⟨hcells, htables, hsize.trans (modifyObject_objects_size s l _)⟩

@[simp] theorem wearFace_cells : (s.wearFace o).cells = s.cells :=
  (foldl_setFace_rest s o (s.levels o)).1

@[simp] theorem wearFace_tables : (s.wearFace o).tables = s.tables :=
  (foldl_setFace_rest s o (s.levels o)).2.1

@[simp] theorem wearFace_objects_size : (s.wearFace o).objects.size = s.objects.size :=
  (foldl_setFace_rest s o (s.levels o)).2.2

end Faces

section Capture

theorem captureBindings_names (s : Store) (bs : Bindings) :
    (s.captureBindings bs).1.map Prod.fst = bs.map Prod.fst := by
  induction bs generalizing s with
  | nil => rfl
  | cons b rest ih => exact congrArg (b.1 :: ·) (ih _)

theorem captureActivation_eq (s : Store) (a : Activation) : ∃ home, (s.captureActivation a).1 =
    { a with scopes := (s.captureTables a.scopes).1, home := home } := by
  simp only [captureActivation]
  split <;> exact ⟨_, rfl⟩

theorem mem_zip_of_copyOf? {home copy : TableId} {scopes copies : List TableId}
    (h : copyOf? home scopes copies = some copy) : (home, copy) ∈ scopes.zip copies := by
  obtain ⟨l₁, l₂, heq, -⟩ := List.lookup_eq_some_iff.mp h
  rw [← List.mem_reverse, heq]
  simp

/-- Steps that lead from stores with a property to such stores again. -/
structure Conveys (I : Store → Prop) (R : Store → Store → Prop) : Prop where
  refl {s : Store} : I s → R s s
  trans {s s' s'' : Store} : R s s' → R s' s'' → R s s''
  kept {s s' : Store} : R s s' → I s'

namespace Conveys

variable {I : Store → Prop} {R : Store → Store → Prop} (h : Conveys I R)
include h

section

variable {C : Store → CellId → Prop} (mono : ∀ {s s' c}, I s → R s s' → C s c → C s' c)
  (cell : ∀ {s c}, I s → C s c → R s (s.captureCell c).2 ∧
    C (s.captureCell c).2 (s.captureCell c).1)
include mono cell

/-- What a capture does cell by cell it does to all bindings of a table. -/
theorem captureBindings {s : Store} (hs : I s) (bs : Bindings) (hbs : ∀ b ∈ bs, C s b.2) :
    R s (s.captureBindings bs).2 ∧
      ∀ b ∈ (s.captureBindings bs).1, C (s.captureBindings bs).2 b.2 := by
  induction bs generalizing s with
  | nil => exact ⟨h.refl hs, by simp [Store.captureBindings]⟩
  | cons b rest ih =>
    obtain ⟨hfirst, hcopy⟩ := cell hs (hbs b (List.mem_cons_self ..))
    have hkept := h.kept hfirst
    obtain ⟨hrest, hcopies⟩ := ih hkept fun x hx =>
      mono hs hfirst (hbs x (List.mem_cons_of_mem _ hx))
    exact ⟨h.trans hfirst hrest, List.forall_mem_cons.mpr ⟨mono hkept hrest hcopy, hcopies⟩⟩

end

variable {T : Store → TableId → Prop} (mono : ∀ {s s' t}, I s → R s s' → T s t → T s' t)
  (table : ∀ {s t}, I s → T s t → R s (s.captureTable t).2 ∧
    T (s.captureTable t).2 (s.captureTable t).1)
include mono table

theorem captureTables {s : Store} (hs : I s) (ts : List TableId) (hts : ∀ t ∈ ts, T s t) :
    R s (s.captureTables ts).2 ∧ ∀ t ∈ (s.captureTables ts).1, T (s.captureTables ts).2 t := by
  induction ts generalizing s with
  | nil => exact ⟨h.refl hs, by simp [Store.captureTables]⟩
  | cons t rest ih =>
    obtain ⟨hfirst, hcopy⟩ := table hs (hts t (List.mem_cons_self ..))
    have hkept := h.kept hfirst
    obtain ⟨hrest, hcopies⟩ := ih hkept fun x hx =>
      mono hs hfirst (hts x (List.mem_cons_of_mem _ hx))
    exact ⟨h.trans hfirst hrest, List.forall_mem_cons.mpr ⟨mono hkept hrest hcopy, hcopies⟩⟩

/-- What a capture does table by table it does to the tables of an activation. -/
theorem captureActivation {s : Store} (hs : I s) {a : Activation} (hscopes : ∀ t ∈ a.scopes, T s t)
    (hhome : T s a.home) : R s (s.captureActivation a).2 ∧
      (∀ t ∈ (s.captureActivation a).1.scopes, T (s.captureActivation a).2 t) ∧
      T (s.captureActivation a).2 (s.captureActivation a).1.home := by
  obtain ⟨hsteps, hcopies⟩ := h.captureTables (T := T) mono table hs a.scopes hscopes
  rw [Store.captureActivation]
  cases hcopy : copyOf? a.home a.scopes (s.captureTables a.scopes).1 with
  | some home =>
    simp only [hcopy]
    exact ⟨hsteps, hcopies, hcopies home (List.of_mem_zip (mem_zip_of_copyOf? hcopy)).2⟩
  | none =>
    simp only [hcopy]
    have hkept := h.kept hsteps
    obtain ⟨hlast, hhome⟩ := table hkept (mono hs hsteps hhome)
    exact ⟨h.trans hsteps hlast, fun t ht => mono hkept hlast (hcopies t ht), hhome⟩

end Conveys

end Capture

end Store

end ObjectLang
