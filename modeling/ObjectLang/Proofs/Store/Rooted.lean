import ObjectLang.Machine.Basic
import ObjectLang.Proofs.Store.Growth

/-!
Objects on the shared root.
Methods, classes and modules are made in one go: an object on the root that is its own face, with
the operators and members that every object of its sort has. The new object is the only one that
differs.
-/
namespace ObjectLang

structure Roots.Fits (s : Store) (r : Roots) : Prop where
  root : s.HasObject r.root
  type : s.HasObject r.type
  method : s.HasObject r.method
  class_ : s.HasObject r.class_
  module_ : s.HasObject r.module_

theorem Roots.Fits.mono {s s' : Store} {r : Roots} (h : r.Fits s) (hle : s.SizeLe s') :
    r.Fits s' :=
  ⟨h.root.mono hle, h.type.mono hle, h.method.mono hle, h.class_.mono hle, h.module_.mono hle⟩

namespace Store

variable (s : Store) {x : ObjectId}

def rooted (root type : ObjectId) (kind : Kind) : ObjectId × Store :=
  let (o, s) := s.newObject (some root) kind
  (o, (s.setFace o o).setType o type)

def addConst (t : TableId) (name : String) (v : ObjectId) : Store :=
  (s.newCell (.const v)).2.bind t name ⟨s.cells.size⟩

def addMethod (roots : Roots) (owner : ObjectId) (code : Code) : ObjectId × Store :=
  let (o, s) := s.rooted roots.root roots.method (.method owner code)
  (o, s.addConst (.part o .operators) "()" o)

def addName (roots : Roots) (o : ObjectId) : Store :=
  let (getter, s) := s.addMethod roots o .nameGetter
  (s.newCell (.computed getter none)).2.bind (.part o .members) "name" ⟨s.cells.size⟩

def addClass (roots : Roots) (b : Blueprint) : ObjectId × Store :=
  let (c, s) := s.rooted roots.root roots.class_ (.ofClass b)
  let (construct, s) := s.addMethod roots c .constructor
  let s := s.addConst (.part c .operators) "()" construct
  let s := s.addConst (.part c .members) "new" construct
  (c, s.addName roots c)

/-- Makes `o` the face of its chain and an instance of `type`. -/
def settle (o type : ObjectId) : Store := (s.wearFace o).setType o type

section Rooted

variable (root type : ObjectId) (kind : Kind)

@[simp] theorem rooted_fst : (s.rooted root type kind).1 = s.fresh := rfl

@[simp] theorem rooted_cells : (s.rooted root type kind).2.cells = s.cells := rfl

@[simp] theorem rooted_tables : (s.rooted root type kind).2.tables = s.tables := rfl

@[simp] theorem rooted_objects_size :
    (s.rooted root type kind).2.objects.size = s.objects.size + 1 := by
  simp [rooted, setFace, setType]

def rootedObject : Object :=
  { Object.make kind (s.levels root) with face := some s.fresh, type := some type }

theorem object_rooted (x : ObjectId) :
    (s.rooted root type kind).2.object x =
      if x = s.fresh then s.rootedObject root type kind else s.object x := by
  simp only [rooted]
  rw [object_setType, object_setFace, object_newObject]
  by_cases hx : x = s.fresh
  · subst hx
    simp [setFace, rootedObject, levelsOf]
  · simp [hx]

theorem object_rooted_of_has (h : s.HasObject x) :
    (s.rooted root type kind).2.object x = s.object x := by
  rw [object_rooted, if_neg h.ne_new]

theorem rooted_grows : s.Grows (s.rooted root type kind).2 :=
  (newObject_grows s (some root) kind).trans
    ((setFace_alike _ _ _).grows.trans (setType_alike _ _ _).grows)

end Rooted

section AddConst

variable (t : TableId) (name : String) (v : ObjectId) {o : ObjectId} {p : Part}

@[simp] theorem addConst_objects_size : (s.addConst t name v).objects.size = s.objects.size := by
  simp [addConst]

@[simp] theorem addConst_cells_size : (s.addConst t name v).cells.size = s.cells.size + 1 := by
  simp [addConst]

theorem cell_addConst (x : CellId) :
    (s.addConst t name v).cell x = if x.index = s.cells.size then .const v else s.cell x := by
  rw [addConst, cell_bind, cell_newCell]

theorem bindings_addConst (x : TableId) (h : s.Holds t) :
    (s.addConst t name v).bindings x =
      if x = t then (name, ⟨s.cells.size⟩) :: s.bindings x else s.bindings x := by
  rw [addConst, bindings_bind _ t name _ x (h.mono (newCell_grows s _).sizes), bindings_newCell]

theorem object_addConst_of_ne (h : x ≠ o) :
    (s.addConst (.part o p) name v).object x = s.object x :=
  object_modifyObject_of_ne _ o _ h

theorem object_addConst_self (h : s.HasObject o) :
    (s.addConst (.part o p) name v).object o = (s.object o).bind p name ⟨s.cells.size⟩ :=
  object_modifyObject_self _ o _ h

theorem addConst_grows (h : s.Holds t) (hfree : s.local? t name = none) :
    s.Grows (s.addConst t name v) := by
  refine (newCell_grows s (.const v)).trans ?_
  refine bind_grows _ _ (h.mono (newCell_grows s _).sizes) ?_
  rw [local?, bindings_newCell]
  exact hfree

end AddConst

section AddMethod

variable (roots : Roots) (owner : ObjectId) (code : Code)

@[simp] theorem addMethod_fst : (s.addMethod roots owner code).1 = s.fresh := rfl

@[simp] theorem addMethod_objects_size :
    (s.addMethod roots owner code).2.objects.size = s.objects.size + 1 := by
  simp [addMethod]

@[simp] theorem addMethod_cells_size :
    (s.addMethod roots owner code).2.cells.size = s.cells.size + 1 := by
  simp [addMethod]

/-- A method answers a call by itself. -/
theorem object_addMethod (x : ObjectId) :
    (s.addMethod roots owner code).2.object x =
      if x = s.fresh then
        { s.rootedObject roots.root roots.method (.method owner code) with
          operators := [("()", ⟨s.cells.size⟩)] }
      else s.object x := by
  simp only [addMethod]
  by_cases hx : x = s.fresh
  · subst hx
    rw [if_pos rfl, rooted_fst, object_addConst_self _ _ _ (by simp [HasObject]), object_rooted,
      if_pos rfl]
    rfl
  · rw [if_neg hx, rooted_fst, object_addConst_of_ne _ _ _ hx, object_rooted, if_neg hx]

theorem object_addMethod_of_has (h : s.HasObject x) :
    (s.addMethod roots owner code).2.object x = s.object x := by
  rw [object_addMethod, if_neg h.ne_new]

theorem free_rooted (root type : ObjectId) (kind : Kind) (p : Part) (name : String) :
    (s.rooted root type kind).2.local? (.part s.fresh p) name = none := by
  rw [local?, bindings_part, object_rooted, if_pos rfl]
  cases p <;> rfl

theorem addMethod_grows : s.Grows (s.addMethod roots owner code).2 :=
  (rooted_grows s _ _ _).trans
    (addConst_grows _ _ _ _ (by simp [Holds, HasObject]) (free_rooted s _ _ _ _ _))

end AddMethod

section AddClass

variable (roots : Roots) (b : Blueprint)

/-- The store of a class in the making: its constructor is there but not bound yet. -/
def classParts : Store :=
  ((s.rooted roots.root roots.class_ (.ofClass b)).2.addMethod roots s.fresh
    .constructor).2

def classAnswering : Store :=
  (s.classParts roots b).addConst (.part s.fresh .operators) "()" ⟨s.objects.size + 1⟩

def classMaking : Store :=
  (s.classAnswering roots b).addConst (.part s.fresh .members) "new" ⟨s.objects.size + 1⟩

theorem addClass_eq : s.addClass roots b =
    (s.fresh, (s.classMaking roots b).addName roots s.fresh) := by
  simp [addClass, classMaking, classAnswering, classParts]

theorem classParts_objects_size : (s.classParts roots b).objects.size = s.objects.size + 2 := by
  simp [classParts]

theorem object_classParts (x : ObjectId) :
    (s.classParts roots b).object x =
      if x = ⟨s.objects.size + 1⟩ then
        { (s.rooted roots.root roots.class_ (.ofClass b)).2.rootedObject roots.root roots.method
            (.method s.fresh .constructor) with operators := [("()", ⟨s.cells.size⟩)] }
      else if x = s.fresh then s.rootedObject roots.root roots.class_ (.ofClass b)
      else s.object x := by
  rw [classParts, object_addMethod, object_rooted, fresh, rooted_objects_size]
  rfl

theorem object_classParts_self :
    (s.classParts roots b).object s.fresh =
      s.rootedObject roots.root roots.class_ (.ofClass b) := by
  rw [object_classParts, if_neg (by simp), if_pos rfl]

theorem classParts_has : (s.classParts roots b).HasObject s.fresh := by
  simp [HasObject, classParts_objects_size]

theorem classParts_free (p : Part) (name : String) :
    (s.classParts roots b).local? (.part s.fresh p) name = none := by
  rw [local?, bindings_part, object_classParts_self]
  cases p <;> rfl

theorem classParts_grows : s.Grows (s.classParts roots b) :=
  (rooted_grows s _ _ _).trans (addMethod_grows _ _ _ _)

theorem classAnswering_grows : (s.classParts roots b).Grows (s.classAnswering roots b) :=
  addConst_grows _ _ _ _ ((s.classParts_has roots b).holds _) (s.classParts_free roots b _ _)

theorem classAnswering_free (name : String) :
    (s.classAnswering roots b).local? (.part s.fresh .members) name = none := by
  rw [local?, classAnswering, bindings_addConst _ _ _ _ _ ((s.classParts_has roots b).holds _),
    if_neg (by simp)]
  exact s.classParts_free roots b .members name

theorem classMaking_grows : (s.classAnswering roots b).Grows (s.classMaking roots b) :=
  addConst_grows _ _ _ _
    (((s.classParts_has roots b).mono (s.classAnswering_grows roots b).sizes).holds _)
    (s.classAnswering_free roots b _)

end AddClass

section AddName

variable (roots : Roots) (o : ObjectId)

theorem addName_eq : s.addName roots o =
    ((s.addMethod roots o .nameGetter).2.newCell (.computed s.fresh none)).2.bind
      (.part o .members) "name" ⟨s.cells.size + 1⟩ := by
  simp [addName]

theorem free_addMethod (ho : s.HasObject o) (hfree : s.local? (.part o .members) "name" = none)
    (c : Cell) :
    ((s.addMethod roots o .nameGetter).2.newCell c).2.local? (.part o .members) "name" =
      none := by
  rw [local?, bindings_newCell, bindings_part, s.object_addMethod_of_has roots o .nameGetter ho]
  exact hfree

theorem addName_grows (ho : s.HasObject o) (hfree : s.local? (.part o .members) "name" = none) :
    s.Grows (s.addName roots o) := by
  have hmethod := s.addMethod_grows roots o .nameGetter
  rw [addName_eq]
  refine hmethod.trans ((newCell_grows _ (.computed s.fresh none)).trans ?_)
  exact bind_grows _ _ (((ho.mono hmethod.sizes).mono (newCell_grows _ _).sizes).holds _)
    (s.free_addMethod roots o ho hfree _)

theorem object_addName_of_ne (hx : s.HasObject x) (hne : x ≠ o) :
    (s.addName roots o).object x = s.object x := by
  rw [addName_eq]
  exact (object_modifyObject_of_ne _ _ _ hne).trans (s.object_addMethod_of_has roots o _ hx)

end AddName

section NewClass

variable (roots : Roots) (b : Blueprint)

theorem addClass_snd :
    (s.addClass roots b).2 = (s.classMaking roots b).addName roots s.fresh := by
  rw [addClass_eq]

@[simp] theorem addClass_fst : (s.addClass roots b).1 = s.fresh := by
  rw [addClass_eq]

theorem classMaking_objects_size : (s.classMaking roots b).objects.size = s.objects.size + 2 := by
  simp [classMaking, classAnswering, classParts_objects_size]

theorem classMaking_has : (s.classMaking roots b).HasObject s.fresh := by
  simp [HasObject, classMaking_objects_size]

theorem classMaking_free : (s.classMaking roots b).local?
    (.part s.fresh .members) "name" = none := by
  have hself := (s.classParts_has roots b).mono (s.classAnswering_grows roots b).sizes
  have hold := s.classAnswering_free roots b "name"
  rw [local?] at hold ⊢
  rw [classMaking, bindings_addConst _ _ _ _ _ (hself.holds _), if_pos rfl, List.lookup_cons]
  simpa using hold

theorem addClass_objects_size : (s.addClass roots b).2.objects.size = s.objects.size + 3 := by
  rw [addClass_snd, addName_eq]
  simp [classMaking_objects_size]

theorem classMaking_addName_grows : (s.classMaking roots b).Grows (s.addClass roots b).2 := by
  rw [addClass_snd]
  exact addName_grows _ _ _ (s.classMaking_has roots b) (s.classMaking_free roots b)

theorem addClass_grows : s.Grows (s.addClass roots b).2 :=
  (s.classParts_grows roots b).trans ((s.classAnswering_grows roots b).trans
    ((s.classMaking_grows roots b).trans (s.classMaking_addName_grows roots b)))

theorem object_classMaking_of_ne (h : x ≠ s.fresh) :
    (s.classMaking roots b).object x = (s.classParts roots b).object x := by
  rw [classMaking, object_addConst_of_ne _ _ _ h, classAnswering, object_addConst_of_ne _ _ _ h]

theorem face_addClass :
    ((s.addClass roots b).2.object s.fresh).face = some s.fresh := by
  rw [addClass_snd, addName_eq, face_bind, object_newCell,
    object_addMethod_of_has _ _ _ _ (s.classMaking_has roots b), classMaking, addConst, face_bind,
    object_newCell, classAnswering, addConst, face_bind, object_newCell, object_classParts_self]
  rfl

theorem type_addClass :
    ((s.addClass roots b).2.object s.fresh).type = some roots.class_ := by
  rw [addClass_snd, addName_eq, type_bind, object_newCell,
    object_addMethod_of_has _ _ _ _ (s.classMaking_has roots b), classMaking, addConst, type_bind,
    object_newCell, classAnswering, addConst, type_bind, object_newCell, object_classParts_self]
  rfl

theorem kind_addClass : (s.addClass roots b).2.kind s.fresh = .ofClass b := by
  have hgrows := (s.classAnswering_grows roots b).trans
    ((s.classMaking_grows roots b).trans (s.classMaking_addName_grows roots b))
  rw [hgrows.kind _ (s.classParts_has roots b), kind, object_classParts_self]
  rfl

/-- The new class answers a call by its constructor. -/
theorem addClass_construct : ∃ i f,
    (s.addClass roots b).2.local? (.part s.fresh .operators) "()" = some i ∧
      (s.addClass roots b).2.cell i = .const f ∧
      (s.addClass roots b).2.kind f = .method s.fresh .constructor := by
  have hgrows := (s.classMaking_grows roots b).trans (s.classMaking_addName_grows roots b)
  have hkind : (s.classParts roots b).kind ⟨s.objects.size + 1⟩ =
      .method s.fresh .constructor := by
    rw [kind, object_classParts, if_pos rfl]
    rfl
  refine ⟨⟨(s.classParts roots b).cells.size⟩, ⟨s.objects.size + 1⟩, ?_, ?_, ?_⟩
  · apply hgrows.bound
    rw [local?, classAnswering, bindings_addConst _ _ _ _ _ ((s.classParts_has roots b).holds _),
      if_pos rfl, List.lookup_cons]
    rfl
  · refine hgrows.const ?_ ?_
    · simp [HasCell, classAnswering]
    · rw [classAnswering, cell_addConst, if_pos rfl]
  · exact ((s.classAnswering_grows roots b).trans hgrows).kind_of_ne hkind (by simp)

/-- Of the new objects only the class itself is a class. -/
theorem kind_addClass_of_new (hnot : ¬ s.HasObject x) (hne : x ≠ s.fresh) :
    (s.addClass roots b).2.kind x = .plain ∨
      ∃ owner code, (s.addClass roots b).2.kind x = .method owner code := by
  by_cases hlast : x = ⟨(s.classMaking roots b).objects.size⟩
  · refine Or.inr ⟨s.fresh, .nameGetter, ?_⟩
    rw [kind, addClass_snd, addName_eq, kind_bind, object_newCell, object_addMethod, if_pos hlast]
    rfl
  · rw [kind, addClass_snd, addName_eq, kind_bind, object_newCell, object_addMethod, if_neg hlast,
      object_classMaking_of_ne _ _ _ hne, object_classParts]
    by_cases hconstruct : x = ⟨s.objects.size + 1⟩
    · rw [if_pos hconstruct]
      exact Or.inr ⟨_, _, rfl⟩
    · rw [if_neg hconstruct, if_neg hne, object_of_not_has hnot]
      exact Or.inl rfl

/-- A new class leaves every other object alone. -/
theorem object_addClass_of_has (h : s.HasObject x) :
    (s.addClass roots b).2.object x = s.object x := by
  have hne := h.ne_new
  have hne' : x ≠ ⟨s.objects.size + 1⟩ := by
    rintro rfl
    exact Nat.not_succ_lt_self h
  have hhas : (s.classMaking roots b).HasObject x := by
    rw [HasObject, classMaking_objects_size]
    exact Nat.lt_of_lt_of_le h (Nat.le_add_right _ 2)
  rw [addClass_snd, object_addName_of_ne _ _ _ hhas hne, object_classMaking_of_ne _ _ _ hne,
    object_classParts, if_neg hne', if_neg hne]

end NewClass

end Store

end ObjectLang
