import ObjectLang.Proofs.Store.Rooted

/-!
Faces, and objects that are made.
A level in the making has no type, and no face but itself. It gets both when it is finished: then
the whole chain below it takes its face too. What lies on the root is finished at once and keeps its
own face for ever.
-/
namespace ObjectLang

def Kind.Callable : Kind → Prop
  | .method .. | .function _ | .closure .. => True
  | _ => False

namespace Store

variable {root : ObjectId} {s s' s'' : Store} {roots : Roots}

/-- The object is made: it has its type and, if it can be called, its call operator. -/
def Complete (s : Store) (o : ObjectId) : Prop :=
  s.type o ≠ none ∧ ((s.kind o).Callable → s.local? (.part o .operators) "()" ≠ none)

/-- A level that others may lie on: it is made, and does not answer a call by itself. -/
def Supports (s : Store) (l : ObjectId) : Prop := s.type l ≠ none ∧ ¬ (s.kind l).Callable

theorem not_complete_of_type {o : ObjectId} (h : s.type o = none) : ¬ s.Complete o :=
  fun hc => hc.1 h

/-- The level is in the making. The chain that it lies on wears the face of its topmost level and
does not reach the root. -/
structure Unsettled (s : Store) (root o : ObjectId) : Prop where
  type : s.type o = none
  face : (s.object o).face = none
  worn : ∀ l ∈ (s.object o).below, (s.object l).face = s.base o
  apart : root ∉ s.levels o

/-- An instance of a class whose construction has ended, as against what lies on the root. -/
def Finished (s : Store) (root o : ObjectId) : Prop := s.type o ≠ none ∧ root ∉ s.levels o

theorem has_of_type {o : ObjectId} (h : s.type o ≠ none) : s.HasObject o := by
  apply Classical.byContradiction
  intro hnot
  apply h
  rw [type, object_of_not_has hnot]
  rfl

theorem Finished.has {o : ObjectId} (h : s.Finished root o) : s.HasObject o := has_of_type h.1

theorem mem_levels_self (s : Store) (o : ObjectId) : o ∈ s.levels o := List.mem_cons_self ..

theorem mem_levels_of_below {o l : ObjectId} (h : l ∈ (s.object o).below) : l ∈ s.levels o :=
  List.mem_cons_of_mem _ h

theorem mem_below_of_base {o l : ObjectId} (h : s.base o = some l) : l ∈ (s.object o).below :=
  List.mem_of_mem_head? h

section Settle

variable (s) (o c : ObjectId)

theorem below_settle (x : ObjectId) : ((s.settle o c).object x).below = (s.object x).below :=
  ((setType_alike _ o c).below x).trans ((wearFace_alike s o).below x)

theorem levels_settle (x : ObjectId) : (s.settle o c).levels x = s.levels x := by
  rw [levels, levels, below_settle]

theorem type_settle {o : ObjectId} (ho : s.HasObject o) (x : ObjectId) :
    (s.settle o c).type x = if x = o then some c else s.type x := by
  have hwear : ((s.wearFace o).object x).type = (s.object x).type := by
    rw [object_wearFace]
    split <;> rfl
  rw [type, settle, object_setType]
  by_cases hx : x = o
  · subst hx
    rw [if_pos rfl, if_pos ⟨rfl, by rw [wearFace_objects_size]; exact ho⟩]
  · rw [if_neg hx, if_neg (fun h => hx h.1), hwear]
    rfl

theorem face_settle {o : ObjectId} (ho : ∀ l ∈ s.levels o, s.HasObject l) (x : ObjectId) :
    (s.settle o c).face x = if x ∈ s.levels o then o else s.face x := by
  have htype : ((s.settle o c).object x).face = ((s.wearFace o).object x).face := by
    rw [settle, object_setType]
    split <;> rfl
  rw [face, htype, object_wearFace]
  by_cases hx : x ∈ s.levels o
  · rw [if_pos hx, if_pos ⟨hx, ho x hx⟩]
    rfl
  · rw [if_neg hx, if_neg (fun h => hx h.1)]
    rfl

theorem settle_grows : s.Grows (s.settle o c) :=
  (wearFace_alike s o).grows.trans (setType_alike _ o c).grows

end Settle

/-- The bottom of an object is in the making: it may still lack operators. -/
def Formless (s : Store) (o : ObjectId) : Prop :=
  s.HasObject o ∧ s.type o = none ∧ (s.object o).below = []

namespace Formless

variable {o : ObjectId}

theorem of_bind {t : TableId} {name : String} {c : CellId}
    (h : (s.bind t name c).Formless o) : s.Formless o := by
  obtain ⟨hhas, htype, hbelow⟩ := h
  rw [HasObject, bind_objects_size] at hhas
  rw [type, type_bind] at htype
  rw [below_bind] at hbelow
  exact ⟨hhas, htype, hbelow⟩

theorem of_objects (h : s'.Formless o) (heq : s'.objects = s.objects) : s.Formless o := by
  rwa [Formless, HasObject, type, object, heq] at h

/-- An object with a base lies on something. -/
theorem of_newObject {base : Option ObjectId} {kind : Kind}
    (h : (s.newObject base kind).2.Formless o) (hbase : o = s.fresh → base ≠ none) :
    s.Formless o := by
  obtain ⟨hhas, htype, hbelow⟩ := h
  rw [type, object_newObject] at htype
  rw [object_newObject] at hbelow
  split at hbelow
  · next heq =>
    obtain ⟨b, rfl⟩ := Option.ne_none_iff_exists'.mp (hbase heq)
    cases hbelow
  · next hne =>
    rw [if_neg hne] at htype
    refine ⟨Nat.lt_of_le_of_ne ?_ fun heq => hne (congrArg ObjectId.mk heq), htype, hbelow⟩
    rw [HasObject, newObject_objects_size] at hhas
    omega

theorem of_alike (h : s'.Formless o) (ha : s.Alike s')
    (htype : s'.type o = none → s.type o = none) : s.Formless o :=
  ⟨by rw [HasObject, ← ha.size]; exact h.1, htype h.2.1, (ha.below o).symm.trans h.2.2⟩

theorem of_setFace {x f : ObjectId} (h : (s.setFace x f).Formless o) : s.Formless o := by
  refine h.of_alike (setFace_alike s x f) fun htype => ?_
  rw [type, object_setFace] at htype
  split at htype <;> exact htype

theorem of_wearFace {x : ObjectId} (h : (s.wearFace x).Formless o) : s.Formless o := by
  refine h.of_alike (wearFace_alike s x) fun htype => ?_
  rw [type, object_wearFace] at htype
  split at htype <;> exact htype

theorem of_setType {x c : ObjectId} (h : (s.setType x c).Formless o) : s.Formless o := by
  refine h.of_alike (setType_alike s x c) fun htype => ?_
  rw [type, object_setType] at htype
  split at htype
  · cases htype
  · exact htype

theorem of_rooted {root type : ObjectId} {kind : Kind}
    (h : (s.rooted root type kind).2.Formless o) : s.Formless o := by
  change (((s.newObject (some root) kind).2.setFace s.fresh s.fresh).setType
    s.fresh type).Formless o at h
  exact h.of_setType.of_setFace.of_newObject (by simp)

end Formless

/-- How faces go in a store. They are fixed, nothing wears the face of what is in the making, what
lies on the root wears its own, and a finished instance is the face of its whole chain unless it has
become a level of another one. -/
structure Faced (s : Store) (root : ObjectId) : Prop where
  based : s.Supports root
  bounded : ∀ o, s.HasObject o → s.HasObject (s.face o) ∧ ∀ l ∈ s.levels o, s.HasObject l
  older : ∀ o, ∀ l ∈ (s.object o).below, l.index < o.index
  nested : ∀ o, ∀ l ∈ s.levels o, ∀ x ∈ s.levels l, x ∈ s.levels o
  supported : ∀ o, ∀ l ∈ (s.object o).below, s.Supports l
  worn : ∀ o, o ∈ s.levels (s.face o)
  fixed : ∀ o, s.face (s.face o) = s.face o
  made : ∀ o, s.face o ≠ o → s.type (s.face o) ≠ none
  rooted : ∀ o, root ∈ s.levels o → s.face o = o
  whole : ∀ o, s.Finished root o →
    (∀ l ∈ s.levels o, s.face l = o) ∨ ∃ o', s.Finished root o' ∧ o ∈ (s.object o').below

/-- Objects are added. What was there keeps its chain, its face and its type; what is new is its own
face and lies on something that is made, and it is still in the making unless that is the root. -/
structure Extends (s : Store) (root : ObjectId) (s' : Store) : Prop where
  sizes : s.objects.size ≤ s'.objects.size
  below : ∀ o, s.HasObject o → (s'.object o).below = (s.object o).below
  face : ∀ o, s.HasObject o → s'.face o = s.face o
  type : ∀ o, s.HasObject o → s'.type o = s.type o
  kind : ∀ o, s.HasObject o → s'.kind o = s.kind o
  newFace : ∀ o, ¬ s.HasObject o → s'.face o = o
  newBelow : ∀ o, ¬ s.HasObject o → ∃ base, (s'.object o).below = s.levelsOf base ∧
    (∀ b ∈ base, s.Supports b) ∧ (s'.type o = none ∨ base = some root)

namespace Extends

/-- No object is new, and none changes but in its bindings. -/
theorem of_same (hsize : s'.objects.size = s.objects.size)
    (hbelow : ∀ o, (s'.object o).below = (s.object o).below)
    (hface : ∀ o, (s'.object o).face = (s.object o).face)
    (htype : ∀ o, (s'.object o).type = (s.object o).type) (hkind : ∀ o, s'.kind o = s.kind o) :
    s.Extends root s' where
  sizes := Nat.le_of_eq hsize.symm
  below o _ := hbelow o
  face o _ := by rw [Store.face, hface, Store.face]
  type o _ := htype o
  kind o _ := hkind o
  newFace o ho := by
    rw [Store.face, hface, object_of_not_has ho]
    rfl
  newBelow o ho := by
    refine ⟨none, ?_, by simp, Or.inl ?_⟩
    · rw [hbelow, object_of_not_has ho]
      rfl
    · rw [Store.type, htype, object_of_not_has ho]
      rfl

theorem bind (s : Store) (t : TableId) (name : String) (c : CellId) :
    s.Extends root (s.bind t name c) :=
  of_same (bind_objects_size s t name c) (below_bind s t name c) (face_bind s t name c)
    (type_bind s t name c) (kind_bind s t name c)

/-- What is new and has a type lies on the root. -/
theorem not_finished (h : s.Extends root s') {o : ObjectId} (ho : ¬ s.HasObject o) :
    ¬ s'.Finished root o := by
  intro hdone
  obtain ⟨base, hbelow, -, htype | rfl⟩ := h.newBelow o ho
  · exact hdone.1 htype
  · refine hdone.2 (mem_levels_of_below ?_)
    rw [hbelow]
    exact mem_levels_self s root

end Extends

/-- How a new object looks: it is its own face and lies on something that is made, it is still in
the making unless that is the root, and it has no fields and no operators but the call. -/
structure Newborn (s : Store) (root o : ObjectId) (x : Object) : Prop where
  face : x.face.getD o = o
  below : ∃ base, x.below = s.levelsOf base ∧ (∀ b ∈ base, s.Supports b) ∧
    (x.type = none ∨ base = some root)
  fields : x.fields = []
  operators : ∀ b ∈ x.operators, b.1 = "()"

theorem newborn_vacant (s : Store) (root o : ObjectId) : s.Newborn root o .vacant :=
  ⟨rfl, ⟨none, rfl, by simp, Or.inl rfl⟩, rfl, by simp [Object.vacant]⟩

/-- Objects are added, and what was there is the same. -/
structure Bears (s : Store) (root : ObjectId) (s' : Store) : Prop where
  sizes : s.objects.size ≤ s'.objects.size
  old : ∀ o, s.HasObject o → s'.object o = s.object o
  new : ∀ o, ¬ s.HasObject o → s.Newborn root o (s'.object o)

namespace Bears

theorem of_objects (hsize : s'.objects.size = s.objects.size)
    (h : ∀ o, s'.object o = s.object o) : s.Bears root s' where
  sizes := Nat.le_of_eq hsize.symm
  old o _ := h o
  new o ho := by
    rw [h, object_of_not_has ho]
    exact s.newborn_vacant root o

theorem newObject {base : Option ObjectId} (hbase : ∀ b ∈ base, s.Supports b) (kind : Kind) :
    s.Bears root (s.newObject base kind).2 where
  sizes := by simp
  old o ho := s.object_newObject_of_has base kind ho
  new o ho := by
    rw [object_newObject]
    split
    · exact ⟨rfl, ⟨base, rfl, hbase, Or.inl rfl⟩, rfl, by simp [Object.make]⟩
    · rw [object_of_not_has ho]
      exact s.newborn_vacant root o

section

variable (h : s.Bears root s')
include h

theorem extension : s.Extends root s' where
  sizes := h.sizes
  below o ho := by rw [h.old o ho]
  face o ho := by rw [face, h.old o ho, face]
  type o ho := by rw [type, h.old o ho, type]
  kind o ho := by rw [kind, h.old o ho, kind]
  newFace o ho := (h.new o ho).face
  newBelow o ho := (h.new o ho).below

theorem rooted (hroot : s.Supports root) (type : ObjectId) (kind : Kind) :
    s.Bears root (s'.rooted root type kind).2 where
  sizes := Nat.le_trans h.sizes (by simp)
  old o ho := by
    rw [object_rooted_of_has s' root type kind (Nat.lt_of_lt_of_le ho h.sizes), h.old o ho]
  new o ho := by
    have hlevels : s'.levels root = s.levels root := by
      rw [levels, h.old root (has_of_type hroot.1), levels]
    rw [object_rooted]
    split
    · next heq =>
      subst heq
      refine ⟨rfl, ⟨some root, hlevels, ?_, Or.inr rfl⟩, rfl, by simp [rootedObject, Object.make]⟩
      exact fun b hb => Option.some.inj hb ▸ hroot
    · exact h.new o ho

/-- A new object gets a member or its call operator. -/
theorem bind {o : ObjectId} {p : Part} {name : String} (ho : ¬ s.HasObject o)
    (hp : p = .operators ∧ name = "()" ∨ p = .members) (c : CellId) :
    s.Bears root (s'.bind (.part o p) name c) where
  sizes := Nat.le_trans h.sizes (Nat.le_of_eq (bind_objects_size ..).symm)
  old x hx := by
    refine (object_modifyObject_of_ne _ _ _ ?_).trans (h.old x hx)
    rintro rfl
    exact ho hx
  new x hx := by
    have hold := h.new x hx
    change s.Newborn root x ((s'.modifyObject o (·.bind p name c)).object x)
    rw [object_modifyObject]
    split
    · rcases hp with ⟨rfl, rfl⟩ | rfl
      · refine ⟨hold.face, hold.below, hold.fields, fun b hb => ?_⟩
        rcases List.mem_cons.mp hb with rfl | hb
        · rfl
        · exact hold.operators b hb
      · exact ⟨hold.face, hold.below, hold.fields, hold.operators⟩
    · exact hold

theorem newCell (c : Cell) : s.Bears root (s'.newCell c).2 := ⟨h.sizes, h.old, h.new⟩

theorem addConst {o : ObjectId} {p : Part} {name : String} (ho : ¬ s.HasObject o)
    (hp : p = .operators ∧ name = "()" ∨ p = .members) (v : ObjectId) :
    s.Bears root (s'.addConst (.part o p) name v) := (h.newCell _).bind ho hp _

end

theorem addRooted (hroot : s.Supports root) (type : ObjectId) (kind : Kind) :
    s.Bears root (s.rooted root type kind).2 := (of_objects rfl fun _ => rfl).rooted hroot type kind

theorem addMethod (h : s.Bears roots.root s') (hroot : s.Supports roots.root) (owner : ObjectId)
    (code : Code) : s.Bears roots.root (s'.addMethod roots owner code).2 :=
  (h.rooted hroot roots.method (.method owner code)).addConst (Nat.not_lt.mpr h.sizes)
    (Or.inl ⟨rfl, rfl⟩) _

/-- The class, its constructor and the getter of its name. -/
theorem addClass (hroot : s.Supports roots.root) (b : Blueprint) :
    s.Bears roots.root (s.addClass roots b).2 := by
  have hnew : ¬ s.HasObject s.fresh := Nat.lt_irrefl _
  have hclass := addRooted hroot roots.class_ (.ofClass b)
  have hparts := hclass.addMethod hroot s.fresh .constructor
  have hmaking : s.Bears roots.root (s.classMaking roots b) :=
    (hparts.addConst hnew (Or.inl ⟨rfl, rfl⟩) _).addConst hnew (Or.inr rfl) _
  have hgetter := hmaking.addMethod hroot s.fresh .nameGetter
  rw [addClass_snd, addName_eq]
  exact (hgetter.newCell _).bind hnew (Or.inr rfl) _

end Bears

namespace Faced

variable (h : s.Faced root)
include h

theorem of_extends (he : s.Extends root s') : s'.Faced root := by
  have hsupports : ∀ l, s.Supports l → s'.Supports l := by
    intro l hl
    rw [Supports, he.type l (has_of_type hl.1), he.kind l (has_of_type hl.1)]
    exact hl
  have hlevels : ∀ o, s.HasObject o → s'.levels o = s.levels o := by
    intro o ho
    rw [levels, levels, he.below o ho]
  have hhas : ∀ o, s.HasObject o → s'.HasObject o := fun o ho => Nat.lt_of_lt_of_le ho he.sizes
  -- The levels below a new object, if there are any, are those of one that was there.
  have hnew : ∀ o, ¬ s.HasObject o → ∀ l ∈ (s'.object o).below,
      ∃ b, s.Supports b ∧ (s'.object o).below = s.levels b ∧ l ∈ s.levels b := by
    intro o ho l hl
    obtain ⟨base, hbelow, htype, -⟩ := he.newBelow o ho
    cases base with
    | none =>
      rw [hbelow] at hl
      cases hl
    | some b =>
      rw [hbelow] at hl
      exact ⟨b, htype b rfl, hbelow, hl⟩
  have hlevel : ∀ b, s.Supports b → ∀ l ∈ s.levels b, s.HasObject l := fun b hb =>
    (h.bounded b (has_of_type hb.1)).2
  refine ⟨hsupports root h.based, ?_, ?_, ?_, ?_, ?_, ?_, ?_, ?_, ?_⟩
  · intro o ho
    by_cases hold : s.HasObject o
    · rw [he.face o hold, hlevels o hold]
      obtain ⟨hface, hall⟩ := h.bounded o hold
      exact ⟨hhas _ hface, fun l hl => hhas l (hall l hl)⟩
    · rw [he.newFace o hold]
      refine ⟨ho, fun l hl => ?_⟩
      rcases List.mem_cons.mp hl with rfl | hl
      · exact ho
      · obtain ⟨b, hb, -, hmem⟩ := hnew o hold l hl
        exact hhas l (hlevel b hb l hmem)
  · intro o l hl
    by_cases hold : s.HasObject o
    · rw [he.below o hold] at hl
      exact h.older o l hl
    · obtain ⟨b, hb, -, hmem⟩ := hnew o hold l hl
      exact Nat.lt_of_lt_of_le (hlevel b hb l hmem) (Nat.not_lt.mp hold)
  · intro o l hl x hx
    by_cases hold : s.HasObject o
    · rw [hlevels o hold] at hl ⊢
      rw [hlevels l ((h.bounded o hold).2 l hl)] at hx
      exact h.nested o l hl x hx
    · rcases List.mem_cons.mp hl with rfl | hbelow
      · exact hx
      · obtain ⟨b, hb, heq, hmem⟩ := hnew o hold l hbelow
        rw [hlevels l (hlevel b hb l hmem)] at hx
        apply mem_levels_of_below
        rw [heq]
        exact h.nested b l hmem x hx
  · intro o l hl
    by_cases hold : s.HasObject o
    · rw [he.below o hold] at hl
      exact hsupports l (h.supported o l hl)
    · obtain ⟨b, hb, -, hmem⟩ := hnew o hold l hl
      rcases List.mem_cons.mp hmem with rfl | hmem
      · exact hsupports l hb
      · exact hsupports l (h.supported b l hmem)
  · intro o
    by_cases hold : s.HasObject o
    · rw [he.face o hold, hlevels _ (h.bounded o hold).1]
      exact h.worn o
    · rw [he.newFace o hold]
      exact mem_levels_self s' o
  · intro o
    by_cases hold : s.HasObject o
    · rw [he.face o hold, he.face _ (h.bounded o hold).1, h.fixed]
    · rw [he.newFace o hold, he.newFace o hold]
  · intro o hne
    by_cases hold : s.HasObject o
    · rw [he.face o hold] at hne ⊢
      rw [he.type _ (h.bounded o hold).1]
      exact h.made o hne
    · exact absurd (he.newFace o hold) hne
  · intro o hroot
    by_cases hold : s.HasObject o
    · rw [hlevels o hold] at hroot
      rw [he.face o hold, h.rooted o hroot]
    · exact he.newFace o hold
  · intro o ho
    by_cases hold : s.HasObject o
    · have hbefore : s.Finished root o := by
        rw [Finished, he.type o hold, hlevels o hold] at ho
        exact ho
      rcases h.whole o hbefore with hall | ⟨o', hdone, hmem⟩
      · refine Or.inl fun l hl => ?_
        rw [hlevels o hold] at hl
        rw [he.face l ((h.bounded o hold).2 l hl), hall l hl]
      · refine Or.inr ⟨o', ⟨?_, ?_⟩, ?_⟩
        · rw [he.type o' hdone.has]
          exact hdone.1
        · rw [hlevels o' hdone.has]
          exact hdone.2
        · rw [he.below o' hdone.has]
          exact hmem
    · exact absurd ho (he.not_finished hold)

/-- When a level is finished, no face is torn away from a chain that is not below it. -/
theorem settle {o : ObjectId} (ho : s.HasObject o) (hmaking : s.Unsettled root o) (c : ObjectId) :
    (s.settle o c).Faced root := by
  have hlevels := fun l hl => (h.bounded o ho).2 l hl
  have hface := s.face_settle c hlevels
  have htype := s.type_settle c ho
  have hself := mem_levels_self s o
  have hroot : root ≠ o := fun heq => hmaking.apart (heq ▸ mem_levels_self s _)
  have hbase : ∀ l ∈ (s.object o).below, s.face l ∈ (s.object o).below := by
    intro l hl
    have hworn := hmaking.worn l hl
    rw [base] at hworn
    cases hbelow : (s.object o).below with
    | nil =>
      rw [hbelow] at hl
      cases hl
    | cons b rest =>
      rw [hbelow] at hworn
      rw [face, hworn]
      exact List.mem_cons_self ..
  have hfinished : ∀ x, s.Finished root x → (s.settle o c).Finished root x := by
    intro x hx
    refine ⟨?_, by rw [levels_settle]; exact hx.2⟩
    rw [htype]
    split
    · simp
    · exact hx.1
  have hsupports : ∀ l, s.Supports l → (s.settle o c).Supports l := by
    intro l hl
    refine ⟨?_, by rw [(s.settle_grows o c).kind l (has_of_type hl.1)]; exact hl.2⟩
    rw [htype]
    split
    · simp
    · exact hl.1
  refine ⟨hsupports root h.based, ?_, ?_, ?_, ?_, ?_, ?_, ?_, ?_, ?_⟩
  · intro x hx
    have hx' : s.HasObject x := by
      have hsize := (setType_alike (s.wearFace o) o c).size.trans (wearFace_alike s o).size
      exact Nat.lt_of_lt_of_eq hx hsize
    have hle := (s.settle_grows o c).sizes
    obtain ⟨hbefore, hall⟩ := h.bounded x hx'
    rw [levels_settle, hface]
    refine ⟨?_, fun l hl => (hall l hl).mono hle⟩
    split
    · exact ho.mono hle
    · exact hbefore.mono hle
  · intro x l hl
    rw [below_settle] at hl
    exact h.older x l hl
  · intro x l hl y hy
    rw [levels_settle] at hl hy ⊢
    exact h.nested x l hl y hy
  · intro x l hl
    rw [below_settle] at hl
    exact hsupports l (h.supported x l hl)
  · intro x
    rw [levels_settle, hface]
    split
    · assumption
    · exact h.worn x
  · intro x
    rw [hface x]
    by_cases hx : x ∈ s.levels o
    · rw [if_pos hx, hface, if_pos hself]
    · rw [if_neg hx, hface, if_neg, h.fixed]
      -- The old face is no level of `o`, since otherwise its own level `x` would be one too.
      exact fun hmem => hx (h.nested o _ hmem x (h.worn x))
  · intro x hne
    rw [hface x] at hne ⊢
    rw [htype]
    by_cases hx : x ∈ s.levels o
    · simp [hx]
    · rw [if_neg hx] at hne ⊢
      split
      · simp
      · exact h.made x hne
  · intro x hx
    rw [levels_settle] at hx
    rw [hface, if_neg, h.rooted x hx]
    exact fun hmem => hmaking.apart (h.nested o x hmem root hx)
  · intro x hx
    by_cases hxo : x = o
    · subst hxo
      refine Or.inl fun l hl => ?_
      rw [levels_settle] at hl
      rw [hface, if_pos hl]
    have hbefore : s.Finished root x := by
      rw [Finished, htype, if_neg hxo, levels_settle] at hx
      exact hx
    rcases h.whole x hbefore with hall | ⟨x', hdone, hmem⟩
    · by_cases hshared : ∃ l ∈ s.levels x, l ∈ s.levels o
      · -- A shared level wears the face `x`, which is the topmost level below `o`.
        obtain ⟨l, hlx, hlo⟩ := hshared
        have hlne : l ≠ o := by
          rintro rfl
          rcases List.mem_cons.mp hlx with rfl | hbelow
          · exact hxo rfl
          · exact (h.supported x l hbelow).1 hmaking.type
        have hbelow : l ∈ (s.object o).below := (List.mem_cons.mp hlo).resolve_left hlne
        have hmem := hbase l hbelow
        rw [hall l hlx] at hmem
        refine Or.inr ⟨o, ⟨?_, ?_⟩, ?_⟩
        · rw [htype, if_pos rfl]
          simp
        · rw [levels_settle]
          exact hmaking.apart
        · rw [below_settle]
          exact hmem
      · refine Or.inl fun l hl => ?_
        rw [levels_settle] at hl
        rw [hface, if_neg (fun hlo => hshared ⟨l, hl, hlo⟩), hall l hl]
    · refine Or.inr ⟨x', hfinished x' hdone, ?_⟩
      rw [below_settle]
      exact hmem

/-- The face of a finished instance is one too, and the whole chain wears it. The induction goes up
to younger objects, until there is none that the instance is a level of. -/
theorem face_of_finished {o : ObjectId} (ho : s.Finished root o) :
    s.Finished root (s.face o) ∧ ∀ l ∈ s.levels o, s.face l = s.face o := by
  induction hage : s.objects.size - o.index using Nat.strongRecOn generalizing o with
  | ind age ih =>
    rcases h.whole o ho with hall | ⟨o', hdone, hmem⟩
    · have hself : s.face o = o := hall o (mem_levels_self s o)
      rw [hself]
      exact ⟨ho, hall⟩
    · have hyounger := h.older o' o hmem
      have hhas : o'.index < s.objects.size := hdone.has
      obtain ⟨hface, hall⟩ := ih _ (by omega) hdone rfl
      have ho' : s.face o = s.face o' := hall o (mem_levels_of_below hmem)
      rw [ho']
      exact ⟨hface, fun l hl => hall l (h.nested o' o (mem_levels_of_below hmem) l hl)⟩

end Faced

/-- What is made stays as it is: it keeps its tables and its type. A face changes only when a level
that was not finished yet, with the object below it, is finished. -/
structure Lasts (s : Store) (root : ObjectId) (s' : Store) : Prop extends s.Grows s' where
  complete : ∀ o, s.Complete o → s'.Complete o ∧ s'.type o = s.type o ∧
    ∀ p, s'.bindings (.part o p) = s.bindings (.part o p)
  types : ∀ o c, s.type o = some c → s'.type o = some c
  finished : ∀ o, s.Finished root o → s'.Finished root o
  faces : ∀ o, s.HasObject o → s'.face o = s.face o ∨
    (o ∈ (s'.object (s'.face o)).below ∧ ¬ s.Finished root (s'.face o) ∧
      s'.Finished root (s'.face o))

namespace Lasts

/-- What was there is the same. -/
theorem of_old (hg : s.Grows s') (h : ∀ o, s.HasObject o → s'.object o = s.object o) :
    s.Lasts root s' where
  toGrows := hg
  complete o ho := by
    have heq := h o (has_of_type ho.1)
    refine ⟨?_, ?_, fun p => ?_⟩
    · rw [Complete, type, kind, local?, bindings_part, heq]
      exact ho
    · rw [type, heq, type]
    · rw [bindings_part, heq, bindings_part]
  types o c hc := by
    rw [type, h o (has_of_type (by simp [hc])), ← type, hc]
  finished o ho := by
    rw [Finished, type, hg.levels ho.has, h o ho.has]
    exact ho
  faces o ho := Or.inl (by rw [face, h o ho, face])

theorem refl (s : Store) : s.Lasts root s := of_old (.refl s) fun _ _ => rfl

theorem trans (h : s.Lasts root s') (h' : s'.Lasts root s'') : s.Lasts root s'' where
  toGrows := h.toGrows.trans h'.toGrows
  complete o ho := by
    obtain ⟨hmade, htype, hbound⟩ := h.complete o ho
    obtain ⟨hmade', htype', hbound'⟩ := h'.complete o hmade
    exact ⟨hmade', htype'.trans htype, fun p => (hbound' p).trans (hbound p)⟩
  types o c hc := h'.types o c (h.types o c hc)
  finished o ho := h'.finished o (h.finished o ho)
  faces o ho := by
    rcases h'.faces o (ho.mono h.sizes) with heq | ⟨hmem, hnot, hdone⟩
    · rw [heq]
      rcases h.faces o ho with hsame | ⟨hmem, hnot, hdone⟩
      · exact Or.inl hsame
      · refine Or.inr ⟨?_, hnot, h'.finished _ hdone⟩
        rw [h'.below _ hdone.has]
        exact hmem
    · exact Or.inr ⟨hmem, fun hx => hnot (h.finished _ hx), hdone⟩

/-- A name is bound in a table that belongs to nothing that is made. -/
theorem bind {t : TableId} {name : String} (c : CellId) (ht : s.Holds t)
    (hfree : s.local? t name = none) (hmaking : ∀ o p, t = .part o p → ¬ s.Complete o) :
    s.Lasts root (s.bind t name c) where
  toGrows := bind_grows s c ht hfree
  complete o ho := by
    have hsame : ∀ p, (s.bind t name c).bindings (.part o p) = s.bindings (.part o p) := by
      intro p
      rw [bindings_bind s t name c _ ht, if_neg]
      rintro rfl
      exact hmaking o p rfl ho
    refine ⟨⟨?_, ?_⟩, type_bind s t name c o, hsame⟩
    · rw [type, type_bind]
      exact ho.1
    · rw [kind, kind_bind, local?, hsame]
      exact ho.2
  types o c hc := (type_bind s t name _ o).trans hc
  finished o ho := by
    rw [Finished, type, type_bind, levels, below_bind]
    exact ho
  faces o _ := Or.inl (by rw [face, face_bind, face])

theorem settle {o c : ObjectId} (ho : ∀ l ∈ s.levels o, s.HasObject l)
    (hmaking : s.Unsettled root o) : s.Lasts root (s.settle o c) where
  toGrows := s.settle_grows o c
  complete x hx := by
    have hne : x ≠ o := by
      rintro rfl
      exact hx.1 hmaking.type
    have htype : (s.settle o c).type x = s.type x := by
      rw [type_settle s c (ho o (mem_levels_self s o)), if_neg hne]
    have halike := (wearFace_alike s o).trans (setType_alike _ o c)
    have hbound : (s.settle o c).bindings = s.bindings := halike.bindings_eq
    refine ⟨⟨?_, ?_⟩, htype, fun p => by rw [hbound]⟩
    · rw [htype]
      exact hx.1
    · rw [local?, hbound, kind, show ((s.settle o c).object x).kind = _ from halike.kind x]
      exact hx.2
  types x c' hc := by
    rw [type_settle s c (ho o (mem_levels_self s o)), if_neg, hc]
    rintro rfl
    rw [hmaking.type] at hc
    cases hc
  finished x hx := by
    refine ⟨?_, by rw [levels_settle]; exact hx.2⟩
    rw [type_settle s c (ho o (mem_levels_self s o))]
    split
    · simp
    · exact hx.1
  faces x _ := by
    rw [face_settle s c ho]
    by_cases hx : x ∈ s.levels o
    · rw [if_pos hx]
      rcases List.mem_cons.mp hx with rfl | hbelow
      · left
        rw [face, hmaking.face]
        rfl
      · refine Or.inr ⟨?_, fun hdone => hdone.1 hmaking.type, ?_, ?_⟩
        · rw [below_settle]
          exact hbelow
        · rw [type_settle s c (ho o (mem_levels_self s o)), if_pos rfl]
          simp
        · rw [levels_settle]
          exact hmaking.apart
    · exact Or.inl (by rw [if_neg hx])

end Lasts

end Store

end ObjectLang
