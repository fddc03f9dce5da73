import ObjectLang.Proofs.Moments
import ObjectLang.Proofs.Machine.Path

/-!
What a run leaves alone as long as it says nothing.
Silent moves touch no field table and assign no cell. So a field table changes only when one of its
fields is filled, and a cell only when it is written, both at a moment of the run.
-/
namespace ObjectLang

namespace Store

/-- All fields are bound as before, and all cells hold what they held. -/
structure Steady (s s' : Store) : Prop where
  fields : ∀ o, s'.bindings (.part o .fields) = s.bindings (.part o .fields)
  size : s.cells.size ≤ s'.cells.size
  cells : ∀ c, s.HasCell c → s'.cell c = s.cell c

namespace Steady

variable {s s' s'' : Store}

theorem refl (s : Store) : s.Steady s := ⟨fun _ => rfl, Nat.le_refl _, fun _ _ => rfl⟩

theorem trans (h : s.Steady s') (h' : s'.Steady s'') : s.Steady s'' where
  fields o := (h'.fields o).trans (h.fields o)
  size := Nat.le_trans h.size h'.size
  cells c hc := (h'.cells c (Nat.lt_of_lt_of_le hc h.size)).trans (h.cells c hc)

theorem of_alike (h : s.Alike s') : s.Steady s' :=
  ⟨fun _ => congrFun h.bindings_eq _, h.grows.sizes.cells, fun c _ => congrFun h.cell_eq c⟩

end Steady

variable (s : Store) {p : Part}

theorem newCell_steady (c : Cell) : s.Steady (s.newCell c).2 :=
  ⟨fun _ => rfl, (newCell_grows s c).sizes.cells, fun _ hx => cell_newCell_of_has s c hx⟩

theorem newObject_steady (base : Option ObjectId) (kind : Kind) :
    s.Steady (s.newObject base kind).2 :=
  ⟨fun o => bindings_newObject s base kind (.part o .fields), Nat.le_refl _, fun _ _ => rfl⟩

theorem bind_steady {t : TableId} (ht : ∀ o, t ≠ .part o .fields) (name : String) (c : CellId) :
    s.Steady (s.bind t name c) := by
  refine ⟨fun o => ?_, by simp, fun x _ => congrFun (cell_bind s t name c) x⟩
  cases t with
  | free i => rfl
  | part o' p =>
    refine modifyObject_keeps s o' _ (·.bindings .fields) (fun x => ?_) o
    rw [object_bind_bindings, if_neg]
    rintro rfl
    exact ht o' rfl

theorem rooted_steady (root type : ObjectId) (kind : Kind) :
    s.Steady (s.rooted root type kind).2 :=
  (newObject_steady s (some root) kind).trans
    ((Steady.of_alike (setFace_alike _ _ _)).trans (.of_alike (setType_alike _ _ _)))

/-- A new cell, bound to a name in a table other than a field table. -/
theorem bindNew_steady (o : ObjectId) (hp : p ≠ .fields) (name : String) (c : Cell) :
    s.Steady ((s.newCell c).2.bind (.part o p) name ⟨s.cells.size⟩) :=
  (newCell_steady s c).trans (bind_steady _ (by simp [hp]) name _)

theorem addConst_steady (o : ObjectId) (hp : p ≠ .fields) (name : String) (v : ObjectId) :
    s.Steady (s.addConst (.part o p) name v) :=
  bindNew_steady s o hp name (.const v)

theorem addMethod_steady (roots : Roots) (owner : ObjectId) (code : Code) :
    s.Steady (s.addMethod roots owner code).2 := by
  have hrooted := rooted_steady s roots.root roots.method (.method owner code)
  have hops : Part.operators ≠ .fields := by simp
  exact hrooted.trans (addConst_steady _ s.fresh hops "()" s.fresh)

theorem addName_steady (roots : Roots) (o : ObjectId) : s.Steady (s.addName roots o) := by
  have hgetter := addMethod_steady s roots o .nameGetter
  have hmembers : Part.members ≠ .fields := by simp
  exact hgetter.trans
    (bindNew_steady _ o hmembers "name" (.computed s.fresh none))

theorem addClass_steady (roots : Roots) (b : Blueprint) : s.Steady (s.addClass roots b).2 := by
  have hops : Part.operators ≠ .fields := by simp
  have hmembers : Part.members ≠ .fields := by simp
  have hparts : s.Steady (s.classParts roots b) :=
    (rooted_steady s roots.root roots.class_ (.ofClass b)).trans
      (addMethod_steady _ roots s.fresh .constructor)
  have hanswering : (s.classParts roots b).Steady (s.classAnswering roots b) :=
    addConst_steady _ s.fresh hops "()" ⟨s.objects.size + 1⟩
  have hmaking : (s.classAnswering roots b).Steady (s.classMaking roots b) :=
    addConst_steady _ s.fresh hmembers "new" ⟨s.objects.size + 1⟩
  rw [addClass_snd]
  exact hparts.trans (hanswering.trans (hmaking.trans (addName_steady _ roots _)))

end Store

theorem Move.steady {W : Stock} {n : Nat} {m m' : Machine} (h : Move W n m m') :
    m.store.Steady m'.store := by
  cases h with
  | cell _ _ => exact m.store.newCell_steady _
  | object _ _ _ => exact m.store.newObject_steady _ _
  | rooted _ _ _ => exact m.store.rooted_steady _ _ _
  | newClass _ _ _ => exact m.store.addClass_steady _ _
  | bind _ hfield _ _ _ => exact m.store.bind_steady hfield _ _
  | settle _ _ _ =>
    exact (Store.Steady.of_alike (m.store.wearFace_alike _)).trans
      (.of_alike (Store.setType_alike _ _ _))
  | table => exact ⟨fun _ => rfl, Nat.le_refl _, fun _ _ => rfl⟩
  | pop =>
    rw [Machine.pop]
    split <;> exact .refl _
  | openScope _ =>
    rw [Machine.modifyTop]
    split <;> exact .refl _
  | closeScope =>
    rw [Machine.modifyTop]
    split <;> exact .refl _
  | record _ _ _ =>
    rw [Machine.modifyTop]
    split <;> exact .refl _
  | _ => exact .refl _

namespace Moment

variable {W : Stock} {n : Nat} {p : Moment}

/-- Only the deed of filling a field touches a field table, and only that of its object. -/
theorem fields_after (hm : p.machine.Sound W) (h : p.Honest W n) {o : ObjectId}
    (ho : ∀ name c, p.deed ≠ .fills o name c) :
    p.after.store.bindings (.part o .fields) = p.machine.store.bindings (.part o .fields) := by
  obtain ⟨deed, m⟩ := p
  cases deed with
  | writes via c v => exact congrFun (m.store.bindings_assign c v) _
  | captures a =>
    obtain ⟨hadds, -⟩ := Store.captureActivation_adds hm.store (hm.head h)
    exact congrArg (Object.bindings · .fields) (congrFun hadds.object_eq o)
  | fills o' name c =>
    have hne : o ≠ o' := by
      rintro rfl
      exact ho name c rfl
    simp only [after]
    split
    · exact congrArg (Object.bindings · .fields) (Store.object_modifyObject_of_ne _ _ _ hne)
    · rfl
  | _ => rfl

/-- Only the deed of writing a cell changes what it holds. -/
theorem cell_after (hm : p.machine.Sound W) (h : p.Honest W n) {c : CellId}
    (hc : p.machine.store.HasCell c) (hwrites : ∀ via v, p.deed ≠ .writes via c v) :
    p.after.store.cell c = p.machine.store.cell c := by
  obtain ⟨deed, m⟩ := p
  cases deed with
  | writes via c' v =>
    have hne : c ≠ c' := by
      rintro rfl
      exact hwrites via v rfl
    simp only [after]
    rw [Store.cell_assign, if_neg hne]
  | captures a =>
    obtain ⟨hadds, -⟩ := Store.captureActivation_adds hm.store (hm.head h)
    exact hadds.content c hc
  | fills o' name c' =>
    simp only [after]
    split
    · exact congrFun (Store.cell_bind ..) c
    · rfl
  | _ => rfl

end Moment

namespace Path

variable {W : Stock} {n : Nat} {m m' : Machine} {t : List Moment}

open Machine in
theorem fields_eq (h : Path W n m t m') (hm : Ready W n m) {o : ObjectId}
    (ht : ∀ w ∈ t, ∀ name c, w.deed ≠ .fills o name c) :
    m'.store.bindings (.part o .fields) = m.store.bindings (.part o .fields) := by
  induction h with
  | stay m => rfl
  | move h _ ih =>
    rw [ih ((h.onward hm).ready hm) ht, h.steady.fields o]
  | pass h _ ih =>
    have hready := (Moment.onward h hm.sound).ready hm
    rw [ih hready (fun w hw => ht w (List.mem_cons_of_mem _ hw))]
    exact Moment.fields_after hm.sound h (ht _ (List.mem_cons_self ..))

open Machine in
theorem cell_eq (h : Path W n m t m') (hm : Ready W n m) {c : CellId}
    (hc : m.store.HasCell c) (ht : ∀ w ∈ t, ∀ via v, w.deed ≠ .writes via c v) :
    m'.store.cell c = m.store.cell c := by
  induction h with
  | stay m => rfl
  | move h _ ih =>
    have hon := h.onward hm
    rw [ih (hon.ready hm) (hc.mono hon.grows.sizes) ht, h.steady.cells c hc]
  | pass h _ ih =>
    have hon := Moment.onward h hm.sound
    rw [ih (hon.ready hm) (hc.mono hon.grows.sizes) (fun w hw => ht w (List.mem_cons_of_mem _ hw))]
    exact Moment.cell_after hm.sound h hc (ht _ (List.mem_cons_self ..))

end Path

/-- A stretch of the run of a routine on `m`: from the start or a moment, to a moment or the end,
with the moments on the way. -/
inductive Routine.Stretch {α : Type} (x : Routine α) (m : Machine) :
    Machine → List Moment → Machine → Prop where
  | start {t rest : List Moment} {q : Moment} (h : x.moments m = t ++ q :: rest) :
      Stretch x m m t q.machine
  | whole {m' : Machine} (hend : (x m).machine? = some m') : Stretch x m m (x.moments m) m'
  | middle {t t' rest : List Moment} {p q : Moment}
      (h : x.moments m = t ++ p :: (t' ++ q :: rest)) : Stretch x m p.machine (p :: t') q.machine
  | ending {t t' : List Moment} {p : Moment} {m' : Machine} (h : x.moments m = t ++ p :: t')
      (hend : (x m).machine? = some m') : Stretch x m p.machine (p :: t') m'

/-- Every stretch of a run that takes a path is a path between sound machines. -/
theorem Routine.Stretch.path {α : Type} {W : Stock} {x : Routine α} {m m₁ m₂ : Machine}
    {t : List Moment} (h : x.Stretch m m₁ t m₂) (hm : m.Sound W)
    (hgoes : ∃ m', Path W 0 m (x.moments m) m')
    (hend : ∀ m', (x m).machine? = some m' → Path W 0 m (x.moments m) m') :
    Path W 0 m₁ t m₂ ∧ m₁.Sound W := by
  cases h with
  | start h =>
    obtain ⟨m', hpath⟩ := hgoes
    rw [h] at hpath
    exact ⟨hpath.split.1, hm⟩
  | whole h => exact ⟨hend m₂ h, hm⟩
  | @middle t₀ t' rest p q h =>
    obtain ⟨m', hpath⟩ := hgoes
    rw [h] at hpath
    obtain ⟨hbefore, hp, hafter⟩ := hpath.split
    have hrest : Path W 0 p.machine ((p :: t') ++ q :: rest) m' := .pass hp hafter
    exact ⟨hrest.split.1, (hbefore.onward hm.ready).sound⟩
  | ending h hm' =>
    have hpath := hend m₂ hm'
    rw [h] at hpath
    obtain ⟨hbefore, hp, hafter⟩ := hpath.split
    exact ⟨.pass hp hafter, (hbefore.onward hm.ready).sound⟩

end ObjectLang
