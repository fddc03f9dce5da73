import ObjectLang.Proofs.Machine.Mirrors
import ObjectLang.Proofs.Machine.Path
import ObjectLang.Proofs.Store.Retains

/-!
A machine that has more.
Where a machine only has more objects, cells and tables than another, the two are the same up to a
move of identities that leaves everything in the first one where it is.
-/
namespace ObjectLang

/-- All that is in the store stays where it is. -/
structure Shift.Spares (ρ : Shift) (s : Store) : Prop where
  objects : s.objects.size ≤ ρ.objects.start
  cells : s.cells.size ≤ ρ.cells.start
  tables : s.tables.size ≤ ρ.tables.start

section Fixed

variable {α : Type} [Movable α] {ρ : Shift}

theorem move_option {a : Option α} (h : ∀ x ∈ a, move ρ x = x) : move ρ a = a := by
  cases a with
  | none => rfl
  | some x => rw [move_some, h x rfl]

theorem move_list {l : List α} (h : ∀ x ∈ l, move ρ x = x) : move ρ l = l :=
  (List.map_congr_left h).trans (List.map_id l)

end Fixed

namespace Shift.Spares

variable {W : Stock} {ρ : Shift} {s : Store} (h : ρ.Spares s)

include h

theorem object {o : ObjectId} (ho : s.HasObject o) : move ρ o = o :=
  congrArg ObjectId.mk (ρ.objects.move_of_lt (Nat.lt_of_lt_of_le ho h.objects))

theorem cell {c : CellId} (hc : s.HasCell c) : move ρ c = c :=
  congrArg CellId.mk (ρ.cells.move_of_lt (Nat.lt_of_lt_of_le hc h.cells))

theorem table {t : TableId} (ht : s.HasTable t) : move ρ t = t := by
  obtain ⟨i, rfl, hi⟩ := ht
  exact congrArg TableId.free (ρ.tables.move_of_lt (Nat.lt_of_lt_of_le hi h.tables))

theorem bindings {b : Bindings} (hb : ∀ x ∈ b, s.HasCell x.2) : move ρ b = b :=
  move_list fun x hx => congrArg (Prod.mk x.1) (h.cell (hb x hx))

theorem activation {a : Activation} (ha : a.Fits s) : move ρ a = a := by
  have hscopes := move_list fun t ht => h.table (ha.scopes t ht)
  change Activation.mk (move ρ a.owner) a.name (move ρ a.scopes) (move ρ a.home) a.notes = a
  rw [h.object ha.owner, hscopes, h.table ha.home]

theorem code {c : Code} (hc : c.Fits W s) : move ρ c = c := by
  change Code.mk c.name c.params c.body (move ρ c.home) = c
  rw [move_option fun t ht => h.table (hc.home t ht)]

theorem plan {p : PropertyPlan} (hp : p.Fits W s) : move ρ p = p := by
  change PropertyPlan.mk p.name (move ρ p.getter) (move ρ p.setter) = p
  rw [move_option fun c hc => h.code (hp.getter c hc),
    move_option fun c hc => h.code (hp.setter c hc)]

theorem blueprint {b : Blueprint} (hb : b.Fits W s) : move ρ b = b := by
  change Blueprint.mk b.name (move ρ b.base) (move ρ b.operators) (move ρ b.methods)
    (move ρ b.properties) b.vals b.vars (move ρ b.home) = b
  rw [move_option fun c hc => h.object (hb.base c hc),
    move_list fun c hc => h.code (hb.operators c hc),
    move_list fun c hc => h.code (hb.methods c hc),
    move_list fun p hp => h.plan (hb.properties p hp),
    move_option fun t ht => h.table (hb.home t ht)]

theorem parts {p : ModuleParts} (hp : p.Fits s) : move ρ p = p := by
  change ModuleParts.mk p.name (move ρ p.hidden) (move ρ p.shown) = p
  rw [h.table hp.hidden, h.table hp.shown]

theorem kind {k : Kind} (hk : k.Fits W s) : move ρ k = k := by
  cases k with
  | ofClass b => exact congrArg Kind.ofClass (h.blueprint hk)
  | method owner code => exact congr (congrArg Kind.method (h.object hk.1)) (h.code hk.2)
  | function code => exact congrArg Kind.function (h.code hk)
  | closure code captured => exact congr (congrArg Kind.closure (h.code hk.1)) (h.activation hk.2)
  | ofModule p => exact congrArg Kind.ofModule (h.parts hk)
  | moduleAlias target p =>
    exact congr (congrArg Kind.moduleAlias (h.object hk.1)) (h.parts hk.2)
  | _ => rfl

theorem content {o : Object} (ho : o.Fits W s) : move ρ o = o := by
  have hfields : move ρ o.fields = o.fields := h.bindings (ho.bound .fields)
  have hoperators : move ρ o.operators = o.operators := h.bindings (ho.bound .operators)
  have hmembers : move ρ o.members = o.members := h.bindings (ho.bound .members)
  change Object.mk (move ρ o.kind) (move ρ o.below) (move ρ o.face) (move ρ o.type)
    (move ρ o.fields) (move ρ o.operators) (move ρ o.members) = o
  rw [h.kind ho.kind, move_list fun x hx => h.object (ho.below x hx),
    move_option fun x hx => h.object (ho.face x hx),
    move_option fun x hx => h.object (ho.type x hx), hfields, hoperators, hmembers]

theorem held {c : Cell} (hc : c.Fits s) : move ρ c = c := by
  cases c with
  | var v => exact congrArg Cell.var (h.object hc)
  | const v => exact congrArg Cell.const (h.object hc)
  | computed getter setter =>
    exact congr (congrArg Cell.computed (h.object hc.1)) (move_option fun f hf =>
      h.object (hc.2 f hf))
  | view c => exact congrArg Cell.view (h.cell hc)

theorem scope {t : Table} (ht : t.Fits s) : move ρ t = t := by
  have houter : move ρ t.outer = t.outer := by
    rw [ht.outer]
    rfl
  change Table.mk (move ρ t.bindings) (move ρ t.outer) t.rule = t
  rw [h.bindings ht.bound, houter]

theorem roots {r : Roots} (hr : r.Fits s) : move ρ r = r := by
  change Roots.mk (move ρ r.root) (move ρ r.type) (move ρ r.method) (move ρ r.class_)
    (move ρ r.module_) = r
  rw [h.object hr.root, h.object hr.type, h.object hr.method, h.object hr.class_,
    h.object hr.module_]

end Shift.Spares

def Gap.between {α : Type} (h h' : Heap α) : Gap := ⟨h.size, h'.size - h.size⟩

theorem Heap.get?_of_lt {α : Type} (h : Heap α) {i : Nat} (hi : i < h.size) (d : α) :
    h.get? i = some (h.getD i d) := by
  have hsome : h.get? i ≠ none := fun hnone => Nat.not_le_of_lt hi ((h.get?_eq_none_iff i).mp hnone)
  obtain ⟨x, hx⟩ := Option.ne_none_iff_exists'.mp hsome
  rw [Heap.getD, hx, Option.getD_some]

/-- A heap that goes on from another one holds the same values under the same numbers. -/
theorem Heap.Shifted.between {α : Type} {h h' : Heap α} {f : α → α} (d : α)
    (hsize : h.size ≤ h'.size)
    (hget : ∀ i, i < h.size → h'.getD i d = h.getD i d ∧ f (h.getD i d) = h.getD i d) :
    h.Shifted (.between h h') f h' where
  get? i := by
    by_cases hi : i < h.size
    · obtain ⟨hsame, hfixed⟩ := hget i hi
      rw [Gap.move_of_lt _ hi, h'.get?_of_lt (Nat.lt_of_lt_of_le hi hsize) d, h.get?_of_lt hi d,
        Option.map_some, hsame, hfixed]
    · have hle : h.size ≤ i := Nat.not_lt.mp hi
      have hout : h'.size ≤ i + (Gap.between h h').width := by
        change h'.size ≤ i + (h'.size - h.size)
        omega
      rw [Gap.move_of_le _ hle, (h.get?_eq_none_iff i).mpr hle, (h'.get?_eq_none_iff _).mpr hout,
        Option.map_none]
  start := Nat.le_refl _
  size := by
    change h'.size = h.size + (h'.size - h.size)
    omega

def Shift.between (s s' : Store) (h : 0 < s.objects.size) : Shift :=
  ⟨.between s.objects s'.objects, .between s.cells s'.cells, .between s.tables s'.tables, h⟩

theorem Shift.spares_between (s s' : Store) (h : 0 < s.objects.size) :
    (Shift.between s s' h).Spares s :=
  ⟨Nat.le_refl _, Nat.le_refl _, Nat.le_refl _⟩

theorem Store.Retains.shifted {W : Stock} {s s' : Store} (h : s.Retains s.objects.size s')
    (hw : s.Wellformed W) (hfirst : 0 < s.objects.size) :
    s.Shifted (.between s s' hfirst) s' := by
  have hspares := Shift.spares_between s s' hfirst
  refine ⟨.between .vacant h.sizes.objects ?_, .between (.const ⟨0⟩) h.sizes.cells ?_,
    .between .empty h.sizes.tables ?_⟩
  · intro i hi
    exact ⟨h.objects ⟨i⟩ hi, hspares.content (hw.objects ⟨i⟩)⟩
  · intro i hi
    exact ⟨h.cells ⟨i⟩ hi, hspares.held (hw.cells ⟨i⟩ hi)⟩
  · intro i hi
    exact ⟨h.tables i hi, hspares.scope (hw.tables i)⟩

/-- A machine that only has more is the same up to a move that leaves the rest where it is. -/
theorem Machine.Retains.shifted {W : Stock} {m m' : Machine}
    (h : m.Retains m.store.objects.size m') (hm : m.Sound W) :
    ∃ ρ : Shift, ρ.Spares m.store ∧ m.Shifted ρ m' := by
  have hfirst : 0 < m.store.objects.size := Nat.lt_of_le_of_lt (Nat.zero_le _) hm.roots.root
  have hspares := Shift.spares_between m.store m'.store hfirst
  refine ⟨_, hspares, h.store.shifted hm.store.toWellformed hfirst, ?_, ?_, ?_, ?_, h.sink⟩
  · rw [h.stack, move_list fun a ha => hspares.activation (hm.stack a ha)]
  · rw [h.builtins, hspares.table hm.builtins]
  · rw [h.modules, hspares.table hm.modules]
  · rw [h.roots, hspares.roots hm.roots]

end ObjectLang
