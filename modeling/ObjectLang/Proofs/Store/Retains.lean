import ObjectLang.Proofs.Store.Faced
import ObjectLang.Proofs.Store.Wellformed
import ObjectLang.Proofs.Store.Tidy

/-!
What is there stays as it is.
Making things adds to a store. All cells, tables and older objects are read as before, and so is
whatever is looked up in them.
-/
namespace ObjectLang

namespace Store

/-- Cells, tables and all objects older than `n` are the same; there may be more of them. -/
structure Retains (n : Nat) (s s' : Store) : Prop where
  objects : ∀ o : ObjectId, o.index < n → s'.object o = s.object o
  cells : ∀ c, s.HasCell c → s'.cell c = s.cell c
  tables : ∀ i, i < s.tables.size → s'.table i = s.table i
  sizes : s.SizeLe s'

theorem findSome?_congr {α β : Type} {l : List α} {f g : α → Option β} (h : ∀ a ∈ l, f a = g a) :
    l.findSome? f = l.findSome? g := by
  induction l with
  | nil => rfl
  | cons a rest ih =>
    rw [List.findSome?_cons, List.findSome?_cons, h a List.mem_cons_self,
      ih fun b hb => h b (List.mem_cons_of_mem _ hb)]

namespace Retains

variable {n k i : Nat} {s s' s'' : Store} {o : ObjectId}

theorem refl (n : Nat) (s : Store) : s.Retains n s :=
  ⟨fun _ _ => rfl, fun _ _ => rfl, fun _ _ => rfl, .refl s⟩

theorem trans (h : s.Retains n s') (h' : s'.Retains n s'') : s.Retains n s'' where
  objects o ho := (h'.objects o ho).trans (h.objects o ho)
  cells c hc := (h'.cells c (hc.mono h.sizes)).trans (h.cells c hc)
  tables i hi := (h'.tables i (Nat.lt_of_lt_of_le hi h.sizes.tables)).trans (h.tables i hi)
  sizes := h.sizes.trans h'.sizes

theorem mono (h : s.Retains n s') (hk : k ≤ n) : s.Retains k s' :=
  ⟨fun o ho => h.objects o (Nat.lt_of_lt_of_le ho hk), h.cells, h.tables, h.sizes⟩

section Steps

theorem newCell (n : Nat) (s : Store) (c : Cell) : s.Retains n (s.newCell c).2 :=
  ⟨fun _ _ => by rw [object_newCell], fun _ hx => s.cell_newCell_of_has c hx,
    fun _ _ => by rw [table_newCell], (s.newCell_grows c).sizes⟩

theorem newTable (n : Nat) (s : Store) (t : Table) : s.Retains n (s.newTable t).2 := by
  refine ⟨fun _ _ => by rw [object_newTable], fun _ _ => by rw [cell_newTable], ?_,
    ⟨by simp, by simp, by simp⟩⟩
  intro i hi
  rw [table_newTable, if_neg (Nat.ne_of_lt hi)]

theorem newObject (hn : n ≤ s.objects.size) (base : Option ObjectId) (kind : Kind) :
    s.Retains n (s.newObject base kind).2 :=
  ⟨fun _ ho => s.object_newObject_of_has base kind (Nat.lt_of_lt_of_le ho hn),
    fun _ _ => by rw [cell_newObject], fun _ _ => by rw [table_newObject],
    (s.newObject_grows base kind).sizes⟩

theorem modifyObject (hn : n ≤ o.index) (f : Object → Object) :
    s.Retains n (s.modifyObject o f) := by
  refine ⟨fun x hx => s.object_modifyObject_of_ne o f ?_, fun _ _ => by rw [cell_modifyObject],
    fun _ _ => by rw [table_modifyObject], ⟨by simp, by simp, by simp⟩⟩
  rintro rfl
  exact Nat.lt_irrefl _ (Nat.lt_of_lt_of_le hx hn)

theorem bindPart (hn : n ≤ o.index) (p : Part) (name : String) (c : CellId) :
    s.Retains n (s.bind (.part o p) name c) := modifyObject hn _

/-- A table that was not there before may be bound in. -/
theorem bindNew (h : s.Retains n s') (hi : s.tables.size ≤ i) (name : String) (c : CellId) :
    s.Retains n (s'.bind (.free i) name c) := by
  refine ⟨h.objects, h.cells, fun j hj => ?_, h.sizes.trans ⟨?_, ?_, ?_⟩⟩
  · rw [table_bind, if_neg, h.tables j hj]
    rintro ⟨heq, -⟩
    cases heq
    exact Nat.lt_irrefl _ (Nat.lt_of_lt_of_le hj hi)
  · simp
  · simp
  · simp

theorem rooted (hn : n ≤ s.objects.size) (root type : ObjectId) (kind : Kind) :
    s.Retains n (s.rooted root type kind).2 :=
  (newObject hn (some root) kind).trans ((modifyObject hn _).trans (modifyObject hn _))

theorem addConst (hn : n ≤ o.index) (p : Part) (name : String) (v : ObjectId) :
    s.Retains n (s.addConst (.part o p) name v) := (newCell n s _).trans (bindPart hn p name _)

theorem addMethod (hn : n ≤ s.objects.size) (roots : Roots) (owner : ObjectId) (code : Code) :
    s.Retains n (s.addMethod roots owner code).2 := (rooted hn _ _ _).trans (addConst hn _ _ _)

theorem settle (hn : ∀ l ∈ s.levels o, n ≤ l.index) (c : ObjectId) :
    s.Retains n (s.settle o c) := by
  have hg := s.settle_grows o c
  have halike := (wearFace_alike s o).trans (setType_alike _ o c)
  refine ⟨fun x hx => ?_, fun x _ => congrFun halike.cell_eq x, fun i _ => ?_, hg.sizes⟩
  · have hnot : x ∉ s.levels o := fun hmem => Nat.lt_irrefl _ (Nat.lt_of_lt_of_le hx (hn x hmem))
    have hxo : x ≠ o := fun heq => hnot (heq ▸ mem_levels_self s o)
    rw [Store.settle, object_setType, if_neg (fun h => hxo h.1), object_wearFace,
      if_neg (fun h => hnot h.1)]
  · exact congrFun halike.table_eq i

end Steps

section Reads

variable (h : s.Retains n s')
include h

theorem local?_free (hi : i < s.tables.size) (name : String) :
    s'.local? (.free i) name = s.local? (.free i) name := by
  rw [local?, bindings_free, h.tables i hi, ← bindings_free, ← local?]

theorem local?_part (ho : o.index < n) (p : Part) (name : String) :
    s'.local? (.part o p) name = s.local? (.part o p) name := by
  rw [local?, bindings_part, h.objects o ho, ← bindings_part, ← local?]

theorem kind (ho : o.index < n) : s'.kind o = s.kind o := by
  rw [Store.kind, h.objects o ho, ← Store.kind]

theorem face (ho : o.index < n) : s'.face o = s.face o := by
  rw [Store.face, h.objects o ho, ← Store.face]

theorem base (ho : o.index < n) : s'.base o = s.base o := by
  rw [Store.base, h.objects o ho, ← Store.base]

theorem grows (hn : s.objects.size ≤ n) : s.Grows s' where
  sizes := h.sizes
  kind o ho := h.kind (Nat.lt_of_lt_of_le ho hn)
  below o ho := by rw [h.objects o (Nat.lt_of_lt_of_le ho hn)]
  bound t name c hc := by
    have hholds := holds_of_binds (.of_local? hc)
    cases t with
    | free i => rw [h.local?_free hholds, hc]
    | part o p => rw [h.local?_part (Nat.lt_of_lt_of_le hholds hn), hc]
  content c hc := Or.inl (h.cells c hc)

end Reads

section Lookups

variable {W : Stock} (h : s.Retains s.objects.size s') {t : TableId}

include h

theorem local?_eq (ht : s.Holds t) (name : String) :
    s'.local? t name = s.local? t name := by
  cases t with
  | free i => exact h.local?_free ht name
  | part o p => exact h.local?_part ht p name

theorem outer_eq (ht : s.Holds t) : s'.outer t = s.outer t := by
  cases t with
  | free i => exact congrArg Table.outer (h.tables i ht)
  | part o p => cases p <;> simp only [outer, h.objects o ht]

theorem lookup_eq (hw : s.Wellformed W) (ht : s.Holds t) (name : String) :
    s'.lookup t name = s.lookup t name := by
  have hall : ∀ u ∈ t :: s.outer t, s.Holds u := by
    rintro u (_ | ⟨_, hu⟩)
    · exact ht
    · cases t with
      | free i =>
        rw [show s.outer (.free i) = [] from (hw.tables i).outer] at hu
        cases hu
      | part o p =>
        obtain ⟨l, hl, rfl⟩ : ∃ l ∈ (s.object o).below, .part l p = u := by
          cases p with
          | fields => cases hu
          | operators => exact List.mem_map.mp hu
          | members => exact List.mem_map.mp hu
        exact (hw.objects o).below l hl
  rw [lookup, lookup, h.outer_eq ht]
  exact findSome?_congr fun u hu => h.local?_eq (hall u hu) name

theorem lookupIn_eq (hw : s.Wellformed W) {ts : List TableId} (hts : ∀ t ∈ ts, s.Holds t)
    (name : String) : s'.lookupIn ts name = s.lookupIn ts name :=
  findSome?_congr fun t ht => h.lookup_eq hw (hts t ht) name

theorem memberScope_eq {accessor target : ObjectId} (ha : s.HasObject accessor)
    (ht : s.HasObject target) : s'.memberScope accessor target = s.memberScope accessor target := by
  rw [memberScope, memberScope, privateScope, publicScope, isModule, h.kind ht, h.face ha,
    ← privateScope, ← publicScope, ← isModule]

end Lookups

end Retains

/-- The tables that show the members of an object are there. -/
theorem memberScope_holds {W : Stock} {s : Store} (hw : s.Wellformed W) {accessor target : ObjectId}
    (ha : s.HasObject accessor) (ht : s.HasObject target) :
    ∀ t ∈ s.memberScope accessor target, s.Holds t := by
  intro t hmem
  have hkind := (hw.objects target).kind
  simp only [memberScope, privateScope, publicScope, kind] at hmem
  cases hk : (s.object target).kind <;> rw [hk] at hkind hmem <;>
    grind [Holds, Kind.Fits, ModuleParts.Fits, HasTable.holds]

/-- The table `i` is new and binds just the given constants; otherwise there is only more. -/
structure Furnished (s : Store) (i : Nat) (vs : List (String × ObjectId)) (s' : Store) : Prop where
  retains : s.Retains s.objects.size s'
  new : s.tables.size ≤ i
  has : i < s'.tables.size
  rule : (s'.table i).rule = .symbol
  names : (s'.table i).bindings.map Prod.fst = vs.map Prod.fst
  values : ∀ n v, (n, v) ∈ vs → ∃ c, s'.local? (.free i) n = some c ∧ s'.HasCell c ∧
    s'.cell c = .const v

namespace Furnished

variable {s s' : Store} {i : Nat} {vs : List (String × ObjectId)} {name : String}

theorem newTable (s : Store) : s.Furnished s.tables.size [] (s.newTable .empty).2 where
  retains := .newTable _ s .empty
  new := Nat.le_refl _
  has := by simp
  rule := by rw [table_newTable, if_pos rfl]; rfl
  names := by rw [table_newTable, if_pos rfl]; rfl
  values _ _ h := by cases h

theorem local?_eq_none (h : s.Furnished i vs s') (hnew : name ∉ vs.map Prod.fst) :
    s'.local? (.free i) name = none := by
  rw [local?, List.lookup_eq_none_iff]
  rintro ⟨n, c⟩ hmem
  have hne : name ≠ n := by
    rintro rfl
    rw [← h.names] at hnew
    exact hnew (List.mem_map.mpr ⟨(name, c), hmem, rfl⟩)
  simpa using hne

theorem refusal? (h : s.Furnished i vs s') (hname : NameRule.symbol.accepts name = true)
    (hnew : name ∉ vs.map Prod.fst) :
    s'.refusal? (.free i) name = none := by
  have hrule : s'.rule (.free i) = .symbol := h.rule
  simp [Store.refusal?, hrule, hname, h.local?_eq_none hnew]

/-- A name is not taken twice. -/
theorem refusal?_of_mem (h : s.Furnished i vs s') (hname : NameRule.symbol.accepts name = true)
    (hmem : name ∈ vs.map Prod.fst) :
    s'.refusal? (.free i) name = some (.nameTaken name) := by
  have hrule : s'.rule (.free i) = .symbol := h.rule
  obtain ⟨⟨n, v⟩, hv, rfl⟩ := List.mem_map.mp hmem
  obtain ⟨c, hc, -⟩ := h.values n v hv
  simp [Store.refusal?, hrule, hname, hc]

/-- What was there may have been added to before the table was made. -/
theorem of_retains {s₀ : Store} (hs : s₀.Retains s₀.objects.size s) (h : s.Furnished i vs s') :
    s₀.Furnished i vs s' :=
  ⟨hs.trans (h.retains.mono hs.sizes.objects), Nat.le_trans hs.sizes.tables h.new, h.has, h.rule,
    h.names, h.values⟩

theorem addConst (h : s.Furnished i vs s') (hnew : name ∉ vs.map Prod.fst) (v : ObjectId) :
    s.Furnished i ((name, v) :: vs) (s'.addConst (.free i) name v) := by
  have hcell := Retains.newCell s.objects.size s' (.const v)
  have hbound := s'.bindings_addConst (.free i) name v (.free i) h.has
  rw [if_pos rfl] at hbound
  refine ⟨(h.retains.trans hcell).bindNew h.new name _, h.new, ?_, ?_, ?_, ?_⟩
  · rw [Store.addConst, bind_tables_size]
    exact h.has
  · rw [Store.addConst, table_bind]
    split
    · exact h.rule
    · exact h.rule
  · change ((s'.addConst (.free i) name v).bindings (.free i)).map Prod.fst = _
    rw [hbound, List.map_cons]
    exact congrArg (name :: ·) h.names
  · intro n w hmem
    rw [local?, hbound]
    rcases List.mem_cons.mp hmem with heq | hlater
    · cases heq
      refine ⟨_, List.lookup_cons_self, ?_, ?_⟩
      · simp [HasCell, Store.addConst]
      · rw [Store.addConst, cell_bind, cell_newCell_self]
    · obtain ⟨c, hc, hhas, hw⟩ := h.values n w hlater
      have hne : n ≠ name := by
        rintro rfl
        exact hnew (List.mem_map.mpr ⟨(n, w), hlater, rfl⟩)
      refine ⟨c, by rw [List.lookup_cons, beq_false_of_ne hne]; exact hc, ?_, ?_⟩
      · rw [HasCell, Store.addConst, bind_cells]
        exact hhas.mono hcell.sizes
      · rw [Store.addConst, cell_bind, cell_newCell_of_has _ _ hhas, hw]

end Furnished

end Store

namespace Machine

/-- Nothing but the log and what is new in the store tells the machines apart. -/
structure Retains (n : Nat) (m m' : Machine) : Prop where
  store : m.store.Retains n m'.store
  stack : m'.stack = m.stack
  builtins : m'.builtins = m.builtins
  modules : m'.modules = m.modules
  roots : m'.roots = m.roots
  sink : m'.sink = m.sink

namespace Retains

variable {n k : Nat} {m m' m'' : Machine}

theorem refl (n : Nat) (m : Machine) : m.Retains n m := ⟨.refl n _, rfl, rfl, rfl, rfl, rfl⟩

theorem trans (h : m.Retains n m') (h' : m'.Retains n m'') : m.Retains n m'' :=
  ⟨h.store.trans h'.store, h'.stack.trans h.stack, h'.builtins.trans h.builtins,
    h'.modules.trans h.modules, h'.roots.trans h.roots, h'.sink.trans h.sink⟩

theorem of_store {s : Store} (h : m.store.Retains n s) : m.Retains n { m with store := s } :=
  ⟨h, rfl, rfl, rfl, rfl, rfl⟩

theorem mono (h : m.Retains n m') (hk : k ≤ n) : m.Retains k m' :=
  ⟨h.store.mono hk, h.stack, h.builtins, h.modules, h.roots, h.sink⟩

end Retains

end Machine

end ObjectLang
