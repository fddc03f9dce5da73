import ObjectLang.Proofs.Store.Rooted
import ObjectLang.Proofs.Store.Tidy
import ObjectLang.Proofs.Syntax.Mentions

/-!
Proper stores: what scripts leave in them is what the tables ask for.
All names in code and in blueprints are names that their tables take, the table `R` of modules is
none that code runs on, its entries are modules with tables of their own, and definitions lie on the
root. A registered module is sealed: its tables get no further names.
-/
namespace ObjectLang

def Part.rule : Part → NameRule
  | .operators => .operator
  | _ => .symbol

theorem Store.rule_part (s : Store) (o : ObjectId) (p : Part) : s.rule (.part o p) = p.rule := by
  cases p <;> rfl

/-- A table that stands on its own and is not that of the modules. -/
def TableId.Plain (t R : TableId) : Prop := (∃ i, t = .free i) ∧ t ≠ R

structure Activation.Proper (R : TableId) (a : Activation) : Prop where
  scopes : ∀ t ∈ a.scopes, t.Plain R
  home : a.home.Plain R

/-- A body that mentions nothing improper and raises no fault on purpose. -/
def Body.Proper : Body → Prop
  | .primitive p => ∀ f, p ≠ .raise f
  | .block b => Mention.Each Mention.Proper (Statement.mentionsAll b)

structure Code.Proper (R : TableId) (c : Code) : Prop where
  params : ∀ names, c.params = .fixed names → Mention.Each Mention.Proper (Mention.symbols names)
  body : c.body.Proper
  home : ∀ t, c.home = some t → t.Plain R

/-- A property with a setter has a getter. -/
structure PropertyPlan.Proper (R : TableId) (p : PropertyPlan) : Prop where
  name : NameRule.symbol.accepts p.name = true
  getter : ∀ c, p.getter = some c → c.Proper R
  setter : ∀ c, p.setter = some c → c.Proper R ∧ p.getter ≠ none

structure FieldPlan.Proper (f : FieldPlan) : Prop where
  name : NameRule.symbol.accepts f.name = true
  value : Mention.Each Mention.Proper (Expr.mentionsIn f.value)

structure Blueprint.Proper (R : TableId) (b : Blueprint) : Prop where
  operators : ∀ c ∈ b.operators, c.Proper R ∧ NameRule.operator.accepts c.name = true
  methods : ∀ c ∈ b.methods, c.Proper R ∧ NameRule.symbol.accepts c.name = true
  properties : ∀ p ∈ b.properties, p.Proper R
  vals : ∀ f ∈ b.vals, f.Proper
  vars : ∀ f ∈ b.vars, f.Proper
  home : ∀ t, b.home = some t → t.Plain R

structure ModuleParts.Proper (R : TableId) (p : ModuleParts) : Prop where
  hidden : p.hidden.Plain R
  shown : p.shown.Plain R
  body : p.body.Plain R

namespace Kind

def Proper (R : TableId) : Kind → Prop
  | .ofClass b => b.Proper R
  | .method _ code | .function code => code.Proper R
  | .closure code captured => code.Proper R ∧ captured.Proper R
  | .ofModule p | .moduleAlias _ p => p.Proper R
  | _ => True

def Definition : Kind → Prop
  | .type _ | .ofClass _ | .method .. | .ofModule _ | .moduleAlias .. => True
  | _ => False

end Kind

def ModuleParts.Owns (p : ModuleParts) (t : TableId) : Prop :=
  t = p.hidden ∨ t = p.shown ∨ t = p.body

theorem ModuleParts.Proper.plain {R : TableId} {p : ModuleParts} (h : p.Proper R) {t : TableId}
    (ht : p.Owns t) : t.Plain R := by
  rcases ht with rfl | rfl | rfl
  · exact h.hidden
  · exact h.shown
  · exact h.body

namespace Store

/-- The cell holds a module, for ever, whose tables exist. -/
def Enrolled (s : Store) (c : CellId) (p : ModuleParts) : Prop :=
  s.HasCell c ∧ (∃ o, s.cell c = .const o ∧ s.kind o = .ofModule p) ∧ ∀ t, p.Owns t → s.Holds t

structure Proper (R : TableId) (root : ObjectId) (s : Store) : Prop where
  registry : s.HasTable R
  dotted : s.rule R = .dotted
  rules : ∀ t, t.Plain R → s.rule t = .symbol
  outer : ∀ i, (s.table i).outer = []
  named : ∀ t n c, s.Binds t n c → (s.rule t).accepts n = true
  kinds : ∀ o, (s.kind o).Proper R
  bottom : s.HasObject root ∧ (s.object root).below = []
  defined : ∀ o, (s.kind o).Definition → (s.object o).below = [root]
  enrolled : ∀ n c, s.Binds R n c → ∃ p, s.Enrolled c p

/-- A table of a registered module. -/
def Sealed (R : TableId) (s : Store) (t : TableId) : Prop :=
  ∃ n c p, s.local? R n = some c ∧ s.Enrolled c p ∧ p.Owns t

variable {R : TableId} {root o : ObjectId} {s s' s'' : Store} {t : TableId} {c : CellId}
  {p : ModuleParts} {name : String}

theorem Enrolled.grows (h : s.Enrolled c p) (hg : s.Grows s') : s'.Enrolled c p := by
  obtain ⟨hc, ⟨o, hcell, hkind⟩, hheld⟩ := h
  exact ⟨hc.mono hg.sizes, ⟨o, hg.const hc hcell, hg.kind_of_ne hkind (by simp)⟩,
    fun t ht => (hheld t ht).mono hg.sizes⟩

theorem Enrolled.unique {p' : ModuleParts} (h : s.Enrolled c p)
    (h' : s.Enrolled c p') : p = p' := by
  obtain ⟨-, ⟨o, hcell, hkind⟩, -⟩ := h
  obtain ⟨-, ⟨o', hcell', hkind'⟩, -⟩ := h'
  cases hcell.symm.trans hcell'
  cases hkind.symm.trans hkind'
  rfl

theorem Sealed.holds (h : s.Sealed R t) : s.Holds t := by
  obtain ⟨_, _, _, -, hc, ht⟩ := h
  exact hc.2.2 t ht

theorem Sealed.grows (h : s.Sealed R t) (hg : s.Grows s') : s'.Sealed R t := by
  obtain ⟨n, c, p, hlocal, hc, ht⟩ := h
  exact ⟨n, c, p, hg.bound R n c hlocal, hc.grows hg, ht⟩

namespace Proper

variable (h : s.Proper R root)
include h

theorem levels_definition (ho : (s.kind o).Definition) :
    s.levels o = [o, root] := by rw [levels, h.defined o ho]

theorem plain_of_sealed (ht : s.Sealed R t) : t.Plain R := by
  obtain ⟨_, _, p, -, ⟨-, ⟨o, -, hkind⟩, -⟩, howns⟩ := ht
  have hproper := h.kinds o
  rw [hkind] at hproper
  exact ModuleParts.Proper.plain hproper howns

/-- A part of an object is no table of a module. -/
theorem part_unsealed (o : ObjectId) (p : Part) : ¬ s.Sealed R (.part o p) := by
  intro hsealed
  obtain ⟨⟨i, hi⟩, -⟩ := h.plain_of_sealed hsealed
  cases hi

theorem part_ne_registry (o : ObjectId) (p : Part) : .part o p ≠ R :=
  (h.registry.ne_part o p).symm

/-- As long as no module is registered, no table is sealed. -/
theorem sealed_of_same (hg : s.Grows s') (hregistry : s'.bindings R = s.bindings R)
    (ht : s'.Sealed R t) : s.Sealed R t := by
  obtain ⟨n, c, p, hlocal, hc, howns⟩ := ht
  have hbefore : s.local? R n = some c := by rwa [local?, hregistry] at hlocal
  obtain ⟨p', hp'⟩ := h.enrolled n c (.of_local? hbefore)
  exact ⟨n, c, p', hbefore, hp', (hp'.grows hg).unique hc ▸ howns⟩

/-- A store that grows stays proper if new names are such as their tables take, and new objects are
proper. What is registered anew has to be a module. -/
theorem of_grows (hg : s.Grows s') (hrule : ∀ t, s'.rule t = s.rule t)
    (houter : ∀ i, (s'.table i).outer = (s.table i).outer) (hbinds : ∀ t n c, s'.Binds t n c →
      s.Binds t n c ∨ ((t = R → ∃ p, s'.Enrolled c p) ∧ (s.rule t).accepts n = true))
    (hkinds : ∀ o, s'.kind o = s.kind o ∨
      ((s'.kind o).Proper R ∧ ((s'.kind o).Definition → (s'.object o).below = [root]))) :
    s'.Proper R root where
  registry := h.registry.mono hg.sizes
  dotted := (hrule R).trans h.dotted
  rules t ht := (hrule t).trans (h.rules t ht)
  outer i := (houter i).trans (h.outer i)
  named t n c hc := by
    rw [hrule]
    rcases hbinds t n c hc with hbefore | ⟨-, haccepts⟩
    · exact h.named t n c hbefore
    · exact haccepts
  kinds o := by
    rcases hkinds o with heq | ⟨hproper, -⟩
    · rw [heq]
      exact h.kinds o
    · exact hproper
  bottom := ⟨h.bottom.1.mono hg.sizes, (hg.below root h.bottom.1).trans h.bottom.2⟩
  defined o ho := by
    rcases hkinds o with heq | ⟨-, hdefined⟩
    · rw [heq] at ho
      have hhas : s.HasObject o := has_of_kind fun hplain => by
        rw [hplain] at ho
        exact ho
      rw [hg.below o hhas]
      exact h.defined o ho
    · exact hdefined ho
  enrolled n c hc := by
    rcases hbinds R n c hc with hbefore | ⟨hmodule, -⟩
    · obtain ⟨p, hp⟩ := h.enrolled n c hbefore
      exact ⟨p, hp.grows hg⟩
    · exact hmodule rfl

end Proper

def Seals (R : TableId) (s s' : Store) : Prop :=
  ∀ t, s.Sealed R t → s'.Sealed R t ∧ s'.bindings t = s.bindings t

theorem Seals.refl (R : TableId) (s : Store) : Seals R s s := fun _ ht => ⟨ht, rfl⟩

theorem Seals.trans (h : Seals R s s') (h' : Seals R s' s'') : Seals R s s'' := fun t ht =>
  ⟨(h' t (h t ht).1).1, (h' t (h t ht).1).2.trans (h t ht).2⟩

/-- How a routine leaves the store: still proper, with no name added to a sealed table, and with no
table sealed that was there before. -/
structure Leaves (R : TableId) (root : ObjectId) (s s' : Store) : Prop where
  proper : s'.Proper R root
  grows : s.Grows s'
  seals : Seals R s s'
  fresh : ∀ t, s.Holds t → s'.Sealed R t → s.Sealed R t

namespace Leaves

variable (h : s.Proper R root)
include h

theorem refl : Leaves R root s s := ⟨h, .refl s, .refl R s, fun _ _ => id⟩

omit h in
theorem trans (h : Leaves R root s s') (h' : Leaves R root s' s'') : Leaves R root s s'' where
  proper := h'.proper
  grows := h.grows.trans h'.grows
  seals := h.seals.trans h'.seals
  fresh t ht hsealed := h.fresh t ht (h'.fresh t (ht.mono h.grows.sizes) hsealed)

/-- All tables that there were bind what they bound. -/
theorem of_same (h' : s'.Proper R root) (hg : s.Grows s')
    (hkept : ∀ t, s.Holds t → s'.bindings t = s.bindings t) : Leaves R root s s' where
  proper := h'
  grows := hg
  seals t ht := ⟨ht.grows hg, hkept t ht.holds⟩
  fresh _ _ := h.sealed_of_same hg (hkept R h.registry.holds)

/-- Only cells differ. -/
theorem of_tables (hg : s.Grows s') (hbindings : s'.bindings = s.bindings)
    (hrule : s'.rule = s.rule) (htable : ∀ i, (s'.table i).outer = (s.table i).outer)
    (hkind : ∀ o, s'.kind o = s.kind o) : Leaves R root s s' := by
  refine of_same h (h.of_grows hg (fun t => by rw [hrule]) htable ?_ fun o =>
    Or.inl (hkind o)) hg ?_
  · intro t n c hc
    rw [Binds, hbindings] at hc
    exact Or.inl hc
  · intro t _
    rw [hbindings]

theorem newCell (content : Cell) : Leaves R root s (s.newCell content).2 :=
  of_tables h (s.newCell_grows content) (s.bindings_newCell content) rfl (fun _ => rfl) fun _ => rfl

theorem assign (c : CellId) (v : ObjectId) : Leaves R root s (s.assign c v) :=
  of_tables h (s.assign_grows c v) (s.bindings_assign c v) rfl (fun _ => rfl) fun _ => rfl

theorem of_alike (ha : s.Alike s') : Leaves R root s s' := by
  refine of_tables h ha.grows ha.bindings_eq ?_ (fun i => by rw [ha.table_eq]) ha.kind
  funext t
  cases t with
  | free i => simp only [rule, ha.tables]
  | part o p => cases p <;> rfl

/-- A new table takes plain symbols and has no outer tables. -/
theorem newTable (table : Table) (hrule : table.rule = .symbol) (houter : table.outer = [])
    (hnamed : ∀ b ∈ table.bindings, NameRule.symbol.accepts b.1 = true) :
    Leaves R root s (s.newTable table).2 := by
  have hg := s.newTable_grows table
  have hne : .free s.tables.size ≠ R := by
    obtain ⟨i, rfl, hi⟩ := h.registry
    intro heq
    cases heq
    exact Nat.lt_irrefl _ hi
  have hnew : s.rule (.free s.tables.size) = .symbol := h.rules _ ⟨⟨_, rfl⟩, hne⟩
  refine of_same h (h.of_grows hg ?_ ?_ ?_ fun _ => Or.inl rfl) hg ?_
  · intro t
    cases t with
    | free i =>
      change ((s.newTable table).2.table i).rule = (s.table i).rule
      rw [table_newTable]
      split
      · next hi => rw [hrule, hi]; exact hnew.symm
      · rfl
    | part o p => cases p <;> rfl
  · intro i
    rw [table_newTable]
    split
    · rw [houter, h.outer]
    · rfl
  · intro t n c hc
    rw [Binds, bindings_newTable] at hc
    split at hc
    · next ht =>
      subst ht
      rw [hnew]
      exact Or.inr ⟨fun heq => absurd heq hne, hnamed (n, c) hc⟩
    · exact Or.inl hc
  · intro t ht
    rw [bindings_newTable, if_neg]
    rintro rfl
    exact Nat.lt_irrefl _ ht

/-- A new object on the root may be a definition. -/
theorem newObject {base : Option ObjectId} {kind : Kind} (hkind : kind.Proper R)
    (hdefinition : kind.Definition → base = some root) :
    Leaves R root s (s.newObject base kind).2 := by
  have hg := s.newObject_grows base kind
  refine of_same h (h.of_grows hg (fun t => ?_) (fun _ => rfl) ?_ ?_) hg ?_
  · cases t with
    | free i => rfl
    | part o p => cases p <;> rfl
  · intro t n c hc
    rw [Binds, bindings_newObject] at hc
    exact Or.inl hc
  · intro o
    simp only [Store.kind, object_newObject]
    split
    · refine Or.inr ⟨hkind, fun hdef => ?_⟩
      rw [hdefinition hdef]
      simp [Object.make, levelsOf, levels, h.bottom.2]
    · exact Or.inl rfl
  · intro t _
    rw [bindings_newObject]

/-- A name is bound in a table that is not sealed. -/
theorem bind (ht : s.Holds t) (hne : t ≠ R) (hunsealed : ¬ s.Sealed R t)
    (hrefusal : s.refusal? t name = none) (c : CellId) : Leaves R root s (s.bind t name c) := by
  have hg := s.bind_grows c ht (free_of_refusal? hrefusal)
  have hother : ∀ x, x ≠ t → (s.bind t name c).bindings x = s.bindings x := fun x hx => by
    rw [bindings_bind s t name c x ht, if_neg hx]
  refine ⟨h.of_grows hg (fun x => by rw [rule_bind]) (outer_bind_free t name c) ?_ ?_, hg, ?_, ?_⟩
  · intro x n i hi
    rcases (binds_bind ht).mp hi with ⟨rfl, rfl, -⟩ | hbefore
    · exact Or.inr ⟨fun heq => absurd heq hne, accepts_of_refusal? hrefusal⟩
    · exact Or.inl hbefore
  · intro o
    exact Or.inl (kind_bind s t name c o)
  · intro x hx
    refine ⟨hx.grows hg, hother x ?_⟩
    rintro rfl
    exact hunsealed hx
  · intro x _
    exact h.sealed_of_same hg (hother R hne.symm)

end Leaves

/-- A module is registered, and from then on its tables are sealed. -/
theorem Proper.enrol (h : s.Proper R root) (hname : NameRule.dotted.accepts name = true)
    (hfree : s.local? R name = none) (hkind : s.kind o = .ofModule p)
    (hheld : ∀ t, p.Owns t → s.Holds t) :
    (s.addConst R name o).Proper R root ∧ Seals R s (s.addConst R name o) ∧
      ∀ t, (s.addConst R name o).Sealed R t → s.Sealed R t ∨ p.Owns t := by
  have hcell := Leaves.newCell h (.const o)
  have hholds := (h.registry.mono hcell.grows.sizes).holds
  have hfree' : (s.newCell (.const o)).2.local? R name = none := by
    rwa [local?, bindings_newCell]
  have hbind := (s.newCell (.const o)).2.bind_grows ⟨s.cells.size⟩ hholds hfree'
  have hg : s.Grows (s.addConst R name o) := hcell.grows.trans hbind
  have hbindings : ∀ t, (s.addConst R name o).bindings t =
      if t = R then (name, ⟨s.cells.size⟩) :: s.bindings t else s.bindings t := by
    intro t
    rw [addConst, bindings_bind _ _ _ _ _ hholds, bindings_newCell]
  have hhas : (s.newCell (.const o)).2.HasCell ⟨s.cells.size⟩ := by
    change _ < (s.newCell (.const o)).2.cells.size
    simp
  have hnew : (s.addConst R name o).Enrolled ⟨s.cells.size⟩ p := by
    refine ⟨hhas.mono hbind.sizes, ⟨o, ?_, ?_⟩, fun t ht => (hheld t ht).mono hg.sizes⟩
    · rw [addConst, cell_bind, cell_newCell_self]
    · exact hg.kind_of_ne hkind (by simp)
  refine ⟨?_, ?_, ?_⟩
  · refine hcell.proper.of_grows hbind (fun t => by rw [addConst, rule_bind])
      (outer_bind_free R name _) ?_ fun x => Or.inl (kind_bind ..)
    intro t n c hc
    rcases (binds_bind hholds).mp hc with ⟨rfl, rfl, rfl⟩ | hbefore
    · refine Or.inr ⟨fun _ => ⟨p, hnew⟩, ?_⟩
      rw [hcell.proper.dotted, hname]
    · exact Or.inl hbefore
  · intro t ht
    refine ⟨ht.grows hg, ?_⟩
    rw [hbindings, if_neg (h.plain_of_sealed ht).2]
  · rintro t ⟨n, c, p', hlocal, hc, howns⟩
    rw [local?, hbindings, if_pos rfl, List.lookup_cons] at hlocal
    split at hlocal
    · cases hlocal
      exact Or.inr (hc.unique hnew ▸ howns)
    · obtain ⟨p'', hp''⟩ := h.enrolled n c (.of_local? hlocal)
      exact Or.inl ⟨n, c, p'', hlocal, hp'', (hp''.grows hg).unique hc ▸ howns⟩

/-- Nothing is bound in a table that does not exist. -/
theorem bind_eq_self (h : ¬ s.Holds t) (name : String) (c : CellId) : s.bind t name c = s := by
  cases t with
  | free i =>
    have hsize : s.tables.size ≤ i := Nat.not_lt.mp h
    rw [bind, Heap.modify_of_size_le _ hsize]
  | part o p =>
    have hsize : s.objects.size ≤ o.index := Nat.not_lt.mp h
    rw [bind, modifyObject, Heap.modify_of_size_le _ hsize]

section Capture

variable (h : s.Proper R root)
include h

omit h in
theorem Leaves.conveys : Conveys (·.Proper R root) (Leaves R root) := ⟨.refl, .trans, Leaves.proper⟩

theorem captureBindings_leaves (bs : Bindings) : Leaves R root s (s.captureBindings bs).2 := by
  refine (Leaves.conveys.captureBindings (C := fun _ _ => True) (fun _ _ => id) ?_ h bs
    fun _ _ => trivial).1
  intro s c hs _
  refine ⟨?_, trivial⟩
  rw [captureCell]
  split
  · exact .newCell hs _
  · exact .refl hs

/-- The copy of a plain table is a plain table. -/
theorem captureTable_leaves (ht : t.Plain R) :
    Leaves R root s (s.captureTable t).2 ∧ (s.captureTable t).1.Plain R := by
  have houter : s.outer t = [] := by
    obtain ⟨⟨i, rfl⟩, -⟩ := ht
    exact h.outer i
  have hcells := captureBindings_leaves h (s.bindings t)
  have hrule := hcells.proper.rules t ht
  have hnamed : ∀ b ∈ (s.captureBindings (s.bindings t)).1,
      NameRule.symbol.accepts b.1 = true := by
    intro b hb
    have hmem : b.1 ∈ (s.bindings t).map Prod.fst :=
      s.captureBindings_names _ ▸ List.mem_map_of_mem hb
    obtain ⟨b', hb', hname⟩ := List.mem_map.mp hmem
    rw [← hname, ← h.rules t ht]
    exact h.named t b'.1 b'.2 hb'
  have hnew := hcells.trans (.newTable hcells.proper
    ⟨_, [], (s.captureBindings (s.bindings t)).2.rule t⟩ hrule rfl hnamed)
  rw [captureTable, houter]
  refine ⟨hnew, ⟨_, rfl⟩, ?_⟩
  -- The new table is none that was there before.
  intro heq
  have hholds := (h.registry.mono hcells.grows.sizes).holds
  rw [← heq] at hholds
  exact Nat.lt_irrefl _ hholds

theorem captureActivation_leaves {a : Activation} (ha : a.Proper R) :
    Leaves R root s (s.captureActivation a).2 ∧ (s.captureActivation a).1.Proper R := by
  obtain ⟨hleaves, hscopes, hhome⟩ := Leaves.conveys.captureActivation (T := fun _ t => t.Plain R)
    (fun _ _ => id) captureTable_leaves h ha.scopes ha.home
  exact ⟨hleaves, hscopes, hhome⟩

end Capture

end Store

end ObjectLang
