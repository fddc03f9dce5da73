import ObjectLang.Proofs.Store.Growth

/-!
Tidy stores: every variable has a single binding.
A cell that can be assigned is bound in one table under one name. The one exception is a module: the
table of all its bindings takes over the cells of the table that its body ran on. What a module
shows are views of such cells, so that a name that is imported is no second binding of a variable.
-/
namespace ObjectLang

/-- The primitive looks at the activation that called it. -/
def Primitive.SeesCaller : Primitive → Prop
  | .member | .callerText => True
  | _ => False

def Code.SeesCaller (c : Code) : Prop := ∃ p, c.body = .primitive p ∧ p.SeesCaller

theorem Code.not_seesCaller_block (name : String) (params : List String) (b : Block)
    (home : Option TableId) : ¬ (Code.block name params b home).SeesCaller := by
  rintro ⟨p, hbody, -⟩
  cases hbody

variable {p : ModuleParts} {i j : Nat}

namespace ModuleParts

/-- The tables of a module are made one after the other, those of its bindings and its exports
first. -/
structure Placed (p : ModuleParts) (i : Nat) : Prop where
  hidden : p.hidden = .free i
  shown : p.shown = .free (i + 1)

/-- The top-level table of the body of a module, which is made right after the other two. -/
def body (p : ModuleParts) : TableId :=
  match p.hidden with
  | .free i => .free (i + 2)
  | t => t

theorem Placed.body (h : p.Placed i) : p.body = .free (i + 2) := by
  rw [ModuleParts.body, h.hidden]

theorem Placed.index_eq (h : p.Placed i) (h' : p.Placed j) :
    i = j := TableId.free.inj (h.hidden.symm.trans h'.hidden)

end ModuleParts

namespace Store

def Binds (s : Store) (t : TableId) (name : String) (c : CellId) : Prop := (name, c) ∈ s.bindings t

def HasModule (s : Store) (p : ModuleParts) : Prop := ∃ o, s.kind o = .ofModule p

/-- What an object that is no module holds in a tidy store: no function that looks at its caller,
and other names for modules that there are. -/
structure Regular (s : Store) (k : Kind) : Prop where
  noModule : ∀ p, k ≠ .ofModule p
  function : ∀ code, k = .function code → ¬ code.SeesCaller
  closure : ∀ code captured, k = .closure code captured → ¬ code.SeesCaller
  moduleAlias : ∀ o p, k = .moduleAlias o p → s.HasModule p

/-- The table of all bindings of a module and the table that its body ran on. -/
def Twins (s : Store) (t t' : TableId) : Prop :=
  ∃ p, s.HasModule p ∧ (t = p.hidden ∧ t' = p.body ∨ t = p.body ∧ t' = p.hidden)

/-- The table is neither that of all bindings nor that of the exports of a module. -/
def Apart (s : Store) (t : TableId) : Prop := ∀ p, s.HasModule p → t ≠ p.hidden ∧ t ≠ p.shown

structure Tidy (s : Store) : Prop where
  bound : ∀ t n c, s.Binds t n c → s.HasCell c
  named : ∀ t n c, s.Binds t n c → (s.rule t).accepts n = true
  placed : ∀ p, s.HasModule p →
    ∃ i, p.Placed i ∧ i + 2 < s.tables.size ∧ s.outer p.hidden = [] ∧ s.outer p.shown = []
  disjoint : ∀ p p' i j, s.HasModule p → s.HasModule p' → p.Placed i → p'.Placed j → i < j →
    i + 2 < j
  shown : ∀ p n c, s.HasModule p → s.Binds p.shown n c →
    ∃ x, s.cell c = .view x ∧ s.Binds p.hidden n x
  views : ∀ v c, s.cell v = .view c → ∃ p n, s.HasModule p ∧ s.Binds p.hidden n c
  single : ∀ t n t' n' c v, s.Binds t n c → s.Binds t' n' c → s.cell c = .var v →
    n = n' ∧ (t = t' ∨ s.Twins t t')
  regular : ∀ o, (∀ p, s.kind o ≠ .ofModule p) → s.Regular (s.kind o)
  older : ∀ v c, s.cell v = .view c → c.index < v.index
  hidden : ∀ p n c, s.HasModule p → s.Binds p.hidden n c → s.Binds p.body n c
  body : ∀ p n c, s.HasModule p → s.Binds p.body n c → s.local? p.body n = some c

variable {s s' s'' : Store} {c v : CellId} {t : TableId} {n name : String} {p' : ModuleParts}

theorem Apart.ne_shown (h : s.Apart t) (hp : s.HasModule p) :
    t ≠ p.shown := (h p hp).2

theorem Binds.of_local? (h : s.local? t n = some c) :
    s.Binds t n c := by
  obtain ⟨l₁, l₂, heq, -⟩ := List.lookup_eq_some_iff.mp h
  rw [Binds, heq]
  simp

theorem holds_of_binds (h : s.Binds t n c) :
    s.Holds t := by
  apply Classical.byContradiction
  intro hnot
  cases t with
  | free i =>
    rw [Binds, bindings_free, table_of_size_le (Nat.not_lt.mp hnot)] at h
    cases h
  | part o p =>
    rw [Binds, bindings_part, object_of_not_has hnot] at h
    cases p <;> cases h

/-- A table that goes on to no other one binds what is found from it. -/
theorem Binds.of_lookup (houter : s.outer t = []) (h : s.lookup t n = some c) :
    s.Binds t n c := by
  rw [lookup, houter, List.findSome?_singleton] at h
  exact .of_local? h

theorem HasModule.grows (h : s.HasModule p) (hg : s.Grows s') :
    s'.HasModule p := by
  obtain ⟨o, ho⟩ := h
  exact ⟨o, hg.kind_of_ne ho (by simp)⟩

theorem cell_of_not_has (h : ¬ s.HasCell c) : s.cell c = .const ⟨0⟩ :=
  Heap.getD_of_size_le _ _ (Nat.not_lt.mp h)

theorem hasCell_of_view (h : s.cell v = .view c) : s.HasCell v := by
  apply Classical.byContradiction
  intro hn
  rw [cell_of_not_has hn] at h
  cases h

/-- A view stays a view of the same cell. -/
theorem Grows.view (hg : s.Grows s') (h : s.cell v = .view c) :
    s'.cell v = .view c := by
  rcases hg.content v (hasCell_of_view h) with heq | ⟨w, -, hw, -⟩
  · rw [heq, h]
  · rw [h] at hw
    cases hw

/-- A variable was one before. -/
theorem Grows.var_of (hg : s.Grows s') (hc : s.HasCell c) {v : ObjectId} (h : s'.cell c = .var v) :
    ∃ w, s.cell c = .var w := by
  rcases hg.content c hc with heq | ⟨w, -, hw, -⟩
  · exact ⟨v, heq ▸ h⟩
  · exact ⟨w, hw⟩

theorem Regular.mono {k : Kind} (h : s.Regular k) (hm : ∀ p, s.HasModule p → s'.HasModule p) :
    s'.Regular k :=
  ⟨h.noModule, h.function, h.closure, fun o p hk => hm p (h.moduleAlias o p hk)⟩

/-- A new binding as it should be: a variable gets no second binding beyond that of a module, a
module shows nothing but views of its own cells, and it takes over what its body binds. -/
structure Welcomes (s s' : Store) (t : TableId) (n : String) (c : CellId) : Prop where
  has : s.HasCell c
  named : (s'.rule t).accepts n = true
  shown : ∀ p, s.HasModule p → t = p.shown → ∃ x, s.cell c = .view x ∧ s.Binds p.hidden n x
  hidden : ∀ p, s.HasModule p → t = p.hidden → s.Binds p.body n c
  body : ∀ p, s.HasModule p → t = p.body → s'.local? t n = some c
  single : ∀ v, s.cell c = .var v → ∀ t' n', s'.Binds t' n' c →
    n = n' ∧ (t = t' ∨ s.Twins t t')

/-- A module whose tables are there and empty, behind those of all other modules. -/
structure Opens (s : Store) (p : ModuleParts) : Prop where
  placed : ∃ i, p.Placed i ∧ i + 2 < s.tables.size ∧
    ∀ p' j, s.HasModule p' → p'.Placed j → p' = p ∨ j + 2 < i
  outer : s.outer p.hidden = [] ∧ s.outer p.shown = []
  empty : ∀ t, t = p.hidden ∨ t = p.shown ∨ t = p.body → s.bindings t = []

theorem Opens.unbound (h : s.Opens p) (ht : t = p.hidden ∨ t = p.shown ∨ t = p.body) :
    ¬ s.Binds t n c := by
  rw [Binds, h.empty t ht]
  exact List.not_mem_nil

namespace Tidy

theorem twins_symm {t' : TableId} (h : s.Twins t t') : s.Twins t' t := by
  obtain ⟨p, hp, hcase⟩ := h
  exact ⟨p, hp, hcase.symm.imp And.symm And.symm⟩

theorem twins_mono (h : ∀ p, s.HasModule p → s'.HasModule p) {t' : TableId} (ht : s.Twins t t') :
    s'.Twins t t' := by
  obtain ⟨p, hp, hcase⟩ := ht
  exact ⟨p, h p hp, hcase⟩

variable (h : s.Tidy)
include h

/-- A store stays tidy if it keeps its bindings and its modules, and each new binding, each new view
and each new module is as it should be. -/
theorem of_step (hg : s.Grows s') (hkeep : ∀ {t n c}, s.Binds t n c → s'.Binds t n c)
    (hnew : ∀ {t n c}, s'.Binds t n c → s.Binds t n c ∨ s.Welcomes s' t n c)
    (hrule : ∀ t, s.Holds t → s'.rule t = s.rule t)
    (houter : ∀ i < s.tables.size, s'.outer (.free i) = s.outer (.free i))
    (hkind : ∀ o, s'.kind o = s.kind o ∨ s.Regular (s'.kind o) ∨
      ∃ p, s'.kind o = .ofModule p ∧ s'.Opens p)
    (hviews : ∀ v c, s'.cell v = .view c → s.cell v = .view c ∨
      c.index < v.index ∧ ∃ p n, s.HasModule p ∧ s.Binds p.hidden n c) : s'.Tidy := by
  have hmodule : ∀ p, s'.HasModule p → s.HasModule p ∨ s'.Opens p := by
    rintro p ⟨o, ho⟩
    rcases hkind o with heq | hregular | ⟨p', hp', hopens⟩
    · exact Or.inl ⟨o, heq ▸ ho⟩
    · exact absurd ho (hregular.noModule p)
    · cases hp'.symm.trans ho
      exact Or.inr hopens
  have hmodule' : ∀ p, s.HasModule p → s'.HasModule p := fun p hp => hp.grows hg
  have hbound : ∀ {t n c}, s'.Binds t n c → s.HasCell c := fun hc =>
    (hnew hc).elim (h.bound _ _ _) Welcomes.has
  constructor
  · exact fun t n c hc => (hbound hc).mono hg.sizes
  · intro t n c hc
    rcases hnew hc with hold | hfresh
    · rw [hrule t (holds_of_binds hold)]
      exact h.named t n c hold
    · exact hfresh.named
  · intro p hp
    rcases hmodule p hp with hp | hopens
    · obtain ⟨i, hplaced, hsize, hhidden, hshown⟩ := h.placed p hp
      refine ⟨i, hplaced, Nat.lt_of_lt_of_le hsize hg.sizes.tables, ?_, ?_⟩
      · rw [hplaced.hidden, houter i (by omega), ← hplaced.hidden, hhidden]
      · rw [hplaced.shown, houter (i + 1) (by omega), ← hplaced.shown, hshown]
    · obtain ⟨i, hplaced, hsize, -⟩ := hopens.placed
      exact ⟨i, hplaced, hsize, hopens.outer⟩
  · intro p p' i j hp hp' hi hj hlt
    rcases hmodule p hp with hold | hopens
    · rcases hmodule p' hp' with hold' | hopens
      · exact h.disjoint p p' i j hold hold' hi hj hlt
      · obtain ⟨j', hj', -, hbefore⟩ := hopens.placed
        obtain rfl := hj.index_eq hj'
        rcases hbefore p i hp hi with rfl | hlast
        · exact absurd hlt (hi.index_eq hj ▸ Nat.lt_irrefl _)
        · exact hlast
    · obtain ⟨i', hi', -, hbefore⟩ := hopens.placed
      obtain rfl := hi.index_eq hi'
      rcases hbefore p' j hp' hj with rfl | hlast
      · exact absurd hlt (hi.index_eq hj ▸ Nat.lt_irrefl _)
      · omega
  · intro p n c hp hc
    rcases hmodule p hp with hp | hopens
    · obtain ⟨x, hx, hhidden⟩ := (hnew hc).elim (h.shown p n c hp) fun hfresh =>
        hfresh.shown p hp rfl
      exact ⟨x, hg.view hx, hkeep hhidden⟩
    · exact absurd hc (hopens.unbound (Or.inr (Or.inl rfl)))
  · intro v c hv
    obtain ⟨p, n, hp, hn⟩ := (hviews v c hv).elim (h.views v c) And.right
    exact ⟨p, n, hmodule' p hp, hkeep hn⟩
  · intro t n t' n' c v hc hc' hv
    obtain ⟨w, hw⟩ := hg.var_of (hbound hc) hv
    obtain ⟨hname, hcase⟩ : n = n' ∧ (t = t' ∨ s.Twins t t') := by
      rcases hnew hc with hold | hfresh
      · rcases hnew hc' with hold' | hfresh'
        · exact h.single t n t' n' c w hold hold' hw
        · obtain ⟨hname, hcase⟩ := hfresh'.single w hw t n hc
          exact ⟨hname.symm, hcase.imp Eq.symm twins_symm⟩
      · exact hfresh.single w hw t' n' hc'
    exact ⟨hname, hcase.imp_right (twins_mono hmodule')⟩
  · intro o ho
    rcases hkind o with heq | hregular | ⟨p, hp, -⟩
    · rw [heq] at ho ⊢
      exact (h.regular o ho).mono hmodule'
    · exact hregular.mono hmodule'
    · exact absurd hp (ho p)
  · exact fun v c hv => (hviews v c hv).elim (h.older v c) And.left
  · intro p n c hp hc
    rcases hmodule p hp with hp | hopens
    · exact hkeep ((hnew hc).elim (h.hidden p n c hp) fun hfresh => hfresh.hidden p hp rfl)
    · exact absurd hc (hopens.unbound (Or.inl rfl))
  · intro p n c hp hc
    rcases hmodule p hp with hp | hopens
    · rcases hnew hc with hold | hfresh
      · exact hg.bound _ n c (h.body p n c hp hold)
      · exact hfresh.body p hp rfl
    · exact absurd hc (hopens.unbound (Or.inr (Or.inr rfl)))

/-- A store with the same bindings stays tidy. -/
theorem of_same (hg : s.Grows s') (hbindings : s'.bindings = s.bindings) (hrule : s'.rule = s.rule)
    (houter : ∀ i < s.tables.size, s'.outer (.free i) = s.outer (.free i))
    (hkind : ∀ o, s'.kind o = s.kind o ∨ s.Regular (s'.kind o) ∨
      ∃ p, s'.kind o = .ofModule p ∧ s'.Opens p)
    (hviews : ∀ v c, s'.cell v = .view c → s.cell v = .view c ∨
      c.index < v.index ∧ ∃ p n, s.HasModule p ∧ s.Binds p.hidden n c) : s'.Tidy := by
  have hbinds : ∀ {t n c}, s'.Binds t n c ↔ s.Binds t n c := by
    intro t n c
    rw [Binds, Binds, hbindings]
  exact h.of_step hg hbinds.mpr (fun hc => Or.inl (hbinds.mp hc)) (fun t _ => by rw [hrule]) houter
    hkind hviews

theorem newCell {c : Cell}
    (hview : ∀ x, c = .view x → ∃ p n, s.HasModule p ∧ s.Binds p.hidden n x) :
    (s.newCell c).2.Tidy := by
  refine h.of_same (s.newCell_grows c) (s.bindings_newCell c) ?_ (fun _ _ => rfl)
    (fun _ => Or.inl rfl) ?_
  · funext t
    cases t <;> rfl
  · intro v x hx
    rw [cell_newCell] at hx
    split at hx
    · next hv =>
      obtain ⟨p, n, hp, hn⟩ := hview x hx
      exact Or.inr ⟨hv ▸ h.bound _ n x hn, p, n, hp, hn⟩
    · exact Or.inl hx

/-- No table binds a new cell. -/
theorem unbound_newCell (c : Cell) (t : TableId) (n : String) :
    ¬ (s.newCell c).2.Binds t n ⟨s.cells.size⟩ := by
  intro hn
  rw [Binds, bindings_newCell] at hn
  exact Nat.lt_irrefl _ (h.bound t n _ hn)

theorem assign (c : CellId) (v : ObjectId) : (s.assign c v).Tidy := by
  refine h.of_same (s.assign_grows c v) (s.bindings_assign c v) ?_ (fun _ _ => rfl)
    (fun _ => Or.inl rfl) ?_
  · funext t
    cases t <;> rfl
  · intro x y hy
    rw [cell_assign] at hy
    split at hy
    · split at hy
      · cases hy
      · exact Or.inl hy
    · exact Or.inl hy

theorem newObject (base : Option ObjectId) {kind : Kind} (hkind : s.Regular kind ∨
      ∃ p, kind = .ofModule p ∧ (s.newObject base kind).2.Opens p) :
    (s.newObject base kind).2.Tidy := by
  refine h.of_same (s.newObject_grows base kind) (funext (s.bindings_newObject base kind)) ?_
    (fun _ _ => rfl) ?_ fun _ _ => Or.inl
  · funext t
    cases t with
    | free i => rfl
    | part o p => cases p <;> rfl
  · intro o
    rw [Store.kind, object_newObject]
    split
    · exact Or.inr hkind
    · exact Or.inl rfl

theorem of_alike (ha : s.Alike s') : s'.Tidy := by
  refine h.of_same ha.grows ha.bindings_eq ?_ ?_ (fun o => Or.inl (ha.kind o)) ?_
  · funext t
    cases t with
    | free i => simp only [rule, ha.tables]
    | part o p => cases p <;> rfl
  · intro i _
    simp only [outer, ha.tables]
  · exact fun v c hc => Or.inl (ha.cell_eq ▸ hc)

end Tidy

theorem binds_bind (ht : s.Holds t) {x : TableId} {i : CellId} :
    (s.bind t name c).Binds x n i ↔ (x = t ∧ n = name ∧ i = c) ∨ s.Binds x n i := by
  rw [Binds, bindings_bind s t name c x ht, Binds]
  by_cases hx : x = t
  · simp [hx]
  · simp [hx]

theorem rule_bind (t : TableId) (name : String) (c : CellId) :
    (s.bind t name c).rule = s.rule := by
  funext x
  cases x with
  | free i =>
    change ((s.bind t name c).table i).rule = (s.table i).rule
    rw [table_bind]
    split <;> rfl
  | part o p => cases p <;> rfl

theorem outer_bind_free (t : TableId) (name : String) (c : CellId) (i : Nat) :
    (s.bind t name c).outer (.free i) = s.outer (.free i) := by
  change ((s.bind t name c).table i).outer = (s.table i).outer
  rw [table_bind]
  split <;> rfl

theorem hasModule_bind (t : TableId) (name : String) (c : CellId) (p : ModuleParts) :
    (s.bind t name c).HasModule p ↔ s.HasModule p := by
  simp only [HasModule, Store.kind, kind_bind]

theorem Tidy.bind (h : s.Tidy) (ht : s.Holds t) (hrefusal : s.refusal? t name = none)
    (hc : s.HasCell c)
    (hshown : ∀ p, s.HasModule p → t = p.shown → ∃ x, s.cell c = .view x ∧ s.Binds p.hidden name x)
    (hhidden : ∀ p, s.HasModule p → t = p.hidden → s.Binds p.body name c)
    (hsingle : ∀ v, s.cell c = .var v → ∀ t' n, s.Binds t' n c →
      name = n ∧ (t = t' ∨ s.Twins t t')) : (s.bind t name c).Tidy := by
  have hwelcomes : s.Welcomes (s.bind t name c) t name c := by
    refine ⟨hc, ?_, hshown, hhidden, ?_, ?_⟩
    · rw [rule_bind]
      exact accepts_of_refusal? hrefusal
    · intro p _ _
      rw [local?_bind s ht, if_pos ⟨rfl, rfl⟩]
    · intro v hv t' n hn
      rcases (binds_bind ht).mp hn with ⟨rfl, rfl, -⟩ | hold
      · exact ⟨rfl, Or.inl rfl⟩
      · exact hsingle v hv t' n hold
  refine h.of_step (s.bind_grows c ht (free_of_refusal? hrefusal))
    (fun hx => (binds_bind ht).mpr (Or.inr hx)) (fun {x n i} hi => ?_)
    (fun x _ => by rw [rule_bind]) (fun i _ => outer_bind_free t name c i)
    (fun o => Or.inl (kind_bind s t name c o)) fun v x hx => Or.inl (by rwa [cell_bind] at hx)
  rcases (binds_bind ht).mp hi with ⟨rfl, rfl, rfl⟩ | hold
  · exact Or.inr hwelcomes
  · exact Or.inl hold

section Modules

theorem hasModule_newObject (base : Option ObjectId) (p p' : ModuleParts) :
    (s.newObject base (.ofModule p)).2.HasModule p' ↔ s.HasModule p' ∨ p' = p := by
  constructor
  · rintro ⟨o, ho⟩
    rw [Store.kind, object_newObject] at ho
    split at ho
    · exact Or.inr (Kind.ofModule.inj ho).symm
    · exact Or.inl ⟨o, ho⟩
  · rintro (hp | rfl)
    · exact hp.grows (s.newObject_grows base _)
    · refine ⟨s.fresh, ?_⟩
      rw [Store.kind, object_newObject, if_pos rfl]
      rfl

variable (h : s.Tidy)
include h

/-- A module gets three tables that stand behind those of all other modules. -/
theorem Tidy.newModule (base : Option ObjectId) (hplaced : p.Placed i)
    (hsize : i + 2 < s.tables.size) (hhidden : s.outer p.hidden = [])
    (hshown : s.outer p.shown = []) (hempty : ∀ t, t = p.hidden ∨ t = p.shown ∨ t = p.body →
      s.bindings t = []) (hbefore : ∀ p' j, s.HasModule p' → p'.Placed j → j + 2 < i) :
    (s.newObject base (.ofModule p)).2.Tidy := by
  refine h.newObject base (Or.inr ⟨p, rfl, ⟨i, hplaced, hsize, fun p' j hp' hj => ?_⟩, ?_,
    fun t ht => ?_⟩)
  · rcases (hasModule_newObject base p p').mp hp' with hold | rfl
    · exact Or.inr (hbefore p' j hold hj)
    · exact Or.inl rfl
  · rw [hplaced.hidden] at hhidden
    rw [hplaced.shown] at hshown
    exact ⟨hplaced.hidden ▸ hhidden, hplaced.shown ▸ hshown⟩
  · rw [bindings_newObject]
    exact hempty t ht

variable (hp : s.HasModule p)
include hp

/-- Two modules that overlap are one. -/
theorem Tidy.index_eq (hp' : s.HasModule p') (hi : p.Placed i) (hj : p'.Placed j) (hij : i ≤ j + 2)
    (hji : j ≤ i + 2) : i = j := by
  rcases Nat.lt_trichotomy i j with hlt | heq | hlt
  · have := h.disjoint p p' i j hp hp' hi hj hlt
    omega
  · exact heq
  · have := h.disjoint p' p j i hp' hp hj hi hlt
    omega

/-- The tables of a module exist. -/
theorem Tidy.holds : s.Holds p.hidden ∧ s.Holds p.shown ∧ s.Holds p.body := by
  obtain ⟨i, hplaced, hsize, -⟩ := h.placed p hp
  rw [hplaced.hidden, hplaced.shown, hplaced.body]
  exact ⟨Nat.lt_of_le_of_lt (Nat.le_add_right i 2) hsize, Nat.lt_trans (Nat.lt_succ_self _) hsize,
    hsize⟩

/-- The three tables of a module are none of the other tables of any module. -/
theorem Tidy.tables_ne (hp' : s.HasModule p') :
    p.hidden ≠ p'.shown ∧ p.hidden ≠ p'.body ∧ p.shown ≠ p'.body := by
  obtain ⟨i, hi, -⟩ := h.placed p hp
  obtain ⟨j, hj, -⟩ := h.placed p' hp'
  have hindex := h.index_eq hp hp' hi hj
  rw [hi.hidden, hi.shown, hj.shown, hj.body]
  simp only [ne_eq, TableId.free.injEq]
  omega

/-- A module may take over a binding of the table that its body ran on. -/
theorem Tidy.bind_hidden (hbody : s.Binds p.body n c) (hrefusal : s.refusal? p.hidden n = none) :
    (s.bind p.hidden n c).Tidy := by
  obtain ⟨i, hplaced, -⟩ := h.placed p hp
  refine h.bind (h.holds hp).1 hrefusal (h.bound _ n c hbody) ?_ ?_ ?_
  · exact fun p' hp' heq => absurd heq (h.tables_ne hp hp').1
  · intro p' hp' heq
    obtain ⟨j, hj, -⟩ := h.placed p' hp'
    rw [hplaced.hidden, hj.hidden, TableId.free.injEq] at heq
    rw [hplaced.body, heq, ← hj.body] at hbody
    exact hbody
  · intro v hv t' n' hn'
    obtain ⟨hname, hcase⟩ := h.single p.body n t' n' c v hbody hn' hv
    refine ⟨hname, ?_⟩
    rcases hcase with rfl | ⟨p', hp', hcase⟩
    · exact Or.inr ⟨p, hp, Or.inl ⟨rfl, rfl⟩⟩
    · obtain ⟨j, hj, -⟩ := h.placed p' hp'
      rw [hplaced.body, hj.body, hj.hidden] at hcase
      rcases hcase with ⟨heq, rfl⟩ | ⟨heq, rfl⟩
      · rw [TableId.free.injEq] at heq
        have := h.index_eq hp hp' hplaced hj (by omega) (by omega)
        omega
      · rw [TableId.free.injEq, Nat.add_right_cancel_iff] at heq
        rw [hplaced.hidden, heq]
        exact Or.inl rfl

/-- A module may show a view of one of its own bindings. -/
theorem Tidy.bind_shown {x : CellId} (hc : s.cell c = .view x) (hhidden : s.Binds p.hidden n x)
    (hrefusal : s.refusal? p.shown n = none) : (s.bind p.shown n c).Tidy := by
  obtain ⟨i, hplaced, -⟩ := h.placed p hp
  refine h.bind (h.holds hp).2.1 hrefusal (hasCell_of_view hc) ?_ ?_ ?_
  · intro p' hp' heq
    obtain ⟨j, hj, -⟩ := h.placed p' hp'
    rw [hplaced.shown, hj.shown, TableId.free.injEq, Nat.add_right_cancel_iff] at heq
    rw [hplaced.hidden, heq, ← hj.hidden] at hhidden
    exact ⟨x, hc, hhidden⟩
  · exact fun p' hp' heq => absurd heq.symm (h.tables_ne hp' hp).1
  · intro v hv
    rw [hc] at hv
    cases hv

end Modules

/-- What happens between two stores binds names in the tables `T` and in new tables only, and new
modules have new tables. -/
structure Spares (T : TableId → Prop) (s s' : Store) : Prop where
  tidy : s'.Tidy
  grows : s.Grows s'
  kept : ∀ t, s.Holds t → ¬ T t → s'.bindings t = s.bindings t
  modules : ∀ p, s'.HasModule p → s.HasModule p ∨ ∃ i, p.Placed i ∧ s.tables.size ≤ i

namespace Spares

variable {T T' : TableId → Prop}

theorem refl (h : s.Tidy) : s.Spares T s := ⟨h, .refl s, fun _ _ _ => rfl, fun _ => Or.inl⟩

section

variable (h : s.Spares T s')
include h

/-- Of the tables that the second part binds names in, those that were there at first count. -/
theorem trans_of (h' : s'.Spares T' s'') (hT : ∀ t, s.Holds t → T' t → T t) : s.Spares T s'' where
  tidy := h'.tidy
  grows := h.grows.trans h'.grows
  kept t ht hnot :=
    (h'.kept t (ht.mono h.grows.sizes) fun hin => hnot (hT t ht hin)).trans (h.kept t ht hnot)
  modules p hp := by
    rcases h'.modules p hp with hp | ⟨i, hplaced, hsize⟩
    · exact h.modules p hp
    · exact Or.inr ⟨i, hplaced, Nat.le_trans h.grows.sizes.tables hsize⟩

theorem trans (h' : s'.Spares T s'') : s.Spares T s'' :=
  h.trans_of h' fun _ _ => id

theorem weaken (hT : ∀ t, s.Holds t → T t → T' t) : s.Spares T' s' :=
  ⟨h.tidy, h.grows, fun t ht hnot => h.kept t ht fun hin => hnot (hT t ht hin), h.modules⟩

theorem apart (ht : s.Holds t) (hapart : s.Apart t) : s'.Apart t := by
  intro p hp
  rcases h.modules p hp with hp | ⟨i, hplaced, hsize⟩
  · exact hapart p hp
  · rw [hplaced.hidden, hplaced.shown]
    constructor
    · rintro rfl
      exact Nat.lt_irrefl _ (Nat.lt_of_lt_of_le ht hsize)
    · rintro rfl
      exact Nat.lt_irrefl _ (Nat.lt_of_lt_of_le ht (Nat.le_succ_of_le hsize))

end

/-- A step without new bindings and without new modules. -/
theorem of_same (htidy : s'.Tidy) (hg : s.Grows s')
    (hbindings : ∀ t, s.Holds t → s'.bindings t = s.bindings t)
    (hkind : ∀ o, s'.kind o = s.kind o ∨ s.Regular (s'.kind o)) : s.Spares T s' where
  tidy := htidy
  grows := hg
  kept t ht _ := hbindings t ht
  modules p hp := by
    obtain ⟨o, ho⟩ := hp
    rcases hkind o with heq | hregular
    · exact Or.inl ⟨o, heq ▸ ho⟩
    · exact absurd ho (hregular.noModule p)

theorem bind (ht : s.Holds t) (hT : T t) (hrefusal : s.refusal? t name = none)
    (htidy : (s.bind t name c).Tidy) :
    s.Spares T (s.bind t name c) where
  tidy := htidy
  grows := s.bind_grows c ht (free_of_refusal? hrefusal)
  kept x _ hx := by
    rw [bindings_bind s t name c x ht, if_neg]
    rintro rfl
    exact hx hT
  modules p hp := Or.inl ((hasModule_bind t name c p).mp hp)

end Spares

end Store

end ObjectLang
