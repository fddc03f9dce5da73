import ObjectLang.Proofs.InternalFaults
import ObjectLang.Proofs.LiveExports
import ObjectLang.Proofs.NameRules

/-!
What an import binds.
An import binds names in the innermost scope, one after the other, and stops at the first that it
cannot bind. A name cannot be bound if the module does not show it, or if the scope has it, be it
from an earlier declaration or from the import itself. What was bound before that name stays bound,
and nothing else is changed.
-/
namespace ObjectLang

open Machine Routine

abbrev Wanted := String × Option CellId

namespace Store

/-- Why a table does not get a wanted name when it has got the names of `bound` before. -/
def hindrance? (s : Store) (t : TableId) (bound : Bindings) : Wanted → Option Fault
  | (n, none) => some (.unknownName n)
  | (n, some _) =>
    if (s.local? t n).isSome ∨ n ∈ bound.map Prod.fst then some (.nameTaken n) else none

variable {s : Store} {t : TableId} {bound : Bindings} {n : String} {c : CellId}

theorem local?_bind_self (ht : s.Holds t) (n : String) (c : CellId) (n' : String) :
    (s.bind t n c).local? t n' = if n' = n then some c else s.local? t n' := by
  rw [local?_bind _ ht]
  simp

/-- A binding that is made hinders as one that was there. -/
theorem hindrance?_bind (ht : s.Holds t) (n : String) (c : CellId) (w : Wanted) :
    (s.bind t n c).hindrance? t bound w = s.hindrance? t ((n, c) :: bound) w := by
  obtain ⟨n', _ | c'⟩ := w
  · rfl
  · unfold hindrance?
    refine ite_congr (propext ?_) (fun _ => rfl) fun _ => rfl
    rw [local?_bind_self ht]
    by_cases hn : n' = n
    · simp [hn]
    · simp [hn]

end Store

namespace Machine

variable {m m₁ m' : Machine} {t : TableId} {l : Bindings} {n : String} {c : CellId}

/-- The machine with the bindings added to one table, which has had none of these names, and with
nothing else changed. -/
structure Gains (m : Machine) (t : TableId) (l : Bindings) (m' : Machine) : Prop where
  table : m'.store.bindings t = l.reverse ++ m.store.bindings t
  fresh : ∀ b ∈ l, m.store.local? t b.1 = none
  distinct : (l.map Prod.fst).Nodup
  others : ∀ u, u ≠ t → m'.store.bindings u = m.store.bindings u
  chains : ∀ u, m'.store.outer u = m.store.outer u ∧ m'.store.rule u = m.store.rule u
  cells : m'.store.cells = m.store.cells
  objects : m'.store.objects = m.store.objects
  rest : m' = { m with store := m'.store }

theorem Gains.refl (m : Machine) (t : TableId) : m.Gains t [] m :=
  ⟨rfl, nofun, .nil, fun _ _ => rfl, fun _ => ⟨rfl, rfl⟩, rfl, rfl, rfl⟩

def bound (m : Machine) (t : TableId) (n : String) (c : CellId) : Machine :=
  { m with store := m.store.bind t n c }

theorem Gains.cons (ht : m.store.Holds t) (hfree : t.isFree = true)
    (hn : m.store.local? t n = none) (h : (m.bound t n c).Gains t l m') :
    m.Gains t ((n, c) :: l) m' := by
  have hold : ∀ b ∈ l, b.1 ≠ n ∧ m.store.local? t b.1 = none := by
    intro b hb
    have hfresh := h.fresh b hb
    rw [bound, Store.local?_bind_self ht] at hfresh
    split at hfresh
    · cases hfresh
    · next hne => exact ⟨hne, hfresh⟩
  have hbindings := m.store.bindings_bind t n c
  obtain ⟨i, rfl⟩ := TableId.exists_of_isFree hfree
  refine ⟨?_, ?_, ?_, fun u hu => ?_, fun u => ?_, h.cells, h.objects, h.rest⟩
  · rw [h.table, bound, hbindings _ ht, if_pos rfl]
    simp
  · intro b hb
    rcases List.mem_cons.mp hb with rfl | hb
    · exact hn
    · exact (hold b hb).2
  · refine List.nodup_cons.mpr ⟨fun hmem => ?_, h.distinct⟩
    obtain ⟨b, hb, heq⟩ := List.mem_map.mp hmem
    exact (hold b hb).1 heq
  · rw [h.others u hu, bound, hbindings _ ht, if_neg hu]
  · obtain ⟨houter, hrule⟩ := h.chains u
    rw [houter, hrule, bound, Store.rule_bind]
    refine ⟨?_, rfl⟩
    cases u with
    | free j => exact m.store.outer_bind_free _ _ _ j
    | part o p => cases p <;> rfl

/-- Where wanted names are bound in a table, from the first on: all of them, or those before one
that is hindered. -/
inductive BindsInOrder (m : Machine) (t : TableId) : List Wanted → Outcome Unit → Prop where
  | all {l : Bindings} {m' : Machine} (gains : m.Gains t l m') :
      BindsInOrder m t (l.map fun b => (b.1, some b.2)) (.done () m')
  | upTo {l : Bindings} {w : Wanted} {f : Fault} {m' : Machine} (gains : m.Gains t l m')
      (hinders : m.store.hindrance? t l w = some f) (rest : List Wanted) :
      BindsInOrder m t ((l.map fun b => (b.1, some b.2)) ++ w :: rest) (.failed (.fault f) m')

theorem BindsInOrder.cons {wanted : List Wanted} {out : Outcome Unit} (ht : m.store.Holds t)
    (hfree : t.isFree = true) (hn : m.store.local? t n = none)
    (h : (m.bound t n c).BindsInOrder t wanted out) :
    m.BindsInOrder t ((n, some c) :: wanted) out := by
  cases h with
  | all gains => exact .all (gains.cons ht hfree hn)
  | upTo gains hinders rest =>
    rw [bound, Store.hindrance?_bind ht] at hinders
    exact .upTo (gains.cons ht hfree hn) hinders rest

/-- The machine with an alias of a module made for it, in a cell made for the alias, and with
nothing else changed. -/
structure Aliased (m : Machine) (o : ObjectId) (p : ModuleParts) (c : CellId) (m₁ : Machine) :
    Prop where
  made : ∃ a, ¬ m.store.HasObject a ∧ m₁.store.kind a = .moduleAlias o p ∧
    m₁.store.cell c = .const a
  fresh : ¬ m.store.HasCell c
  objects : ∀ x, m.store.HasObject x → m₁.store.object x = m.store.object x
  cells : ∀ x, m.store.HasCell x → m₁.store.cell x = m.store.cell x
  tables : m₁.store.tables = m.store.tables
  rest : m₁ = { m with store := m₁.store }

/-- The innermost scope of the running activation, which takes symbols. -/
structure Innermost (m : Machine) (t : TableId) : Prop where
  head : ∃ a rest ts, m.stack = a :: rest ∧ a.scopes = t :: ts
  holds : m.store.Holds t
  free : t.isFree = true
  rule : m.store.rule t = .symbol

theorem Innermost.bound (h : m.Innermost t) (n : String) (c : CellId) :
    (m.bound t n c).Innermost t :=
  ⟨h.head, h.holds.mono ⟨by simp [Machine.bound], by simp [Machine.bound], by simp [Machine.bound]⟩,
    h.free, by rw [Machine.bound, Store.rule_bind]; exact h.rule⟩

end Machine

namespace Routine

variable {m : Machine} {t : TableId} {n : String} {c : CellId}

/-- A symbol is declared unless the scope has it. -/
theorem declare_cases (hm : m.Innermost t) (hn : NameRule.symbol.accepts n = true) (c : CellId) :
    (∃ f, m.store.hindrance? t [] (n, some c) = some f ∧ declare n c m = .failed (.fault f) m) ∨
      m.store.local? t n = none ∧ declare n c m = .done () (m.bound t n c) := by
  obtain ⟨a, rest, ts, hstack, hscopes⟩ := hm.head
  have hrun : declare n c m = define t n c m := by
    simp only [declare, bind_run, peek, quiet, hstack, List.getElem?_cons_zero,
      defineLocal, hscopes]
  rw [hrun]
  cases hlocal : m.store.local? t n with
  | none =>
    have hrefusal : m.store.refusal? t n = none := by
      simp [Store.refusal?, hm.rule, hn, hlocal]
    exact Or.inr ⟨rfl, by simp only [define, quiet, hrefusal]; rfl⟩
  | some x =>
    have hrefusal : m.store.refusal? t n = some (.nameTaken n) := by
      simp [Store.refusal?, hm.rule, hn, hlocal]
    exact Or.inl ⟨.nameTaken n, by simp [Store.hindrance?, hlocal],
      by simp only [define, quiet, hrefusal]⟩

/-- A loop binds what its elements want, in order, if each of them binds what it wants itself. -/
theorem forM_bindsInOrder {β : Type} {f : β → Routine Unit} {wants : β → Wanted}
    {P : Machine → Prop} (hP : ∀ m, P m → m.Innermost t) (l : List β)
    (hf : ∀ b ∈ l, ∀ m, P m →
      (∃ e, m.store.hindrance? t [] (wants b) = some e ∧ f b m = .failed (.fault e) m) ∨
      ∃ n c, wants b = (n, some c) ∧ m.store.local? t n = none ∧
        f b m = .done () (m.bound t n c) ∧ P (m.bound t n c))
    (hm : P m) : m.BindsInOrder t (l.map wants) (l.forM f m) := by
  induction l generalizing m with
  | nil => exact .all (.refl m t)
  | cons b rest ih =>
    change m.BindsInOrder t (wants b :: rest.map wants) ((f b >>= fun _ => rest.forM f) m)
    rw [bind_run]
    rcases hf b (List.mem_cons_self ..) m hm
      with ⟨e, hinders, hrun⟩ | ⟨n, c, hwants, hn, hrun, hnext⟩
    · rw [hrun]
      exact .upTo (.refl m t) hinders _
    · rw [hrun, hwants]
      have hrest := ih (fun b' hb' => hf b' (List.mem_cons_of_mem _ hb')) hnext
      exact hrest.cons (hP m hm).holds (hP m hm).free hn

end Routine

namespace Eval

variable {k : Inner} {m : Machine} {t : TableId} {name : String} {o : ObjectId}
  {p : ModuleParts}

/-- Everything that a module shows is bound in the order of the names. -/
theorem importModule_everything (hm : m.Innermost t) (h : m.Registered name o p)
    (hnames : ∀ b ∈ m.store.bindings p.shown, NameRule.symbol.accepts b.1 = true) :
    m.BindsInOrder t ((m.store.bindings p.shown).sorted.map fun b => (b.1, some b.2))
      (importModule k name .everything m) := by
  rw [importModule_of_registered h]
  refine forM_bindsInOrder (P := fun m => m.Innermost t) (fun _ => id) _ (fun b hb m' hm' => ?_) hm
  rcases declare_cases hm' (hnames b ((mem_sortBy _).mp hb)) b.2 with hfailed | ⟨hfree, hrun⟩
  · exact Or.inl hfailed
  · exact Or.inr ⟨b.1, b.2, rfl, hfree, hrun, hm'.bound b.1 b.2⟩

/-- Listed names are bound in the order of the list. -/
theorem importModule_only (hm : m.Innermost t) (h : m.Registered name o p)
    (hshown : m.store.outer p.shown = [] ∧ p.shown.isFree = true)
    (hnames : ∀ b ∈ m.store.bindings p.shown, NameRule.symbol.accepts b.1 = true)
    (names : List String) :
    m.BindsInOrder t (names.map fun n => (n, m.store.local? p.shown n))
      (importModule k name (.only names) m) := by
  rw [importModule_of_registered h]
  refine forM_bindsInOrder (P := fun m' => m'.Innermost t ∧ m'.store.outer p.shown = [] ∧
    ∀ n, m'.store.local? p.shown n = m.store.local? p.shown n) (fun _ => And.left) names ?_
    ⟨hm, hshown.1, fun _ => rfl⟩
  rintro n - m' ⟨hm', houter, hsame⟩
  have hlookup : m'.store.lookup p.shown n = m.store.local? p.shown n := by
    rw [Store.lookup, houter, List.findSome?_singleton, hsame]
  cases hc : m.store.local? p.shown n with
  | none =>
    refine Or.inl ⟨.unknownName n, rfl, ?_⟩
    simp only [bind_run, see, quiet, hlookup, hc, found, fail]
  | some c =>
    have hrun : (do declare n (← found n (← see (·.lookup p.shown n))) : Routine Unit) m' =
        declare n c m' := by
      simp only [bind_run, see, quiet, hlookup, hc, found, pure_run]
    rw [hrun]
    rcases declare_cases hm' (hnames _ (Store.Binds.of_local? hc)) c with hfailed | ⟨hfree, hrun⟩
    · exact Or.inl hfailed
    · refine Or.inr ⟨n, c, rfl, hfree, hrun, hm'.bound n c, ?_, fun n' => ?_⟩
      · obtain ⟨i, hi⟩ := TableId.exists_of_isFree hshown.2
        rw [Machine.bound, hi, Store.outer_bind_free, ← hi]
        exact houter
      · -- The scope has not had the name that the module shows, so it is another table.
        have hne : p.shown ≠ t := by
          rintro rfl
          rw [hsame, hc] at hfree
          cases hfree
        rw [Machine.bound, Store.local?_bind _ hm'.holds, if_neg fun h => hne h.1, hsame]

/-- An alias is made first, and then bound. -/
theorem importModule_under (hm : m.Innermost t) (h : m.Registered name o p) {other : String}
    (hother : NameRule.symbol.accepts other = true) : ∃ c m₁, m.Aliased o p c m₁ ∧
      m₁.BindsInOrder t [(other, some c)] (importModule k name (.under other) m) := by
  let a : ObjectId := m.store.fresh
  let c : CellId := ⟨m.store.cells.size⟩
  let made := (m.store.rooted m.roots.root m.roots.module_ (.moduleAlias o p)).2
  let m₁ : Machine := { m with store := (made.newCell (.const a)).2 }
  have hobject : ∀ x, m₁.store.object x = if x = a then
      m.store.rootedObject m.roots.root m.roots.module_ (.moduleAlias o p) else m.store.object x :=
    m.store.object_rooted _ _ _
  have haliased : m.Aliased o p c m₁ := by
    refine ⟨⟨a, Nat.lt_irrefl _, ?_, made.cell_newCell_self _⟩, Nat.lt_irrefl _, fun x hx => ?_,
      fun x hx => ?_, rfl, rfl⟩
    · rw [Store.kind, hobject, if_pos rfl]
      rfl
    · have hne : x ≠ a := by
        rintro rfl
        exact Nat.lt_irrefl _ hx
      rw [hobject, if_neg hne]
    · have hne : x.index ≠ m.store.cells.size := Nat.ne_of_lt hx
      exact (Store.cell_newCell made _ x).trans (if_neg hne)
  have hinner : m₁.Innermost t := by
    obtain ⟨i, rfl⟩ := TableId.exists_of_isFree hm.free
    exact ⟨hm.head, hm.holds, hm.free, hm.rule⟩
  refine ⟨c, m₁, haliased, ?_⟩
  have hrun : importModule k name (.under other) m = declare other c m₁ :=
    importModule_of_registered h (.under other)
  rw [hrun]
  rcases declare_cases hinner hother c with ⟨f, hinders, hfailed⟩ | ⟨hfree, hdone⟩
  · rw [hfailed]
    exact .upTo (.refl m₁ t) hinders []
  · rw [hdone]
    exact .cons hinner.holds hinner.free hfree (.all (.refl _ t))

end Eval

/-- The bindings of a table in the order of their names, if it binds none of them twice. -/
theorem Bindings.sorted_pairwise {bs : Bindings} (h : (bs.map Prod.fst).Nodup) :
    bs.sorted.Pairwise fun a b => a.1 < b.1 := by
  have hinsert (a : String × CellId) (l : Bindings) (hl : l.Pairwise fun a b => ¬ b.1 < a.1) :
      (insertBy (·.1 < ·.1) a l).Pairwise fun a b => ¬ b.1 < a.1 := by
    induction hl with
    | nil => simp [insertBy]
    | @cons b rest hb hrest ih =>
      rw [insertBy]
      split
      · next hlt =>
        refine .cons (fun c hc => ?_) ih
        rcases List.mem_cons.mp ((insertBy_perm _ a rest).mem_iff.mp hc) with rfl | hc
        · exact String.lt_asymm (of_decide_eq_true hlt)
        · exact hb c hc
      · next hle =>
        rw [decide_eq_true_iff] at hle
        refine .cons (fun c hc => ?_) (.cons hb hrest)
        rcases List.mem_cons.mp hc with rfl | hc
        · exact hle
        · exact String.le_trans hle (hb c hc)
  have hle : bs.sorted.Pairwise fun a b => ¬ b.1 < a.1 := by
    rw [Bindings.sorted, sortBy]
    clear h
    induction bs with
    | nil => exact .nil
    | cons b rest ih => exact hinsert b _ ih
  have hne : bs.sorted.Pairwise fun a b => a.1 ≠ b.1 := by
    rw [← List.pairwise_map (f := Prod.fst) (R := (· ≠ ·))]
    exact ((sortBy_perm _ bs).map Prod.fst).nodup_iff.mpr h
  refine hle.imp₂ (fun a b hab hne => ?_) hne
  by_contra hnot
  exact hne (String.le_antisymm hab hnot)

namespace Machine

variable {m : Machine}

theorem Reachable.innermost (h : Reachable m) : ∃ t, m.Innermost t ∧ t ≠ m.modules := by
  obtain ⟨a, rest, hstack, hsturdy⟩ := h.guarded.top
  have ha : a ∈ m.stack := hstack ▸ List.mem_cons_self ..
  obtain ⟨t, ts, hscopes⟩ := List.exists_cons_of_ne_nil hsturdy.inner
  have ht : t ∈ a.scopes := hscopes ▸ List.mem_cons_self ..
  have hplain := (h.proper.stack a ha).scopes t ht
  refine ⟨t, ⟨⟨a, rest, ts, hstack, hscopes⟩, h.scoped a ha t ht, hsturdy.scopes t ht,
    h.proper.store.rules t hplain⟩, ?_⟩
  rw [h.proper.modules]
  exact hplain.2

/-- In every state of a run, an import of a registered module binds in the innermost scope what it
has to bind: all that the module shows in the order of the names, the listed names in the order of
the list, or an alias that is made for it. It binds one after the other and stops at the first that
the module does not show or that the scope has, from before or from this import; it fails because of
that name then, and leaves what it has bound. Nothing else changes, the registered modules included.
What imports a module that is not registered changes nothing. -/
theorem imports_bind_in_order (h : Reachable m) (d : Nat) (name : String) :
    (m.store.local? m.modules name = none → ∀ binding,
      Eval.importModule (.ofDepth d) name binding m = .failed (.fault (.unknownName name)) m) ∧
    (∀ e, m.store.local? m.modules name = some e → ∃ o p t, m.store.cell e = .const o ∧
      m.store.kind o = .ofModule p ∧ m.Innermost t ∧ t ≠ m.modules ∧
      (∃ l : Bindings, l.Pairwise (fun a b => a.1 < b.1) ∧
        (∀ n c, (n, c) ∈ l ↔ m.store.local? p.shown n = some c) ∧
        m.BindsInOrder t (l.map fun b => (b.1, some b.2))
          (Eval.importModule (.ofDepth d) name .everything m)) ∧
      (∀ names, m.BindsInOrder t (names.map fun n => (n, m.store.local? p.shown n))
        (Eval.importModule (.ofDepth d) name (.only names) m)) ∧
      ∀ other, NameRule.symbol.accepts other = true → ∃ c m₁, m.Aliased o p c m₁ ∧
        m₁.BindsInOrder t [(other, some c)]
          (Eval.importModule (.ofDepth d) name (.under other) m)) ∧
    ∀ src b, parse src = .ok b → ∀ st : Statement, st.Occurs b → ∀ name other,
      st.command = .importModule name (.under other) → NameRule.symbol.accepts other = true := by
  have hproper := h.proper.store
  refine ⟨fun hnone binding => ?_, fun e he => ?_, ?_⟩
  · have houter : m.store.outer m.modules = [] := by
      obtain ⟨i, hi⟩ := TableId.exists_of_isFree h.guarded.modules
      rw [hi]
      exact hproper.outer i
    simp only [Eval.importModule, Eval.moduleNamed, Eval.getIn, bind_run, Routine.read, see, quiet,
      Store.lookup, houter, List.findSome?_singleton, hnone, Eval.found, fail]
  · have hentry := he
    rw [h.proper.modules] at hentry
    obtain ⟨p, -, ⟨o, ho, hp⟩, -⟩ := hproper.enrolled name e (.of_local? hentry)
    obtain ⟨t, hinner, hne⟩ := h.innermost
    have hparts : p.Proper initial.modules := by
      have hkind := hproper.kinds o
      rwa [hp] at hkind
    have hnames : ∀ b ∈ m.store.bindings p.shown, NameRule.symbol.accepts b.1 = true := fun b hb =>
      Eval.accepts_of_bound hproper hparts.shown hb
    have hshown : m.store.outer p.shown = [] ∧ p.shown.isFree = true := by
      obtain ⟨⟨i, hi⟩, -⟩ := hparts.shown
      rw [hi]
      exact ⟨hproper.outer i, rfl⟩
    have hdistinct := h.orderly.distinct
    have hregistered : m.Registered name o p := ⟨e, he, ho, hp⟩
    refine ⟨o, p, t, ho, hp, hinner, hne, ⟨_, Bindings.sorted_pairwise (hdistinct p.shown),
      fun n c => ?_, Eval.importModule_everything hinner hregistered hnames⟩,
      Eval.importModule_only hinner hregistered hshown hnames,
      fun other => Eval.importModule_under hinner hregistered⟩
    unfold Bindings.sorted
    rw [mem_sortBy]
    exact ⟨hdistinct.local?_of_mem, Store.Binds.of_local?⟩
  · intro src b hparse st hst name other hcommand
    have hmention : .name .symbol other ∈ st.command.mentions := by
      simp [hcommand, Binding.mentions]
    exact (parse_writes hparse _ (hst.mentions hmention)).proper

section Witness

/-- The program shows `x` in a module and leaves the name free in the innermost scope. -/
theorem exporting_leaves_free : ∃ m,
    (Eval.runSource (.ofDepth 24) exportingSource initial).machine? = some m ∧
      (∃ c, m.shownCell? "a" "x" = some c) ∧ ∃ a, m.stack.head? = some a ∧
      ∃ t, a.scopes.head? = some t ∧ m.store.local? t "x" = none := by decide +kernel

/-- A name that is listed twice is bound once, and then it is taken. -/
theorem imports_bind_in_order_twice : ∃ m t c m', Reachable m ∧ m.shownCell? "a" "x" = some c ∧
    m.Innermost t ∧ m.Gains t [("x", c)] m' ∧
    Eval.importModule (.ofDepth 0) "a" (.only ["x", "x"]) m =
      .failed (.fault (.nameTaken "x")) m' := by
  obtain ⟨m, hend, ⟨c, hshown⟩, a, ha, t₀, ht₀, hfree⟩ := exporting_leaves_free
  have hreachable : Reachable m := .between (.next .start 24 exportingSource hend)
  obtain ⟨e, o, p, he, ho, hp, hc⟩ := shownCell?_eq_some hshown
  obtain ⟨o', p', t, ho', hp', hinner, -, -, honly, -⟩ :=
    (imports_bind_in_order hreachable 0 "a").2.1 e he
  cases ho.symm.trans ho'
  cases hp.symm.trans hp'
  have hnone : m.store.local? t "x" = none := by
    obtain ⟨a', rest, ts, hstack, hscopes⟩ := hinner.head
    rw [hstack] at ha
    cases ha
    rw [hscopes] at ht₀
    cases ht₀
    exact hfree
  have hbinds := honly ["x", "x"]
  simp only [List.map_cons, List.map_nil, hc] at hbinds
  generalize hwanted : [("x", some c), ("x", some c)] = wanted at hbinds
  generalize hout : Eval.importModule (.ofDepth 0) "a" (.only ["x", "x"]) m = out at hbinds
  cases hbinds with
  | @all l m' gains =>
    have hdistinct := gains.distinct
    have hnames := congrArg (List.map Prod.fst) hwanted
    simp only [List.map_cons, List.map_nil, List.map_map] at hnames
    change ["x", "x"] = l.map Prod.fst at hnames
    rw [← hnames] at hdistinct
    exact absurd hdistinct (by decide)
  | @upTo l w f m' gains hinders rest =>
    match l with
    | [] =>
      obtain ⟨rfl, -⟩ := List.cons.inj hwanted
      simp [Store.hindrance?, hnone] at hinders
    | [b] =>
      obtain ⟨hb, hlast⟩ := List.cons.inj hwanted
      obtain ⟨rfl, -⟩ := List.cons.inj hlast
      cases b
      cases hb
      simp only [Store.hindrance?, hnone, List.map_cons, List.mem_cons, true_or, or_true, if_true,
        Option.some.injEq] at hinders
      subst hinders
      exact ⟨m, t, _, m', hreachable, hshown, hinner, gains, hout⟩
    | b :: b' :: l =>
      have hlength := congrArg List.length hwanted
      simp at hlength

end Witness

end Machine

end ObjectLang
