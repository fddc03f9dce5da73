import ObjectLang.Proofs.Aliasing
import ObjectLang.Proofs.ModuleDeclaration

/-!
Exports are live and cannot be assigned.
Whoever imports a name of a module, by itself or by way of modules that export it again, finds a
view. Views lead to the module's own binding, so that they are read as what the binding holds at the
time; and a view is never written.
-/
namespace ObjectLang

open Machine Routine

namespace Store

variable {W : Stock} {s s' : Store} {p : ModuleParts} {x : String} {b c : CellId}

/-- The cells under which others get the name `x` of a module: the one that the module shows, and
those of modules that have such a cell among their bindings and show it again. -/
inductive Obtained (s : Store) (p : ModuleParts) (x : String) : CellId → Prop where
  | shown {c : CellId} (h : s.local? p.shown x = some c) : Obtained s p x c
  | again {q : ModuleParts} {y : String} {c c' : CellId} (rest : Obtained s p x c)
      (hq : s.HasModule q) (hhidden : s.local? q.hidden y = some c)
      (hshown : s.local? q.shown y = some c') : Obtained s p x c'

/-- What a module shows is a view of what its body has bound. -/
theorem Tidy.view_of_shown (h : s.Tidy) (hp : s.HasModule p) (hc : s.local? p.shown x = some c) :
    ∃ b, s.cell c = .view b ∧ s.local? p.body x = some b := by
  obtain ⟨b, hview, hbinds⟩ := h.shown p x c hp (.of_local? hc)
  exact ⟨b, hview, h.body p x b hp (h.hidden p x b hp hbinds)⟩

/-- One view leads to the binding, or to a cell that was obtained before. -/
theorem Obtained.leads (h : s.Obtained p x c) (hs : s.Tidy) (hp : s.HasModule p)
    (hb : s.local? p.body x = some b) :
    ∃ c', s.cell c = .view c' ∧ (c' = b ∨ s.Obtained p x c') := by
  cases h with
  | shown h =>
    obtain ⟨b', hview, hbody⟩ := hs.view_of_shown hp h
    exact ⟨b', hview, Or.inl (Option.some.inj (hbody.symm.trans hb))⟩
  | @again q y c₁ _ rest hq hhidden hshown =>
    obtain ⟨c₂, hview, hbody⟩ := hs.view_of_shown hq hshown
    have hsame := hs.body q y c₁ hq (hs.hidden q y c₁ hq (.of_local? hhidden))
    obtain rfl := Option.some.inj (hbody.symm.trans hsame)
    exact ⟨c₂, hview, Or.inr rest⟩

theorem Tidy.still_of_body (h : s.Tidy) (hw : s.Wellformed W) (hp : s.HasModule p)
    (hb : s.Binds p.body x b) : (s.cell b).Still := by
  obtain ⟨i, hplaced, -⟩ := h.placed p hp
  rw [hplaced.body] at hb
  exact hw.quiet (i + 2) _ hb

/-- A cell that runs no code gives a value: a view is of an older cell, which runs none either. -/
theorem Tidy.exists_gives (h : s.Tidy) (hw : s.Wellformed W) (hc : (s.cell c).Still) :
    ∃ v, s.Gives v c := by
  induction hi : c.index using Nat.strong_induction_on generalizing c with
  | _ i ih =>
    cases hcell : s.cell c with
    | var v => exact ⟨v, .var hcell⟩
    | const v => exact ⟨v, .const hcell⟩
    | computed getter setter =>
      rw [hcell] at hc
      exact hc.elim
    | view c' =>
      obtain ⟨p, n, hp, hbinds⟩ := h.views c c' hcell
      have hstill := h.still_of_body hw hp (h.hidden p n c' hp hbinds)
      obtain ⟨v, hv⟩ := ih c'.index (hi ▸ h.older c c' hcell) hstill rfl
      exact ⟨v, .view hcell hv⟩

/-- All that is obtained gives what the binding gives. -/
theorem Obtained.gives (h : s.Obtained p x c) (hs : s.Tidy) (hp : s.HasModule p)
    (hb : s.local? p.body x = some b) {v : ObjectId} (hv : s.Gives v b) : s.Gives v c := by
  -- The views that are passed are older and older.
  induction hi : c.index using Nat.strong_induction_on generalizing c with
  | _ i ih =>
    obtain ⟨c', hview, rfl | hrest⟩ := h.leads hs hp hb
    · exact .view hview hv
    · exact .view hview (ih c'.index (hi ▸ hs.older c c' hview) hrest rfl)

theorem Obtained.grows (h : s.Obtained p x c) (hg : s.Grows s') : s'.Obtained p x c := by
  induction h with
  | shown h => exact .shown (hg.bound _ _ _ h)
  | again _ hq hhidden hshown ih =>
    exact .again ih (hq.grows hg) (hg.bound _ _ _ hhidden) (hg.bound _ _ _ hshown)

theorem lookupIn_alias {target o : ObjectId} (h : s.kind target = .moduleAlias o p)
    (hc : s.local? p.shown x = some c) (accessor : ObjectId) :
    s.lookupIn (s.memberScope accessor target) x = some c := by
  have hscope : s.memberScope accessor target = [p.shown] := by
    unfold memberScope
    split
    · rw [privateScope, h]
    · split
      · next hface => exact absurd (by rw [isModule, h]) hface.2
      · rw [publicScope, h]
  rw [hscope, lookupIn, List.findSome?_cons, lookup_of_local? hc]

end Store

variable {n : String} {c' : CellId}

namespace Machine

variable {m m' m'' : Machine} {c : CellId}

/-- The same activations run, on a store that has grown. -/
structure Extends (m m' : Machine) : Prop where
  stack : m'.stack = m.stack
  grows : m.store.Grows m'.store

theorem Extends.refl (m : Machine) : m.Extends m := ⟨rfl, .refl _⟩

theorem Extends.trans (h : m.Extends m') (h' : m'.Extends m'') : m.Extends m'' :=
  ⟨h'.stack.trans h.stack, h.grows.trans h'.grows⟩

/-- The module stands under the name in the registry. -/
def Registered (m : Machine) (name : String) (o : ObjectId) (p : ModuleParts) : Prop :=
  ∃ e, m.store.local? m.modules name = some e ∧ m.store.cell e = .const o ∧
    m.store.kind o = .ofModule p

def Scoped (m : Machine) : Prop := ∀ a ∈ m.stack, ∀ t ∈ a.scopes, m.store.Holds t

theorem Scoped.extends (h : m.Scoped) (hstep : m.Extends m') : m'.Scoped := by
  intro a ha t ht
  rw [hstep.stack] at ha
  exact (h a ha t ht).mono hstep.grows.sizes

def HeadBinds (m : Machine) (n : String) (c : CellId) : Prop :=
  ∃ a rest t ts, m.stack = a :: rest ∧ a.scopes = t :: ts ∧ m.store.local? t n = some c

theorem HeadBinds.extends (h : m.HeadBinds n c) (hstep : m.Extends m') :
    m'.HeadBinds n c := by
  obtain ⟨a, rest, t, ts, hstack, hscopes, hlocal⟩ := h
  exact ⟨a, rest, t, ts, hstep.stack.trans hstack, hscopes, hstep.grows.bound t n c hlocal⟩

theorem HeadBinds.lookup (h : m.HeadBinds n c) :
    m.lookup n = some c := by
  obtain ⟨a, rest, t, ts, hstack, hscopes, hlocal⟩ := h
  rw [Machine.lookup, hstack, List.head?_cons, Option.bind_some, hscopes, Store.lookupIn,
    List.findSome?_cons, Store.lookup_of_local? hlocal]

end Machine

namespace Routine

variable {β : Type} {f : β → Routine Unit} {m m' : Machine}

/-- What is declared is bound in the innermost scope. -/
theorem declare_done {c : CellId} (hm : m.Scoped) (hrun : declare n c m = .done () m') :
    m.Extends m' ∧ m'.HeadBinds n c := by
  cases hstack : m.stack with
  | nil => simp [declare, bind_run, peek, quiet, hstack] at hrun
  | cons a rest =>
    cases hscopes : a.scopes with
    | nil => simp [declare, bind_run, peek, quiet, hstack, defineLocal, hscopes, fail] at hrun
    | cons t ts =>
      have hholds := hm a (hstack ▸ List.mem_cons_self ..) t (hscopes ▸ List.mem_cons_self ..)
      simp only [declare, bind_run, peek, quiet, hstack, List.getElem?_cons_zero, defineLocal,
        hscopes, define] at hrun
      split at hrun
      · next hfree =>
        cases hrun
        refine ⟨⟨hstack.symm, m.store.bind_grows c hholds (Store.free_of_refusal? hfree)⟩, a,
          rest, t, ts, rfl, hscopes, ?_⟩
        rw [Store.local?_bind _ hholds, if_pos ⟨rfl, rfl⟩]
      · cases hrun

/-- A loop passes every element of its list, on an extended machine. -/
theorem forM_passes (hf : ∀ b m m', m.Scoped → f b m = .done () m' → m.Extends m') (l : List β)
    (hm : m.Scoped) (hrun : l.forM f m = .done () m') :
    m.Extends m' ∧ ∀ b ∈ l, ∃ m₁ m₂, m.Extends m₁ ∧ f b m₁ = .done () m₂ ∧ m₂.Extends m' := by
  induction l generalizing m with
  | nil =>
    cases hrun
    exact ⟨.refl _, nofun⟩
  | cons b rest ih =>
    obtain ⟨_, m₁, hfirst, hrest⟩ := done_of_bind hrun
    have hstep := hf b m m₁ hm hfirst
    obtain ⟨hextends, hpasses⟩ := ih (hm.extends hstep) hrest
    refine ⟨hstep.trans hextends, fun b' hb' => ?_⟩
    rcases List.mem_cons.mp hb' with rfl | hb'
    · exact ⟨m, m₁, .refl m, hfirst, hextends⟩
    · obtain ⟨m₂, m₃, hto, hrun, hfrom⟩ := hpasses b' hb'
      exact ⟨m₂, m₃, hstep.trans hto, hrun, hfrom⟩

end Routine

namespace Eval

variable {k : Inner} {m m' : Machine} {c : CellId} {v : ObjectId} {y : String} {op : Option Arith}
  {value : Expr}

theorem getName_of_read (hc : m.lookup y = some c) (hread : readCell k c none m = .done v m) :
    getName k y m = .done v m := by
  simp only [getName, bind_run, Routine.read, quiet, hc, found, pure_run, readVia, touch, hread]

theorem setName_view (hc : m.lookup y = some c) (hview : m.store.cell c = .view c') (w : ObjectId) :
    setName k y w m = .failed (.fault .constant) m := by
  simp only [setName, bind_run, Routine.read, quiet, hc, found, pure_run, writeVia, touch,
    writeCell, see, hview, fail]

section Imports

variable {name x : String} {o : ObjectId} {p : ModuleParts}

/-- An import first finds its module. -/
theorem importModule_of_registered (h : m.Registered name o p) (binding : Binding) :
    importModule k name binding m = (match binding with
      | .everything =>
        (m.store.bindings p.shown).sorted.forM (fun b => declare b.1 b.2)
      | .only names =>
        names.forM fun n => do declare n (← found n (← see (·.lookup p.shown n)))
      | .under other => do
        let a ← makeRooted (.moduleAlias o p) (·.module_)
        declare other (← newCell (.const a)) : Routine Unit) m := by
  obtain ⟨e, he, ho, hp⟩ := h
  have hmodule : moduleNamed k name m = .done o m := by
    simp only [moduleNamed, bind_run, Routine.read, quiet]
    exact getIn_const he ho
  rw [importModule, bind_run_done hmodule]
  simp only [bind_run, see, quiet, hp]
  cases binding <;> rfl

theorem import_everything (hm : m.Scoped) (h : m.Registered name o p)
    (hc : m.store.local? p.shown x = some c)
    (hrun : importModule k name .everything m = .done () m') :
    m.Extends m' ∧ m'.lookup x = some c := by
  rw [importModule_of_registered h] at hrun
  obtain ⟨hextends, hpasses⟩ := forM_passes (fun b m m' hm h => (declare_done hm h).1) _ hm hrun
  have hmem : (x, c) ∈ (m.store.bindings p.shown).sorted :=
    (mem_sortBy _).mpr (Store.Binds.of_local? hc)
  obtain ⟨m₁, m₂, hto, hdeclare, hfrom⟩ := hpasses (x, c) hmem
  exact ⟨hextends, ((declare_done (hm.extends hto) hdeclare).2.extends hfrom).lookup⟩

theorem declareFound_done {t : TableId}
    (hrun : (do declare n (← found n (← see (·.lookup t n))) : Routine Unit) m = .done () m') :
    ∃ c, m.store.lookup t n = some c ∧ declare n c m = .done () m' := by
  cases hc : m.store.lookup t n with
  | none =>
    simp only [bind_run, see, quiet, hc, found, fail] at hrun
    cases hrun
  | some c =>
    simp only [bind_run, see, quiet, hc, found, pure_run] at hrun
    exact ⟨c, rfl, hrun⟩

theorem import_only {names : List String} (hm : m.Scoped) (h : m.Registered name o p)
    (hc : m.store.local? p.shown x = some c) (hx : x ∈ names)
    (hrun : importModule k name (.only names) m = .done () m') :
    m.Extends m' ∧ m'.lookup x = some c := by
  rw [importModule_of_registered h] at hrun
  obtain ⟨hextends, hpasses⟩ := forM_passes (fun n m m' hm h => by
    obtain ⟨c, -, hdeclare⟩ := declareFound_done h
    exact (declare_done hm hdeclare).1) _ hm hrun
  obtain ⟨m₁, m₂, hto, hstep, hfrom⟩ := hpasses x hx
  obtain ⟨c', hc', hdeclare⟩ := declareFound_done hstep
  rw [Store.lookup_of_local? (hto.grows.bound _ _ _ hc)] at hc'
  obtain rfl := Option.some.inj hc'
  exact ⟨hextends, ((declare_done (hm.extends hto) hdeclare).2.extends hfrom).lookup⟩

theorem import_under {other : String} (hm : m.Scoped) (h : m.Registered name o p)
    (hrun : importModule k name (.under other) m = .done () m') :
    m.Extends m' ∧ ∃ c a, m'.lookup other = some c ∧ m'.store.cell c = .const a ∧
      m'.store.kind a = .moduleAlias o p := by
  rw [importModule_of_registered h] at hrun
  obtain ⟨a, m₁, hmade, hrest⟩ := done_of_bind hrun
  obtain ⟨c, m₂, hcell, hdeclare⟩ := done_of_bind hrest
  rw [makeRooted_run] at hmade
  cases hmade
  rw [newCell_run] at hcell
  cases hcell
  have hrooted := m.store.rooted_grows m.roots.root m.roots.module_ (.moduleAlias o p)
  have hnew := (m.store.rooted m.roots.root m.roots.module_ (.moduleAlias o p)).2.newCell_grows
    (.const m.store.fresh)
  have hstep : m.Extends { m with store := ((m.store.rooted m.roots.root m.roots.module_
      (.moduleAlias o p)).2.newCell (.const m.store.fresh)).2 } :=
    ⟨rfl, hrooted.trans hnew⟩
  obtain ⟨hextends, hbinds⟩ := declare_done (hm.extends hstep) hdeclare
  refine ⟨hstep.trans hextends, _, m.store.fresh, hbinds.lookup, ?_, ?_⟩
  · exact hextends.grows.const (by simp [Store.HasCell]) (Store.cell_newCell_self _ _)
  · refine (hnew.trans hextends.grows).kind_of_ne ?_ (by simp)
    rw [Store.kind, Store.object_rooted]
    exact congrArg Object.kind (if_pos rfl)

end Imports

end Eval

namespace Machine

variable {m m' : Machine} {t : List Moment} {c : CellId}

/-- However the cell is found, it is read as the value: as a cell, under a name, and as a member of
an alias. The evaluator has to go as deep as there are views on the way. -/
def ReadsAs (m : Machine) (c : CellId) (v : ObjectId) : Prop :=
  ∃ n, ∀ d, n ≤ d →
    (∀ receiver, Eval.readCell (.ofDepth d) c receiver m = .done v m) ∧
    (∀ y, m.lookup y = some c → Eval.getName (.ofDepth d) y m = .done v m) ∧
    ∀ a o q y text caller, m.store.kind a = .moduleAlias o q → m.store.local? q.shown y = some c →
      m.store.asString text = some y → m.stack[1]? = some caller →
      Eval.memberOf (.ofDepth d) a [text] m = .done v m

/-- However the cell is found, nothing can be assigned to it: a plain or compound assignment whose
value has been found fails as one to a constant, and the machine is as it was then. -/
def Locked (m : Machine) (c : CellId) : Prop :=
  ∀ d,
    (∀ y, m.lookup y = some c →
      (∀ v, Eval.setName (.ofDepth d) y v m = .failed (.fault .constant) m) ∧
      ∀ op value m₀ v,
        Eval.assigned (.ofDepth d) op (Eval.getName (.ofDepth d) y) value m₀ = .done v m →
        Eval.runCommand (.ofDepth d) (.assign y op value) m₀ = .failed (.fault .constant) m) ∧
    ∀ a o q y running, m.store.kind a = .moduleAlias o q → m.store.local? q.shown y = some c →
      m.stack[0]? = some running →
      (∀ v, Eval.setMember (.ofDepth d) a y v m = .failed (.fault .constant) m) ∧
      ∀ target op value m₀ m₁ v, (Inner.ofDepth d).evaluate target m₀ = .done a m₁ →
        Eval.assigned (.ofDepth d) op (Eval.getMember (.ofDepth d) a y) value m₁ = .done v m →
        Eval.runCommand (.ofDepth d) (.assignMember target y op value) m₀ =
          .failed (.fault .constant) m

theorem readsAs_of_gives {v : ObjectId} (h : m.store.Gives v c) : m.ReadsAs c v := by
  obtain ⟨n, hn⟩ := Eval.readCell_gives h
  refine ⟨n, fun d hd => ⟨hn d hd, fun y hy => Eval.getName_of_read hy (hn d hd none), ?_⟩⟩
  intro a o q y text caller hkind hc htext hcaller
  simp only [Eval.memberOf, Eval.argument, Eval.expectString, Eval.memberCell, bind_run, pure_run,
    see, quiet, peek, List.getElem?_cons_zero, htext, hcaller,
    Store.lookupIn_alias hkind hc caller.owner, Eval.found, Eval.readVia, touch,
    hn d hd (some a)]

theorem locked_of_view (h : m.store.cell c = .view c') : m.Locked c := by
  intro d
  refine ⟨fun y hy => ⟨Eval.setName_view hy h, ?_⟩, ?_⟩
  · intro op value m₀ v hvalue
    simp only [Eval.runCommand, bind_run, hvalue, Eval.setName_view hy h v]
  · intro a o q y running hkind hc hrunning
    have hlookup := Store.lookupIn_alias hkind hc running.owner
    refine ⟨fun v => ?_, fun target op value m₀ m₁ v htarget hvalue => ?_⟩
    · simp only [Eval.setMember, Eval.memberCell, bind_run, peek, see, quiet, hrunning, hlookup,
        Eval.found, pure_run, Eval.writeVia, touch, Eval.writeCell, h, fail]
    · simp only [Eval.runCommand, bind_run, htarget, hvalue, Eval.setMember, Eval.memberCell, peek,
        see, quiet, hrunning, hlookup, Eval.found, pure_run, Eval.writeVia, touch, Eval.writeCell,
        h, fail]

theorem Reachable.scoped (h : Reachable m) : m.Scoped := fun a ha t ht =>
  ((h.sound.stack a ha).scopes t ht).holds

/-- A module that is registered at some time shows a name `x`. At every later time its own binding
of `x` is the same cell, and all that others have obtained from the module under this name, before
or since, is read as what that cell gives at the time and cannot be assigned. An import of the
module, as a whole, by name or under another name, gives such a cell or an alias of the module. -/
theorem exports_live (h : Later m t m') {name x : String} {e shown : CellId} {o : ObjectId}
    {p : ModuleParts} (he : m.store.local? m.modules name = some e) (ho : m.store.cell e = .const o)
    (hp : m.store.kind o = .ofModule p) (hx : m.store.local? p.shown x = some shown) :
    (∀ c, m.store.Obtained p x c → m'.store.Obtained p x c) ∧
    (∃ b v, m.store.local? p.body x = some b ∧ m'.store.local? p.body x = some b ∧
      m'.ReadsAs b v ∧ ∀ c, m'.store.Obtained p x c → m'.ReadsAs c v ∧ m'.Locked c) ∧
    ∀ d m'',
      (Eval.importModule (.ofDepth d) name .everything m' = .done () m'' →
        ∃ c, m''.lookup x = some c ∧ m''.store.Obtained p x c) ∧
      (∀ names, x ∈ names → Eval.importModule (.ofDepth d) name (.only names) m' = .done () m'' →
        ∃ c, m''.lookup x = some c ∧ m''.store.Obtained p x c) ∧
      ∀ other, Eval.importModule (.ofDepth d) name (.under other) m' = .done () m'' →
        ∃ c a, m''.lookup other = some c ∧ m''.store.cell c = .const a ∧
          m''.store.kind a = .moduleAlias o p ∧
          ∃ y, m''.store.local? p.shown x = some y ∧ m''.store.Obtained p x y := by
  have hgrows := h.onward.grows
  have hs := h.reachable.tidy
  have hscoped := h.reachable.scoped
  have he' : m'.store.local? m'.modules name = some e := by
    rw [h.onward.modules]
    exact hgrows.bound _ _ _ he
  have hp' := hgrows.kind_of_ne hp nofun
  have hregistered : m'.Registered name o p :=
    ⟨e, he', hgrows.const (h.passage.1.store.hasCell_of_local? he) ho, hp'⟩
  have hx' := hgrows.bound _ _ _ hx
  refine ⟨fun c hc => hc.grows hgrows, ?_,
    fun d m'' => ⟨fun hrun => ?_, fun names hmem hrun => ?_, fun other hrun => ?_⟩⟩
  · obtain ⟨b, -, hb⟩ := h.reachable_from.tidy.view_of_shown ⟨o, hp⟩ hx
    have hb' := hgrows.bound _ _ _ hb
    have hw := h.reachable.sound.store.toWellformed
    obtain ⟨v, hv⟩ := hs.exists_gives hw (hs.still_of_body hw ⟨o, hp'⟩ (.of_local? hb'))
    refine ⟨b, v, hb, hb', readsAs_of_gives hv, fun c hc => ⟨?_, ?_⟩⟩
    · exact readsAs_of_gives (hc.gives hs ⟨o, hp'⟩ hb' hv)
    · obtain ⟨c', hview, -⟩ := hc.leads hs ⟨o, hp'⟩ hb'
      exact locked_of_view hview
  · obtain ⟨hextends, hlookup⟩ := Eval.import_everything hscoped hregistered hx' hrun
    exact ⟨shown, hlookup, .shown (hextends.grows.bound _ _ _ hx')⟩
  · obtain ⟨hextends, hlookup⟩ := Eval.import_only hscoped hregistered hx' hmem hrun
    exact ⟨shown, hlookup, .shown (hextends.grows.bound _ _ _ hx')⟩
  · obtain ⟨hextends, c, a, hlookup, hcell, hkind⟩ := Eval.import_under hscoped hregistered hrun
    have hshown := hextends.grows.bound _ _ _ hx'
    exact ⟨c, a, hlookup, hcell, hkind, shown, hshown, .shown hshown⟩

/-- A module exports a variable and a function that assigns it. Another module exports the variable
again, from where the main program has it. -/
def sharingSource : Source := .ofText
  ("module a \x7b var x = 1 function set(v) \x7b x = v \x7d export x, set \x7d" ++
    "module b \x7b import a export x \x7d import b import a (set)")

def settingSource : Source := .ofText "set(7)"

set_option synthInstance.maxSize 512 in
theorem sharing_run : ∃ m, (Eval.runSource (.ofDepth 16) sharingSource initial).machine? = some m ∧
    ∃ p, m.module? "a" = some p ∧ ∃ q, m.module? "b" = some q ∧
    ∃ shown, m.store.local? p.shown "x" = some shown ∧ m.store.local? q.hidden "x" = some shown ∧
    ∃ c, m.store.local? q.shown "x" = some c ∧ m.lookup "x" = some c ∧
    ∃ i, m.store.local? p.body "x" = some i ∧
    (∃ v, m.store.cell i = .var v ∧ m.store.kind v = .integer 1) ∧
    ∃ m', (Eval.runSource (.ofDepth 16) settingSource m).machine? = some m' ∧
      ∃ v, m'.store.cell i = .var v ∧ m'.store.kind v = .integer 7 := by decide +kernel

theorem ReadsAs.eq_of_var {b : CellId} {v w : ObjectId} (h : m.ReadsAs b v)
    (hw : m.store.cell b = .var w) : v = w := by
  obtain ⟨n, hn⟩ := h
  have hread := (hn n (Nat.le_refl n)).1 none
  simp only [Eval.readCell, bind_run, see, quiet, hw, pure_run] at hread
  cases hread
  rfl

/-- The main program reads the variable of the module through another one, before and after an
assignment that the module has made, and cannot assign it. -/
theorem exports_live_again : ∃ m t m' p c v v', Later m t m' ∧ m.module? "a" = some p ∧
    m.store.Obtained p "x" c ∧ m.lookup "x" = some c ∧
    (m.ReadsAs c v ∧ m.store.kind v = .integer 1) ∧
    (m'.ReadsAs c v' ∧ m'.store.kind v' = .integer 7) ∧ m'.Locked c := by
  obtain ⟨m, hend, p, hp, q, hq, shown, hshown, hhidden, c, hc, hlookup, i, hi, ⟨v, hv, hone⟩, m',
    hset, v', hv', hseven⟩ := sharing_run
  have hafter : After [sharingSource] m := .next .start 16 sharingSource hend
  have hlater := Later.ended (.next (.stay hafter) 16 settingSource hset)
  obtain ⟨e, o, he, ho, hkind⟩ := module?_eq_some hp
  obtain ⟨-, o', -, -, hkind'⟩ := module?_eq_some hq
  have hagain : m.store.Obtained p "x" c := .again (.shown hshown) ⟨o', hkind'⟩ hhidden hc
  obtain ⟨-, ⟨b, w, hb, -, hreads, hall⟩, -⟩ :=
    exports_live (.now (.between hafter)) he ho hkind hshown
  obtain ⟨hkept, ⟨b', w', hb', -, hreads', hall'⟩, -⟩ := exports_live hlater he ho hkind hshown
  cases hi.symm.trans hb
  cases hi.symm.trans hb'
  cases hreads.eq_of_var hv
  cases hreads'.eq_of_var hv'
  obtain ⟨hlive, hlocked⟩ := hall' c (hkept c hagain)
  exact ⟨m, _, m', p, c, v, v', hlater, hp, hagain, hlookup, ⟨(hall c hagain).1, hone⟩,
    ⟨hlive, hseven⟩, hlocked⟩

end Machine

end ObjectLang
