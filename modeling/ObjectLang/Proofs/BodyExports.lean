import ObjectLang.Proofs.ClosureSnapshots
import ObjectLang.Proofs.ModuleDeclaration

/-!
Whose exports a module shows.
An export is recorded with the running activation, and when the body of a module has ended, the
module shows what is recorded with the body's own activation. A closure that the body calls runs on
a copy of that activation. The copy belongs to the module too, so that the closure can export names
as well; but they are recorded with the copy, and lost when the call ends.
-/
namespace ObjectLang

open Machine Routine

/-- A statement is about to export `n`, in an activation that belongs to the object. -/
def Moment.ExportsFor (q : Moment) (o : ObjectId) (n : String) : Prop :=
  ∃ st names a below, q.deed = .executes st ∧ st.command = .exportNames names ∧ n ∈ names ∧
    q.machine.stack = a :: below ∧ a.owner = o

namespace Eval

variable {k : Inner} {T : TableId → Prop} {m m' : Machine} {name : String} {body : Block}
  {q : Moment} {a : Activation} {below : List Activation}

/-- In an activation of a module names are exported without fail, and recorded there only. -/
theorem exportNames_run {parts : ModuleParts} (hstack : m.stack = a :: below)
    (hkind : m.store.kind a.owner = .ofModule parts) (names : List String) :
    exportNames names m =
      .done () { m with stack := names.foldl (·.record Activation.exportKey ·) a :: below } := by
  simp only [exportNames, bind_run, peek, see, quiet, hstack, List.getElem?_cons_zero, hkind]
  exact congrArg (Outcome.done ()) (modifyTop_eq hstack)

/-- All along, the object that the body runs for is the module. -/
theorem body_owner (hk : k.Tame) (hm : m.Admits T)
    (hq : q ∈ (runBodyIn k (moduleActivation m name) body).moments (moduleMachine m name)) :
    q.machine.store.kind m.store.fresh = .ofModule (m.store.nextModule name) := by
  rw [runBodyIn_moments] at hq
  have hgrows := ((executeBody_tended hk hm name body).passing hq).grows
  exact hgrows.kind_of_ne (moduleMachine_kind m name) nofun

end Eval

namespace Machine

variable {m m' : Machine} {d : Nat} {name : String} {body : Block} {o : ObjectId}

/-- When a module has been declared, in any state of a run: it shows a name exactly if a statement
has exported the name in the body's own activation, the one right above those that were there
before. All other activations that belong to the module export names as well, without fail, but what
they export is recorded with themselves: the store and all activations below stay as they are. -/
theorem shown_iff_exported_by_body (h : Reachable m)
    (hrun : Eval.declareModule (.ofDepth d) name body m = .done o m') :
    ∃ p, m'.store.kind o = .ofModule p ∧
      (∀ n, (∃ c, m'.store.local? p.shown n = some c) ↔
        ∃ q ∈ (Eval.declareModule (.ofDepth d) name body).moments m, q.ExportsFor o n ∧
          ∃ a, q.machine.stack = a :: m.stack) ∧
      ∀ q ∈ (Eval.declareModule (.ofDepth d) name body).moments m, ∀ st names a below,
        q.deed = .executes st → st.command = .exportNames names →
        q.machine.stack = a :: below → a.owner = o →
        Eval.exportNames names q.machine = .done ()
          { q.machine with stack := names.foldl (·.record Activation.exportKey ·) a :: below } ∧
        (below = m.stack ∨ ∃ up b, below = up ++ b :: m.stack ∧ b.owner = o) := by
  have hk := Inner.tame_ofDepth d
  obtain ⟨home, exports, m₁, -, hdeclared⟩ := declared_of_done hk h.admits hrun
  obtain ⟨p, hkind, -, -, hshown, -⟩ := hdeclared.tables
  obtain ⟨hfree, r, m₂, m₃, -, -, henrol⟩ := Eval.declareModule_parts hrun
  obtain rfl := Eval.enrolModule_value henrol
  have hmodule : ∀ q ∈ (Eval.declareModule (.ofDepth d) name body).moments m,
      q.machine.store.kind m.store.fresh = .ofModule (m.store.nextModule name) := by
    intro q hq
    rw [Eval.declareModule_moments_done hfree hrun] at hq
    exact Eval.body_owner hk h.admits hq
  refine ⟨p, hkind, fun n => ?_, ?_⟩
  · rw [hshown]
    refine exists_congr fun q => and_congr_right fun hq => ⟨?_, ?_⟩
    · rintro ⟨st, names, a, parts, hdeed, hcommand, hn, hstack, -⟩
      obtain ⟨up, b, hup, hb⟩ := hdeclared.frame q hq
      obtain rfl : up = [] := by
        have hlength := congrArg List.length (hstack.symm.trans hup)
        simp only [List.length_cons, List.length_append] at hlength
        exact List.eq_nil_of_length_eq_zero (by omega)
      obtain ⟨rfl, -⟩ := List.cons.inj (hstack.symm.trans hup)
      exact ⟨⟨st, names, a, m.stack, hdeed, hcommand, hn, hstack, hb⟩, a, hstack⟩
    · rintro ⟨⟨st, names, a, below, hdeed, hcommand, hn, hstack, ha⟩, a', hstack'⟩
      obtain ⟨rfl, rfl⟩ := List.cons.inj (hstack.symm.trans hstack')
      exact ⟨st, names, a, _, hdeed, hcommand, hn, hstack, ha ▸ hmodule q hq⟩
  · intro q hq st names a below hdeed hcommand hstack ha
    refine ⟨Eval.exportNames_run hstack (ha ▸ hmodule q hq) names, ?_⟩
    obtain ⟨up, b, hup, hb⟩ := hdeclared.frame q hq
    cases up with
    | nil => exact Or.inl (List.cons.inj (hstack.symm.trans hup)).2
    | cons a' up => exact Or.inr ⟨up, b, (List.cons.inj (hstack.symm.trans hup)).2, hb⟩

section Witness

def shownBy? (m : Machine) (o : ObjectId) (x : String) : Option CellId :=
  match m.store.kind o with
  | .ofModule p => m.store.local? p.shown x
  | _ => none

theorem shownBy?_eq {p : ModuleParts} (h : m.store.kind o = .ofModule p) (x : String) :
    m.shownBy? o x = m.store.local? p.shown x := by
  rw [shownBy?, h]

def declared? (m : Machine) (src : Source) : Option (String × Block × ObjectId × Machine) :=
  match parse src with
  | .ok [.mk (.declareModule name body) _ _] =>
    match Eval.declareModule (.ofDepth 24) name body m with
    | .done o m' => some (name, body, o, m')
    | _ => none
  | _ => none

theorem declared?_eq_some {src : Source} (h : m.declared? src = some (name, body, o, m')) :
    (∃ span text, parse src = .ok [.mk (.declareModule name body) span text]) ∧
      Eval.declareModule (.ofDepth 24) name body m = .done o m' := by
  unfold declared? at h
  split at h
  · next _ body' span text hparse =>
    split at h
    · next o' m₁ hrun =>
      cases h
      exact ⟨⟨span, text, hparse⟩, hrun⟩
    · cases h
  · cases h

def checkShown (m : Machine) : Bool :=
  match m.declared? exportingSource with
  | some (_, _, o, m') => (m'.shownBy? o "x").isSome
  | none => false

theorem shown_check : checkShown initial = true := by decide +kernel

/-- The body of the module exports a name, and the module shows it. -/
theorem shown_iff_exported_by_body_exporting : ∃ name body o m' p c q,
    Eval.declareModule (.ofDepth 24) name body initial = .done o m' ∧
    m'.store.kind o = .ofModule p ∧ m'.store.local? p.shown "x" = some c ∧
    q ∈ (Eval.declareModule (.ofDepth 24) name body).moments initial ∧ q.ExportsFor o "x" ∧
    ∃ a, q.machine.stack = a :: initial.stack := by
  have hcheck := shown_check
  unfold checkShown at hcheck
  split at hcheck
  · next name body o m' hdeclared =>
    obtain ⟨-, hrun⟩ := declared?_eq_some hdeclared
    obtain ⟨p, hkind, hshown, -⟩ := shown_iff_exported_by_body (.between .start) hrun
    rw [shownBy?_eq hkind] at hcheck
    obtain ⟨c, hc⟩ := Option.isSome_iff_exists.mp hcheck
    obtain ⟨q, hq, hexports, hown⟩ := (hshown "x").mp ⟨c, hc⟩
    exact ⟨name, body, o, m', p, c, q, hrun, hkind, hc, hq, hexports, hown⟩
  · cases hcheck

end Witness

section Lost

def inClosure (m : Machine) (a : Activation) : Machine :=
  let outer := m.store.newTable .empty
  let inner := outer.2.newTable .empty
  { m.push a with store := inner.2, stack := (a.pushScope outer.1).pushScope inner.1 :: m.stack }

variable {k : Inner} {m₁ m₂ m₃ m₄ : Machine} {f u v w : ObjectId} {code : Code}
  {captured : Activation} {q : Moment}

theorem mem_withScope {α : Type} {x : Routine α} {t : TableId} {a : Activation}
    {rest : List Activation} (hstack : m.stack = a :: rest)
    (hq : q ∈ x.moments { m with stack := a.pushScope t :: rest }) :
    q ∈ (withScope t x).moments m := by
  have hpeek : peek 0 m = .done a m := by simp [peek, quiet, hstack]
  refine mem_bind_right hpeek ?_
  rw [(inScope_resumes t x hstack).moments, ensuring, moments_ending]
  exact hq

/-- A call of such a closure passes what its block passes. -/
theorem mem_invoke_closure (hkind : m.store.kind f = .closure code captured)
    (hparams : code.params = .fixed []) (hbody : code.body = .block body)
    (hq : q ∈ (k.execute body).moments (m.inClosure (captured.renamed code.name)))
    (receiver : Option ObjectId) : q ∈ (Eval.invoke k f receiver []).moments m := by
  have hsee : see (·.kind f) m = .done (.closure code captured) m := by
    rw [← hkind]
    rfl
  have hname : read (·.runningName) m = .done m.runningName m := rfl
  refine mem_bind_right hsee (mem_bind_right hname ?_)
  rw [moments_withActivation, Eval.runCode]
  have htake : ∀ m₁, Eval.takeArguments m.runningName code (.free m.store.tables.size) [] m₁ =
      .done () m₁ := by
    intro m₁
    rw [Eval.takeArguments, hparams]
    rfl
  refine mem_bind_right (a := .free m.store.tables.size) rfl (mem_bind_right (htake _) ?_)
  refine mem_withScope rfl ?_
  rw [hbody]
  exact mem_bind_right (a := .free (m.store.newTable .empty).2.tables.size) rfl
    (mem_withScope rfl (mem_bind_left hq))

/-- The second statement of a block calls a closure that is made there, and the closure executes a
statement. -/
theorem mem_execute_call {e : Nat} {first st : Statement} {inner : Block} {span : Span}
    {text : String} (hnothing : Eval.nothing (.ofDepth (e + 3)) m = .done v m₁)
    (hfirst : Eval.runStatement (.ofDepth (e + 3)) first m₁ = .done (.next w) m₂)
    (hclosure : (Inner.ofDepth (e + 2)).evaluate (.closure [] inner) m₂ = .done f m₃)
    (hkind : m₃.store.kind f = .closure code captured) (hparams : code.params = .fixed [])
    (hbody : code.body = .block [st])
    (hinside : Eval.nothing (.ofDepth e) (m₃.inClosure (captured.renamed code.name)) = .done u m₄) :
    ⟨.executes st, m₄⟩ ∈ (Eval.execute (.ofDepth (e + 3))
      [first, .mk (.evaluate (.call (.closure [] inner) [])) span text]).moments m := by
  refine mem_bind_right hnothing (mem_bind_right hfirst (mem_bind_left ?_))
  refine mem_bind_right (a := ()) rfl ?_
  rw [moments_onError]
  refine List.mem_append.mpr (Or.inl (mem_bind_left (mem_bind_right (a := ()) rfl ?_)))
  refine mem_bind_right hclosure (mem_bind_right (a := []) rfl ?_)
  refine mem_invoke_closure hkind hparams hbody ?_ none
  exact mem_bind_right hinside (mem_bind_left (mem_bind_left (by simp)))

/-- A module whose body calls a closure that exports a name of the body. -/
def losingSource : Source := .ofText "module m\x7bval x=1 closure()\x7bexport x\x7d()\x7d"

/-- Whether the second statement of the module's body calls a closure of the module that exports
`x`, and `x` is not shown in the end. -/
def checkLost (m : Machine) : Bool :=
  match m.declared? losingSource with
  | some (name, [first, .mk (.evaluate (.call (.closure [] inner) [])) _ _], o, m') =>
    (m'.shownBy? o "x").isNone &&
    match Eval.nothing (.ofDepth 23)
        ((Eval.moduleMachine m name).push (Eval.moduleActivation m name)) with
    | .done _ m₁ =>
      match Eval.runStatement (.ofDepth 23) first m₁ with
      | .done (.next _) m₂ =>
        match (Inner.ofDepth 22).evaluate (.closure [] inner) m₂ with
        | .done f m₃ =>
          match m₃.store.kind f with
          | .closure ⟨title, .fixed [], .block [.mk (.exportNames ["x"]) _ _], _⟩ captured =>
            match Eval.nothing (.ofDepth 20) (m₃.inClosure (captured.renamed title)) with
            | .done _ m₄ => m₄.stack.head?.any (·.owner = o)
            | _ => false
          | _ => false
        | _ => false
      | _ => false
    | _ => false
  | _ => false

theorem checkLost_sound (h : checkLost m = true) : ∃ name body o m' st m₄,
    m.declared? losingSource = some (name, body, o, m') ∧ m'.shownBy? o "x" = none ∧
    st.command = .exportNames ["x"] ∧ (∃ a below, m₄.stack = a :: below ∧ a.owner = o) ∧
    ⟨.executes st, m₄⟩ ∈ ((Inner.ofDepth 24).execute body).moments
      ((Eval.moduleMachine m name).push (Eval.moduleActivation m name)) := by
  unfold checkLost at h
  split at h
  · next name first inner span text o m' hdeclared =>
    rw [Bool.and_eq_true, Option.isNone_iff_eq_none] at h
    obtain ⟨hnone, h⟩ := h
    split at h
    · next v m₁ hnothing =>
      split at h
      · next w m₂ hfirst =>
        split at h
        · next f m₃ hclosure =>
          split at h
          · next title span' text' home captured hkind =>
            split at h
            · next u m₄ hinside =>
              rw [Option.any_eq_true] at h
              obtain ⟨a, ha, howner⟩ := h
              obtain ⟨below, hstack⟩ := List.head?_eq_some_iff.mp ha
              exact ⟨name, _, o, m', _, m₄, hdeclared, hnone, rfl,
                ⟨a, below, hstack, of_decide_eq_true howner⟩,
                mem_execute_call hnothing hfirst hclosure hkind rfl rfl hinside⟩
            · cases h
          · cases h
        · cases h
      · cases h
    · cases h
  · cases h

theorem lost_check : checkLost initial = true := by decide +kernel

/-- The closure exports `x` for its module, without fail, and the module does not show `x`. -/
theorem closure_export_lost : ∃ name body o m' p q st a below m₁,
    (∃ span text, parse losingSource = .ok [.mk (.declareModule name body) span text]) ∧
    Eval.declareModule (.ofDepth 24) name body initial = .done o m' ∧
    m'.store.kind o = .ofModule p ∧
    q ∈ (Eval.declareModule (.ofDepth 24) name body).moments initial ∧
    q.deed = .executes st ∧ st.command = .exportNames ["x"] ∧
    q.machine.stack = a :: below ∧ a.owner = o ∧
    Eval.exportNames ["x"] q.machine = .done () m₁ ∧ m'.store.local? p.shown "x" = none := by
  obtain ⟨name, body, o, m', st, m₄, hdeclared, hnone, hst, ⟨a, below, hstack, ha⟩, hmem⟩ :=
    checkLost_sound lost_check
  obtain ⟨hparse, hrun⟩ := declared?_eq_some hdeclared
  have hreachable : Reachable initial := .between .start
  have hk := Inner.tame_ofDepth 24
  obtain ⟨home, exports, m₁, -, hmade⟩ := declared_of_done hk hreachable.admits hrun
  obtain ⟨p, hkind, -⟩ := hmade.tables
  rw [shownBy?_eq hkind] at hnone
  obtain ⟨hfree, r, m₂, m₃, -, -, henrol⟩ := Eval.declareModule_parts hrun
  rw [← Eval.runBodyIn_moments] at hmem
  have howner := Eval.body_owner hk hreachable.admits hmem
  rw [← Eval.enrolModule_value henrol, ← ha] at howner
  rw [← Eval.declareModule_moments_done hfree hrun] at hmem
  exact ⟨name, body, o, m', p, _, st, a, below, _, hparse, hrun, hkind, hmem, rfl, hst, hstack, ha,
    Eval.exportNames_run hstack howner ["x"], hnone⟩

end Lost

end Machine

end ObjectLang
