import ObjectLang.Proofs.Aliasing
import ObjectLang.Proofs.Arithmetic

/-!
Compound assignment.
A name that stands for a number is updated by an operator just as it is assigned the operation
written out: its value is read first, then the operand is evaluated, and the place to write to is
looked up last. The number is asked for one of two operators, which differ in the log that they
leave.
-/
namespace ObjectLang

open Machine Routine

namespace Outcome

variable {α : Type}

def unlogged : Outcome α → Outcome α
  | .done a m => .done a { m with log := [] }
  | .failed e m => .failed e { m with log := [] }
  | .exhausted => .exhausted

def leaving (text : String) : Outcome α → Outcome α
  | .failed e m => .failed (e.leaving text) m
  | other => other

theorem unlogged_leaving {r r' : Outcome α} (h : r.unlogged = r'.unlogged) (text : String) :
    (r.leaving text).unlogged = (r'.leaving text).unlogged := by
  cases r <;> cases r' <;> simp_all [unlogged, leaving]

end Outcome

namespace Machine

variable {W : Stock} {n : Nat} {m m' : Machine} {op : Arith} {x : String} {o : ObjectId}
  {operand : Outcome ObjectId} {r : Outcome Flow} {e : Error} {w : Except Fault ObjectId}

/-- A value is written to what the name stands for, which has to be a variable. A fault is none. -/
def write (m : Machine) (x : String) : Except Fault ObjectId → Outcome Flow
  | .error f => .failed (.fault f) m
  | .ok v =>
    match m.lookup x with
    | none => .failed (.fault (.unknownName x)) m
    | some c =>
      match m.store.cell c with
      | .var _ => .done (.next v) { m with store := m.store.assign c v }
      | _ => .failed (.fault .constant) m

/-- How a name that stood for `o` is updated, when the operand has come to an outcome. The name is
looked up in the machine that the operand and the operation have left. -/
inductive Updates (op : Arith) (x : String) (o : ObjectId) :
    Outcome ObjectId → Outcome Flow → Prop where
  | failed (e : Error) (m : Machine) : Updates op x o (.failed e m) (.failed e m)
  | exhausted : Updates op x o .exhausted .exhausted
  | done {v : ObjectId} {m m' : Machine} {w : Except Fault ObjectId}
      (hretains : m.Retains m.store.objects.size m') (hw : Yields op m o v w m') :
      Updates op x o (.done v m) (m'.write x w)

theorem eq_of_write_failed (h : m.write x w = .failed e m') : m' = m := by
  cases w with
  | error f =>
    cases h
    rfl
  | ok v =>
    rw [write] at h
    split at h
    · cases h
      rfl
    · split at h <;> cases h
      rfl

theorem write_unlogged (m : Machine) (x : String) (w : Except Fault ObjectId) (log : List Event) :
    ((m.atop m.stack log).write x w).unlogged = (m.write x w).unlogged := by
  cases w with
  | error f => rfl
  | ok v =>
    have hlookup : (m.atop m.stack log).lookup x = m.lookup x := rfl
    rw [write, write, hlookup]
    cases m.lookup x with
    | none => rfl
    | some c =>
      have hcell : (m.atop m.stack log).store.cell c = m.store.cell c := rfl
      simp only [hcell]
      cases m.store.cell c <;> rfl

theorem Numerate.onward (h : m.Numerate W) (hm : Onward W n m m') : m'.Numerate W := by
  refine ⟨hm.sound, fun x => ?_⟩
  obtain ⟨c, v, hc, hv, hsimple⟩ := h.classes x
  rw [hm.builtins]
  exact ⟨c, v, hm.grows.bound _ _ _ hc, hm.grows.const (h.store.hasCell_of_local? hc) hv,
    hsimple.mono hm.grows⟩

/-- What a name stands for runs no code, neither at once nor after a change that keeps
everything. -/
theorem still_of_lookup {c : CellId} (hm : m.Sound W) (h : m.Retains m.store.objects.size m')
    (hc : m'.lookup x = some c) : (m'.store.cell c).Still := by
  rw [lookup, h.stack, Option.bind_eq_some_iff] at hc
  obtain ⟨a, ha, hc⟩ := hc
  have hscopes := (hm.head ha).scopes
  rw [h.store.lookupIn_eq hm.store.toWellformed fun t ht => (hscopes t ht).holds] at hc
  obtain ⟨t, ht, hbinds⟩ := Store.binds_of_lookupIn hm.store.toWellformed hscopes hc
  obtain ⟨i, rfl, -⟩ := hscopes t ht
  rw [h.store.cells c (hm.store.toWellformed.hasCell_of_mem hbinds)]
  exact hm.store.quiet i _ hbinds

end Machine

namespace Eval

variable {k : Inner} {m m' : Machine} {x : String} {c : CellId} {o : ObjectId}
  {op : Arith} {e : Expr} {d : Nat}

theorem setName_run (hstill : ∀ c, m.lookup x = some c → (m.store.cell c).Still) (v : ObjectId) :
    (setName k x v >>= fun _ => pure (Flow.next v)) m = m.write x (.ok v) := by
  cases hc : m.lookup x with
  | none => simp [setName, write, bind_run, Routine.read, quiet, hc, found, fail]
  | some c =>
    have hcell := hstill c hc
    cases hv : m.store.cell c with
    | computed getter setter =>
      rw [hv] at hcell
      cases hcell
    | _ => simp [setName, write, bind_run, Routine.read, quiet, hc, found, pure_run, writeVia,
        touch, writeCell, see, hv, change, fail]

theorem runStatement_run (k : Inner) (s : Statement) (m : Machine) :
    runStatement k s m = (runCommand k s.command m).leaving s.text := by
  have htouch : touch (.executes s) m = .done () m := rfl
  rw [runStatement, bind_run_done htouch]
  simp only [onError]
  cases runCommand k s.command m <;> rfl

theorem getName_gives (hc : m.lookup x = some c) (ho : m.store.Gives o c) :
    ∃ n, ∀ d, n ≤ d → getName (.ofDepth d) x m = .done o m := by
  obtain ⟨n, hn⟩ := readCell_gives ho
  refine ⟨n, fun d hd => ?_⟩
  simp only [getName, bind_run, Routine.read, quiet, hc, found, pure_run, readVia, touch, hn d hd]

end Eval

namespace Machine

variable {m : Machine} {x name : String} {c : CellId} {o : ObjectId}

/-- The operand is evaluated and one of the operators called, from wherever a run has got to. Both
operators come to the same update. -/
theorem Reachable.updates (h : Reachable m) (hname : name ∈ ["Integer", "Float"])
    (ho : m.IsInstance name o) (x : String) (op : Arith) (e : Expr) (d : Nat) :
    ∃ r, Updates op x o ((Inner.ofDepth (d + 2)).evaluate e m) r ∧ ∀ hook ∈ op.hooks, ∀ k,
      (((do
        let v ← (Inner.ofDepth (d + 2)).evaluate e
        Eval.dispatch (.ofDepth (d + 2)) o hook [v]) >>= fun v =>
          Eval.setName k x v >>= fun _ => pure (Flow.next v)) m).unlogged = r.unlogged := by
  have hgoes := (good_ofDepth .any (d + 2)).evaluate (e := e) h.ready fun b _ => Stock.any_block b
  cases hrun : (Inner.ofDepth (d + 2)).evaluate e m with
  | exhausted =>
    refine ⟨_, .exhausted, fun hook _ k => ?_⟩
    simp only [bind_run, hrun]
  | failed err m₁ =>
    refine ⟨_, .failed err m₁, fun hook _ k => ?_⟩
    simp only [bind_run, hrun]
  | done v m₁ =>
    obtain ⟨hpath, -, hv⟩ := hgoes.done hrun
    have honward := hpath.onward h.ready
    have hm₁ := h.numerate.onward honward
    have hhas : m₁.store.HasObject o := ho.choose_spec.2.1.has.mono honward.grows.sizes
    obtain ⟨w, m', hretains, hyields, hdispatch⟩ := Eval.dispatch_arithmetic hm₁ hhas hv o op d
    refine ⟨_, .done hretains hyields, fun hook hhook k => ?_⟩
    obtain ⟨log, hlog⟩ := hdispatch hook (h.reckons hname ho hhook honward.grows)
    rw [← hretains.stack] at hlog
    have hvalue : (do
        let v ← (Inner.ofDepth (d + 2)).evaluate e
        Eval.dispatch (.ofDepth (d + 2)) o hook [v]) m = ofExcept w (m'.atop m'.stack log) := by
      rw [bind_run_done hrun, hlog]
    rw [bind_run, hvalue]
    cases w with
    | error f => rfl
    | ok v =>
      refine Eq.trans ?_ (write_unlogged m' x (.ok v) log)
      have hstill (c) (hc : m'.lookup x = some c) := still_of_lookup hm₁.toSound hretains hc
      exact congrArg Outcome.unlogged (Eval.setName_run (m := m'.atop m'.stack log) hstill v)

/-- In every state that a run comes to, a name that stands for a number is updated by an operator
and any operand just as it is assigned the operation written out: there is one update that both
statements come to, up to the log and to the text that an error takes along. The value of the name
is read before the operand is evaluated, the name is looked up again afterwards to write to it, and
where there is an error nothing has been written. The operation that is written out is one level
deeper. -/
theorem update_agrees_with_expansion (h : Reachable m) (hname : name ∈ ["Integer", "Float"])
    (hx : m.lookup x = some c) (ho : m.store.Gives o c) (hnumber : m.IsInstance name o) (op : Arith)
    (e : Expr) : ∃ n, ∀ d ≥ n, ∃ r,
      Updates op x o ((Inner.ofDepth (d + 2)).evaluate e m) r ∧
      (∀ s : Statement, s.command = .assign x (some op) e →
        (Eval.runStatement (.ofDepth (d + 2)) s m).unlogged = (r.leaving s.text).unlogged) ∧
      (∀ s : Statement, s.command = .assign x none (.binary op (.name x) e) →
        (Eval.runStatement (.ofDepth (d + 3)) s m).unlogged = (r.leaving s.text).unlogged) ∧
      ∀ err m', r = .failed err m' → (Inner.ofDepth (d + 2)).evaluate e m = .failed err m' ∨
        ∃ v m₁, (Inner.ofDepth (d + 2)).evaluate e m = .done v m₁ ∧
          m₁.Retains m₁.store.objects.size m' := by
  obtain ⟨n, hn⟩ := Eval.getName_gives hx ho
  refine ⟨n, fun d hd => ?_⟩
  obtain ⟨r, hupdates, hrun⟩ := h.updates hname hnumber x op e d
  refine ⟨r, hupdates, fun s hs => ?_, fun s hs => ?_, fun err m' hr => ?_⟩
  · rw [Eval.runStatement_run, hs]
    refine Outcome.unlogged_leaving (Eq.trans ?_ (hrun op.updateSymbol (by simp [Arith.hooks])
      (.ofDepth (d + 2)))) _
    have hupdate : Eval.assigned (.ofDepth (d + 2)) (some op)
        (Eval.getName (.ofDepth (d + 2)) x) e m = (do
          let v ← (Inner.ofDepth (d + 2)).evaluate e
          Eval.dispatch (.ofDepth (d + 2)) o op.updateSymbol [v]) m :=
      bind_run_done (hn (d + 2) (by omega))
    rw [Eval.runCommand, bind_run, hupdate, ← bind_run]
  · rw [Eval.runStatement_run, hs]
    refine Outcome.unlogged_leaving (Eq.trans ?_ (hrun op.symbol (by simp [Arith.hooks])
      (.ofDepth (d + 3)))) _
    have hname : (Inner.ofDepth (d + 2)).evaluate (.name x) m = .done o m := hn (d + 1) (by omega)
    have hexpand : (Inner.ofDepth (d + 3)).evaluate (.binary op (.name x) e) m = (do
        let v ← (Inner.ofDepth (d + 2)).evaluate e
        Eval.dispatch (.ofDepth (d + 2)) o op.symbol [v]) m := bind_run_done hname
    rw [Eval.runCommand, Eval.assigned, bind_run, hexpand, ← bind_run]
  · generalize (Inner.ofDepth (d + 2)).evaluate e m = operand at hupdates ⊢
    cases hupdates with
    | failed =>
      cases hr
      exact Or.inl rfl
    | exhausted => cases hr
    | done hretains =>
      rw [eq_of_write_failed hr]
      exact Or.inr ⟨_, _, rfl, hretains⟩

def countingSource : Source := .ofText "var n = 9223372036854775807"

theorem counting_run :
    ∃ m, (Eval.runSource (.ofDepth 24) countingSource initial).machine? = some m ∧
    ∃ c, m.lookup "n" = some c ∧ ∃ o, m.store.cell c = .var o ∧ m.IsInstance "Integer" o := by
  decide +kernel

/-- The largest number is doubled in both ways, with the same outcome. -/
theorem update_agrees_with_expansion_counting : ∃ m, After [countingSource] m ∧
    ∃ n, ∀ d ≥ n, ∀ s s' : Statement, s.command = .assign "n" (some .add) (.name "n") →
      s'.command = .assign "n" none (.binary .add (.name "n") (.name "n")) → s.text = s'.text →
      (Eval.runStatement (.ofDepth (d + 2)) s m).unlogged =
        (Eval.runStatement (.ofDepth (d + 3)) s' m).unlogged := by
  obtain ⟨m, hend, c, hc, o, hcell, hnumber⟩ := counting_run
  have hafter : After [countingSource] m := .next .start 24 countingSource hend
  obtain ⟨n, hn⟩ := update_agrees_with_expansion (.between hafter) (by simp) hc (.var hcell) hnumber
    .add (.name "n")
  refine ⟨m, hafter, n, fun d hd s s' hs hs' htext => ?_⟩
  obtain ⟨r, -, hupdate, hexpand, -⟩ := hn d hd
  rw [hupdate s hs, hexpand s' hs', htext]

end Machine

end ObjectLang
