import ObjectLang.CommandLine.Report
import ObjectLang.Proofs.Runs

/-!
How programs end.
A program gives a value, or it does not parse, or it fails with a fault that was wrapped exactly
once: by the innermost statement that the fault left. The status of the command line tells these
apart.
-/
namespace ObjectLang

open Machine Routine

namespace Stock

/-- The statements of the programs that the sources parse to. The groups of faults that only a whole
program can end with are left out. -/
def ofSources (sources : List Source) : Stock where
  statement st := ∃ src ∈ sources, ∃ b, parse src = .ok b ∧ st.Occurs b
  fault f := f.group ≠ .fatal ∧ f.group ≠ .malformed
  own f hf := by
    cases f with
    | raised g text => exact absurd rfl (hf g text)
    | _ => simp [Fault.group]

theorem ofSources_covers (sources : List Source) : (ofSources sources).Covers sources :=
  fun src hsrc b hb _ hst => ⟨src, hsrc, b, hb, hst⟩

end Stock

/-- The fault left the statement as it was raised, and since then did nothing but leave the
statements around that one. -/
def RaisedIn (t : List Moment) (f : Fault) (st : Statement) : Prop :=
  ∃ t₁ p t₂, t = t₁ ++ p :: t₂ ∧ p.deed = .leaves st (.fault f) ∧
    ∀ q ∈ t₂, ∃ outer, q.deed = .leaves outer (.fatal (.fault f) st.text)

theorem Error.isFatal_leaving (text : String) (e : Error) : (e.leaving text).isFatal = true := by
  cases e <;> rfl

variable {b : Block} {src : Source}

namespace Eval

variable {W : Stock} {k : Inner} {m m' : Machine} {e : Error}

theorem runStatement_fatal {s : Statement} (h : runStatement k s m = .failed e m') :
    e.isFatal = true := by
  have hfirst : touch (.executes s) m = .done () m := rfl
  rw [runStatement, bind_run_done hfirst, onError] at h
  dsimp only at h
  split at h
  · cases h
    exact Error.isFatal_leaving _ _
  · next hother => exact absurd h (hother e m')

theorem runStatements_fatal {last : ObjectId} (h : runStatements k last b m = .failed e m') :
    e.isFatal = true := by
  induction b generalizing m last with
  | nil => cases h
  | cons s rest ih =>
    rw [runStatements, bind_run] at h
    cases hrun : runStatement k s m with
    | done r m₁ =>
      rw [hrun] at h
      cases r with
      | next v => exact ih h
      | back v => cases h
    | failed e₁ m₁ =>
      rw [hrun] at h
      cases h
      exact runStatement_fatal hrun
    | exhausted =>
      rw [hrun] at h
      cases h

theorem runSource_fatal (hm : m.Sound W) (hparse : parse src = .ok b)
    (h : runSource k src m = .failed e m') : e.isFatal = true := by
  obtain ⟨v, hnothing⟩ := nothing_run (m := m.note (.executing src.title))
    (hm.withStack hm.stack m.sink _) k
  have hfirst : note (.executing src.title) m = .done () (m.note (.executing src.title)) := rfl
  rw [runSource, hparse, bind_run_done hfirst] at h
  dsimp only [runProgram] at h
  rw [map_run, execute, bind_run_done hnothing] at h
  cases hrun : runStatements k v b (m.note (.executing src.title)) with
  | done r m₁ =>
    rw [hrun] at h
    cases h
  | failed e₁ m₁ =>
    rw [hrun] at h
    cases h
    exact runStatements_fatal hrun
  | exhausted =>
    rw [hrun] at h
    cases h

end Eval

theorem Stock.Fails.of_fatal {W : Stock} {t : List Moment} {e : Error} (h : W.Fails t e)
    (he : e.isFatal = true) :
    ∃ f st, e = .fatal (.fault f) st.text ∧ W.fault f ∧ W.statement st ∧ RaisedIn t f st := by
  cases h with
  | bare _ => cases he
  | @wrapped t₁ t₂ p st f hf hst hp hrest =>
    exact ⟨f, st, rfl, hf, hst, t₁, p, t₂, rfl, hp, hrest⟩

namespace Machine

variable {sources : List Source} {m m' : Machine}

/-- A program that parses and fails was left by one fault, wrapped once. -/
theorem After.raised (h : After sources m) {d : Nat} {e : Error} (hparse : parse src = .ok b)
    (hrun : Eval.runSource (.ofDepth d) src m = .failed e m') :
    ∃ f st, e = .fatal (.fault f) st.text ∧ (f.group ≠ .fatal ∧ f.group ≠ .malformed) ∧
      (∃ s ∈ sources ++ [src], ∃ b, parse s = .ok b ∧ st.Occurs b) ∧
      RaisedIn ((Eval.runSource (.ofDepth d) src).moments m) f st := by
  have hcovers := Stock.ofSources_covers (sources ++ [src])
  have hm := h.sound hcovers.left
  have hgoes := Eval.runSource_goes hm.ready d hparse (hcovers.last hparse)
  exact (hgoes.failed hrun).2.2.of_fatal (Eval.runSource_fatal hm hparse hrun)

end Machine

namespace CommandLine

theorem Options.runProgram_eq (o : Options) (src : Source) :
    o.runProgram src = o.reportRun (initial.run src) := by
  rw [runProgram, start_initial.1]
  rfl

/-- The report tells how the run of a source ended. -/
structure Report.Tells (r : Report) (src : Source) (run : Outcome ObjectId) : Prop where
  value : ∀ v m, run = .done v m → r.status = .success
  malformed : ∀ e, parse src = .error e → r.status = .malformed
  fatal : ∀ b e m, parse src = .ok b → run = .failed e m → r.status = .failure
  silent : r.status = .malformed → r.output = ""

theorem Options.reportRun_tells (o : Options) (src : Source) {m : Machine} (hm : After [] m)
    (hsink : m.sink = .collecting []) : (o.reportRun (m.run src)).Tells src (m.run src) := by
  cases hparse : parse src with
  | error e =>
    have hrun : m.run src = .failed (.malformed e) (m.note (.executing src.title)) :=
      Eval.runSource_malformed _ hparse m
    rw [hrun]
    refine ⟨by simp, fun _ _ => rfl, by simp [hparse], ?_⟩
    intro _
    simp [reportRun, Machine.note, hsink, Sink.text]
  | ok b =>
    have hfailed : ∀ e m', m.run src = .failed e m' → statusOf e = .failure := by
      intro e m' hrun
      obtain ⟨f, st, rfl, -⟩ := hm.raised hparse hrun
      rfl
    cases hrun : m.run src with
    | done v m' => exact ⟨fun _ _ _ => rfl, by simp [hparse], by simp, by simp [reportRun]⟩
    | failed e m' =>
      have hstatus := hfailed e m' hrun
      exact ⟨by simp, by simp [hparse], fun _ _ _ _ _ => hstatus,
        fun h => by cases hstatus.symm.trans h⟩
    | exhausted =>
      exact ⟨by simp, by simp [hparse], fun _ _ _ _ _ => rfl, by simp [reportRun, tooDeep]⟩

/-- Every program ends in one of three ways, if it ends. It does not parse, and then nothing but the
log has changed; or it gives a value; or it fails with a fault that was wrapped once, by the
innermost statement that it left, and this is a statement of a program parsed so far. The command
line reports each of these by a status of its own. -/
theorem programs_end_classified {sources : List Source} {m : Machine} (h : After sources m)
    (d : Nat) (src : Source) :
    (∀ e, parse src = .error e →
      ∃ m', Eval.runSource (.ofDepth d) src m = .failed (.malformed e) m' ∧
        m'.stack = m.stack ∧ m'.store = m.store ∧ m'.modules = m.modules ∧ m'.sink = m.sink) ∧
    (∀ b e m', parse src = .ok b → Eval.runSource (.ofDepth d) src m = .failed e m' →
      ∃ f st, e = .fatal (.fault f) st.text ∧ e.rootCause = .fault f ∧
        f.group ≠ .fatal ∧ f.group ≠ .malformed ∧
        RaisedIn ((Eval.runSource (.ofDepth d) src).moments m) f st ∧
        ∃ s ∈ sources ++ [src], ∃ tree, parse s = .ok tree ∧ st.Occurs tree) ∧
    ∀ arguments o read text, Options.ofArguments arguments = .ok o → read o.file = .ok text →
      (respond arguments read).Tells ⟨pathTitle o.file, text⟩
        (initial.run ⟨pathTitle o.file, text⟩) := by
  refine ⟨fun e hparse => ?_, fun b e m' hparse hrun => ?_, ?_⟩
  · exact ⟨_, Eval.runSource_malformed _ hparse m, rfl, rfl, rfl, rfl⟩
  · obtain ⟨f, st, rfl, hgroup, hst, hraised⟩ := h.raised hparse hrun
    exact ⟨f, st, rfl, rfl, hgroup.1, hgroup.2, hraised, hst⟩
  · intro arguments o read text ho hread
    rw [respond, ho]
    simp only [hread]
    rw [Options.runFile, Options.runProgram_eq]
    exact o.reportRun_tells _ .start start_initial.2.sink

/-- One program that fails, in a statement of a function that an earlier one has declared, and one
that does not parse. -/
theorem programs_end_classified_prying :
    (∃ m m' st, After [counterSource] m ∧ Eval.runSource (.ofDepth 16) pryingSource m =
      .failed (.fatal (.fault (.unknownName "x")) "return b.x") m' ∧ st.text = "return b.x" ∧
      RaisedIn ((Eval.runSource (.ofDepth 16) pryingSource).moments m) (.unknownName "x") st ∧
      ∃ s ∈ [counterSource, pryingSource], ∃ tree, parse s = .ok tree ∧ st.Occurs tree) ∧
    ∃ e m', Eval.runSource (.ofDepth 24) (.ofText ")") initial = .failed (.malformed e) m' ∧
      m'.store = initial.store := by
  constructor
  · obtain ⟨m, m', hm, hrun⟩ := prying_fails
    have hparses : (parse pryingSource).isOk = true := by decide +kernel
    cases hparse : parse pryingSource with
    | error _ =>
      rw [hparse] at hparses
      cases hparses
    | ok b =>
      obtain ⟨f, st, heq, -, -, -, hraised, hst⟩ :=
        (programs_end_classified hm 16 pryingSource).2.1 b _ m' hparse hrun
      obtain ⟨hf, htext⟩ := Error.fatal.inj heq
      cases hf
      exact ⟨m, m', st, hm, hrun, htext.symm, hraised, hst⟩
  · have hrefused : (parse (.ofText ")")).isOk = false := by decide +kernel
    cases hparse : parse (.ofText ")") with
    | error e =>
      obtain ⟨m', hrun, -, hstore, -⟩ :=
        (programs_end_classified .start 24 (.ofText ")")).1 e hparse
      exact ⟨e, m', hrun, hstore⟩
    | ok _ =>
      rw [hparse] at hrefused
      cases hrefused

end CommandLine

end ObjectLang
