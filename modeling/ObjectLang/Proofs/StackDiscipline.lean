import ObjectLang.Proofs.Runs

/-!
The call stack is given back as it was found.
Activations and scopes are taken off again on every way out of the code that put them there, so that
a block, a statement or an expression leaves the stack with the same activations on the same tables.
All it may add are names to export, on the activation that it runs in.
-/
namespace ObjectLang

open Machine Routine

/-- However the routine ends, the call stack is the one that it started on. -/
def Routine.KeepsStack {α : Type} (x : Routine α) (m : Machine) : Prop :=
  ∀ m', (x m).machine? = some m' → KeptStack m'.store m.stack m'.stack

theorem Routine.Goes.keepsStack {α : Type} {W : Stock} {n : Nat} {x : Routine α} {m : Machine}
    {Q : α → List Moment → Store → Prop} (h : x.Goes W n m Q) : x.KeepsStack m :=
  fun _ hend => (h.ended hend).2

/-- An activation that belongs to no module records nothing. -/
theorem KeptStack.eq_of_plain {s : Store} {a : Activation} {l : List Activation}
    (h : KeptStack s [a] l) (hplain : s.kind a.owner = .plain) : l = [a] := by
  cases h with
  | running _ hext =>
    obtain ⟨extra, rfl, -, rfl | ⟨parts, hparts⟩⟩ := hext
    · simp
    · rw [hplain] at hparts
      cases hparts

namespace Machine

/-- The only activation is that of the main program, on its own table and the builtins. -/
structure AtMain (owner : ObjectId) (main : TableId) (m : Machine) : Prop where
  stack : m.stack = [⟨owner, "main", [main, m.builtins], main, []⟩]
  has : m.store.HasObject owner
  plain : m.store.kind owner = .plain
  apart : main ≠ m.modules

/-- A program that ends leaves the main activation alone on the stack. -/
theorem AtMain.next {owner : ObjectId} {main : TableId} {m m' : Machine} {src : Source} {d : Nat}
    (h : AtMain owner main m) (hm : m.Sound .any)
    (hend : (Eval.runSource (.ofDepth d) src m).machine? = some m') : AtMain owner main m' := by
  obtain ⟨hpath, hkept⟩ := runSource_reached hm (fun b _ => Stock.any_block b) hend
  have hon := hpath.onward hm.ready
  have hplain : m'.store.kind owner = .plain := (hon.grows.kind owner h.has).trans h.plain
  rw [h.stack] at hkept
  exact ⟨hon.builtins ▸ hkept.eq_of_plain hplain, h.has.mono hon.grows.sizes, hplain,
    hon.modules ▸ h.apart⟩

theorem initial_atMain : ∃ owner main, AtMain owner main initial := by
  obtain ⟨owner, main, hstack, hplain, hapart⟩ := start_initial.2.stack
  have hmem : ⟨owner, "main", [main, initial.builtins], main, []⟩ ∈ initial.stack := by
    rw [hstack]
    exact List.mem_singleton.mpr rfl
  have hfits := (start_initial.2.sound .any).stack _ hmem
  exact ⟨owner, main, hstack, hfits.owner, hplain, hapart⟩

theorem After.atMain {owner : ObjectId} {main : TableId} (hinitial : AtMain owner main initial)
    {sources : List Source} {m : Machine} (h : After sources m) : AtMain owner main m := by
  induction h with
  | start => exact hinitial
  | redirect _ sink ih => exact ⟨ih.stack, ih.has, ih.plain, ih.apart⟩
  | next h d src hend ih => exact ih.next (h.sound (Stock.any_covers _)) hend

/-- Wherever a run has got to, whatever code is evaluated next gives the call stack back, with a
value, a return or an error. Between two programs the main activation is the only one, on the same
two tables for ever. -/
theorem call_stack_kept :
    (∀ m, Reachable m → ∀ d,
      (∀ b, (Eval.execute (.ofDepth d) b).KeepsStack m) ∧
      (∀ s, (Eval.runStatement (.ofDepth d) s).KeepsStack m) ∧
      ∀ e, (Eval.evaluate (.ofDepth d) e).KeepsStack m) ∧
    ∃ owner main, ∀ sources m, After sources m →
      m.stack = [⟨owner, "main", [main, m.builtins], main, []⟩] := by
  constructor
  · intro m hm d
    have hgood := good_ofDepth .any d
    refine ⟨fun b => ?_, fun s => ?_, fun e => ?_⟩
    · exact (Eval.execute_goes hgood hm.ready (Stock.any_block b)).keepsStack
    · exact (Eval.runStatement_goes hgood hm.ready trivial fun b _ => Stock.any_block b).keepsStack
    · exact (Eval.evaluate_goes hgood hm.ready fun b _ => Stock.any_block b).keepsStack
  · obtain ⟨owner, main, hinitial⟩ := initial_atMain
    exact ⟨owner, main, fun sources m h => (h.atMain hinitial).stack⟩

/-- A program fails in the body of a function that it calls, after a call of a method there, and the
main activation is alone again. -/
theorem call_stack_kept_prying : ∃ m m' owner main, After [counterSource] m ∧
    Eval.runSource (.ofDepth 16) pryingSource m =
      .failed (.fatal (.fault (.unknownName "x")) "return b.x") m' ∧
    (∀ b, (Eval.execute (.ofDepth 16) b).KeepsStack m) ∧
    m.stack = [⟨owner, "main", [main, m.builtins], main, []⟩] ∧
    m'.stack = [⟨owner, "main", [main, m'.builtins], main, []⟩] := by
  obtain ⟨m, m', hm, hrun⟩ := prying_fails
  obtain ⟨hcode, owner, main, hstack⟩ := call_stack_kept
  exact ⟨m, m', owner, main, hm, hrun, (hcode m (.between hm) 16).1, hstack _ m hm,
    hstack _ m' (.next hm 16 pryingSource (by rw [hrun]; rfl))⟩

end Machine

end ObjectLang
