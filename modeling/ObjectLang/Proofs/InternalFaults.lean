import ObjectLang.Proofs.Eval.GuardedPrograms

/-!
No program leads to a fault of the machine itself.
The machine that programs start on is guarded, and a program on a guarded machine keeps guard at
every moment, whether it ends or not.
-/
namespace ObjectLang

open Routine

namespace Machine

variable {sources : List Source} {m : Machine}

theorem initial_guarded : initial.Guarded := by
  obtain ⟨owner, main, hinitial⟩ := initial_atMain
  have hsound := start_initial.2.sound .any
  have hfree : ∀ {t : TableId}, initial.store.HasTable t → t.isFree = true := by
    rintro _ ⟨i, rfl, -⟩
    rfl
  refine ⟨start_initial.2.guarded, ?_, fun a ha => ?_, hfree hsound.builtins, hfree hsound.modules,
    start_initial.2.rooted⟩
  · rw [hinitial.stack]
    exact List.cons_ne_nil _ _
  · have hfits := hsound.stack a ha
    refine ⟨start_initial.2.owners a ha, ?_, fun t ht => hfree (hfits.scopes t ht),
      hfree hfits.home, ?_⟩
    · rw [hinitial.stack, List.mem_singleton] at ha
      rw [ha]
      exact List.cons_ne_nil _ _
    · rw [hinitial.stack, List.mem_singleton] at ha
      rw [ha]
      exact List.nodup_nil

/-- The moments of a program are reachable by what this means. -/
theorem After.secures_of_guarded (h : After sources m) (hm : m.Guarded) (d : Nat) (src : Source) :
    (Eval.runSource (.ofDepth d) src).Secures m fun v m' => m'.store.Ordinary v :=
  (Eval.runSource_yields (Inner.guarded_ofDepth d) src).secures hm fun _ hp => .during h d src hp

/-- At the start all objects are made. -/
theorem initial_formed (o : ObjectId) : ¬ initial.store.Formless o :=
  fun ho => (start_initial.2.complete o ho.1).1 ho.2.1

theorem After.guarded (h : After sources m) : m.Guarded ∧ ∀ o, ¬ m.store.Formless o := by
  induction h with
  | start => exact ⟨initial_guarded, initial_formed⟩
  | redirect _ sink ih => exact ⟨(Keeps.of_same ih.1 sink _).guarded, ih.2⟩
  | @next sources m m' h d src hend ih =>
    have hsecures := h.secures_of_guarded ih.1 d src
    have hkeeps : m.Keeps m' := by
      cases hrun : Eval.runSource (.ofDepth d) src m with
      | done v m₁ =>
        rw [hrun] at hend
        cases hend
        exact (hsecures.done v _ hrun).1
      | failed e m₁ =>
        rw [hrun] at hend
        cases hend
        exact (hsecures.failed e _ hrun).1
      | exhausted =>
        rw [hrun] at hend
        cases hend
    exact ⟨hkeeps.guarded, fun o ho => ih.2 o (hkeeps.formed o ho)⟩

theorem After.secures (h : After sources m) (d : Nat) (src : Source) :
    (Eval.runSource (.ofDepth d) src).Secures m fun v m' => m'.store.Ordinary v :=
  h.secures_of_guarded h.guarded.1 d src

theorem Reachable.guarded (h : Reachable m) : m.Guarded := by
  cases h with
  | between h => exact h.guarded.1
  | during h d src hp => exact ((h.secures d src).passes _ hp).machine

/-- Whenever code runs, the bottoms of all objects are made. -/
theorem Reachable.formed (h : Reachable m) (o : ObjectId) : ¬ m.store.Formless o := by
  cases h with
  | between h => exact h.guarded.2 o
  | during h d src hp => exact fun ho => h.guarded.2 o (((h.secures d src).passes _ hp).formed o ho)

/-- Whatever programs are executed on a new machine, and however deep they go: the fault behind an
error that a program ends with, or that leaves a statement on the way, is none of the machine's own.
A task of the machine's own (to find a builtin, to bind `self` and `super`, to bind the names of a
module) never breaks off. The one error that is ever caught is a name that is not found. -/
theorem internal_faults_unreachable (h : After sources m) (d : Nat) (src : Source) :
    (∀ e m' f, Eval.runSource (.ofDepth d) src m = .failed e m' → e.rootCause = .fault f →
      ¬ f.Internal) ∧
    (∀ p ∈ (Eval.runSource (.ofDepth d) src).moments m,
      (∀ s e f, p.deed = .leaves s e → e.rootCause = .fault f → ¬ f.Internal) ∧
      ∀ t e, p.deed ≠ .breaks t e) := by
  have hsecures := h.secures d src
  refine ⟨fun e m' f hrun hcause hf => ?_, fun p hp => ⟨fun s e f hdeed hcause hf => ?_, ?_⟩⟩
  · exact (hsecures.failed e m' hrun).2 (e.internal_of_rootCause hcause hf)
  · exact (hsecures.passes p hp).error s e hdeed (e.internal_of_rootCause hcause hf)
  · intro t e hdeed
    obtain ⟨o, ho⟩ := (hsecures.passes p hp).whole t e hdeed
    exact h.guarded.2 o ((hsecures.passes p hp).formed o ho)

/-- A program that reads a field from outside fails, with a fault of its own. -/
theorem internal_faults_unreachable_prying : ∃ m m', After [counterSource] m ∧
    Eval.runSource (.ofDepth 16) pryingSource m =
      .failed (.fatal (.fault (.unknownName "x")) "return b.x") m' ∧
    ¬ (Fault.unknownName "x").Internal ∧
    ∀ p ∈ (Eval.runSource (.ofDepth 16) pryingSource).moments m,
      (∀ s e f, p.deed = .leaves s e → e.rootCause = .fault f → ¬ f.Internal) ∧
      ∀ t e, p.deed ≠ .breaks t e := by
  obtain ⟨m, m', hm, hrun⟩ := prying_fails
  obtain ⟨hend, hpasses⟩ := internal_faults_unreachable hm 16 pryingSource
  exact ⟨m, m', hm, hrun, hend _ m' _ hrun rfl, hpasses⟩

end Machine

end ObjectLang
