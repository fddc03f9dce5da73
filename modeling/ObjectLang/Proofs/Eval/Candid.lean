import ObjectLang.Proofs.ErrorClasses
import ObjectLang.Proofs.Eval.Discipline

/-!
No error that leaves a statement is lost.
A routine that is cut short by a failing statement fails itself, and with that error: the one place
where errors are caught takes no error that has left a statement.
-/
namespace ObjectLang

open Routine

/-- A routine that fails with every error that leaves a statement on the way. -/
def Routine.Candid {α : Type} (x : Routine α) : Prop :=
  ∀ m, ∀ p ∈ x.moments m, ∀ s e, p.deed = .leaves s e → ∃ m', x m = .failed (e.leaving s.text) m'

namespace Routine.Candid

variable {α β : Type} {x : Routine α}

theorem of_silent (h : x.Silent) : x.Candid := by
  intro m p hp
  rw [h m] at hp
  cases hp

theorem touch {d : Deed} (h : ∀ s e, d ≠ .leaves s e) : (Routine.touch d).Candid := by
  intro m p hp s e hdeed
  rw [moments_touch, List.mem_singleton] at hp
  subst hp
  exact absurd hdeed (h s e)

theorem bind {f : α → Routine β} (hx : x.Candid)
    (hf : ∀ a m m', x m = .done a m' → (f a).Candid) : (x >>= f).Candid := by
  intro m p hp s e hdeed
  rw [bind_run]
  rw [moments_bind] at hp
  rcases List.mem_append.mp hp with hp | hp
  · obtain ⟨m', hrun⟩ := hx m p hp s e hdeed
    rw [hrun]
    exact ⟨m', rfl⟩
  · cases hrun : x m with
    | done a m' =>
      rw [hrun] at hp
      exact hf a m m' hrun m' p hp s e hdeed
    | _ =>
      rw [hrun] at hp
      cases hp

/-- What has left a statement is raised again where it is caught. -/
theorem bind_attempt {f : Except Error α → Routine β} (hx : x.Candid) (hf : ∀ r, (f r).Candid)
    (hraises : ∀ e : Error, e.isFatal = true → f (.error e) = failWith e) :
    (x.attempt >>= f).Candid := by
  intro m p hp s e hdeed
  rw [moments_bind] at hp
  rcases List.mem_append.mp hp with hp | hp
  · rw [attempt, moments_ending] at hp
    obtain ⟨m', hrun⟩ := hx m p hp s e hdeed
    refine ⟨m', ?_⟩
    simp only [bind_run, attempt, ending, hrun, hraises _ (Error.isFatal_leaving _ _)]
    rfl
  · rw [bind_run]
    cases hrun : x.attempt m with
    | done r m' =>
      rw [hrun] at hp
      exact hf r m' p hp s e hdeed
    | _ =>
      rw [hrun] at hp
      cases hp

/-- An error may pass a moment of its own, as long as it is told as it is. -/
theorem onError {deed : Error → Deed} {f : Error → Error} (hx : x.Candid)
    (hf : ∀ e : Error, e.isFatal = true → f e = e)
    (hdeed : ∀ e s e', deed e = .leaves s e' → f e = e'.leaving s.text) :
    (x.onError deed f).Candid := by
  intro m p hp s e hp'
  simp only [Routine.onError]
  rw [moments_onError] at hp
  rcases List.mem_append.mp hp with hp | hp
  · obtain ⟨m', hrun⟩ := hx m p hp s e hp'
    simp [hrun, hf _ (Error.isFatal_leaving _ _)]
  · cases hrun : x m with
    | failed e' m' =>
      rw [hrun, List.mem_singleton] at hp
      subst hp
      exact ⟨m', congrArg (Outcome.failed · m') (hdeed e' s e hp')⟩
    | _ =>
      rw [hrun] at hp
      cases hp

theorem leaving (hx : x.Candid) (s : Statement) :
    (x.onError (.leaves s) (·.leaving s.text)).Candid := by
  refine hx.onError (fun e he => ?_) ?_
  · cases e with
    | fatal => rfl
    | _ => cases he
  · rintro e _ _ ⟨⟩
    rfl

theorem doing (hx : x.Candid) (t : Task) : (x.doing t).Candid := by
  rw [doing_eq]
  exact hx.onError (fun _ _ => rfl) nofun

theorem ensuring (hx : x.Candid) (cleanUp : Machine → Machine) : (x.ensuring cleanUp).Candid := by
  intro m p hp s e hdeed
  rw [Routine.ensuring, moments_ending] at hp
  simp only [Routine.ensuring, ending]
  obtain ⟨m', hrun⟩ := hx m p hp s e hdeed
  simp [hrun]

theorem withActivation (hx : x.Candid) (a : Activation) : (Routine.withActivation a x).Candid := by
  intro m p hp
  rw [Routine.withActivation, moments_on] at hp
  exact hx.ensuring Machine.pop (m.push a) p hp

end Routine.Candid

theorem Routine.Silent.bind_candid {α β : Type} {x : Routine α} {f : α → Routine β} (hx : x.Silent)
    (hf : ∀ a, (f a).Candid) : (x >>= f).Candid := (Candid.of_silent hx).bind fun a _ _ _ => hf a

def Discipline.candid : Discipline where
  Ground := Unit
  ρ := .rest
  Keeps _ x _ := x.Candid
  registry := none
  table _ _ := ()
  parts _ _ := ()
  head _ := ()
  called _ := ()
  Sees _ := True
  sees_called _ := trivial
  sees_head := id
  outOfFuel := .of_silent (silent_quiet _)
  pure _ := .of_silent (silent_pure _)
  bind hx hf := hx.bind fun a _ _ _ => hf a
  bind_fail _ := (Candid.of_silent (silent_quiet _)).bind (by rintro _ _ _ ⟨⟩)
  bind_see _ hf := (Candid.of_silent (silent_quiet _)).bind fun _ m _ h => by
    cases h
    exact hf m.store
  bind_kind _ _ _ hf := (silent_quiet _).bind_candid fun kind => hf kind nofun
  read _ _ := .of_silent (silent_quiet _)
  bind_peek _ hf := (silent_quiet _).bind_candid fun a => hf a nofun
  touch hd := .touch hd.stays
  bind_identifies hy := Candid.bind (.touch (by simp)) fun _ _ _ _ => hy (Shift.move_rest _)
  assign _ _ := .of_silent (silent_quiet _)
  alike _ _ := .of_silent (silent_quiet _)
  note _ _ := .of_silent (silent_quiet _)
  writeLine _ := .of_silent (silent_quiet _)
  bind_attempt hx hf := hx.bind_attempt fun r => hf r fun _ _ => .of_silent (silent_quiet _)
  leaving s hx := hx.leaving s
  doing t hx := hx.doing t
  bind_newTable hf := (silent_quiet _).bind_candid hf
  bind_newObject _ _ _ hf := (silent_quiet _).bind_candid hf
  bind_rooted _ _ _ hf := Silent.bind_candid (Eval.makeRooted_silent _ _) hf
  define v _ := .of_silent (Eval.silent_defineConst _ _ v)
  definePart _ _ := .of_silent ((silent_quiet _).bind fun _ => silent_quiet _)
  defineField _ _ := (silent_quiet _).bind_candid fun _ =>
    Candid.bind (.touch fun _ _ => nofun) fun _ _ _ _ => .of_silent (silent_quiet _)
  declare _ _ := .of_silent ((silent_quiet _).bind fun _ => (silent_quiet _).bind fun a =>
    Eval.silent_defineLocal a _ _)
  bind_newActivation {_ _ _ _ _ home _ _} _ hf := by
    refine (Candid.of_silent (Eval.silent_newActivation _ _ _)).bind fun a m m' h => ?_
    cases home <;> cases h <;> exact hf _ _ _ nofun rfl
  bind_capture _ hf := Candid.bind (.touch fun _ _ => nofun) fun _ _ _ _ =>
    (silent_quiet _).bind_candid fun copy => hf () copy nofun
  withActivation _ hx := hx.withActivation _
  withScope hx := (silent_quiet _).bind_candid fun _ => (silent_quiet _).bind_candid fun _ =>
    hx.ensuring _

theorem Discipline.candid_free : Discipline.candid.Free where
  registry := rfl
  head _ := rfl
  executes _ _ := Candid.touch fun _ _ => nofun
  rooted _ _ _ _ := Candid.of_silent (Eval.makeRooted_silent _ _)
  newCell _ _ := Candid.of_silent (silent_quiet _)
  bindCell _ _ _ _ := Candid.of_silent (silent_quiet _)
  modifyTop _ _ _ := Candid.of_silent (silent_quiet _)

/-- All the work that is handed on is candid. -/
theorem Inner.candid_ofDepth (d : Nat) : Discipline.candid.Binds (.ofDepth d) :=
  Discipline.candid_free.modular.ofDepth d

end ObjectLang
