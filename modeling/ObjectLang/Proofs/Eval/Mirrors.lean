import ObjectLang.Proofs.Eval.Discipline

/-!
The evaluator does not depend on which identities are given out.
At every depth, from machines that are the same up to a move of identities, like work is done alike.
-/
namespace ObjectLang

open Routine

attribute [local instance] Routine.lawful

variable {ρ : Shift}

namespace Routine.Mirrors

variable {α β : Type} [Movable α] [Movable β]

theorem bind_see {h h' : Store → α} {f f' : α → Routine β}
    (hs : ∀ s s', s.Shifted ρ s' → h' s' = move ρ (h s))
    (hf : ∀ s, (f (h s)).Mirrors ρ (f' (move ρ (h s)))) :
    (Routine.see h >>= f).Mirrors ρ (Routine.see h' >>= f') := by
  refine ⟨fun m m' hm hdiscreet => ?_⟩
  have hmoments : (Routine.see h >>= f).moments m = (f (h m.store)).moments m := by
    rw [moments_bind_done (show Routine.see h m = .done (h m.store) m from rfl)]
    exact congrArg (· ++ _) (moments_quiet _ m)
  have hrest := (hf m.store).alike m m' hm (by rwa [Discreet, hmoments] at hdiscreet)
  rwa [← hs _ _ hm.store] at hrest

theorem bind_newActivation {owner : ObjectId} {name : String} {home : Option TableId}
    {f f' : Activation → Routine β}
    (hf : ∀ a t rest, a.scopes = t :: rest → (f a).Mirrors ρ (f' (move ρ a))) :
    (Routine.newActivation owner name home >>= f).Mirrors ρ
      (Routine.newActivation (move ρ owner) name (move ρ home) >>= f') := by
  rw [Routine.newActivation, Routine.newActivation, bind_assoc, bind_assoc]
  refine newTable.bind fun t => ?_
  rw [bind_assoc, bind_assoc]
  refine (read fun _ _ hm => hm.builtins).bind fun builtins => ?_
  cases home with
  | none =>
    change Mirrors ρ (Pure.pure _ >>= f) (Pure.pure _ >>= f')
    rw [pure_bind, pure_bind]
    exact hf _ t [builtins] rfl
  | some home =>
    change Mirrors ρ (Pure.pure _ >>= f) (Pure.pure _ >>= f')
    rw [pure_bind, pure_bind]
    exact hf _ t [home, builtins] rfl

end Routine.Mirrors

theorem Eval.makeRooted_mirrors (kind : Kind) {type : Roots → ObjectId}
    (htype : ∀ r, type (move ρ r) = move ρ (type r)) :
    Mirrors ρ (makeRooted kind type) (makeRooted (move ρ kind) type) := by
  refine .bind (.read fun _ _ hm => hm.roots) fun r =>
    .bind (.newObject (some r.root) kind) fun o =>
    .bind (.change fun _ _ hs => hs.setFace o o) fun _ => ?_
  rw [htype]
  exact .bind (.change fun _ _ hs => hs.setType o (type r)) fun _ => .pure rfl

def Discipline.mirrors (ρ : Shift) : Discipline where
  Ground := Unit
  ρ := ρ
  Keeps _ x x' := x.Mirrors ρ x'
  registry := none
  table _ _ := ()
  parts _ _ := ()
  head _ := ()
  called _ := ()
  Sees _ := True
  sees_called _ := trivial
  sees_head := id
  outOfFuel := .outOfFuel
  pure := .pure
  bind := .bind
  bind_fail _ := ⟨fun _ _ hm _ => .failed _ hm⟩
  bind_see := .bind_see
  bind_kind o _ _ hf := (Mirrors.see fun _ _ hs => hs.kind o).bind fun kind => hf kind nofun
  read _ := .read
  bind_peek _ hf := (Mirrors.peek _).bind fun a => hf a nofun
  touch _ := .touch _ _
  bind_identifies := .bind_identifies
  assign c v := .change fun _ _ hs => hs.assign c v
  alike _ := .change
  note := .note
  writeLine := .writeLine
  bind_attempt hx hf _ := hx.attempt.bind fun r => hf r fun e _ => .failWith e
  leaving _ hx := hx.onError _ _ _
  doing t hx := hx.doing t
  bind_newTable hf := Mirrors.newTable.bind hf
  bind_newObject _ _ _ hf := (Mirrors.newObject ..).bind hf
  bind_rooted htype _ _ hf := (Eval.makeRooted_mirrors _ htype).bind hf
  define v _ := .defineConst _ _ v
  definePart {_ o p _ _} _ _ := (Mirrors.newCell _).bind fun c => .define (.part o p) _ c
  defineField {_ o _ _} _ _ := (Mirrors.newCell _).bind fun c => (Mirrors.touch _ _).bind fun _ =>
    .define (.part o .fields) _ c
  declare _ _ := (Mirrors.newCell _).bind fun c => .declare _ c
  bind_newActivation _ hf := .bind_newActivation fun a t rest => hf a t rest nofun
  bind_capture {_ _ _ a _ _} _ hf := (Mirrors.touch _ _).bind fun _ =>
    (Mirrors.make fun _ _ hs => hs.captureActivation a).bind fun copy => hf () copy nofun
  withActivation _ := .withActivation _
  withScope := .withScope _

theorem Discipline.mirrors_free (ρ : Shift) : (Discipline.mirrors ρ).Free where
  registry := rfl
  head _ := rfl
  executes _ _ := Mirrors.touch _ _
  rooted _ kind _ := Eval.makeRooted_mirrors kind
  newCell _ := Mirrors.newCell
  bindCell _ := Mirrors.define
  modifyTop _ _ h := Mirrors.modify fun _ _ hm => hm.modifyTop h

/-- At every depth, a call goes alike. -/
theorem Eval.invoke_mirrors (ρ : Shift) (d : Nat) (f : ObjectId) (receiver : Option ObjectId)
    (args : List ObjectId) : Mirrors ρ (invoke (.ofDepth d) f receiver args)
      (invoke (.ofDepth d) (move ρ f) (move ρ receiver) (move ρ args)) :=
  ((Discipline.mirrors_free ρ).modular.ofDepth d).invoke (g := ()) f receiver args

end ObjectLang
