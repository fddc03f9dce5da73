import ObjectLang.Proofs.Eval.Discipline

/-!
The evaluator sees the running activation only.
Two primitives look at the activation below their own one, which is the one that called them. They
run in an activation of their own, so that from outside such a call is local to the caller.
-/
namespace ObjectLang

open Routine

attribute [local instance] Routine.lawful

theorem Routine.Local.bind_newActivation {β : Type} {n : Nat} {owner : ObjectId} {name : String}
    {home : Option TableId} {f : Activation → Routine β}
    (hf : ∀ a t rest, a.scopes = t :: rest → (f a).Local n) :
    (Routine.newActivation owner name home >>= f).Local n := by
  rw [Routine.newActivation, bind_assoc]
  refine newTable.bind fun t => ?_
  rw [bind_assoc]
  refine (read fun _ _ _ _ => rfl).bind fun builtins => ?_
  cases home with
  | none => exact pure_bind _ f ▸ hf _ t [builtins] rfl
  | some home => exact pure_bind _ f ▸ hf _ t [home, builtins] rfl

theorem Eval.makeRooted_local {n : Nat} (kind : Kind) (type : Roots → ObjectId) :
    (makeRooted kind type).Local n :=
  (Local.read fun _ _ _ _ => rfl).bind fun _ => (Local.newObject ..).bind fun o =>
    (Local.change _).bind fun _ => (Local.change _).bind fun _ => .pure o

def Discipline.near : Discipline where
  Ground := Nat
  ρ := .rest
  Keeps n x _ := x.Local (n + 1)
  registry := none
  table n _ := n
  parts n _ := n
  head n := n
  called n := n + 1
  Sees n := 0 < n
  sees_called := Nat.succ_pos
  sees_head := id
  outOfFuel := .outOfFuel
  pure {_ _ _ a _} _ := .pure a
  bind := .bind
  bind_fail _ := ⟨fun _ _ _ _ => rfl, by rintro m m' - ⟨⟩; rfl⟩
  bind_see _ hf := ⟨fun m below earlier hm => (hf m.store).onto m below earlier hm,
    fun m m' hm h => (hf m.store).height m m' hm h⟩
  bind_kind _ _ _ hf := (Local.see _).bind fun kind => hf kind nofun
  read h _ := .read fun m below earlier hm => h m below earlier (Nat.le_trans (Nat.succ_pos _) hm)
  bind_peek {_ _ n _ _ i} hi hf := by
    refine (Local.peek (n := n + 1) ?_).bind fun a => hf a nofun
    rcases Nat.eq_zero_or_pos i with rfl | hpos
    · exact Nat.succ_pos n
    · obtain ⟨hsees, rfl⟩ := hi hpos
      exact Nat.succ_lt_succ hsees
  touch _ := .touch _
  bind_identifies hy := (Local.touch _).bind fun _ => hy (Shift.move_rest _)
  assign _ _ := .change _
  alike _ _ := .change _
  note e _ := .note e
  writeLine := .writeLine
  bind_attempt hx hf _ := hx.attempt.bind fun r => hf r fun e _ => .failWith e
  leaving _ hx := hx.onError _ _
  doing t hx := hx.doing t
  bind_newTable hf := Local.newTable.bind hf
  bind_newObject _ _ _ hf := (Local.newObject ..).bind hf
  bind_rooted _ _ _ hf := (Eval.makeRooted_local ..).bind hf
  define v _ := .defineConst _ _ v
  definePart _ _ := (Local.newCell _).bind fun _ => .define ..
  defineField _ _ := (Local.newCell _).bind fun _ => (Local.touch _).bind fun _ => .define ..
  declare _ _ := (Local.newCell _).bind fun _ => .declare (Nat.succ_pos _) ..
  bind_newActivation _ hf := .bind_newActivation fun a t rest => hf a t rest nofun
  bind_capture _ hf := (Local.touch _).bind fun _ => (Local.make _).bind fun copy => hf _ copy nofun
  withActivation _ hx := .withActivation _ hx
  withScope hx := .withScope _ (Nat.succ_pos _) hx

theorem Discipline.near_free : Discipline.near.Free where
  registry := rfl
  head _ := rfl
  executes _ _ := Local.touch _
  rooted _ _ _ _ := Eval.makeRooted_local ..
  newCell _ _ := Local.newCell _
  bindCell _ _ _ _ := Local.define ..
  modifyTop n _ _ := Local.modifyTop (Nat.succ_pos n) _

abbrev Inner.Local (k : Inner) : Prop := Discipline.near.Binds k

theorem Inner.local_ofDepth (d : Nat) : (Inner.ofDepth d).Local :=
  Discipline.near_free.modular.ofDepth d

end ObjectLang
