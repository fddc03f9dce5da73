import ObjectLang.Machine.Moment

/-!
Routines on a machine.
A routine ends with a value, fails with an error, or runs out of fuel; in the first two cases the
machine goes on from where the routine left it. Nothing is rolled back. The moments that a run
passes are told by a relation, so that they cost nothing when the routine runs.
-/
namespace ObjectLang

inductive Outcome (α : Type) where
  | done (value : α) (m : Machine)
  | failed (e : Error) (m : Machine)
  | exhausted

structure Routine (α : Type) where
  run : Machine → Outcome α
  /-- The moments that the run on a machine passes, in order. -/
  trace : Machine → List Moment → Prop
  traced : ∀ m, ∃ t, ∀ t', trace m t' ↔ t' = t

namespace Routine

variable {α β : Type}

instance : CoeFun (Routine α) fun _ => Machine → Outcome α := ⟨run⟩

/-- A routine that passes no moments. -/
@[inline] def quiet (run : Machine → Outcome α) : Routine α where
  run := run
  trace _ t := t = []
  traced _ := ⟨[], fun _ => Iff.rfl⟩

@[inline] protected def pure (a : α) : Routine α := quiet fun m => .done a m

@[inline] protected def bind (x : Routine α) (f : α → Routine β) : Routine β where
  run m :=
    match x m with
    | .done a m => f a m
    | .failed e m => .failed e m
    | .exhausted => .exhausted
  trace m t :=
    match x m with
    | .done a m' => ∃ t₁ t₂, x.trace m t₁ ∧ (f a).trace m' t₂ ∧ t = t₁ ++ t₂
    | _ => x.trace m t
  traced m := by
    obtain ⟨t₁, h₁⟩ := x.traced m
    cases x m with
    | done a m' =>
      obtain ⟨t₂, h₂⟩ := (f a).traced m'
      exact ⟨t₁ ++ t₂, fun t => by simp [h₁, h₂]⟩
    | failed e m' => exact ⟨t₁, h₁⟩
    | exhausted => exact ⟨t₁, h₁⟩

instance : Monad Routine where
  pure := Routine.pure
  bind := Routine.bind

theorem pure_run (a : α) (m : Machine) : (Pure.pure a : Routine α) m = .done a m := rfl

theorem bind_run (x : Routine α) (f : α → Routine β) (m : Machine) :
    (x >>= f) m = match x m with
      | .done a m => f a m
      | .failed e m => .failed e m
      | .exhausted => .exhausted := rfl

theorem map_run (f : α → β) (x : Routine α) (m : Machine) :
    (f <$> x) m = match x m with
      | .done a m => .done (f a) m
      | .failed e m => .failed e m
      | .exhausted => .exhausted := rfl

@[inline] def ending (x : Routine α) (f : Outcome α → Outcome β) : Routine β where
  run m := f (x m)
  trace := x.trace
  traced := x.traced

@[inline] def on (x : Routine α) (f : Machine → Machine) : Routine α where
  run m := x (f m)
  trace m := x.trace (f m)
  traced m := x.traced (f m)

@[inline] def touch (d : Deed) : Routine Unit where
  run m := .done () m
  trace m t := t = [⟨d, m⟩]
  traced m := ⟨[⟨d, m⟩], fun _ => Iff.rfl⟩

def fail (f : Fault) : Routine α := quiet fun m => .failed (.fault f) m

def failWith (e : Error) : Routine α := quiet fun m => .failed e m

def outOfFuel : Routine α := quiet fun _ => .exhausted

instance : Inhabited (Routine α) := ⟨outOfFuel⟩

def machine : Routine Machine := quiet fun m => .done m m

@[inline] def read (f : Machine → α) : Routine α := quiet fun m => .done (f m) m

@[inline] def modify (f : Machine → Machine) : Routine Unit := quiet fun m => .done () (f m)

@[inline] def see (f : Store → α) : Routine α := quiet fun m => .done (f m.store) m

@[inline] def change (f : Store → Store) : Routine Unit := quiet fun m =>
  .done () { m with store := f m.store }

@[inline] def make (f : Store → α × Store) : Routine α := quiet fun m =>
  match m with
  | ⟨store, stack, builtins, modules, roots, sink, log⟩ =>
    match f store with
    | (a, store) => .done a ⟨store, stack, builtins, modules, roots, sink, log⟩

def ofExcept : Except Fault α → Routine α
  | .ok a => Routine.pure a
  | .error f => fail f

/-- Changes errors on their way out, at a moment of their own. -/
def onError (x : Routine α) (deed : Error → Deed) (f : Error → Error) : Routine α where
  run m :=
    match x m with
    | .failed e m => .failed (f e) m
    | other => other
  trace m t :=
    match x m with
    | .failed e m' => ∃ t₁, x.trace m t₁ ∧ t = t₁ ++ [⟨deed e, m'⟩]
    | _ => x.trace m t
  traced m := by
    obtain ⟨t₁, h₁⟩ := x.traced m
    cases x m with
    | failed e m' => exact ⟨t₁ ++ [⟨deed e, m'⟩], fun t => by simp [h₁]⟩
    | done a m' => exact ⟨t₁, h₁⟩
    | exhausted => exact ⟨t₁, h₁⟩

/-- A task of the machine's own: it is told when the routine fails. -/
def doing (x : Routine α) (t : Task) : Routine α := { x.onError (.breaks t) id with run := x.run }

/-- Runs a routine and then, whether it failed or not, cleans up. -/
def ensuring (x : Routine α) (cleanUp : Machine → Machine) : Routine α :=
  x.ending fun
    | .done a m => .done a (cleanUp m)
    | .failed e m => .failed e (cleanUp m)
    | .exhausted => .exhausted

def attempt (x : Routine α) : Routine (Except Error α) :=
  x.ending fun
    | .done a m => .done (.ok a) m
    | .failed e m => .done (.error e) m
    | .exhausted => .exhausted

def note (e : Event) : Routine Unit := modify (·.note e)

def newObject (base : Option ObjectId) (kind : Kind) : Routine ObjectId :=
  make (·.newObject base kind)

def newCell (c : Cell) : Routine CellId := make (·.newCell c)

def newTable : Routine TableId := make (·.newTable .empty)

def newTableOver (outer : Option TableId) (rule : NameRule) : Routine TableId :=
  make fun s => s.newTable ⟨[], (outer.map fun t => t :: s.outer t).getD [], rule⟩

def define (t : TableId) (name : String) (c : CellId) : Routine Unit := quiet fun m =>
  match m.store.refusal? t name with
  | none => .done () { m with store := m.store.bind t name c }
  | some f => .failed (.fault f) m

def defineConst (t : TableId) (name : String) (value : ObjectId) : Routine Unit := do
  define t name (← newCell (.const value))

def defineLocal (a : Activation) (name : String) (c : CellId) : Routine Unit :=
  match a.scopes with
  | t :: _ => define t name c
  | [] => fail (.noScope a.name)

/-- The activation `n` places below the running one. -/
def peek (n : Nat) : Routine Activation := quiet fun m =>
  match m.stack[n]? with
  | some a => .done a m
  | none => .failed (.fault (.noActivation n)) m

def declare (name : String) (c : CellId) : Routine Unit := do
  defineLocal (← peek 0) name c

/-- A new activation. Its scopes are the builtins, the table that its code was declared in, if any,
and a fresh table. -/
def newActivation (owner : ObjectId) (name : String) (home : Option TableId) :
    Routine Activation := do
  let locals ← newTable
  let builtins ← read (·.builtins)
  match home with
  | some home => return ⟨owner, name, [locals, home, builtins], home, []⟩
  | none => return ⟨owner, name, [locals, builtins], locals, []⟩

/-- Runs a routine inside an activation, which is taken off again however the routine ends. -/
def withActivation (a : Activation) (x : Routine α) : Routine α :=
  (x.ensuring Machine.pop).on (·.push a)

def withScope (t : TableId) (x : Routine α) : Routine α := do
  let _ ← peek 0
  modify (·.modifyTop (·.pushScope t))
  x.ensuring (·.modifyTop Activation.popScope)

def writeLine (text : String) : Routine Unit := quiet fun m =>
  match m.sink with
  | .collecting lines => .done () { m with sink := .collecting ((text ++ "\n") :: lines) }
  | .broken reason => .failed (.fault (.closedSink reason)) m

end Routine

end ObjectLang
