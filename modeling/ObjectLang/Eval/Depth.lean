import ObjectLang.Eval.Statement

/-!
The evaluator to a bounded depth.
Each level hands its work on to the level below it, and at depth zero all work is out of fuel.
-/
namespace ObjectLang

namespace Inner

def ofDepth : Nat → Inner
  | 0 =>
    { invoke := fun _ _ _ => .outOfFuel
      read := fun _ _ => .outOfFuel
      evaluate := fun _ => .outOfFuel
      execute := fun _ => .outOfFuel }
  | n + 1 =>
    { invoke := fun f receiver args => Eval.invoke (ofDepth n) f receiver args
      read := fun c receiver => Eval.readCell (ofDepth n) c receiver
      evaluate := fun e => do
        Routine.touch (.evaluates e)
        Eval.evaluate (ofDepth n) e
      execute := fun b => Eval.execute (ofDepth n) b }

end Inner

namespace Eval

open Routine

/-- The value of a program: that of its last statement, or what it gives back. -/
def runProgram (k : Inner) (b : Block) : Routine ObjectId := Flow.value <$> execute k b

def runSource (k : Inner) (s : Source) : Routine ObjectId := do
  note (.executing s.title)
  match parse s with
  | .ok b => runProgram k b
  | .error e => failWith (.malformed e)

end Eval

namespace Machine

/-- How deep the machine nests work before it gives up. -/
def depth : Nat := 10000000

def evaluator : Inner := .ofDepth depth

def run (m : Machine) (s : Source) : Outcome ObjectId := Eval.runSource evaluator s m

end Machine

end ObjectLang
