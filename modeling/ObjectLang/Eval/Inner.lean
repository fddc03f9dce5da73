import ObjectLang.Machine.Routine

/-!
The evaluator as one of its own steps sees it.
Every step of the evaluator is written against `Inner`: the work it hands on, one level further
down.
-/
namespace ObjectLang

/-- How a statement leaves its block: on to the next one, or back to the caller. -/
inductive Flow where
  | next (value : ObjectId)
  | back (value : ObjectId)

def Flow.value : Flow → ObjectId
  | next v => v
  | back v => v

structure Inner where
  /-- Calls a value, with a receiver if there is one. -/
  invoke : ObjectId → Option ObjectId → List ObjectId → Routine ObjectId
  /-- Reads a cell on behalf of a receiver. -/
  read : CellId → Option ObjectId → Routine ObjectId
  evaluate : Expr → Routine ObjectId
  /-- Runs the statements of a block in the running scope. -/
  execute : Block → Routine Flow

end ObjectLang
