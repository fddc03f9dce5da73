import ObjectLang.Eval.Primitive

/-!
Calls.
A call runs in an activation of its own: that of a method is owned by the level that the method was
defined on, that of a function by the function, and that of a closure is the captured one. Arguments
are counted and bound before the body runs.
-/
namespace ObjectLang.Eval

open Routine

variable (k : Inner)

def bindParams (t : TableId) : List String → List ObjectId → Routine Unit
  | name :: names, value :: values => do
    defineConst t name value
    bindParams t names values
  | _, _ => pure ()

def runBody (b : Block) : Routine ObjectId := do
  withScope (← newTable) (Flow.value <$> k.execute b)

/-- Counts the arguments of a call made by the activation named `caller`, and binds them. -/
def takeArguments (caller : String) (code : Code) (scope : TableId) (args : List ObjectId) :
    Routine Unit :=
  match code.params with
  | .fixed names =>
    if names.length ≠ args.length then
      fail (.arity caller code.name names.length args.length)
    else bindParams scope names args
  | .any => pure ()

def enter (body : Body) (this : ObjectId) (args : List ObjectId) : Routine ObjectId :=
  match body with
  | .primitive p => perform k p this args
  | .block b => runBody k b

def runCode (caller : String) (this : ObjectId) (code : Code) (args : List ObjectId) :
    Routine ObjectId := do
  let scope ← newTable
  takeArguments caller code scope args
  withScope scope (enter k code.body this args)

/-- Calls a method: `self` is the face of the receiver, or else of the owner. -/
def callMethod (owner : ObjectId) (code : Code) (receiver : Option ObjectId)
    (args : List ObjectId) : Routine ObjectId := do
  let this := receiver.getD owner
  let caller ← read (·.runningName)
  let a ← ownedActivation k owner this code.name code.home
  withActivation a (runCode k caller this code args)

def callFunction (f : ObjectId) (code : Code) (args : List ObjectId) : Routine ObjectId := do
  let caller ← read (·.runningName)
  let a ← newActivation f code.name code.home
  withActivation a (runCode k caller f code args)

/-- Calls a closure on its captured tables, so that one call sees what another has assigned. -/
def callClosure (f : ObjectId) (code : Code) (captured : Activation) (args : List ObjectId) :
    Routine ObjectId := do
  let caller ← read (·.runningName)
  withActivation (captured.renamed code.name) (runCode k caller f code args)

/-- Calls a value. What is not code by itself is asked for its call operator. -/
def invoke (f : ObjectId) (receiver : Option ObjectId) (args : List ObjectId) :
    Routine ObjectId := do
  match ← see (·.kind f) with
  | .method owner code => callMethod k owner code receiver args
  | .function code => callFunction k f code args
  | .closure code captured => callClosure k f code captured args
  | _ => dispatch k f "()" args

end ObjectLang.Eval
