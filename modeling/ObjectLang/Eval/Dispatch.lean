import ObjectLang.Eval.Inner

/-!
Cells, names and operators.
Reading and writing go through cells; an operator is looked up along the chain of an object and
called with the object as its receiver.
-/
namespace ObjectLang.Eval

open Routine

variable (k : Inner)

def readCell (c : CellId) (receiver : Option ObjectId) : Routine ObjectId := do
  match ← see (·.cell c) with
  | .var value | .const value => return value
  | .computed getter _ => k.invoke getter receiver []
  | .view shown => do
    touch (.reads (.view c) shown)
    k.read shown receiver

def readVia (via : Route) (c : CellId) (receiver : Option ObjectId) : Routine ObjectId := do
  touch (.reads via c)
  readCell k c receiver

/-- Only variables and cells with a setter can be written. -/
def writeCell (c : CellId) (receiver : Option ObjectId) (value : ObjectId) : Routine Unit := do
  match ← see (·.cell c) with
  | .var _ => change (·.assign c value)
  | .computed _ (some setter) => discard (k.invoke setter receiver [value])
  | _ => fail .constant

def writeVia (via : Route) (c : CellId) (receiver : Option ObjectId) (value : ObjectId) :
    Routine Unit := do
  touch (.writes via c value)
  writeCell k c receiver value

def found (name : String) : Option CellId → Routine CellId
  | some c => pure c
  | none => fail (.unknownName name)

def getIn (t : TableId) (name : String) : Routine ObjectId := do
  readVia k (.table t name) (← found name (← see (·.lookup t name))) none

def setIn (t : TableId) (name : String) (value : ObjectId) : Routine Unit := do
  writeVia k (.table t name) (← found name (← see (·.lookup t name))) none value

def builtin (name : String) : Routine ObjectId := do
  let t ← read (·.builtins)
  let c ← (found name (← see (·.lookup t name))).doing (.builtin name)
  readVia k (.table t name) c none

def nothing : Routine ObjectId := builtin k "nothing"

def boolean (b : Bool) : Routine ObjectId := builtin k (if b then "true" else "false")

def moduleNamed (name : String) : Routine ObjectId := do getIn k (← read (·.modules)) name

def getName (name : String) : Routine ObjectId := do
  readVia k (.name name) (← found name (← read (·.lookup name))) none

def setName (name : String) (value : ObjectId) : Routine Unit := do
  writeVia k (.name name) (← found name (← read (·.lookup name))) none value

def operatorCell (target : ObjectId) (op : String) : Routine CellId := do
  match ← see (·.lookup (.part target .operators) op) with
  | some c => return c
  | none => fail (.unsupported (← see (·.typeName target)) op)

/-- Calls the operator `op` of an object. What can be called is its own call operator. -/
def dispatch (target : ObjectId) (op : String) (args : List ObjectId) : Routine ObjectId := do
  let c ← (operatorCell target op).doing (.operator op)
  let f ← readVia k (.operator target op) c (some target)
  k.invoke f (if f = target then none else some target) args

/-- The cell of a member as the running activation sees it. -/
def memberCell (accessor target : ObjectId) (name : String) : Routine CellId := do
  found name (← see fun s => s.lookupIn (s.memberScope accessor target) name)

def setMember (target : ObjectId) (name : String) (value : ObjectId) : Routine Unit := do
  let running ← peek 0
  let c ← memberCell running.owner target name
  writeVia k (.member running.owner target name) c (some target) value

end ObjectLang.Eval
