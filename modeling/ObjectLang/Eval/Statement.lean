import ObjectLang.Eval.Module

/-!
Expressions and statements.
Operands are evaluated from left to right before an operator is called. An error that leaves a
statement takes the text of the statement with it.
-/
namespace ObjectLang.Eval

open Routine

variable (k : Inner)

def declareFunction (name : String) (params : List String) (body : Block) : Routine ObjectId := do
  let a ← peek 0
  makeFunction k (.block name params body (some a.home))

/-- A closure over a copy of the running activation. -/
def declareClosure (params : List String) (body : Block) : Routine ObjectId := do
  let a ← peek 0
  touch (.captures a)
  let captured ← make (·.captureActivation a)
  makeClosure k (.block "<closure>" params body (some captured.home)) captured

def evaluateAll : List Expr → Routine (List ObjectId)
  | [] => return []
  | e :: rest => do
    let v ← k.evaluate e
    return v :: (← evaluateAll rest)

def evaluate : Expr → Routine ObjectId
  | .integer n => integer k n
  | .float x => float k x
  | .string s => string k s
  | .name n => getName k n
  | .binary op lhs rhs => do
    let l ← k.evaluate lhs
    let r ← k.evaluate rhs
    dispatch k l op.symbol [r]
  | .call (.member target name) args => do
    let t ← k.evaluate target
    callMember k t name (← evaluateAll k args)
  | .call callee args => do
    let f ← k.evaluate callee
    k.invoke f none (← evaluateAll k args)
  | .index target args => do
    let t ← k.evaluate target
    dispatch k t "[]" (← evaluateAll k args)
  | .member target name => do getMember k (← k.evaluate target) name
  | .function params body => declareFunction k "<anonymous>" params body
  | .closure params body => declareClosure k params body

def evaluateOr : Option Expr → Routine ObjectId
  | some e => k.evaluate e
  | none => nothing k

/-- The value to assign: the right side, or the present value updated by it. -/
def assigned (op : Option Arith) (current : Routine ObjectId) (value : Expr) : Routine ObjectId :=
  match op with
  | none => k.evaluate value
  | some op => do
    let c ← current
    let v ← k.evaluate value
    dispatch k c op.updateSymbol [v]

def methodCode (home : TableId) (name : String) (params : List String) (body : Block) : Code :=
  .block name params body (some home)

def accessorCode (home : TableId) (name : String) : Accessor → Code
  | .mk params body => methodCode home name params body

def addMember (home : TableId) (b : Blueprint) : Member → Blueprint
  | .val name value => { b with vals := b.vals ++ [⟨name, some value⟩] }
  | .var name value => { b with vars := b.vars ++ [⟨name, value⟩] }
  | .method name params body =>
    { b with methods := b.methods ++ [methodCode home name params body] }
  | .operator symbol params body =>
    { b with operators := b.operators ++ [methodCode home symbol params body] }
  | .property name getter setter =>
    { b with properties := b.properties ++
        [⟨name, getter.map (accessorCode home name), setter.map (accessorCode home name)⟩] }

def declaredBlueprint (home : TableId) (name : String) (base : ObjectId) (members : List Member) :
    Blueprint :=
  members.foldl (addMember home) { Blueprint.empty name (some base) with home := some home }

/-- The class to declare another one over: the given one, or `Object`. -/
def superclassOf : Option Expr → Routine ObjectId
  | some e => k.evaluate e
  | none => builtin k "Object"

def declareClass (name : String) (superclass : Option Expr) (members : List Member) :
    Routine ObjectId := do
  let base ← superclassOf k superclass
  let _ ← blueprint base
  let a ← peek 0
  makeClass (declaredBlueprint a.home name base members)

def declareValue (name : String) (cell : ObjectId → Cell) (value : ObjectId) : Routine Flow := do
  declare name (← newCell (cell value))
  return .next value

def runCommand : Command → Routine Flow
  | .val name value => do declareValue name .const (← k.evaluate value)
  | .var name value => do declareValue name .var (← evaluateOr k value)
  | .assign name op value => do
    let v ← assigned k op (getName k name) value
    setName k name v
    return .next v
  | .assignMember target name op value => do
    let t ← k.evaluate target
    let v ← assigned k op (getMember k t name) value
    setMember k t name v
    return .next v
  | .giveBack value => Flow.back <$> evaluateOr k value
  | .function name params body => do
    declareValue name .const (← declareFunction k name params body)
  | .declareClass name superclass members => do
    declareValue name .const (← declareClass k name superclass members)
  | .declareModule name body => Flow.next <$> declareModule k name body
  | .importModule name binding => do
    importModule k name binding
    Flow.next <$> nothing k
  | .exportNames names => do
    exportNames names
    Flow.next <$> nothing k
  | .evaluate value => Flow.next <$> k.evaluate value

def runStatement (s : Statement) : Routine Flow := do
  touch (.executes s)
  (runCommand k s.command).onError (.leaves s) (·.leaving s.text)

/-- Runs statements in order; `last` is the value if there are none. -/
def runStatements (last : ObjectId) : List Statement → Routine Flow
  | [] => return .next last
  | s :: rest => do
    match ← runStatement k s with
    | .next v => runStatements v rest
    | .back v => return .back v

def execute (b : Block) : Routine Flow := do runStatements k (← nothing k) b

end ObjectLang.Eval
