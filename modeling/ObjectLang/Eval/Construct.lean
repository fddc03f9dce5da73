import ObjectLang.Eval.Dispatch

/-!
Making objects.
An instance is built from the bottom of its chain upwards: the class below is called first, then the
blueprint of the class fills the new level, and at last the whole chain takes the new face. Types,
classes, methods and modules lie on the shared root, whose face stays its own.
-/
namespace ObjectLang.Eval

open Routine

variable (k : Inner)

def makeRooted (kind : Kind) (type : Roots → ObjectId) : Routine ObjectId := do
  let roots ← read (·.roots)
  let o ← newObject (some roots.root) kind
  change (·.setFace o o)
  change (·.setType o (type roots))
  return o

/-- Gives a callable its call operator, which is itself. -/
def answerCall (o : ObjectId) : Routine Unit := defineConst (.part o .operators) "()" o

def makeMethod (owner : ObjectId) (code : Code) : Routine ObjectId := do
  let o ← makeRooted (.method owner code) (·.method)
  answerCall o
  return o

def defineMethod (o : ObjectId) (p : Part) (code : Code) : Routine Unit := do
  defineConst (.part o p) code.name (← makeMethod o code)

def maybeMethod (o : ObjectId) : Option Code → Routine (Option ObjectId)
  | some code => some <$> makeMethod o code
  | none => return none

def propertyCell (o : ObjectId) (p : PropertyPlan) : Routine CellId :=
  match p.getter, p.setter with
  | none, none => do newCell (.var (← nothing k))
  | some getter, setter => do
    let s ← maybeMethod o setter
    let g ← makeMethod o getter
    newCell (.computed g s)
  | none, some _ => fail (.setterAlone p.name)

def defineProperty (o : ObjectId) (p : PropertyPlan) : Routine Unit := do
  define (.part o .members) p.name (← propertyCell k o p)

def superOf (o : ObjectId) : Routine ObjectId := do
  match ← see (·.base o) with
  | some b => return b
  | none => nothing k

/-- An activation that knows its object as `self` and the level below its owner as `super`. -/
def ownedActivation (owner this : ObjectId) (name : String) (home : Option TableId) :
    Routine Activation := do
  let base ← superOf k owner
  let a ← newActivation owner name home
  let self ← newCell (.const (← see (·.face this)))
  (defineLocal a "self" self).doing .bindSelf
  let super ← newCell (.const base)
  (defineLocal a "super" super).doing .bindSelf
  return a

/-- The first value of a field, computed in an activation of its own. -/
def fieldValue (b : Blueprint) (o : ObjectId) (f : FieldPlan) : Routine ObjectId :=
  match f.value with
  | none => nothing k
  | some e => do
    let a ← ownedActivation k o o (b.name ++ "." ++ f.name) b.home
    withActivation a (k.evaluate e)

def defineField (b : Blueprint) (o : ObjectId) (cell : ObjectId → Cell) (f : FieldPlan) :
    Routine Unit := do
  touch (.initialises o f)
  let c ← newCell (cell (← fieldValue k b o f))
  touch (.fills o f.name c)
  define (.part o .fields) f.name c

/-- Fills a level with what a blueprint gives: operators, methods, properties, then the constant and
the variable fields. -/
def fillLevel (b : Blueprint) (o : ObjectId) : Routine Unit := do
  b.operators.forM (defineMethod o .operators)
  b.methods.forM (defineMethod o .members)
  b.properties.forM (defineProperty k o)
  b.vals.forM (defineField k b o .const)
  b.vars.forM (defineField k b o .var)

def blueprint (c : ObjectId) : Routine Blueprint := do
  match ← see (·.kind c) with
  | .ofClass b => return b
  | _ => fail (.notClass (← see (·.describe c)))

/-- The chain that a class builds on: an instance of its superclass, if it has one. -/
def makeBase (b : Blueprint) : Routine (Option ObjectId) :=
  match b.base with
  | some base => some <$> dispatch k base "()" []
  | none => return none

/-- A new instance of a class, holding `kind` on its top level. -/
def instantiate (c : ObjectId) (kind : Kind) : Routine ObjectId := do
  touch (.instantiates c kind)
  let b ← blueprint c
  let base ← makeBase k b
  let o ← newObject base kind
  fillLevel k b o
  change (·.wearFace o)
  change (·.setType o c)
  return o

def instanceOf (name : String) (kind : Kind) : Routine ObjectId := do
  instantiate k (← builtin k name) kind

def integer (n : Int64) : Routine ObjectId := instanceOf k "Integer" (.integer n)

def float (x : Float) : Routine ObjectId := instanceOf k "Float" (.float x)

def string (s : String) : Routine ObjectId := instanceOf k "String" (.string s)

def plainObject : Routine ObjectId := instanceOf k "Object" .plain

def makeFunction (code : Code) : Routine ObjectId := do
  let o ← instanceOf k "Function" (.function code)
  answerCall o
  return o

def makeClosure (code : Code) (captured : Activation) : Routine ObjectId := do
  let o ← instanceOf k "Closure" (.closure code captured)
  answerCall o
  return o

def defineName (o : ObjectId) : Routine Unit := do
  let getter ← makeMethod o .nameGetter
  define (.part o .members) "name" (← newCell (.computed getter none))

/-- A class answers a call, and the member `new`, with a new instance. -/
def makeClass (b : Blueprint) : Routine ObjectId := do
  let c ← makeRooted (.ofClass b) (·.class_)
  let construct ← makeMethod c .constructor
  defineConst (.part c .operators) "()" construct
  defineConst (.part c .members) "new" construct
  defineName c
  note (.classCreated b.name)
  return c

end ObjectLang.Eval
