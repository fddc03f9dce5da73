import ObjectLang.Activation
import ObjectLang.Fault

/-!
Code that can be called, and the blueprints of classes.
The body of code is a block of statements or a primitive of the machine.
-/
namespace ObjectLang

inductive Primitive where
  /-- Look up a member of the receiver as seen from the caller. -/
  | member
  /-- Whether the receiver is of a type. -/
  | isa
  /-- Refuse an operator. -/
  | unsupported (operation : String)
  /-- The description of the receiver. -/
  | describe
  | typeOf
  | identity
  | concat
  | replicate
  | print
  | arithmetic (op : Arith)
  /-- Make an instance of the receiver. -/
  | construct
  /-- The name of the receiver's definition. -/
  | definitionName
  | receiver
  /-- One of the arguments, or nothing where there are fewer. -/
  | argument (index : Nat)
  | argumentCount
  | raise (f : Fault)
  /-- The name of the running activation. -/
  | activationName
  /-- The description of the owner of the calling activation. -/
  | callerText

inductive Params where
  | fixed (names : List String)
  /-- Any number of arguments, none of them bound to a name. -/
  | any

inductive Body where
  | primitive (p : Primitive)
  | block (b : Block)

structure Code where
  name : String
  params : Params
  body : Body
  /-- The top-level table of the program or module that declared the code. -/
  home : Option TableId

namespace Code

def primitive (name : String) (params : List String) (p : Primitive) : Code :=
  ⟨name, .fixed params, .primitive p, none⟩

def variadic (name : String) (p : Primitive) : Code := ⟨name, .any, .primitive p, none⟩

def block (name : String) (params : List String) (b : Block) (home : Option TableId) : Code :=
  ⟨name, .fixed params, .block b, home⟩

def constructor : Code := .primitive "new" [] .construct

def nameGetter : Code := .primitive "name" [] .definitionName

def arity (c : Code) : Option Nat :=
  match c.params with
  | .fixed names => some names.length
  | .any => none

end Code

/-- A property of a class; without accessors it is plain storage. -/
structure PropertyPlan where
  name : String
  getter : Option Code
  setter : Option Code

/-- A read-only property that carries the name of its getter. -/
def PropertyPlan.computed (getter : Code) : PropertyPlan := ⟨getter.name, some getter, none⟩

structure FieldPlan where
  name : String
  value : Option Expr

/-- What a class gives to the level that it adds to an instance. -/
structure Blueprint where
  name : String
  base : Option ObjectId
  operators : List Code
  methods : List Code
  properties : List PropertyPlan
  vals : List FieldPlan
  vars : List FieldPlan
  home : Option TableId

def Blueprint.empty (name : String) (base : Option ObjectId) : Blueprint :=
  ⟨name, base, [], [], [], [], [], none⟩

end ObjectLang
