import ObjectLang.Decimal.Shortest
import ObjectLang.Store.Basic

/-!
Objects as seen from outside: what they are, how they are described, and which of their members
show. Descriptions and values are those of the face.
-/
namespace ObjectLang

def Kind.label : Kind → String
  | plain => "Instance"
  | type _ => "Type"
  | ofClass _ => "Class"
  | method .. => "Method"
  | function _ => "Function"
  | closure .. => "Closure"
  | ofModule _ => "Module"
  | moduleAlias .. => "ModuleAlias"
  | integer _ => "Integer"
  | float _ => "Float"
  | string _ => "String"
  | boolean _ => "Boolean"
  | nothing => "Nothing"

def Kind.isType : Kind → Bool
  | type _ | ofClass _ | ofModule _ => true
  | _ => false

def Kind.definitionName : Kind → Option String
  | type name => some name
  | ofClass b => some b.name
  | ofModule m => some m.name
  | _ => none

namespace Store

def typeName (s : Store) (o : ObjectId) : String :=
  ((s.type (s.face o)).bind fun t => (s.kind t).definitionName).getD "<unknown>"

def levelText (s : Store) (o : ObjectId) : String :=
  let about (noun name : String) := "<" ++ noun ++ " '" ++ name ++ "'>"
  match s.kind o with
  | .plain => "<" ++ s.typeName o ++ ">"
  | .type name => about "Type" name
  | .ofClass b => about "Class" b.name
  | .method _ code => about "Method" code.name
  | .function code => about "Function" code.name
  | .closure code _ => about "Closure" code.name
  | .ofModule m | .moduleAlias _ m => about "Module" m.name
  | .integer n => toString n.toInt
  | .float x => Decimal.text x
  | .string t => t
  | .boolean b => if b then "true" else "false"
  | .nothing => "nothing"

/-- The text of the face of an object. Another name for a module reads as the module. -/
def describe (s : Store) (o : ObjectId) : String :=
  match s.kind (s.face o) with
  | .moduleAlias target _ => s.levelText (s.face target)
  | _ => s.levelText (s.face o)

def asInteger (s : Store) (o : ObjectId) : Option Int64 :=
  match s.kind (s.face o) with
  | .integer n => some n
  | _ => none

def asFloat (s : Store) (o : ObjectId) : Option Float :=
  match s.kind (s.face o) with
  | .float x => some x
  | _ => none

def asString (s : Store) (o : ObjectId) : Option String :=
  match s.kind (s.face o) with
  | .string t => some t
  | _ => none

def asBoolean (s : Store) (o : ObjectId) : Option Bool :=
  match s.kind (s.face o) with
  | .boolean b => some b
  | _ => none

def publicScope (s : Store) (o : ObjectId) : List TableId :=
  match s.kind o with
  | .ofModule m | .moduleAlias _ m => [m.shown]
  | _ => [.part o .members]

def privateScope (s : Store) (o : ObjectId) : List TableId :=
  match s.kind o with
  | .ofModule m => [m.hidden]
  | .moduleAlias _ m => [m.shown]
  | _ => [.part o .members, .part o .fields]

def isModule (s : Store) (o : ObjectId) : Bool :=
  match s.kind o with
  | .ofModule _ | .moduleAlias .. => true
  | _ => false

/-- The members of `target` that code running as `accessor` sees. Code of a lower level reaches its
own fields through the face of the chain. -/
def memberScope (s : Store) (accessor target : ObjectId) : List TableId :=
  if accessor = target then s.privateScope target
  else if s.face accessor = target ∧ ¬ s.isModule target then
    [.part target .members, .part accessor .fields]
  else s.publicScope target

/-- Whether an object is of a type: some level of its chain has it. -/
def isa (s : Store) (o type : ObjectId) : Except Fault Bool :=
  if (s.kind type).isType then .ok ((s.levels (s.face o)).any fun l => s.type l = some type)
  else .error (.notType (s.describe type))

theorem error_of_isa {s : Store} {o type : ObjectId} {f : Fault} (h : s.isa o type = .error f) :
    f = .notType (s.describe type) := by
  rw [isa] at h
  split at h
  · cases h
  · exact (Except.error.inj h).symm

end Store

end ObjectLang
