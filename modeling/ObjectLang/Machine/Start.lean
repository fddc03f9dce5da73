import ObjectLang.Eval.Depth

/-!
The machine at its start: the foundational types, the builtin classes and values, and the main
activation.
Types come before all else, since every object has one; methods come before classes, which are made
of them; and `Object` comes before every class that lies over it.
-/
namespace ObjectLang

namespace Store

def newType (s : Store) (root type : ObjectId) (name : String) : ObjectId × Store :=
  let (o, s) := s.newObject (some root) (.type name)
  (o, (s.setFace o o).setType o type)

/-- The root and the types that lie on it. `Type` is its own type. -/
def foundation : Roots × Store :=
  let (root, s) := empty.newObject none .plain
  let type : ObjectId := ⟨s.objects.size⟩
  let (_, s) := s.newType root type "Type"
  let (method, s) := s.newType root type "Method"
  let (class_, s) := s.newType root type "Class"
  let (module_, s) := s.newType root type "Module"
  (⟨root, type, method, class_, module_⟩, s)

end Store

def Machine.blank : Machine :=
  let (roots, s) := Store.foundation
  let (builtins, s) := s.newTable .empty
  let (modules, s) := s.newTable { Table.empty with rule := .dotted }
  ⟨s, [], builtins, modules, roots, .collecting [], []⟩

namespace Builtin

/-- The operators that every object answers by refusing them, until a class gives a meaning to
them. -/
def refused : List String := ["()", "[]", "+", "-", "*", "/", "+=", "-=", "*=", "/="]

def stringProperty : PropertyPlan := .computed (.primitive "string" [] .describe)

def objectBlueprint : Blueprint :=
  { Blueprint.empty "Object" none with
    operators := [.primitive "." ["name"] .member, .primitive "isa" ["kind"] .isa] ++
      refused.map fun op => .variadic op (.unsupported op)
    methods := [.primitive "isa" ["kind"] .isa]
    properties := [stringProperty, .computed (.primitive "type" [] .typeOf),
      .computed (.primitive "id" [] .identity)] }

def plainBlueprint (object : ObjectId) (name : String) : Blueprint :=
  { Blueprint.empty name (some object) with properties := [stringProperty] }

def stringBlueprint (object : ObjectId) : Blueprint :=
  { plainBlueprint object "String" with
    operators := [.primitive "+" ["other"] .concat, .primitive "+=" ["other"] .concat,
      .primitive "*" ["count"] .replicate] }

def numberBlueprint (object : ObjectId) (name : String) : Blueprint :=
  let ops := [Arith.add, .sub, .mul, .div]
  { plainBlueprint object name with
    operators := ops.map (fun op => .primitive op.symbol ["other"] (.arithmetic op)) ++
      ops.map fun op => .primitive op.updateSymbol ["other"] (.arithmetic op) }

open Routine Eval

variable (k : Inner)

def define (name : String) (value : ObjectId) : Routine Unit := do
  defineConst (← read (·.builtins)) name value

def defineClass (b : Blueprint) : Routine Unit := do define b.name (← makeClass b)

def defineValue (name class_ : String) (kind : Kind) : Routine Unit := do
  define name (← instanceOf k class_ kind)

/-- Makes `Object` and gives its members to the root. -/
def makeObject : Routine ObjectId := do
  let roots ← read (·.roots)
  let object ← makeClass objectBlueprint
  fillLevel k objectBlueprint roots.root
  change (·.setType roots.root object)
  return object

def defineAll : Routine Unit := do
  let roots ← read (·.roots)
  [roots.type, roots.method, roots.class_, roots.module_].forM defineName
  let object ← makeObject k
  define "Object" object
  define "Type" roots.type
  define "Class" roots.class_
  define "Method" roots.method
  define "Module" roots.module_
  [plainBlueprint object "Function", plainBlueprint object "Closure", stringBlueprint object,
    numberBlueprint object "Integer", numberBlueprint object "Float",
    plainBlueprint object "Boolean", plainBlueprint object "Nothing"].forM defineClass
  defineValue k "nothing" "Nothing" .nothing
  defineValue k "true" "Boolean" (.boolean true)
  defineValue k "false" "Boolean" (.boolean false)
  define "print" (← makeFunction k (.primitive "print" ["value"] .print))
  note (.builtinsRegistered (← read fun m => (m.store.bindings m.builtins).length))

end Builtin

namespace Machine

open Routine Eval

def prepare (k : Inner) : Routine Unit := do
  Builtin.defineAll k
  let a ← newActivation (← plainObject k) "main" none
  modify (·.push a)

/-- The machine that programs start on. The depth is more than its builtins need. -/
def start : Outcome Unit := prepare (.ofDepth 16) blank

end Machine

end ObjectLang
