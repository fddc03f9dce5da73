import ObjectLang.Code

/-!
Objects, cells and tables as they are stored.
An object is one level of a chain: below it lie the levels of its superclasses, and each level knows
the object whose face it wears. Tables bind names to cells.
-/
namespace ObjectLang

/-- The name of a module, the table of all its bindings, and the table of those it exports. -/
structure ModuleParts where
  name : String
  hidden : TableId
  shown : TableId

inductive Kind where
  | plain
  | type (name : String)
  | ofClass (b : Blueprint)
  | method (owner : ObjectId) (code : Code)
  | function (code : Code)
  | closure (code : Code) (captured : Activation)
  | ofModule (m : ModuleParts)
  /-- Another name for the exports of a module. -/
  | moduleAlias (target : ObjectId) (m : ModuleParts)
  | integer (n : Int64)
  | float (x : Float)
  | string (s : String)
  | boolean (b : Bool)
  | nothing

/-- Names and their cells, the latest binding first. -/
abbrev Bindings := List (String × CellId)

namespace Bindings

def names (b : Bindings) : List String := sortNames (b.map (·.1))

def sorted (b : Bindings) : Bindings := sortBy (·.1 < ·.1) b

end Bindings

structure Object where
  kind : Kind
  /-- The levels below this one, nearest first. -/
  below : List ObjectId
  /-- The object that this level belongs to; before it is set, the level itself. -/
  face : Option ObjectId
  type : Option ObjectId
  fields : Bindings
  operators : Bindings
  members : Bindings

namespace Object

/-- What an identity that was never given out stands for. -/
def vacant : Object := ⟨.plain, [], none, none, [], [], []⟩

def make (kind : Kind) (below : List ObjectId) : Object := ⟨kind, below, none, none, [], [], []⟩

def bindings (o : Object) : Part → Bindings
  | .fields => o.fields
  | .operators => o.operators
  | .members => o.members

def bind (o : Object) (p : Part) (name : String) (c : CellId) : Object :=
  match p with
  | .fields => { o with fields := (name, c) :: o.fields }
  | .operators => { o with operators := (name, c) :: o.operators }
  | .members => { o with members := (name, c) :: o.members }

end Object

/-- Where a binding keeps its value. A computed cell calls its getter and setter, and a view reads
another cell. -/
inductive Cell where
  | var (value : ObjectId)
  | const (value : ObjectId)
  | computed (getter : ObjectId) (setter : Option ObjectId)
  | view (of : CellId)

structure Table where
  bindings : Bindings
  /-- The tables that a failed lookup goes on to, in order. -/
  outer : List TableId
  rule : NameRule

def Table.empty : Table := ⟨[], [], .symbol⟩

end ObjectLang
