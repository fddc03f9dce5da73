import ObjectLang.Store.Heap
import ObjectLang.Store.Object

/-!
The store: all objects, cells and tables.
Identities are given out in order and never taken back. Lookups read the store; the operations that
change it add to it, bind a name, assign a variable cell, or set the face or the type of an object.
-/
namespace ObjectLang

structure Store where
  objects : Heap Object
  cells : Heap Cell
  tables : Heap Table

namespace Store

def empty : Store := ⟨.empty, .empty, .empty⟩

def object (s : Store) (o : ObjectId) : Object := s.objects.getD o.index .vacant

def cell (s : Store) (c : CellId) : Cell := s.cells.getD c.index (.const ⟨0⟩)

def kind (s : Store) (o : ObjectId) : Kind := (s.object o).kind

def base (s : Store) (o : ObjectId) : Option ObjectId := (s.object o).below.head?

def levels (s : Store) (o : ObjectId) : List ObjectId := o :: (s.object o).below

def face (s : Store) (o : ObjectId) : ObjectId := (s.object o).face.getD o

def type (s : Store) (o : ObjectId) : Option ObjectId := (s.object o).type

def bindings (s : Store) : TableId → Bindings
  | .free i => (s.tables.getD i .empty).bindings
  | .part o p => (s.object o).bindings p

/-- The tables that a failed lookup goes on to. Operators and members are inherited along the chain,
fields are not. -/
def outer (s : Store) : TableId → List TableId
  | .free i => (s.tables.getD i .empty).outer
  | .part _ .fields => []
  | .part o p => (s.object o).below.map (.part · p)

def rule (s : Store) : TableId → NameRule
  | .free i => (s.tables.getD i .empty).rule
  | .part _ .operators => .operator
  | .part _ _ => .symbol

/-- The cell that a table itself binds to a name. -/
def local? (s : Store) (t : TableId) (name : String) : Option CellId :=
  (s.bindings t).lookup name

def lookup (s : Store) (t : TableId) (name : String) : Option CellId :=
  (t :: s.outer t).findSome? (s.local? · name)

def lookupIn (s : Store) (ts : List TableId) (name : String) : Option CellId :=
  ts.findSome? (s.lookup · name)

def names (s : Store) (t : TableId) : List String := (s.bindings t).names

def modifyObject (s : Store) (o : ObjectId) (f : Object → Object) : Store :=
  { s with objects := s.objects.modify o.index f }

def newObject (s : Store) (base : Option ObjectId) (kind : Kind) : ObjectId × Store :=
  let below := match base with
    | some b => s.levels b
    | none => []
  (⟨s.objects.size⟩, { s with objects := s.objects.push (.make kind below) })

def newCell (s : Store) (c : Cell) : CellId × Store :=
  (⟨s.cells.size⟩, { s with cells := s.cells.push c })

def newTable (s : Store) (t : Table) : TableId × Store :=
  (.free s.tables.size, { s with tables := s.tables.push t })

def setType (s : Store) (o type : ObjectId) : Store :=
  s.modifyObject o fun x => { x with type := some type }

def setFace (s : Store) (o face : ObjectId) : Store :=
  s.modifyObject o fun x => { x with face := some face }

def wearFace (s : Store) (o : ObjectId) : Store :=
  (s.levels o).foldl (fun s level => s.setFace level o) s

/-- Binds a name without any check. -/
def bind (s : Store) (t : TableId) (name : String) (c : CellId) : Store :=
  match t with
  | .free i =>
    { s with tables := s.tables.modify i fun t => { t with bindings := (name, c) :: t.bindings } }
  | .part o p => s.modifyObject o (·.bind p name c)

/-- Why a table does not take a new name: its rule for names, or else a binding of that name. -/
def refusal? (s : Store) (t : TableId) (name : String) : Option Fault :=
  if !(s.rule t).accepts name then some (.invalidName (s.rule t) name)
  else if (s.local? t name).isSome then some (.nameTaken name)
  else none

/-- Assigns a variable cell; any other cell stays as it is. -/
def assign (s : Store) (c : CellId) (value : ObjectId) : Store :=
  { s with cells := s.cells.modify c.index fun
      | .var _ => .var value
      | other => other }

end Store

end ObjectLang
