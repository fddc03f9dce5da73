import ObjectLang.Store.Capture
import ObjectLang.Store.Describe
import ObjectLang.Text.Quoted

/-!
The machine: the store, the call stack, the tables of builtins and of modules, and what was written
and logged so far.
-/
namespace ObjectLang

/-- The objects that exist before all others. Every type, class, method and module lies on
`root`. -/
structure Roots where
  root : ObjectId
  type : ObjectId
  method : ObjectId
  class_ : ObjectId
  module_ : ObjectId

/-- Where output goes. A broken sink takes nothing and gives the reason. -/
inductive Sink where
  | collecting (lines : List String)
  | broken (reason : String)

def Sink.text : Sink → String
  | collecting lines => String.join lines.reverse
  | broken _ => ""

def Sink.drained : Sink → Sink
  | collecting _ => collecting []
  | broken reason => broken reason

inductive Level where
  | error
  | warn
  | info
  | debug
  | trace
deriving DecidableEq

namespace Level

def label : Level → String
  | error => "ERROR"
  | warn => "WARN"
  | info => "INFO"
  | debug => "DEBUG"
  | trace => "TRACE"

def rank : Level → Nat
  | error => 1
  | warn => 2
  | info => 3
  | debug => 4
  | trace => 5

end Level

inductive Event where
  | pushed (name : String)
  | popped (name : String)
  | classCreated (name : String)
  | builtinsRegistered (count : Nat)
  | executing (title : String)
  | moduleRegistered (name : String) (exports : Nat)

namespace Event

def level : Event → Level
  | pushed _ | popped _ | classCreated _ => .trace
  | builtinsRegistered _ | executing _ | moduleRegistered .. => .debug

/-- The size of the call stack after an event, from its size before. -/
def depthAfter (depth : Nat) : Event → Nat
  | pushed _ => depth + 1
  | popped _ => depth - 1
  | _ => depth

def text (depth : Nat) : Event → String
  | pushed name => "push frame '" ++ name ++ "' (depth " ++ toString depth ++ ")"
  | popped name => "pop frame '" ++ name ++ "' (depth " ++ toString depth ++ ")"
  | classCreated name => "created class '" ++ name ++ "'"
  | builtinsRegistered count => "registered " ++ toString count ++ " builtins"
  | executing title => "executing '" ++ title ++ "'"
  | moduleRegistered name exports =>
    "registered module '" ++ name ++ "' exporting " ++ toString exports ++ " name(s)"

end Event

structure Machine where
  store : Store
  /-- The call stack, the running activation first. -/
  stack : List Activation
  builtins : TableId
  modules : TableId
  roots : Roots
  sink : Sink
  /-- The latest event first, from when the call stack was empty. -/
  log : List Event

namespace Machine

def note (m : Machine) (e : Event) : Machine := { m with log := e :: m.log }

def push (m : Machine) (a : Activation) : Machine :=
  { m with stack := a :: m.stack }.note (.pushed a.name)

def pop (m : Machine) : Machine :=
  match m.stack with
  | a :: rest => { m with stack := rest }.note (.popped a.name)
  | [] => m

def modifyTop (m : Machine) (f : Activation → Activation) : Machine :=
  match m.stack with
  | a :: rest => { m with stack := f a :: rest }
  | [] => m

def runningName (m : Machine) : String := (m.stack.head?.map (·.name)).getD "<runtime>"

/-- The cell that a name denotes for the running activation. -/
def lookup (m : Machine) (name : String) : Option CellId :=
  m.stack.head?.bind fun a => m.store.lookupIn a.scopes name

def drain (m : Machine) : String × Machine := (m.sink.text, { m with sink := m.sink.drained })

def summary (m : Machine) : String :=
  "Runtime \x7b stack: " ++ Text.quotedList (m.stack.reverse.map (·.name)) ++ ", builtins: " ++
    Text.quotedSet (m.store.names m.builtins) ++ ", modules: " ++
    Text.quotedSet (m.store.names m.modules) ++ " \x7d"

end Machine

end ObjectLang
