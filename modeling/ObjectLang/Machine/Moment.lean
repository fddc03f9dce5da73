import ObjectLang.Machine.Basic

/-!
Moments of a run: what the machine is about to do, and the machine as it is just then.
They are there to speak about runs; nothing of them is kept while a program runs.
-/
namespace ObjectLang

inductive Route where
  /-- As a name of the running activation. -/
  | name (n : String)
  | table (t : TableId) (n : String)
  | operator (target : ObjectId) (op : String)
  /-- As a member of `target` that code running as `accessor` sees. -/
  | member (accessor target : ObjectId) (n : String)
  /-- As what another cell is a view of. -/
  | view (c : CellId)

inductive Task where
  /-- To find a builtin. -/
  | builtin (name : String)
  /-- To bind `self` and `super` in a new activation. -/
  | bindSelf
  /-- To bind a name of a module. -/
  | fillModule
  /-- To find an operator of an object. -/
  | operator (op : String)

inductive Deed where
  | evaluates (e : Expr)
  | executes (s : Statement)
  /-- An error is about to leave a statement. -/
  | leaves (s : Statement) (e : Error)
  | reads (via : Route) (c : CellId)
  | writes (via : Route) (c : CellId) (value : ObjectId)
  | captures (a : Activation)
  | instantiates (class_ : ObjectId) (kind : Kind)
  /-- The first value of a field is about to be found. -/
  | initialises (o : ObjectId) (f : FieldPlan)
  /-- A field is about to be bound to its cell. -/
  | fills (o : ObjectId) (name : String) (c : CellId)
  /-- The identity of an object is about to be told. -/
  | identifies (o : ObjectId)
  /-- A task of the machine's own has failed. -/
  | breaks (t : Task) (e : Error)

structure Moment where
  deed : Deed
  machine : Machine

end ObjectLang
