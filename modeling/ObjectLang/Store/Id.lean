/-!
Identities. Objects, cells and tables are told apart by identity and shared by passing it on.
-/
namespace ObjectLang

structure ObjectId where
  index : Nat
deriving DecidableEq

structure CellId where
  index : Nat
deriving DecidableEq

/-- The three tables of an object: its own storage, the operators it answers, and its properties and
methods. -/
inductive Part where
  | fields
  | operators
  | members
deriving DecidableEq

inductive TableId where
  | free (index : Nat)
  | part (owner : ObjectId) (which : Part)
deriving DecidableEq

end ObjectLang
