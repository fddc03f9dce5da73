import ObjectLang.Store.Basic

/-!
Copies of tables that later assignments do not reach.
A variable cell is copied with the value that it has; every other cell is shared, so that a view
goes on showing the cell that it is a view of.
-/
namespace ObjectLang.Store

def captureCell (s : Store) (c : CellId) : CellId × Store :=
  match s.cell c with
  | .var value => s.newCell (.var value)
  | _ => (c, s)

def captureBindings (s : Store) : Bindings → Bindings × Store
  | [] => ([], s)
  | (name, c) :: rest =>
    let (copy, s) := s.captureCell c
    let (copies, s) := s.captureBindings rest
    ((name, copy) :: copies, s)

/-- Copies a table and the tables that it goes on to, and gives the copies in the same order. -/
def captureLine (s : Store) : List TableId → List TableId × Store
  | [] => ([], s)
  | t :: outer =>
    let (outerCopies, s) := s.captureLine outer
    let (bindings, s) := s.captureBindings (s.bindings t)
    let (copy, s) := s.newTable ⟨bindings, outerCopies, s.rule t⟩
    (copy :: outerCopies, s)

def captureTable (s : Store) (t : TableId) : TableId × Store :=
  let (copies, s) := s.captureLine (t :: s.outer t)
  (copies.headD t, s)

def captureTables (s : Store) : List TableId → List TableId × Store
  | [] => ([], s)
  | t :: rest =>
    let (copy, s) := s.captureTable t
    let (copies, s) := s.captureTables rest
    (copy :: copies, s)

def copyOf? (home : TableId) (scopes copies : List TableId) : Option TableId :=
  (scopes.zip copies).reverse.lookup home

def captureActivation (s : Store) (a : Activation) : Activation × Store :=
  let (scopes, s) := s.captureTables a.scopes
  match copyOf? a.home a.scopes scopes with
  | some home => ({ a with scopes := scopes, home := home }, s)
  | none =>
    let (home, s) := s.captureTable a.home
    ({ a with scopes := scopes, home := home }, s)

end ObjectLang.Store
