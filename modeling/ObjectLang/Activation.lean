import ObjectLang.Store.Id

/-!
Activations: running pieces of code on the call stack.
An activation is a plain value; the tables that it lists are shared.
-/
namespace ObjectLang

/-- Puts an element behind those that are less. -/
def insertBy {α : Type} (less : α → α → Bool) (a : α) : List α → List α
  | [] => [a]
  | b :: rest => if less b a then b :: insertBy less a rest else a :: b :: rest

def sortBy {α : Type} (less : α → α → Bool) (l : List α) : List α := l.foldr (insertBy less) []

def sortNames (names : List String) : List String := sortBy (· < ·) names

structure Activation where
  owner : ObjectId
  name : String
  /-- The open scopes, innermost first. -/
  scopes : List TableId
  /-- The top-level table of the program or module that the code was declared in. -/
  home : TableId
  /-- Texts recorded under keys, such as the names to export. -/
  notes : List (String × String)

namespace Activation

def pushScope (a : Activation) (t : TableId) : Activation := { a with scopes := t :: a.scopes }

def popScope (a : Activation) : Activation := { a with scopes := a.scopes.tail }

def renamed (a : Activation) (name : String) : Activation := { a with name := name }

/-- Where the home table stands among the scopes, counted from the outermost one. -/
def homeIndex? (a : Activation) : Option Nat := a.scopes.reverse.idxOf? a.home

def record (a : Activation) (key text : String) : Activation :=
  if (key, text) ∈ a.notes then a else { a with notes := a.notes ++ [(key, text)] }

def recorded (a : Activation) (key : String) : List String :=
  sortNames ((a.notes.filter (·.1 = key)).map (·.2))

def exportKey : String := "exports"

end Activation

end ObjectLang
