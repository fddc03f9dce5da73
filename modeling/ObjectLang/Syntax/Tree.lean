import ObjectLang.Source

/-!
Programs as trees.
A statement keeps its span and its text, which messages about its failure show.
-/
namespace ObjectLang

inductive Arith where
  | add
  | sub
  | mul
  | div
deriving DecidableEq

def Arith.symbol : Arith → String
  | .add => "+"
  | .sub => "-"
  | .mul => "*"
  | .div => "/"

def Arith.updateSymbol : Arith → String
  | .add => "+="
  | .sub => "-="
  | .mul => "*="
  | .div => "/="

/-- What an import binds: every exported name, the listed ones, or one name for the module. -/
inductive Binding where
  | everything
  | only (names : List String)
  | under (name : String)

mutual

inductive Expr where
  | integer (value : Int64)
  | float (value : Float)
  | string (value : String)
  | name (name : String)
  | binary (op : Arith) (lhs rhs : Expr)
  | call (callee : Expr) (args : List Expr)
  | index (target : Expr) (args : List Expr)
  | member (target : Expr) (name : String)
  | function (params : List String) (body : List Statement)
  | closure (params : List String) (body : List Statement)

inductive Statement where
  | mk (command : Command) (span : Span) (text : String)

/-- What a statement does. An assignment without an operator is a plain one. -/
inductive Command where
  | val (name : String) (value : Expr)
  | var (name : String) (value : Option Expr)
  | assign (name : String) (op : Option Arith) (value : Expr)
  | assignMember (target : Expr) (name : String) (op : Option Arith) (value : Expr)
  | giveBack (value : Option Expr)
  | function (name : String) (params : List String) (body : List Statement)
  | declareClass (name : String) (superclass : Option Expr) (members : List Member)
  | declareModule (name : String) (body : List Statement)
  | importModule (name : String) (binding : Binding)
  | exportNames (names : List String)
  | evaluate (value : Expr)

inductive Member where
  | val (name : String) (value : Expr)
  | var (name : String) (value : Option Expr)
  | method (name : String) (params : List String) (body : List Statement)
  | operator (symbol : String) (params : List String) (body : List Statement)
  | property (name : String) (getter setter : Option Accessor)

inductive Accessor where
  | mk (params : List String) (body : List Statement)

end

abbrev Block := List Statement

namespace Statement

def command : Statement → Command
  | mk c _ _ => c

def span : Statement → Span
  | mk _ s _ => s

def text : Statement → String
  | mk _ _ t => t

end Statement

end ObjectLang
