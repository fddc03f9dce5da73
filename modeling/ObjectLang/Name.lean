/-!
Which names a table takes: plain symbols, operators, or dotted module names.
Letters and digits are those of ASCII.
-/
namespace ObjectLang

inductive NameRule where
  | symbol
  | operator
  | dotted
deriving DecidableEq

namespace NameRule

def operators : List String :=
  ["()", "[]", ".", "+", "-", "*", "/", "+=", "-=", "*=", "/=", "isa"]

def isSymbolStart (c : Char) : Bool := c.isAlpha || c == '_'

def isSymbolChar (c : Char) : Bool := c.isAlphanum || c == '_'

def isSymbol : List Char → Bool
  | [] => false
  | c :: cs => isSymbolStart c && cs.all isSymbolChar

def components : List Char → List (List Char)
  | [] => [[]]
  | c :: cs =>
    if c = '.' then [] :: components cs
    else
      match components cs with
      | first :: rest => (c :: first) :: rest
      | [] => [[c]]

def accepts : NameRule → String → Bool
  | symbol, name => isSymbol name.toList
  | operator, name => operators.contains name
  | dotted, name => (components name.toList).all isSymbol

def noun : NameRule → String
  | symbol => "symbol"
  | operator => "hook"
  | dotted => "module name"

end NameRule

end ObjectLang
