import ObjectLang.Peg.Match
import ObjectLang.Syntax.Rule

/-!
The grammar of programs.
Statements may be divided by semicolons and need not be. Words and the end of the text leave nodes
in the tree as all other rules do.
-/
namespace ObjectLang.Syntax

open Peg Pattern

def identChar : Pattern Rule := alt (letter .alphanum) (lit "_")

/-- A word is not the beginning of a longer name. -/
def wordPattern (w : Word) : Pattern Rule := seq (lit w.spelling) (.unless identChar)

def word (w : Word) : Pattern Rule := .call (.word w)

def separators : Pattern Rule := many (lit ";")

def statementList : Pattern Rule :=
  seq separators (many (seq (.call .statement) separators))

def classMember : Pattern Rule :=
  alts (.call .valDecl) [.call .varDecl, .call .methodDecl, .call .propertyDecl,
    .call .operatorDecl]

def arguments : Pattern Rule := opt (sepBy (.call .sum) ",")

def primary : Pattern Rule :=
  alts (.call .float) [.call .integer, .call .string, .call .functionExpr, .call .closureExpr,
    seqs (lit "(") [.call .sum, lit ")"], .call .ident]

def body : Rule → Pattern Rule
  | .endOfInput => atEnd
  | .program => seqs atStart [statementList, .call .endOfInput]
  | .block => seqs (lit "\x7b") [statementList, lit "\x7d"]
  | .statement =>
    alts (.call .moduleDecl) [.call .importStmt, .call .exportStmt, .call .classDecl,
      .call .functionDecl, .call .valDecl, .call .varDecl, .call .returnStmt, .call .assignment,
      .call .sum]
  | .keyword =>
    seq (alts (lit Word.classWord.spelling) (Word.reserved.tail.map fun w => lit w.spelling))
      (.unless identChar)
  | .word w => wordPattern w
  | .ident => seqs (.unless (.call .keyword)) [alt (letter .alpha) (lit "_"), many identChar]
  | .moduleName => seq (.call .ident) (many (seq (lit ".") (.call .ident)))
  | .valDecl => seqs (word .valWord) [.call .ident, lit "=", .call .sum]
  | .varDecl => seqs (word .varWord) [.call .ident, opt (seq (lit "=") (.call .sum))]
  | .returnStmt => seq (word .returnWord) (opt (.call .sum))
  | .assignment => seqs (.call .chain) [.call .assignOp, .call .sum]
  | .assignOp => alts (lit "+=") [lit "-=", lit "*=", lit "/=", lit "="]
  | .parameters => seqs (lit "(") [opt (sepBy (.call .ident) ","), lit ")"]
  | .functionDecl => seqs (word .functionWord) [.call .ident, .call .parameters, .call .block]
  | .classDecl =>
    seqs (word .classWord) [.call .ident, opt (.call .superclass), .call .classBody]
  | .superclass => seq (lit ":") (.call .chain)
  | .classBody =>
    seqs (lit "\x7b") [separators, many (seq classMember separators), lit "\x7d"]
  | .methodDecl => seqs (word .methodWord) [.call .ident, .call .parameters, .call .block]
  | .operatorDecl => seqs (word .operatorWord) [.call .operator, .call .parameters, .call .block]
  | .operator =>
    alts (lit "()") [lit "[]", lit "+=", lit "-=", lit "*=", lit "/=", lit "+", lit "-", lit "*",
      lit "/", lit "isa", lit "."]
  | .propertyDecl =>
    seqs (word .propertyWord) [.call .ident,
      opt (seqs (lit "\x7b") [.call .getter, separators, opt (.call .setter), lit "\x7d"])]
  | .getter => seq (word .getWord) (.call .block)
  | .setter => seqs (word .setWord) [.call .parameters, .call .block]
  | .moduleDecl => seqs (word .moduleWord) [.call .moduleName, .call .block]
  | .exportStmt => seq (word .exportWord) (sepBy (.call .ident) ",")
  | .importStmt =>
    seqs (word .importWord) [.call .moduleName, opt (alt (.call .importAlias) (.call .importOnly))]
  | .importAlias => seq (word .asWord) (.call .ident)
  | .importOnly => seqs (lit "(") [sepBy (.call .ident) ",", lit ")"]
  | .sum => seq (.call .product) (many (seq (.call .addOp) (.call .product)))
  | .addOp => seq (alt (lit "+") (lit "-")) (.unless (lit "="))
  | .product => seq (.call .chain) (many (seq (.call .mulOp) (.call .chain)))
  | .mulOp => seq (alt (lit "*") (lit "/")) (.unless (alt (lit "=") (lit "/")))
  | .chain => seq primary (many (alts (.call .call) [.call .index, .call .member]))
  | .call => seqs (lit "(") [arguments, lit ")"]
  | .index => seqs (lit "[") [arguments, lit "]"]
  | .member => seq (lit ".") (.call .ident)
  | .functionExpr => seqs (word .functionWord) [.call .parameters, .call .block]
  | .closureExpr => seqs (word .closureWord) [.call .parameters, .call .block]
  | .float => seqs (many1 (letter .digit)) [lit ".", many1 (letter .digit)]
  | .integer => many1 (letter .digit)
  | .string => seqs (lit "\"") [.call .stringContent, lit "\""]
  | .stringContent =>
    many (alt (seq (.unless (alt (lit "\"") (lit "\\"))) (letter .any))
      (seq (lit "\\") (letter .any)))

def form : Rule → Form
  | .keyword | .word _ | .ident | .moduleName | .assignOp | .operator | .addOp | .mulOp | .float
  | .integer | .stringContent => .solid
  | .string => .joined
  | _ => .plain

def grammar : Grammar Rule := ⟨body, form⟩

end ObjectLang.Syntax
