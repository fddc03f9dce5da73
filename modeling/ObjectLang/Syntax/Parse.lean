import ObjectLang.Syntax.Build

/-!
Parsing a program text, and the texts of syntax errors.
A text is refused by the grammar at the place of its furthest failures, or by the builder at the
span that it cannot use. The message shows the lines that the span touches.
-/
namespace ObjectLang.Syntax

open Peg

inductive Cause where
  | mismatch (expected unexpected : List Rule)
  | misfit (m : Misfit)
  /-- The match ran out of fuel. -/
  | unfinished

/-- `a`, `a or b`, `a, b, or c`. -/
def enumerate : List String → String
  | [] => ""
  | [a] => a
  | [a, b] => a ++ " or " ++ b
  | many => ", ".intercalate many.dropLast ++ ", or " ++ many.getLastD ""

def ruleList (rules : List Rule) : String :=
  enumerate ((Rule.all.filter (rules.contains ·)).map Rule.label)

def Cause.message : Cause → String
  | .mismatch [] [] => "unknown parsing error"
  | .mismatch expected [] => "expected " ++ ruleList expected
  | .mismatch [] unexpected => "unexpected " ++ ruleList unexpected
  | .mismatch expected unexpected =>
    "unexpected " ++ ruleList unexpected ++ "; expected " ++ ruleList expected
  | .misfit m => m.message
  | .unfinished => "match did not finish"

end ObjectLang.Syntax

namespace ObjectLang

structure SyntaxError where
  cause : Syntax.Cause
  span : Span
  source : Source

namespace SyntaxError

def detail (e : SyntaxError) : String := e.cause.message

/-- Lines as they are shown; a last line without any text is left out. -/
def shownLines (lines : List (List Char)) : List String :=
  let kept := if lines.getLastD [] = [] then lines.dropLast else lines
  kept.map fun l => "| " ++ String.ofList (Text.trim l) ++ "\n"

def message (e : SyntaxError) : String :=
  let text := (e.source.touched? e.span).getD []
  e.detail ++ "\n" ++ e.source.title ++ ":" ++ toString e.span.start.line ++ ":" ++
    toString e.span.start.column ++ "\n" ++ String.join (shownLines (text.splitOn '\n'))

end SyntaxError

namespace Syntax

open Peg

/-- Enough fuel for a text: no run goes deeper than this many steps between two characters. -/
def fuelFor (s : Source) : Nat := 64 * (s.text.toList.length + 1)

def matchProgram (s : Source) : Reply Rule := grammar.start (fuelFor s) .program s

def build (s : Source) (nodes : List (Node Rule)) : Except SyntaxError Block :=
  match program nodes with
  | .ok b => .ok b
  | .error (m, span) => .error ⟨.misfit m, span, s⟩

end Syntax

def parse (s : Source) : Except SyntaxError Block :=
  match Syntax.matchProgram s with
  | .matched nodes _ _ => Syntax.build s nodes
  | .refused seen =>
    .error ⟨.mismatch seen.expected seen.unexpected, .ofPosition seen.furthest, s⟩
  | .exhausted => .error ⟨.unfinished, .ofPosition .start, s⟩

end ObjectLang
