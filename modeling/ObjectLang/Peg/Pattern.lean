import ObjectLang.Peg.Attempts

/-!
Patterns of a parsing expression grammar: choices are ordered and never reopened, repetitions take
all they can. A grammar gives each rule a pattern and says how the rule treats blanks. Blanks are
skipped by the pattern `gap`, which does nothing inside rules that are not spaced.
-/
namespace ObjectLang.Peg

inductive Letter where
  | digit
  | alpha
  | alphanum
  | any
deriving DecidableEq

/-- Digits and letters are those of ASCII. -/
def Letter.holds : Letter → Char → Bool
  | .digit, c => c.isDigit
  | .alpha, c => c.isAlpha
  | .alphanum, c => c.isAlphanum
  | .any, _ => true

inductive Pattern (ρ : Type) where
  | text (word : List Char)
  | letter (l : Letter)
  | atStart
  | atEnd
  | gap
  | cat (a b : Pattern ρ)
  | alt (a b : Pattern ρ)
  | opt (a : Pattern ρ)
  | loop (a : Pattern ρ)
  | unless (a : Pattern ρ)
  | call (r : ρ)

namespace Pattern

variable {ρ : Type}

def lit (s : String) : Pattern ρ := .text s.toList

def seq (a b : Pattern ρ) : Pattern ρ := .cat a (.cat .gap b)

/-- Any number of `a`, with blanks between them; blanks before a failed one are given back. -/
def many (a : Pattern ρ) : Pattern ρ := .opt (.cat a (.loop (.cat .gap a)))

def many1 (a : Pattern ρ) : Pattern ρ := .seq a (.many a)

def seqs (a : Pattern ρ) : List (Pattern ρ) → Pattern ρ
  | [] => a
  | b :: rest => seq a (seqs b rest)

def alts (a : Pattern ρ) : List (Pattern ρ) → Pattern ρ
  | [] => a
  | b :: rest => alt a (alts b rest)

def sepBy (a : Pattern ρ) (sep : String) : Pattern ρ := .seq a (.many (.seq (.lit sep) a))

end Pattern

/-- How a rule treats blanks: as its caller does, or not at all (`solid`: its parts are no nodes
and leave no trace among the failures; `joined`: they do). -/
inductive Form where
  | plain
  | solid
  | joined
deriving DecidableEq

structure Grammar (ρ : Type) where
  body : ρ → Pattern ρ
  form : ρ → Form

end ObjectLang.Peg
