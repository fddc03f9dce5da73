import ObjectLang.Source

/-!
The record of the furthest failures of a match.
Rules that failed at one place are kept as long as no rule has failed further on; a rule stands for
all that failed inside it at the same place, unless that was a single rule, which is then kept
instead. The rule lists are in the order of failure and may hold a rule twice.
-/
namespace ObjectLang.Peg

/-- Whether blanks are skipped between parts (`spaced`), or not; within `solid` rules failures are
not recorded either. -/
inductive Weave where
  | spaced
  | solid
  | joined
deriving DecidableEq

/-- Whether a pattern is run to be matched, or only to see if it would match. -/
inductive Look where
  | take
  | expect
  | refuse
deriving DecidableEq

def Look.flip : Look → Look
  | .refuse => .expect
  | _ => .refuse

structure Setting where
  look : Look
  weave : Weave
deriving DecidableEq

structure Attempts (ρ : Type) where
  furthest : Position
  expected : List ρ
  unexpected : List ρ

namespace Attempts

variable {ρ : Type}

def none : Attempts ρ := ⟨.start, [], []⟩

def countAt (a : Attempts ρ) (p : Position) : Nat :=
  if p.offset = a.furthest.offset then a.expected.length + a.unexpected.length else 0

/-- Forgets what was recorded at the place `p` after `before`. -/
def cutTo (a before : Attempts ρ) (p : Position) : Attempts ρ :=
  if p.offset = a.furthest.offset then
    if p.offset = before.furthest.offset then
      ⟨a.furthest, a.expected.take before.expected.length,
        a.unexpected.take before.unexpected.length⟩
    else ⟨a.furthest, [], []⟩
  else a

/-- Starts anew at the place `p` if it is further on. -/
def moveTo (a : Attempts ρ) (p : Position) : Attempts ρ :=
  if a.furthest.offset < p.offset then ⟨p, [], []⟩ else a

def insert (a : Attempts ρ) (look : Look) (r : ρ) (p : Position) : Attempts ρ :=
  if p.offset = a.furthest.offset then
    if look = .refuse then { a with unexpected := a.unexpected ++ [r] }
    else { a with expected := a.expected ++ [r] }
  else a

/-- Records the rule `r`, run at `p` when `before` was known; `a` is what its body left. -/
def record (a before : Attempts ρ) (s : Setting) (r : ρ) (p : Position) : Attempts ρ :=
  if s.weave = .solid then a
  else if a.countAt p = before.countAt p + 1 then a
  else ((a.cutTo before p).moveTo p).insert s.look r p

end Attempts

end ObjectLang.Peg
