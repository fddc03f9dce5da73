import ObjectLang.Peg.Pattern

/-!
Running a pattern on a text.
A match gives the nodes of the rules it went through, the cursor behind it and the furthest
failures; a refusal gives the failures only, so that a caller goes on from its own cursor. The fuel
bounds the depth of the run, and running out of it is neither a match nor a refusal.
-/
namespace ObjectLang.Peg

inductive Node (ρ : Type) where
  | mk (rule : ρ) (start : Cursor) (stop : Position) (children : List (Node ρ))

namespace Node

variable {ρ : Type}

def rule : Node ρ → ρ
  | mk r _ _ _ => r

def children : Node ρ → List (Node ρ)
  | mk _ _ _ cs => cs

def span : Node ρ → Span
  | mk _ start stop _ => ⟨start.pos, stop⟩

def chars : Node ρ → List Char
  | mk _ start stop _ => start.upTo stop

def text (n : Node ρ) : String := String.ofList n.chars

end Node

inductive Reply (ρ : Type) where
  | matched (nodes : List (Node ρ)) (stop : Cursor) (seen : Attempts ρ)
  | refused (seen : Attempts ρ)
  | exhausted

variable {ρ : Type}

def Reply.ofMove (seen : Attempts ρ) : Option Cursor → Reply ρ
  | some c => .matched [] c seen
  | none => .refused seen

def Grammar.outer (g : Grammar ρ) (s : Setting) (r : ρ) : Setting :=
  if g.form r = .joined then { s with weave := .joined } else s

def Grammar.inner (g : Grammar ρ) (s : Setting) (r : ρ) : Setting :=
  if g.form r = .solid then { s with weave := .solid } else g.outer s r

def Setting.keeps (s : Setting) : Bool := s.look = .take && s.weave != .solid

/-- Closes a run of the rule `r` from `c`: `before` was seen at its start, `reply` is its body's. -/
def Setting.close (s : Setting) (r : ρ) (c : Cursor) (before : Attempts ρ) : Reply ρ → Reply ρ
  | .matched nodes stop seen =>
    .matched (if s.keeps then [.mk r c stop.pos nodes] else nodes) stop
      (if s.look = .refuse then seen.record before s r c.pos else seen)
  | .refused seen =>
    .refused (if s.look = .refuse then seen else seen.record before s r c.pos)
  | .exhausted => .exhausted

def run (g : Grammar ρ) : Nat → Setting → Pattern ρ → Cursor → Attempts ρ → Reply ρ
  | 0, _, _, _, _ => .exhausted
  | _ + 1, _, .text word, c, seen => .ofMove seen (c.accept word)
  | _ + 1, _, .letter l, c, seen => .ofMove seen (c.acceptChar l.holds)
  | _ + 1, _, .atStart, c, seen => .ofMove seen (if c.pos.offset = 0 then some c else none)
  | _ + 1, _, .atEnd, c, seen => .ofMove seen (if c.rest.isEmpty then some c else none)
  | _ + 1, s, .gap, c, seen => .matched [] (if s.weave = .spaced then c.skipGap else c) seen
  | n + 1, s, .cat a b, c, seen =>
    match run g n s a c seen with
    | .matched left mid seen =>
      match run g n s b mid seen with
      | .matched right stop seen => .matched (left ++ right) stop seen
      | reply => reply
    | reply => reply
  | n + 1, s, .alt a b, c, seen =>
    match run g n s a c seen with
    | .refused seen => run g n s b c seen
    | reply => reply
  | n + 1, s, .opt a, c, seen =>
    match run g n s a c seen with
    | .refused seen => .matched [] c seen
    | reply => reply
  | n + 1, s, .loop a, c, seen =>
    match run g n s a c seen with
    | .matched left mid seen =>
      match run g n s (.loop a) mid seen with
      | .matched right stop seen => .matched (left ++ right) stop seen
      | reply => reply
    | .refused seen => .matched [] c seen
    | .exhausted => .exhausted
  | n + 1, s, .unless a, c, seen =>
    match run g n { s with look := s.look.flip } a c seen with
    | .matched _ _ seen => .refused seen
    | .refused seen => .matched [] c seen
    | .exhausted => .exhausted
  | n + 1, s, .call r, c, seen =>
    (g.outer s r).close r c seen (run g n (g.inner s r) (g.body r) c seen)

def Grammar.start (g : Grammar ρ) (fuel : Nat) (r : ρ) (s : Source) : Reply ρ :=
  run g fuel ⟨.take, .spaced⟩ (.call r) (.ofSource s) .none

end ObjectLang.Peg
