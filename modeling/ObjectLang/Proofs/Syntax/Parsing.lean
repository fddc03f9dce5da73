import ObjectLang.Proofs.Peg.First
import ObjectLang.Syntax.Parse

/-!
Parsing as derivation.
A text is accepted if and only if the grammar derives a program from it and the builder takes its
nodes; the fuel of a parse never runs out. The statements of a program or a block and the members of
a class are lists whose entries may be divided by semicolons: what such a list matches is told entry
by entry.
-/
namespace ObjectLang

namespace Syntax

open Peg Pattern

abbrev reading : Setting := ⟨.take, .spaced⟩

def ranking : Ranking Rule where
  eats
    | .endOfInput | .program | .stringContent => false
    | _ => true
  level
    | .program => 50
    | .statement => 40
    | .sum => 30
    | .assignment | .product => 28
    | .chain => 26
    | .moduleName => 20
    | .ident => 18
    | .stringContent => 16
    | .keyword => 15
    | .operator => 14
    | .word _ => 4
    | _ => 8

theorem ranking_bounds : ranking.Bounds grammar 64 where
  positive := by decide
  eats r := by
    have h : ∀ r ∈ Rule.all, ranking.eats r = true → ranking.mayBeEmpty (body r) = false := by
      decide +kernel
    exact h r r.mem_all
  level r := by
    have h : ∀ r ∈ Rule.all, ranking.need 64 (body r) < ranking.level r := by decide +kernel
    exact h r r.mem_all
  loops r := by
    have h : ∀ r ∈ Rule.all, ranking.advances (body r) = true := by decide +kernel
    exact h r r.mem_all

def nameStart : List Start := [.letter .alpha, .char '_']

def expressionStart : List Start := [.letter .digit, .char '"', .char '('] ++ nameStart

def first : Rule → List Start
  | .endOfInput => []
  | .program | .stringContent => [.letter .any, .letter .digit, .letter .alpha]
  | .block | .classBody => [.char '\x7b']
  | .statement | .assignment | .sum | .product | .chain => expressionStart
  | .assignOp => [.char '+', .char '-', .char '*', .char '/', .char '=']
  | .parameters | .call | .importOnly => [.char '(']
  | .superclass => [.char ':']
  | .operator =>
    [.char '(', .char '[', .char '+', .char '-', .char '*', .char '/', .char 'i', .char '.']
  | .addOp => [.char '+', .char '-']
  | .mulOp => [.char '*', .char '/']
  | .index => [.char '[']
  | .member => [.char '.']
  | .float | .integer => [.letter .digit]
  | .string => [.char '"']
  | .ident | .moduleName => nameStart
  | _ => [.letter .alpha]

theorem first_covers : ranking.Covers first grammar := by
  have h : ∀ r ∈ Rule.all, ∀ w ∈ [Weave.spaced, .solid, .joined],
      ∀ z ∈ ranking.firsts first ((form r).weave w) (body r), ∃ z' ∈ first r,
      z.within z' = true := by
    decide +kernel
  intro r w
  exact h r r.mem_all w (by cases w <;> decide)

/-- A rule that eats is refused where none of its first characters stands. -/
theorem refused_of_first {s : Setting} {r : Rule} {c : Cursor} (hr : ranking.eats r = true)
    (hx : ∀ x ∈ c.rest.head?, ∀ z ∈ first r, z.holds x = false) :
    Derives grammar s (.call r) c none :=
  ranking_bounds.refused first_covers rfl (by rw [Ranking.mayBeEmpty, hr, Bool.not_true]) hx

theorem start_ne_exhausted {s : Source} {n : Nat} (hn : fuelFor s ≤ n) :
    grammar.start n .program s ≠ .exhausted := by
  apply ranking_bounds.run_ne_exhausted rfl
  have hlevel : ranking.need 64 (.call .program) ≤ 64 := by decide
  have hrest : (Cursor.ofSource s).rest = s.text.toList := rfl
  rw [fuelFor] at hn
  rw [hrest]
  omega

theorem matchProgram_ne_exhausted (s : Source) : matchProgram s ≠ .exhausted :=
  start_ne_exhausted (Nat.le_refl (fuelFor s))

/-- Entries of a list, each matched by `p`, with blanks and semicolons before them. -/
inductive Listed (p : Pattern Rule) : Cursor → List (Node Rule) → Cursor → Prop
  | stop (c : Cursor) : Listed p c [] c
  | divided {c d e : Cursor} {ns : List (Node Rule)} (hsemi : c.skipGap.accept [';'] = some d)
      (rest : Listed p d ns e) : Listed p c ns e
  | entry {c d e : Cursor} {ns ms : List (Node Rule)}
      (one : Derives grammar reading p c.skipGap (some (ns, d))) (rest : Listed p d ms e) :
      Listed p c (ns ++ ms) e

namespace Listed

variable {p : Pattern Rule} {c d e : Cursor} {ns ms : List (Node Rule)}

theorem append (h : Listed p c ns d) (h' : Listed p d ms e) : Listed p c (ns ++ ms) e := by
  induction h with
  | stop => exact h'
  | divided hsemi _ ih => exact .divided hsemi (ih h')
  | entry one _ ih =>
    rw [List.append_assoc]
    exact .entry one (ih h')

/-- A blank before the first entry makes no difference. -/
theorem of_skipGap_eq (h : Listed p c ns d) {c' : Cursor} (hc : c'.skipGap = c.skipGap) :
    ∃ d', Listed p c' ns d' ∧ d'.skipGap = d.skipGap := by
  cases h with
  | stop => exact ⟨c', .stop c', hc⟩
  | divided hsemi rest => exact ⟨d, .divided (hc ▸ hsemi) rest, rfl⟩
  | entry one rest => exact ⟨d, .entry (hc ▸ one) rest, rfl⟩

theorem of_semicolons (h : Derives grammar reading (.loop (.cat .gap (.lit ";"))) c (some (ns, d)))
    (h' : Listed p d ms e) : ns = [] ∧ Listed p c ms e := by
  refine Derives.loop_induction (motive := fun c ns d => Listed p d ms e → ns = [] ∧
    Listed p c ms e)
    (fun c _ h' => ⟨rfl, h'⟩) ?_ h h'
  intro c d _ _ _ one ih h'
  obtain ⟨rfl, hrest⟩ := ih h'
  rw [derives_gapThen_iff rfl, Pattern.lit, derives_text_iff] at one
  obtain ⟨d', hd, hpair⟩ := Option.map_eq_some_iff.mp one.symm
  cases hpair
  exact ⟨rfl, .divided hd hrest⟩

theorem of_separators (h : Derives grammar reading separators c.skipGap (some (ns, d)))
    (h' : Listed p d ms e) : ns = [] ∧ ∃ e', Listed p c ms e' ∧ e'.skipGap = e.skipGap := by
  obtain ⟨d', hloop, hd⟩ := h.loop_of_many rfl
  obtain ⟨e', hrest, he⟩ := h'.of_skipGap_eq hd
  obtain ⟨hns, hlisted⟩ := of_semicolons hloop hrest
  exact ⟨hns, e', hlisted, he⟩

theorem of_entries
    (h : Derives grammar reading (.many (.seq p separators)) c.skipGap (some (ns, d))) :
    ∃ e, Listed p c ns e ∧ e.skipGap = d.skipGap := by
  obtain ⟨d', hloop, hd⟩ := h.loop_of_many rfl
  rw [← hd]
  refine Derives.loop_induction
    (motive := fun c ns d => ∃ e, Listed p c ns e ∧ e.skipGap = d.skipGap)
    (fun c _ => ⟨c, .stop c, rfl⟩) ?_ hloop
  rintro c d e ns ms one ⟨f, hrest, hf⟩
  rw [derives_gapThen_iff rfl] at one
  cases one with
  | cat left right =>
    rw [derives_gapThen_iff rfl] at right
    obtain ⟨rfl, f', hrest, hf'⟩ := of_separators right hrest
    rw [List.append_nil]
    exact ⟨f', .entry left hrest, hf'.trans hf⟩

def Over (p : Pattern Rule) (c : Cursor) : Prop :=
  Derives grammar reading p c.skipGap none ∧ c.skipGap.accept [';'] = none

/-- A list up to its end is what its pattern matches, if entries do not begin with a semicolon. -/
theorem derives (h : Listed p c ns d) (hover : Over p d)
    (hp : ∀ c c' : Cursor, c.accept [';'] = some c' → Derives grammar reading p c none) :
    ∃ e f, Derives grammar reading separators c.skipGap (some ([], e)) ∧
      Derives grammar reading (.many (.seq p separators)) e.skipGap (some (ns, f)) ∧
        f.skipGap = d.skipGap := by
  -- The semicolons are followed round by round; only their last cursor is known up to a blank.
  suffices hloop : ∃ e f,
      Derives grammar reading (.loop (.cat .gap (.lit ";"))) c (some ([], e)) ∧
        Derives grammar reading (.many (.seq p separators)) e.skipGap (some (ns, f)) ∧
          f.skipGap = d.skipGap by
    obtain ⟨e, f, hsemi, hmany, hf⟩ := hloop
    obtain ⟨e', hsep, he⟩ := hsemi.many_of_loop rfl
    exact ⟨e', f, hsep, he ▸ hmany, hf⟩
  have hnone {c : Cursor} (hc : c.skipGap.accept [';'] = none) :
      Derives grammar reading (.loop (.cat .gap (.lit ";"))) c (some ([], c)) := by
    refine .loopStop (.gapThen rfl ?_)
    rw [Pattern.lit, derives_text_iff]
    exact congrArg Result.ofMove hc.symm
  induction h with
  | stop c =>
    refine ⟨c, c.skipGap, hnone hover.2, .optNone (.catRefused (.catRefused hover.1)), ?_⟩
    exact c.skipGap_skipGap
  | @divided c c₁ _ _ hsemi _ ih =>
    obtain ⟨e, f, hloop, hmany, hf⟩ := ih hover
    have hone : Derives grammar reading (.cat .gap (.lit ";")) c (some ([], c₁)) := by
      refine .gapThen rfl ?_
      rw [Pattern.lit, derives_text_iff]
      exact congrArg Result.ofMove hsemi.symm
    exact ⟨e, f, .loopNext hone hloop, hmany, hf⟩
  | @entry c c₁ _ ns ms one _ ih =>
    obtain ⟨e, f, hloop, hmany, hf⟩ := ih hover
    obtain ⟨e', hsep, he⟩ := hloop.many_of_loop rfl
    obtain ⟨f', hmore, hf'⟩ := (he ▸ hmany).loop_of_many rfl
    have hentry := Derives.seq rfl one hsep
    rw [List.append_nil] at hentry
    refine ⟨c, f', hnone ?_, .optSome (.cat hentry hmore), hf'.trans hf⟩
    cases hc : c.skipGap.accept [';'] with
    | none => rfl
    | some c' => cases one.unique (hp _ _ hc)

theorem of_list
    (h : Derives grammar reading (.seq separators (.many (.seq p separators))) c.skipGap
      (some (ns, d))) : ∃ e, Listed p c ns e ∧ e.skipGap = d.skipGap := by
  cases h with
  | cat left right =>
    rw [derives_gapThen_iff rfl] at right
    obtain ⟨e, hentries, he⟩ := of_entries right
    obtain ⟨rfl, e', hlisted, he'⟩ := of_separators left hentries
    exact ⟨e', hlisted, he'.trans he⟩

end Listed

theorem statement_refused_semicolon (c c' : Cursor) (h : c.accept [';'] = some c') :
    Derives grammar reading (.call .statement) c none := by
  refine refused_of_first rfl fun x hx => ?_
  rw [(Cursor.accept_passes h).1] at hx
  cases hx
  decide

/-- At the end of a text a list of statements is over. -/
theorem Listed.over_of_rest_nil {d : Cursor} (h : d.skipGap.rest = []) :
    Listed.Over (.call .statement) d := by
  refine ⟨refused_of_first rfl fun x hx => ?_, ?_⟩
  · rw [h] at hx
    cases hx
  · generalize d.skipGap = d at h
    obtain ⟨pos, rest⟩ := d
    cases h
    rfl

theorem derives_endOfInput_iff {c : Cursor} {res : Result Rule} :
    Derives grammar reading (.call .endOfInput) c res ↔
      res = if c.rest.isEmpty then some ([.mk .endOfInput c c.pos []], c) else none := by
  have hbody : Derives grammar reading (.call .endOfInput) c
      (grammar.wrap reading .endOfInput c (.ofMove (if c.rest.isEmpty then some c else none))) :=
    .call (.atEnd reading c)
  have hwrap : grammar.wrap reading .endOfInput c
      (.ofMove (if c.rest.isEmpty then some c else none)) =
        if c.rest.isEmpty then some ([.mk .endOfInput c c.pos []], c) else none := by
    split <;> rfl
  rw [hwrap] at hbody
  exact ⟨fun h => h.unique hbody, fun h => h ▸ hbody⟩

/-- The node of a program: its statements, and the end of the text. -/
def programNode (c d : Cursor) (ms : List (Node Rule)) : Node Rule :=
  .mk .program c d.pos (ms ++ [.mk .endOfInput d d.pos []])

section Program

variable {c d : Cursor} {ns ms : List (Node Rule)}

/-- A program has matched the statements listed up to the end of the text. -/
theorem listed_of_program (hc : c.pos.offset = 0)
    (h : Derives grammar reading (.call .program) c (some (ns, d))) :
    ∃ ms e, ns = [programNode c d ms] ∧ Listed (.call .statement) c ms e ∧ e.skipGap.rest = [] := by
  rw [derives_call_iff] at h
  obtain ⟨_ | ⟨ms, e⟩, h, hres⟩ := h
  · cases hres
  obtain ⟨rfl, rfl⟩ : ns = [.mk .program c d.pos ms] ∧ d = e := by
    cases hres
    exact ⟨rfl, rfl⟩
  have h : Derives grammar reading
    (.seq .atStart (.seq statementList (.call .endOfInput))) c (some (ms, d)) := h
  cases h with
  | cat start rest =>
    rw [derives_atStart_iff, if_pos hc] at start
    cases start
    rw [derives_gapThen_iff rfl] at rest
    cases rest with
    | cat left right =>
      obtain ⟨e, hlisted, he⟩ := Listed.of_list left
      rw [derives_gapThen_iff rfl, derives_endOfInput_iff] at right
      split at right
      · next hend =>
        cases right
        exact ⟨_, e, rfl, hlisted, by rw [he, List.isEmpty_iff.mp hend]⟩
      · cases right

theorem program_of_listed (hc : c.pos.offset = 0) (h : Listed (.call .statement) c ms d)
    (hd : d.skipGap.rest = []) :
    ∃ e, Derives grammar reading (.call .program) c (some ([programNode c e ms], e)) := by
  obtain ⟨e, f, hsep, hmany, hf⟩ := h.derives (Listed.over_of_rest_nil hd)
    statement_refused_semicolon
  have hend : Derives grammar reading (.call .endOfInput) f.skipGap
      (some ([.mk .endOfInput f.skipGap f.skipGap.pos []], f.skipGap)) := by
    rw [derives_endOfInput_iff, hf, hd]
    rfl
  have hstart : Derives grammar reading .atStart c (some ([], c)) := by
    rw [derives_atStart_iff, if_pos hc]
    rfl
  have hbody := Derives.seq rfl hstart (.seq rfl (.seq rfl hsep hmany) hend)
  exact ⟨f.skipGap, .rule hbody rfl⟩

/-- Behind the statements of a program stands the end of the text, of which nothing is built. -/
theorem program_programNode (c d : Cursor) (ms : List (Node Rule)) :
    program [programNode c d ms] = statements ms := by
  rw [program, programNode, block]
  induction ms with
  | nil => rfl
  | cons n ms ih =>
    rw [List.cons_append, statements, statements, ih]

end Program

end Syntax

open Syntax Peg

theorem parse_eq_ok_iff {s : Source} {b : Block} :
    parse s = .ok b ↔ ∃ ns d, Listed (.call .statement) (.ofSource s) ns d ∧
      d.skipGap.rest = [] ∧ statements ns = .ok b := by
  constructor
  · intro h
    rw [parse] at h
    cases hmatch : matchProgram s with
    | refused seen => simp [hmatch] at h
    | exhausted => simp [hmatch] at h
    | matched ns d seen =>
      have hderives : Derives grammar reading (.call .program) (.ofSource s) (some (ns, d)) :=
        .of_run (congrArg Reply.result? hmatch)
      obtain ⟨ms, e, rfl, hlisted, he⟩ := listed_of_program rfl hderives
      refine ⟨ms, e, hlisted, he, ?_⟩
      simp only [hmatch, build, program_programNode] at h
      cases hbuild : statements ms with
      | ok b' => simpa [hbuild] using h
      | error e => simp [hbuild] at h
  · rintro ⟨ms, d, hlisted, hd, hbuild⟩
    obtain ⟨e, hderives⟩ := program_of_listed rfl hlisted hd
    obtain ⟨seen, hmatch⟩ := Reply.eq_matched
      (hderives.result?_run (matchProgram_ne_exhausted s))
    have hmatch : matchProgram s = .matched _ e seen := hmatch
    simp only [parse, hmatch, build, program_programNode, hbuild]

end ObjectLang
