import ObjectLang.Proofs.Syntax.Parsing

/-!
Reading a text always ends.
The jobs that reading a program asks for weigh less and less. So there is no way of jobs without an
end, no rule is asked for again where it was asked for before, and each round of a repetition passes
a character.
-/
namespace ObjectLang.Syntax

open Peg Relation

def wholeJob (s : Source) : Job Rule := ⟨reading, .call .program, .ofSource s⟩

/-- A job that comes up while the text is read. -/
def ComesUp (s : Source) : Job Rule → Prop := ReflTransGen (Asks grammar) (wholeJob s)

variable {s : Source} {set set' : Setting} {r : Rule} {a : Pattern Rule} {c d : Cursor}
  {ns : List (Node Rule)}

/-- Each round of a repetition passes a character. -/
theorem ComesUp.round_passes (h : ComesUp s ⟨set, .loop a, c⟩)
    (one : Derives grammar set a c (some (ns, d))) : ∃ w, w ≠ [] ∧ c.Passes w d := by
  have hloop : ranking.advances (.loop a) = true := (ranking_bounds.asked h rfl).1
  simp only [Ranking.advances, Bool.and_eq_true, Bool.not_eq_true'] at hloop
  have hlt := ranking_bounds.length_lt one hloop.2
  obtain ⟨w, hw⟩ := one.passes
  refine ⟨w, ?_, hw⟩
  rintro rfl
  rw [hw.1, List.nil_append] at hlt
  omega

/-- Reading a text as a program is a match or a refusal, whatever fuel above the bound it is given;
no way of its jobs goes on for ever, no rule comes up again before a character is passed, and every
round of a repetition passes one, those of the blanks in a gap included. -/
theorem reading_ends (s : Source) :
    (∃ res, Derives grammar reading (.call .program) (.ofSource s) res ∧
      ∀ n, fuelFor s ≤ n → (grammar.start n .program s).result? = some res) ∧
    (∀ jobs : Nat → Job Rule, jobs 0 = wholeJob s → ¬ ∀ i, Asks grammar (jobs i) (jobs (i + 1))) ∧
    (∀ set r c, ComesUp s ⟨set, .call r, c⟩ → ∀ set' d,
      TransGen (Asks grammar) ⟨set, .call r, c⟩ ⟨set', .call r, d⟩ → ∃ w, w ≠ [] ∧ c.Passes w d) ∧
    (∀ set a c, ComesUp s ⟨set, .loop a, c⟩ → ∀ ns d,
      Derives grammar set a c (some (ns, d)) → ∃ w, w ≠ [] ∧ c.Passes w d) ∧
    ∀ set c, set.weave = .spaced →
      Asks grammar ⟨set, .gap, c⟩ ⟨set, .blanks, c⟩ ∧
      Derives grammar set .gap c (some ([], c.skipGap)) ∧
      Derives grammar set .blanks c (some ([], c.skipGap)) := by
  refine ⟨?_, ?_, ?_, ?_, ?_⟩
  · obtain ⟨res, hres⟩ := ranking_bounds.exists_derives (p := .call .program) rfl reading
      (.ofSource s)
    exact ⟨res, hres, fun n hn => hres.result?_run (start_ne_exhausted hn)⟩
  · intro jobs hstart
    refine ranking_bounds.not_forever ?_
    rw [hstart]
    rfl
  · intro set r c _ set' d hagain
    exact ranking_bounds.call_again hagain
  · intro set a c hup ns d one
    exact hup.round_passes one
  · intro set c hset
    refine ⟨.gap hset, ?_, derives_blanks c⟩
    rw [derives_gap_iff, if_pos hset]

end ObjectLang.Syntax
