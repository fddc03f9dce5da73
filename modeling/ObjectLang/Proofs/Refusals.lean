import ObjectLang.Proofs.Peg.Failures
import ObjectLang.Proofs.SourceSpans

/-!
Where the grammar refuses a text.
The place of a refusal is not before the end of the last statement that was read, and the rules that
it names were all expected there.
-/
namespace ObjectLang

open Syntax Peg

namespace Syntax

theorem grammar_discreet : grammar.Discreet := by
  have h : ∀ r ∈ Rule.all, ∀ w ∈ [Weave.spaced, .solid, .joined],
      (w = .solid → form r = .solid) → grammar.discreet ((form r).weave w) (body r) = true := by
    decide +kernel
  intro r w
  exact h r r.mem_all w (by cases w <;> decide)

theorem labels_nodup : (Rule.all.map Rule.label).Nodup := by decide +kernel

theorem mismatch_message {rules : List Rule} (h : rules ≠ []) :
    (Cause.mismatch rules []).message = "expected " ++ ruleList rules := by
  cases rules with
  | nil => exact absurd rfl h
  | cons r rest => rfl

/-- A list of statements may be empty, so that it is never refused. -/
theorem statementList_ne_none {c : Cursor} {res : Result Rule}
    (h : Derives grammar reading statementList c res) : res ≠ none := by
  rintro rfl
  cases h with
  | catRefused left => cases left
  | catHalf _ right =>
    rw [derives_gapThen_iff rfl] at right
    cases right

variable {s : Source} {seen : Attempts Rule}

/-- A text is refused behind its statements, where its end was expected. -/
theorem refused_behind_statements (h : matchProgram s = .refused seen) :
    ∃ (seen₁ : Attempts Rule) (ns : List (Node Rule)) (d : Cursor),
      Derives grammar reading statementList (Cursor.ofSource s).skipGap (some (ns, d)) ∧
      seen₁.Placed (.ofSource s) ∧ d.skipGap.pos.offset ≤ seen₁.furthest.offset ∧
      seen = seen₁.record .none reading .program (Cursor.ofSource s).pos := by
  obtain ⟨n, seen₁, hbody, hseen⟩ := refused_of_call h (by decide)
  have hplaced : (run grammar n reading (body .program) (.ofSource s) .none).Leaves
      (Attempts.Placed (.ofSource s)) :=
    run_keeps grammar_discreet (fun _ _ _ _ _ hc hs ha => ha.record hc hs) (.refl _)
      nofun (by decide) ⟨⟨_, .refl _, rfl⟩, rfl, Or.inr rfl⟩
  have hplaced : (Reply.refused seen₁).Leaves (Attempts.Placed (.ofSource s)) := hbody ▸ hplaced
  have hbody : run grammar n reading (.seq .atStart (.seq statementList (.call .endOfInput)))
      (.ofSource s) .none = .refused seen₁ := hbody
  obtain ⟨_ | n₁, hstart | ⟨_, c, _, hstart, hrest⟩⟩ := refused_of_cat hbody
  · cases hstart
  · cases hstart
  · cases hstart
  · cases hstart
    obtain ⟨n₂, hbehind⟩ := refused_of_gapThen rfl hrest
    obtain ⟨n₃, hlist | ⟨ns, d, _, hlist, hend⟩⟩ := refused_of_cat hbehind
    · exact absurd rfl (statementList_ne_none (.of_run (congrArg Reply.result? hlist)))
    obtain ⟨n₄, hend⟩ := refused_of_gapThen rfl hend
    obtain ⟨_, seen₂, -, rfl⟩ := refused_of_call hend (by decide)
    refine ⟨_, ns, d, .of_run (congrArg Reply.result? hlist), hplaced, ?_, hseen⟩
    exact (Attempts.le_record (by decide) (by decide)).1

/-- The place at which the grammar refuses a text is one of its places. -/
theorem refused_at {s : Source} {seen : Attempts Rule} (h : matchProgram s = .refused seen) :
    ∃ pre post, s.text.toList = pre ++ post ∧ seen.furthest = .after pre := by
  obtain ⟨seen₁, ns, d, -, hplaced, -, rfl⟩ := refused_behind_statements h
  obtain ⟨c, ⟨pre, hpre⟩, hfurthest⟩ :=
    (hplaced.record (b := .none) (s := reading) (r := .program) (.refl _) nofun).place
  exact ⟨pre, c.rest, hpre.1, hfurthest.trans (hpre.2.trans (Position.foldl_advance pre))⟩

end Syntax

/-- Each text that the grammar refuses is refused at a place `p` between two characters, which is
not before the place where the list of statements ended. The error names no rule that was not
expected; its message lists the rules that were, at least one, each by its name and once, in the
order of the grammar with the end of the input first. -/
theorem refusals_located {s : Source} {seen : Attempts Rule} (h : matchProgram s = .refused seen) :
    ∃ pre post ns d rules, s.text.toList = pre ++ post ∧
      parse s = .error ⟨.mismatch seen.expected [], .ofPosition (.after pre), s⟩ ∧
      Derives grammar reading statementList (Cursor.ofSource s).skipGap (some (ns, d)) ∧
      d.pos.offset ≤ (Position.after pre).offset ∧ (Position.after pre).offset ≤ s.size ∧
      (∀ r, r ∈ rules ↔ r ∈ seen.expected) ∧ rules ≠ [] ∧ rules.Sublist Rule.all ∧
      (rules.map Rule.label).Nodup ∧ Rule.all.head? = some .endOfInput ∧
      (Cause.mismatch seen.expected []).message =
        "expected " ++ enumerate (rules.map Rule.label) := by
  obtain ⟨pre, post, htext, hpos⟩ := refused_at h
  obtain ⟨seen₁, ns, d, hlist, hplaced, hle, rfl⟩ := refused_behind_statements h
  have hexpected := hplaced.expected_record (b := .none) (s := reading) (r := .program)
    (by decide) (by decide)
  have hafter := (Attempts.le_record (a := seen₁) (b := .none) (s := reading)
    (r := Rule.program) (p := (Cursor.ofSource s).pos) (by decide) (by decide)).2
  have hplaced := hplaced.record (b := .none) (s := reading) (r := .program) (.refl _) nofun
  generalize seen₁.record .none reading .program (Cursor.ofSource s).pos = seen at *
  have hd : d.pos.offset ≤ d.skipGap.pos.offset := Cursor.Leads.offset_le d.skipGap_passes
  refine ⟨pre, post, ns, d, Rule.all.filter (seen.expected.contains ·), htext, ?_, hlist, ?_, ?_,
    ?_, ?_, List.filter_sublist, ?_, rfl, ?_⟩
  · rw [parse, h]
    simp only [hplaced.unexpected, hpos]
  · rw [← hpos]
    omega
  · rw [Source.size, ← byteLength_toList, htext, byteLength_append]
    exact Nat.le_add_right _ _
  · intro r
    simp [r.mem_all]
  · obtain ⟨r, hr⟩ := List.exists_mem_of_ne_nil _ hexpected
    refine List.ne_nil_of_mem (a := r) ?_
    simpa [r.mem_all] using hr
  · exact labels_nodup.sublist (List.filter_sublist.map Rule.label)
  · exact mismatch_message hexpected

section Witness

def refusal? (s : Source) : Option (Position × List Rule) :=
  match matchProgram s with
  | .refused seen => some (seen.furthest, seen.expected)
  | _ => none

theorem refusal?_eq_some {s : Source} {p : Position} {rules : List Rule}
    (h : refusal? s = some (p, rules)) :
    ∃ seen, matchProgram s = .refused seen ∧ seen.furthest = p ∧ seen.expected = rules := by
  unfold refusal? at h
  split at h
  · next seen hmatch =>
    cases h
    exact ⟨seen, hmatch, rfl, rfl⟩
  · cases h

def crowdedSource : Source := .ofText "val s = \"é\"\nval t = s(1 2)"

theorem crowded_check : (refusal? crowdedSource).map (·.map id ruleList) =
    some (⟨2, 13, 25⟩, "add_op, mul_op, call, index, or member") := by decide +kernel

theorem refusals_located_crowded : ∃ seen ns d,
    matchProgram crowdedSource = .refused seen ∧
    parse crowdedSource =
      .error ⟨.mismatch seen.expected [], .ofPosition ⟨2, 13, 25⟩, crowdedSource⟩ ∧
    Derives grammar reading statementList (Cursor.ofSource crowdedSource).skipGap (some (ns, d)) ∧
    d.pos.offset ≤ 25 ∧ (Cause.mismatch seen.expected []).message =
      "expected add_op, mul_op, call, index, or member" := by
  obtain ⟨⟨p, rules⟩, hrefusal, hcheck⟩ := Option.map_eq_some_iff.mp crowded_check
  obtain ⟨seen, hmatch, rfl, rfl⟩ := refusal?_eq_some hrefusal
  obtain ⟨hplace, hrules⟩ := Prod.mk.inj hcheck
  obtain ⟨pre, -, ns, d, rules, -, hparse, hlist, hle, -, hiff, hsome, -⟩ := refusals_located hmatch
  have hpre : Position.after pre = ⟨2, 13, 25⟩ := by
    rw [parse, hmatch] at hparse
    obtain ⟨-, hspan, -⟩ := SyntaxError.mk.inj (Except.error.inj hparse)
    exact (Span.mk.inj hspan).1.symm.trans hplace
  rw [hpre] at hparse hle
  refine ⟨seen, ns, d, hmatch, hparse, hlist, hle, ?_⟩
  have hexpected : seen.expected ≠ [] := by
    obtain ⟨r, hr⟩ := List.exists_mem_of_ne_nil _ hsome
    exact List.ne_nil_of_mem ((hiff r).mp hr)
  rw [mismatch_message hexpected]
  exact congrArg ("expected " ++ ·) hrules

end Witness

end ObjectLang
