import ObjectLang.Proofs.NameRules

/-!
The builder fits the grammar.
What the grammar has matched is built, but for assignments to what is no place and integers beyond
64 bits; the builder's other refusals are for nodes that no match has. Backslashes in literals
always have something behind them, and setters come with getters.
-/
namespace ObjectLang

open Machine Peg

/-- The node is one of the list, or a part of one at some depth. -/
inductive Peg.Node.Within {ρ : Type} (n : Node ρ) : List (Node ρ) → Prop where
  | here {ns : List (Node ρ)} (h : n ∈ ns) : Within n ns
  | part {m : Node ρ} {ns : List (Node ρ)} (hm : m ∈ ns) (h : Within n m.children) : Within n ns

variable {ns : List (Node Rule)} {s : Source} {seen : Attempts Rule} {n : Node Rule} {d : Cursor}
  {m : Misfit}

namespace Syntax

/-- The text of a literal, where a backslash at its end is refused. -/
def unescape? : List Char → Option (List Char)
  | [] => some []
  | ['\\'] => none
  | '\\' :: c :: cs => (unescape? cs).map (unescapeChar c :: ·)
  | c :: cs => (unescape? cs).map (c :: ·)

/-- Text that can stand between quotes does not end with such a backslash. -/
theorem unescape?_of_unbroken {cs : List Char} (h : unbroken cs = true) :
    unescape? cs = some (unescape cs) := by
  fun_induction unbroken cs with
  | case1 => rfl
  | case2 => cases h
  | case3 c cs ih => rw [unescape?, unescape, ih h, Option.map_some]
  | case4 c cs hslash ih =>
    rw [Bool.and_eq_true] at h
    rw [unescape?, unescape, ih h.2, Option.map_some]
    all_goals simp [hslash]

theorem Shaped.within (h : n.Within ns) (hns : ∀ m ∈ ns, Shaped m) : Shaped n := by
  induction h with
  | here h => exact hns n h
  | @part m ns hm _ ih =>
    obtain ⟨r, start, stop, ms⟩ := m
    exact ih (hns _ hm).parts

/-- A string literal is built from its content, which has no backslash left over. -/
theorem Shaped.stringLiteral (h : Shaped n) (hr : n.rule = .string) :
    ∃ text, unescape? ((n.children.head?.map Node.chars).getD []) = some text ∧
      Syntax.stringLiteral n.children = .string (String.ofList text) := by
  obtain ⟨r, start, stop, ns⟩ := n
  obtain rfl : r = .string := hr
  have hshape : ns.map Node.rule = [.stringContent] := h.shape (by decide)
  obtain ⟨content, rfl, hrule⟩ := List.map_eq_singleton_iff.mp hshape
  have hspelt := (h.parts content (List.mem_singleton_self _)).spelt
  rw [hrule] at hspelt
  have hchars : content.text.toList = content.chars := String.toList_ofList
  have hunbroken : unbroken content.chars = true := hchars ▸ hspelt
  exact ⟨_, unescape?_of_unbroken hunbroken, rfl⟩

theorem shaped_of_match (h : matchProgram s = .matched ns d seen) :
    ∀ n ∈ ns, Shaped n := by
  have hderives : Derives grammar reading (.call .program) (.ofSource s) (some (ns, d)) :=
    .of_run (congrArg Reply.result? h)
  exact shaped_of_derives hderives

end Syntax

open Syntax

/-- What a match is built to: a program in which setters come with getters, or one of two errors. -/
theorem parse_of_match (h : matchProgram s = .matched ns d seen) :
    (∃ b, parse s = .ok b ∧ Writes (Statement.mentionsAll b)) ∨
      ∃ span, parse s = .error ⟨.misfit .noPlace, span, s⟩ ∨
        parse s = .error ⟨.misfit .integerRange, span, s⟩ := by
  have hmeets := program_of_match h
  have hparse : parse s = build s ns := by rw [parse, h]
  rw [build] at hparse
  generalize program ns = built at hmeets hparse
  cases hmeets with
  | ok hb => exact Or.inl ⟨_, hparse, hb.writes⟩
  | @refused _ span _ hm _ =>
    refine Or.inr ⟨span, ?_⟩
    rcases hm with rfl | rfl
    · exact Or.inl hparse
    · exact Or.inr hparse

theorem misfit_of_parse {e : SyntaxError} (h : parse s = .error e) (hm : e.cause = .misfit m) :
    m = .noPlace ∨ m = .integerRange := by
  cases hmatch : matchProgram s with
  | refused seen =>
    rw [parse, hmatch] at h
    cases h
    cases hm
  | exhausted => exact absurd hmatch (matchProgram_ne_exhausted s)
  | matched ns d seen =>
    rcases parse_of_match hmatch with ⟨b, hb, -⟩ | ⟨span, hspan | hspan⟩
    · cases hb.symm.trans h
    · cases hspan.symm.trans h
      cases hm
      exact Or.inl rfl
    · cases hspan.symm.trans h
      cases hm
      exact Or.inr rfl

/-- Once the grammar has matched a text, it is built, with a getter for every setter, or refused as
an assignment to no place or as an integer out of range; and in every literal of the match the
backslashes have something behind them. No text is refused by the builder for another reason, and no
program fails because of a setter without a getter. -/
theorem builder_fits :
    (∀ s ns d seen, matchProgram s = .matched ns d seen →
      ((∃ b, parse s = .ok b ∧ ∀ getter setter,
          .property getter setter ∈ Statement.mentionsAll b → setter = true → getter = true) ∨
        ∃ span, parse s = .error ⟨.misfit .noPlace, span, s⟩ ∨
          parse s = .error ⟨.misfit .integerRange, span, s⟩) ∧
      ∀ n : Node Rule, n.Within ns → n.rule = .string →
        ∃ text, unescape? ((n.children.head?.map Node.chars).getD []) = some text ∧
          stringLiteral n.children = .string (String.ofList text)) ∧
    (∀ s e m, parse s = .error e → e.cause = .misfit m → m = .noPlace ∨ m = .integerRange) ∧
    ∀ sources m, After sources m → ∀ d src x,
      (∀ e m', Eval.runSource (.ofDepth d) src m = .failed e m' →
        e.rootCause ≠ .fault (.setterAlone x)) ∧
      ∀ p ∈ (Eval.runSource (.ofDepth d) src).moments m, ∀ st e, p.deed = .leaves st e →
        e.rootCause ≠ .fault (.setterAlone x) := by
  refine ⟨fun s ns d seen hmatch => ⟨?_, fun n hn hr => ?_⟩, fun s e m => misfit_of_parse, ?_⟩
  · refine (parse_of_match hmatch).imp_left ?_
    rintro ⟨b, hb, hwrites⟩
    exact ⟨b, hb, fun getter setter hmem => hwrites _ hmem⟩
  · exact (Shaped.within hn (shaped_of_match hmatch)).stringLiteral hr
  · intro sources m h d src x
    exact h.rootCause_ne d src id

def misfit? (s : Source) : Option Misfit :=
  match parse s with
  | .error ⟨.misfit m, _, _⟩ => some m
  | _ => none

theorem misfit?_eq_some (h : misfit? s = some m) :
    ∃ e, parse s = .error e ∧ e.cause = .misfit m := by
  unfold misfit? at h
  split at h
  · next m' span source hparse =>
    cases h
    exact ⟨_, hparse, rfl⟩
  · cases h

/-- Both refusals occur. -/
theorem builder_fits_refusals :
    (∃ e, parse (.ofText "1=2") = .error e ∧ e.cause = .misfit .noPlace) ∧
    (∃ e, parse (.ofText "9223372036854775808") = .error e ∧ e.cause = .misfit .integerRange) ∧
    ∃ m, misfit? (.ofText "1=2") = some m ∧ (m = .noPlace ∨ m = .integerRange) := by
  have hplace : misfit? (.ofText "1=2") = some .noPlace := by decide +kernel
  have hrange : misfit? (.ofText "9223372036854775808") = some .integerRange := by decide +kernel
  obtain ⟨e, he, hcause⟩ := misfit?_eq_some hplace
  exact ⟨⟨e, he, hcause⟩, misfit?_eq_some hrange, _, hplace,
    builder_fits.2.1 _ e _ he hcause⟩

end ObjectLang
