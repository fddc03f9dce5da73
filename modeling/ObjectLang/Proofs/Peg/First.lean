import ObjectLang.Proofs.Peg.Fuel

/-!
What a match begins with.
Each rule has a list of the characters that a match of it may begin with. A pattern that passes a
character is refused where none of its first characters stands.
-/
namespace ObjectLang.Peg

variable {ρ : Type}

inductive Start where
  | char (x : Char)
  | letter (l : Letter)
deriving DecidableEq

def Start.holds : Start → Char → Bool
  | .char x, y => x == y
  | .letter l, y => l.holds y

def Start.within : Start → Start → Bool
  | .char x, z => z.holds x
  | z, z' => z == z'

theorem Start.holds_of_within {z z' : Start} (h : z.within z' = true) {x : Char}
    (hx : z.holds x = true) : z'.holds x = true := by
  cases z with
  | char y =>
    obtain rfl : y = x := beq_iff_eq.mp hx
    exact h
  | letter l =>
    obtain rfl : Start.letter l = z' := beq_iff_eq.mp h
    exact hx

def Start.blanks : List Start := [.char ' ', .char '\t', .char '\r', .char '\n', .char '/']

def Form.weave : Form → Weave → Weave
  | .plain, w => w
  | .solid, _ => .solid
  | .joined, _ => .joined

theorem Grammar.weave_inner (g : Grammar ρ) (s : Setting) (r : ρ) :
    (g.inner s r).weave = (g.form r).weave s.weave := by
  rw [inner, outer]
  cases g.form r <;> rfl

theorem Grammar.look_inner (g : Grammar ρ) (s : Setting) (r : ρ) : (g.inner s r).look = s.look := by
  rw [inner, outer]
  cases g.form r <;> rfl

namespace Ranking

variable (k : Ranking ρ) (first : ρ → List Start)

def firsts (w : Weave) : Pattern ρ → List Start
  | .text [] | .atStart | .atEnd | .unless _ => []
  | .text (x :: _) => [.char x]
  | .letter l => [.letter l]
  | .gap => if w = .spaced then Start.blanks else []
  | .cat a b => firsts w a ++ if k.mayBeEmpty a then firsts w b else []
  | .alt a b => firsts w a ++ firsts w b
  | .opt a | .loop a => firsts w a
  | .call r => first r

/-- The lists hold what the bodies of the rules may begin with. -/
def Covers (g : Grammar ρ) : Prop :=
  ∀ r w, ∀ z ∈ k.firsts first ((g.form r).weave w) (g.body r), ∃ z' ∈ first r, z.within z' = true

end Ranking

variable {k : Ranking ρ} {first : ρ → List Start} {g : Grammar ρ} {width : Nat} {s : Setting}
  {p : Pattern ρ} {c d : Cursor} {ns : List (Node ρ)} {x : Char} {w : List Char}

theorem skipGap_starts (h : c.Passes (x :: w) c.skipGap) :
    ∃ z ∈ Start.blanks, z.holds x = true := by
  cases hany : Start.blanks.any (·.holds x) with
  | true => exact List.any_eq_true.mp hany
  | false =>
    simp only [Start.blanks, Start.holds, List.any_cons, List.any_nil, Bool.or_false,
      Bool.or_eq_false_iff, beq_eq_false_iff_ne] at hany
    obtain ⟨hspace, htab, hreturn, hfeed, hslash⟩ := hany
    have hblank : Cursor.isGapChar x = false := by
      simp [Cursor.isGapChar, hspace.symm, htab.symm, hreturn.symm, hfeed.symm]
    have hlt := h.length_lt (List.cons_ne_nil x w)
    rw [Cursor.skipGap_eq_self h.1 hblank hslash.symm] at hlt
    omega

/-- A match that passes a text begins with one of the first characters. -/
theorem Ranking.Bounds.starts (hk : k.Bounds g width) (hfirst : k.Covers first g)
    (h : Derives g s p c (some (ns, d))) (hw : c.Passes (x :: w) d) :
    ∃ z ∈ k.firsts first s.weave p, z.holds x = true := by
  induction h using Derives.match_induction generalizing w with
  | text hd =>
    obtain rfl := (Cursor.accept_passes hd).unique hw
    exact ⟨.char x, List.mem_singleton.mpr rfl, beq_self_eq_true x⟩
  | @letter _ l _ _ hd =>
    obtain ⟨y, hy, hpasses⟩ := Cursor.acceptChar_passes hd
    cases hpasses.unique hw
    exact ⟨.letter l, List.mem_singleton.mpr rfl, hy⟩
  | gap =>
    rw [Ranking.firsts]
    split at hw
    · next hs =>
      rw [if_pos hs]
      exact skipGap_starts hw
    · cases (Cursor.Passes.refl _).unique hw
  | @cat _ a _ _ _ _ _ _ left right ih ih' =>
    obtain ⟨v, hv⟩ := left.passes
    obtain ⟨v', hv'⟩ := right.passes
    have happend := (hv.trans hv').unique hw
    rw [Ranking.firsts]
    cases v with
    | nil =>
      obtain rfl : v' = x :: w := happend
      have hempty : k.mayBeEmpty a = true := by
        cases ha : k.mayBeEmpty a with
        | true => rfl
        | false =>
          have hlt := hk.length_lt left ha
          rw [hv.1, List.nil_append] at hlt
          omega
      obtain ⟨z, hz, hx⟩ := ih' hv'
      rw [hempty, if_pos rfl]
      exact ⟨z, List.mem_append_right _ hz, hx⟩
    | cons y v =>
      cases happend
      obtain ⟨z, hz, hx⟩ := ih hv
      exact ⟨z, List.mem_append_left _ hz, hx⟩
  | altFirst _ ih =>
    obtain ⟨z, hz, hx⟩ := ih hw
    exact ⟨z, List.mem_append_left _ hz, hx⟩
  | altSecond _ _ ih =>
    obtain ⟨z, hz, hx⟩ := ih hw
    exact ⟨z, List.mem_append_right _ hz, hx⟩
  | optSome _ ih => exact ih hw
  | atStart | atEnd | optNone | loopStop | unlessPassed => cases (Cursor.Passes.refl _).unique hw
  | loopNext one more ih ih' =>
    obtain ⟨v, hv⟩ := one.passes
    obtain ⟨v', hv'⟩ := more.passes
    have happend := (hv.trans hv').unique hw
    cases v with
    | nil =>
      obtain rfl : v' = x :: w := happend
      exact ih' hv'
    | cons y v =>
      cases happend
      exact ih hv
  | @kept s r _ _ _ _ _ ih | @bare s r _ _ _ _ _ ih =>
    obtain ⟨z, hz, hx⟩ := ih hw
    rw [Grammar.weave_inner] at hz
    obtain ⟨z', hz', hwithin⟩ := hfirst r s.weave z hz
    exact ⟨z', hz', Start.holds_of_within hwithin hx⟩

/-- A pattern is refused where none of its first characters stands. -/
theorem Ranking.Bounds.refused (hk : k.Bounds g width) (hfirst : k.Covers first g)
    (hp : k.advances p = true) (hempty : k.mayBeEmpty p = false)
    (hx : ∀ x ∈ c.rest.head?, ∀ z ∈ k.firsts first s.weave p, z.holds x = false) :
    Derives g s p c none := by
  obtain ⟨res, h⟩ := hk.exists_derives hp s c
  cases res with
  | none => exact h
  | some result =>
    obtain ⟨ns, d⟩ := result
    obtain ⟨w, hw⟩ := h.passes
    cases w with
    | nil =>
      have hlt := hk.length_lt h hempty
      rw [hw.1, List.nil_append] at hlt
      omega
    | cons x w =>
      obtain ⟨z, hz, hholds⟩ := hk.starts hfirst h hw
      have hhead : x ∈ c.rest.head? := by
        rw [hw.1]
        rfl
      rw [hx x hhead z hz] at hholds
      cases hholds

end ObjectLang.Peg
