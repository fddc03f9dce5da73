import ObjectLang.Proofs.Peg.First

/-!
What a run records of its failures.
A record either leaves the failures as they are or ends in the rule that it records, at a place that
is not before the furthest one. What every record keeps, every run keeps. Where rules look ahead
only while nothing is recorded, no rule is ever recorded as unexpected.
-/
namespace ObjectLang.Peg

variable {ρ : Type} {a b seen : Attempts ρ} {s : Setting} {r : ρ} {p : Position} {c c₀ : Cursor}

/-- What a record does: the failures stay as they are if there are some at its place or further on,
or they are now at its place and the rule is the last one that was expected there. -/
theorem Attempts.record_cases (hs : s.weave ≠ .solid) (hlook : s.look ≠ .refuse) :
    (a.record b s r p = a ∧ (p.offset < a.furthest.offset ∨
        p.offset = a.furthest.offset ∧ a.expected ++ a.unexpected ≠ [])) ∨
      ∃ q xs ys, a.record b s r p = ⟨q, xs ++ [r], ys⟩ ∧ (q = p ∨ q = a.furthest) ∧
        q.offset = p.offset ∧ a.furthest.offset ≤ p.offset ∧ ys.Sublist a.unexpected := by
  rw [record, if_neg hs]
  split
  · next hcount =>
    refine Or.inl ⟨rfl, ?_⟩
    rw [countAt] at hcount
    split at hcount
    · next heq =>
      refine Or.inr ⟨heq, fun hnone => ?_⟩
      rw [← List.length_append, hnone] at hcount
      cases hcount
    · omega
  · rcases Nat.lt_trichotomy p.offset a.furthest.offset with hlt | heq | hgt
    · refine Or.inl ⟨?_, Or.inl hlt⟩
      rw [cutTo, if_neg (by omega), moveTo, if_neg (by omega), insert, if_neg (by omega)]
    · obtain ⟨xs, ys, hcut, hys⟩ : ∃ xs ys, a.cutTo b p = ⟨a.furthest, xs, ys⟩ ∧
          ys.Sublist a.unexpected := by
        rw [cutTo, if_pos heq]
        split
        · exact ⟨_, _, rfl, List.take_sublist _ _⟩
        · exact ⟨_, _, rfl, List.nil_sublist _⟩
      refine Or.inr ⟨a.furthest, xs, ys, ?_, Or.inr rfl, heq.symm, by omega, hys⟩
      rw [hcut, moveTo, if_neg (by simp [heq]), insert, if_pos heq, if_neg hlook]
    · refine Or.inr ⟨p, [], [], ?_, Or.inl rfl, rfl, Nat.le_of_lt hgt, List.nil_sublist _⟩
      rw [cutTo, if_neg (by omega), moveTo, if_pos hgt, insert, if_pos rfl, if_neg hlook]

/-- The furthest failure does not come before the place of a record. -/
theorem Attempts.le_record (hs : s.weave ≠ .solid) (hlook : s.look ≠ .refuse) :
    p.offset ≤ (a.record b s r p).furthest.offset ∧
      a.furthest.offset ≤ (a.record b s r p).furthest.offset := by
  obtain ⟨heq, hle⟩ | ⟨q, xs, ys, heq, -, hq, hle, -⟩ :=
    record_cases (a := a) (b := b) (r := r) (p := p) hs hlook
  · rw [heq]
    exact ⟨by omega, Nat.le_refl _⟩
  · rw [heq]
    exact ⟨Nat.le_of_eq hq.symm, Nat.le_trans hle (Nat.le_of_eq hq.symm)⟩

/-- Failures of a text that starts at a cursor: they are at a place in the text, none is of a rule
that was not to match, and there are some unless nothing has been passed. -/
structure Attempts.Placed (c₀ : Cursor) (a : Attempts ρ) : Prop where
  place : ∃ c, c₀.Leads c ∧ a.furthest = c.pos
  unexpected : a.unexpected = []
  expected : a.expected ≠ [] ∨ a.furthest.offset = c₀.pos.offset

theorem Attempts.Placed.record (h : a.Placed c₀) (hc : c₀.Leads c)
    (hs : s.look = .refuse → s.weave = .solid) : (a.record b s r c.pos).Placed c₀ := by
  by_cases hsolid : s.weave = .solid
  · rw [Attempts.record, if_pos hsolid]
    exact h
  obtain ⟨heq, -⟩ | ⟨q, xs, ys, heq, hplace, -, -, hys⟩ :=
    record_cases (a := a) (b := b) (r := r) (p := c.pos) hsolid fun hlook =>
      hsolid (hs hlook)
  · rw [heq]
    exact h
  · rw [heq]
    refine ⟨?_, ?_, Or.inl (by simp)⟩
    · rcases hplace with rfl | rfl
      · exact ⟨c, hc, rfl⟩
      · exact h.place
    · rw [h.unexpected] at hys
      exact List.sublist_nil.mp hys

/-- A record where the text starts leaves some rule to be expected. -/
theorem Attempts.Placed.expected_record (h : a.Placed c₀) (hs : s.weave ≠ .solid)
    (hlook : s.look ≠ .refuse) : (a.record b s r c₀.pos).expected ≠ [] := by
  obtain ⟨heq, hlt | ⟨-, hsome⟩⟩ | ⟨q, xs, ys, heq, -⟩ :=
    record_cases (a := a) (b := b) (r := r) (p := c₀.pos) hs hlook
  · rw [heq]
    exact h.expected.resolve_right (by omega)
  · rw [heq]
    rwa [h.unexpected, List.append_nil] at hsome
  · rw [heq]
    simp

namespace Grammar

variable (g : Grammar ρ)

/-- In the given weave the pattern looks ahead only where nothing is recorded, and from there only
solid rules are called. -/
def discreet (w : Weave) : Pattern ρ → Bool
  | .text _ | .letter _ | .atStart | .atEnd | .gap => true
  | .cat a b | .alt a b => discreet w a && discreet w b
  | .opt a | .loop a => discreet w a
  | .unless a => w == .solid && discreet w a
  | .call r => w != .solid || g.form r == .solid

def Discreet : Prop :=
  ∀ r w, (w = .solid → g.form r = .solid) → g.discreet ((g.form r).weave w) (g.body r) = true

end Grammar

def Reply.Leaves (P : Attempts ρ → Prop) : Reply ρ → Prop
  | .matched _ _ seen | .refused seen => P seen
  | .exhausted => True

variable {g : Grammar ρ} {P : Attempts ρ → Prop} {n : Nat}

theorem Setting.close_leaves {reply : Reply ρ} (h : reply.Leaves P)
    (hP : ∀ a, P a → P (a.record b s r c.pos)) : (s.close r c b reply).Leaves P := by
  cases reply with
  | exhausted => trivial
  | matched ns d seen =>
    rw [close, Reply.Leaves]
    split
    · exact hP seen h
    · exact h
  | refused seen =>
    rw [close, Reply.Leaves]
    split
    · exact h
    · exact hP seen h

/-- What every record keeps, every run keeps. -/
theorem run_keeps (hg : g.Discreet)
    (hP : ∀ a b s r c, c₀.Leads c → (s.look = .refuse → s.weave = .solid) → P a →
      P (a.record b s r c.pos))
    {p : Pattern ρ} (hc : c₀.Leads c) (hs : s.look = .refuse → s.weave = .solid)
    (hp : g.discreet s.weave p = true) (hseen : P seen) : (run g n s p c seen).Leaves P := by
  have hmid {n s p c d ns} {seen seen' : Attempts ρ} (hc : c₀.Leads c)
      (hrun : run g n s p c seen = .matched ns d seen') : c₀.Leads d :=
    hc.trans (Derives.of_run (congrArg Reply.result? hrun)).passes
  fun_induction run g n s p c seen with
  | case1 => trivial
  | case2 | case3 | case4 | case5 =>
    rw [Reply.ofMove.eq_def]
    split <;> exact hseen
  | case6 => exact hseen
  | case7 _ _ _ _ _ _ _ _ _ hleft _ _ _ hright ih ih' =>
    rw [Grammar.discreet, Bool.and_eq_true] at hp
    rw [hleft] at ih
    rw [hright] at ih'
    exact ih' (hmid hc hleft) hs hp.2 (ih hc hs hp.1 hseen)
  | case8 _ _ _ _ _ _ _ _ _ hleft _ ih ih' =>
    rw [Grammar.discreet, Bool.and_eq_true] at hp
    rw [hleft] at ih
    exact ih' (hmid hc hleft) hs hp.2 (ih hc hs hp.1 hseen)
  | case9 _ _ _ _ _ _ _ ih | case11 _ _ _ _ _ _ _ ih =>
    rw [Grammar.discreet, Bool.and_eq_true] at hp
    exact ih hc hs hp.1 hseen
  | case10 _ _ _ _ _ _ _ hleft ih ih' =>
    rw [Grammar.discreet, Bool.and_eq_true] at hp
    rw [hleft] at ih
    exact ih' hc hs hp.2 (ih hc hs hp.1 hseen)
  | case12 _ _ _ _ _ _ hone ih | case16 _ _ _ _ _ _ hone ih =>
    rw [hone] at ih
    exact ih hc hs hp hseen
  | case13 _ _ _ _ _ _ ih => exact ih hc hs hp hseen
  | case14 _ _ _ _ _ _ _ _ hone _ _ _ hmore ih ih' =>
    rw [hone] at ih
    rw [hmore] at ih'
    exact ih' (hmid hc hone) hs hp (ih hc hs hp hseen)
  | case15 _ _ _ _ _ _ _ _ hone _ ih ih' =>
    rw [hone] at ih
    exact ih' (hmid hc hone) hs hp (ih hc hs hp hseen)
  | case17 | case20 => trivial
  | case18 _ _ _ _ _ _ _ _ hone ih | case19 _ _ _ _ _ _ hone ih =>
    rw [Grammar.discreet, Bool.and_eq_true, beq_iff_eq] at hp
    rw [hone] at ih
    exact ih hc (fun _ => hp.1) hp.2 hseen
  | case21 _ s r _ _ ih =>
    simp only [Grammar.discreet, Bool.or_eq_true, bne_iff_ne, beq_iff_eq] at hp
    have hform : s.weave = .solid → g.form r = .solid := hp.neg_resolve_left
    refine Setting.close_leaves (ih hc ?_ ?_ hseen) fun a ha => hP a _ _ r _ hc ?_ ha
    · rw [Grammar.look_inner, Grammar.weave_inner]
      intro hlook
      rw [hform (hs hlook)]
      rfl
    · rw [Grammar.weave_inner]
      exact hg r s.weave hform
    · intro hlook
      rw [Grammar.outer] at hlook ⊢
      split at hlook
      · next hjoined =>
        rw [hform (hs hlook)] at hjoined
        cases hjoined
      · next hjoined =>
        rw [if_neg hjoined]
        exact hs hlook

section Refused

variable {b b' : Pattern ρ} {seen' : Attempts ρ}

theorem refused_of_cat (h : run g n s (.cat b b') c seen = .refused seen') :
    ∃ m, run g m s b c seen = .refused seen' ∨ ∃ ns d seen₁,
      run g m s b c seen = .matched ns d seen₁ ∧ run g m s b' d seen₁ = .refused seen' := by
  obtain _ | n := n
  · cases h
  refine ⟨n, ?_⟩
  cases hleft : run g n s b c seen with
  | exhausted => simp [run, hleft] at h
  | refused _ => exact Or.inl (by simpa [run, hleft] using h)
  | matched ns d seen₁ =>
    refine Or.inr ⟨ns, d, seen₁, rfl, ?_⟩
    simp only [run, hleft] at h
    split at h
    · cases h
    · exact h

theorem refused_of_gapThen (hs : s.weave = .spaced)
    (h : run g n s (.cat .gap b) c seen = .refused seen') :
    ∃ m, run g m s b c.skipGap seen = .refused seen' := by
  obtain ⟨_ | m, hgap | ⟨ns, d, seen₁, hgap, hrest⟩⟩ := refused_of_cat h
  · cases hgap
  · cases hgap
  · cases hgap
  · rw [run, if_pos hs] at hgap
    cases hgap
    exact ⟨m + 1, hrest⟩

/-- A rule that is refused is recorded. -/
theorem refused_of_call (h : run g n s (.call r) c seen = .refused seen')
    (hlook : (g.outer s r).look ≠ .refuse) :
    ∃ m seen₁, run g m (g.inner s r) (g.body r) c seen = .refused seen₁ ∧
      seen' = seen₁.record seen (g.outer s r) r c.pos := by
  obtain _ | n := n
  · cases h
  cases hbody : run g n (g.inner s r) (g.body r) c seen with
  | refused seen₁ =>
    simp only [run, hbody, Setting.close, if_neg hlook] at h
    cases h
    exact ⟨n, seen₁, hbody, rfl⟩
  | _ => simp [run, hbody, Setting.close] at h

end Refused

end ObjectLang.Peg
