import ObjectLang.Proofs.Peg.Derivation
import Mathlib.Logic.Relation

/-!
How much fuel a run needs, and why runs end.
A ranking of the rules tells which of them always pass a character and how deep a rule goes before
it passes one. Where the ranking bounds the grammar, whatever a run asks for weighs less than the
run itself: so no rule is asked for again before a character is passed, and a run does not end for
want of fuel that is in proportion to the text.
-/
namespace ObjectLang.Peg

variable {ρ : Type}

structure Ranking (ρ : Type) where
  /-- Whether every match of the rule passes a character. -/
  eats : ρ → Bool
  /-- How deep the rule goes before a character is passed. -/
  level : ρ → Nat

namespace Ranking

variable (k : Ranking ρ)

def mayBeEmpty : Pattern ρ → Bool
  | .text word => word.isEmpty
  | .letter _ => false
  | .atStart | .atEnd | .gap | .opt _ | .loop _ | .unless _ => true
  | .cat a b => mayBeEmpty a && mayBeEmpty b
  | .alt a b => mayBeEmpty a || mayBeEmpty b
  | .call r => !k.eats r

/-- The depth of a pattern, if each character that is passed pays for `width` steps. -/
def need (width : Nat) : Pattern ρ → Nat
  | .text _ | .letter _ | .atStart | .atEnd => 1
  | .gap => 9
  | .cat a b =>
    1 + max (need width a) (if k.mayBeEmpty a then need width b else need width b - width)
  | .alt a b => 1 + max (need width a) (need width b)
  | .opt a | .loop a | .unless a => 1 + need width a
  | .call r => k.level r

def advances : Pattern ρ → Bool
  | .text _ | .letter _ | .atStart | .atEnd | .gap | .call _ => true
  | .cat a b | .alt a b => advances a && advances b
  | .opt a | .unless a => advances a
  | .loop a => advances a && !k.mayBeEmpty a

structure Bounds (g : Grammar ρ) (width : Nat) : Prop where
  positive : 0 < width
  eats : ∀ r, k.eats r = true → k.mayBeEmpty (g.body r) = false
  level : ∀ r, k.need width (g.body r) < k.level r
  loops : ∀ r, k.advances (g.body r) = true

end Ranking

variable {k : Ranking ρ} {g : Grammar ρ} {width : Nat} {s : Setting} {p : Pattern ρ} {c d : Cursor}
  {ns : List (Node ρ)} {res : Result ρ} {seen : Attempts ρ}

theorem Derives.length_le (h : Derives g s p c (some (ns, d))) : d.rest.length ≤ c.rest.length := by
  obtain ⟨w, hw⟩ := h.passes
  exact hw.length_le

/-- A pattern that may not be empty passes a character. -/
theorem Ranking.Bounds.length_lt (hk : k.Bounds g width) (h : Derives g s p c (some (ns, d)))
    (hp : k.mayBeEmpty p = false) : d.rest.length < c.rest.length := by
  induction h using Derives.match_induction with
  | text hd =>
    refine (Cursor.accept_passes hd).length_lt ?_
    rintro rfl
    cases hp
  | letter hd =>
    obtain ⟨x, -, hx⟩ := Cursor.acceptChar_passes hd
    exact hx.length_lt (List.cons_ne_nil _ _)
  | atStart | atEnd | gap | optSome | optNone | loopStop | loopNext | unlessPassed => cases hp
  | @cat _ a _ _ _ _ _ _ left right ih ih' =>
    have hleft := left.length_le
    have hright := right.length_le
    cases ha : k.mayBeEmpty a with
    | false =>
      have hlt := ih ha
      omega
    | true =>
      simp only [Ranking.mayBeEmpty, ha, Bool.true_and] at hp
      have hlt := ih' hp
      omega
  | altFirst _ ih =>
    simp only [Ranking.mayBeEmpty, Bool.or_eq_false_iff] at hp
    exact ih hp.1
  | altSecond _ _ ih =>
    simp only [Ranking.mayBeEmpty, Bool.or_eq_false_iff] at hp
    exact ih hp.2
  | kept _ _ ih | bare _ _ ih =>
    simp only [Ranking.mayBeEmpty, Bool.not_eq_false'] at hp
    exact ih (hk.eats _ hp)

namespace Pattern

def white : Pattern ρ := alts (lit " ") [lit "\t", lit "\r", lit "\n"]

def remark : Pattern ρ := .loop (.cat (.unless (lit "\n")) (.letter .any))

def comments : Pattern ρ := .loop (.cat (.cat (lit "//") remark) (.loop white))

def blanks : Pattern ρ := .cat (.loop white) comments

end Pattern

section Blanks

variable {x : Char} {rest : List Char} {pos : Position} {e : Cursor}

theorem derives_white (hx : Cursor.isGapChar x = true) :
    Derives g s .white ⟨pos, x :: rest⟩ (some ([], ⟨pos.advance x, rest⟩)) := by
  simp only [Cursor.isGapChar, Bool.or_eq_true, beq_iff_eq, or_assoc] at hx
  obtain rfl | rfl | rfl | rfl := hx
  · exact .altFirst (.text s _ _)
  · exact .altSecond (.text s _ _) (.altFirst (.text s _ _))
  · exact .altSecond (.text s _ _) (.altSecond (.text s _ _) (.altFirst (.text s _ _)))
  · exact .altSecond (.text s _ _) (.altSecond (.text s _ _)
      (.altSecond (.text s _ _) (.text s _ _)))

theorem derives_white_none (hc : ∀ x ∈ c.rest.head?, Cursor.isGapChar x = false) :
    Derives g s .white c none := by
  have hword : ∀ x, Cursor.isGapChar x = true → c.accept [x] = none := by
    intro x hx
    cases hd : c.accept [x] with
    | none => rfl
    | some d =>
      have hrest := (Cursor.accept_passes hd).1
      have hhead : x ∈ c.rest.head? := by
        rw [hrest]
        rfl
      rw [hc x hhead] at hx
      cases hx
  have hlit : ∀ x, Cursor.isGapChar x = true → Derives g s (.text [x]) c none := by
    intro x hx
    rw [derives_text_iff, hword x hx]
    rfl
  exact .altSecond (hlit ' ' rfl) (.altSecond (hlit '\t' rfl)
    (.altSecond (hlit '\r' rfl) (hlit '\n' rfl)))

theorem Derives.cat_loop {a b : Pattern ρ} {ms : List (Node ρ)}
    (one : Derives g s a c (some (ns, d))) (h : Derives g s (.cat (.loop a) b) d (some (ms, e))) :
    Derives g s (.cat (.loop a) b) c (some (ns ++ ms, e)) := by
  cases h with
  | cat left right =>
    rw [← List.append_assoc]
    exact .cat (.loopNext one left) right

theorem Derives.of_cat {a b : Pattern ρ} (h : Derives g s (.cat a b) c (some ([], e))) :
    ∃ d, Derives g s a c (some ([], d)) ∧ Derives g s b d (some ([], e)) := by
  generalize hns : [] = ns at h
  cases h with
  | cat left right =>
    obtain ⟨rfl, rfl⟩ := List.append_eq_nil_iff.mp hns.symm
    exact ⟨_, left, right⟩

/-- A character of a comment. -/
theorem derives_remark (hx : x ≠ '\n') :
    Derives g s (.cat (.unless (.lit "\n")) (.letter .any)) ⟨pos, x :: rest⟩
      (some ([], ⟨pos.advance x, rest⟩)) := by
  have hword : (⟨pos, x :: rest⟩ : Cursor).accept ['\n'] = none := by
    rw [Cursor.accept, if_neg hx]
  refine .cat (.unlessPassed ?_) (.letter s .any _)
  rw [Pattern.lit, derives_text_iff]
  exact (congrArg Result.ofMove hword).symm

theorem derives_remark_stop (hc : ∀ x ∈ c.rest.head?, x = '\n') :
    Derives g s .remark c (some ([], c)) := by
  refine .loopStop ?_
  obtain ⟨pos, _ | ⟨x, rest⟩⟩ := c
  · exact .catHalf (.unlessPassed (.text _ _ _)) (.letter s .any _)
  · obtain rfl : x = '\n' := hc x rfl
    exact .catRefused (.unlessRefused (.text _ _ _))

theorem derives_blanks_stop (hc : ∀ x ∈ c.rest.head?, Cursor.isGapChar x = false)
    (hword : c.accept ['/', '/'] = none) : Derives g s .blanks c (some ([], c)) := by
  refine .cat (.loopStop (derives_white_none hc)) (.loopStop (.catRefused (.catRefused ?_)))
  rw [Pattern.lit, derives_text_iff]
  exact (congrArg Result.ofMove hword).symm

theorem derives_skipFrom (inside : Bool) (pos : Position) (rest : List Char) :
    Derives g s (if inside then .cat .remark .blanks else .blanks) ⟨pos, rest⟩
      (some ([], Cursor.skipFrom inside pos rest)) := by
  fun_induction Cursor.skipFrom inside pos rest with
  | case1 inside pos =>
    have hstop : Derives g s .blanks ⟨pos, []⟩ (some ([], ⟨pos, []⟩)) :=
      derives_blanks_stop (by simp) rfl
    cases inside with
    | false => exact hstop
    | true => exact .cat (derives_remark_stop (by simp)) hstop
  | case2 inside pos rest ih =>
    rw [if_pos rfl] at ih
    cases inside with
    | true =>
      exact .cat_loop (derives_remark (by decide)) (.cat_loop (derives_remark (by decide)) ih)
    | false =>
      have hstop : Derives g s (.loop .white) ⟨pos, '/' :: '/' :: rest⟩ (some ([], _)) :=
        .loopStop (derives_white_none (by simp [Cursor.isGapChar]))
      have hslashes : Derives g s (.lit "//") ⟨pos, '/' :: '/' :: rest⟩ (some ([], _)) :=
        .text s ['/', '/'] _
      obtain ⟨_, hremark, hblanks⟩ := ih.of_cat
      obtain ⟨_, hwhite, hcomments⟩ := hblanks.of_cat
      exact .cat hstop (.loopNext (.cat (.cat hslashes hremark) hwhite) hcomments)
  | case3 pos x rest _ ih =>
    by_cases hx : x = '\n'
    · subst hx
      exact .cat (derives_remark_stop (by simp)) (.cat_loop (derives_white rfl) ih)
    · rw [if_pos (bne_iff_ne.mpr hx)] at ih
      exact .cat_loop (derives_remark hx) ih
  | case4 inside pos x rest _ hinside hx ih =>
    rw [if_neg hinside]
    exact .cat_loop (derives_white hx) ih
  | case5 inside pos x rest hslash hinside hx =>
    rw [if_neg hinside]
    refine derives_blanks_stop (by simpa using hx) ?_
    rw [Cursor.accept]
    split
    · next hx' =>
      cases rest with
      | nil => rfl
      | cons y rest =>
        rw [Cursor.accept, if_neg]
        rintro rfl
        exact hslash rest hx' rfl
    · rfl

/-- What a gap skips is what its blanks match. -/
theorem derives_blanks (c : Cursor) : Derives g s .blanks c (some ([], c.skipGap)) :=
  derives_skipFrom false c.pos c.rest

end Blanks

/-- A pattern to be run at a cursor. -/
structure Job (ρ : Type) where
  setting : Setting
  pattern : Pattern ρ
  start : Cursor

/-- What a run asks for on its way: each part of its pattern where the parts before it end. The
blanks of a gap are asked for as a pattern of their own. -/
inductive Asks (g : Grammar ρ) : Job ρ → Job ρ → Prop
  | gap {s : Setting} {c : Cursor} (hs : s.weave = .spaced) : Asks g ⟨s, .gap, c⟩ ⟨s, .blanks, c⟩
  | catLeft {s : Setting} {a b : Pattern ρ} {c : Cursor} : Asks g ⟨s, .cat a b, c⟩ ⟨s, a, c⟩
  | catRight {s : Setting} {a b : Pattern ρ} {c d : Cursor} {ns : List (Node ρ)}
      (left : Derives g s a c (some (ns, d))) : Asks g ⟨s, .cat a b, c⟩ ⟨s, b, d⟩
  | altLeft {s : Setting} {a b : Pattern ρ} {c : Cursor} : Asks g ⟨s, .alt a b, c⟩ ⟨s, a, c⟩
  | altRight {s : Setting} {a b : Pattern ρ} {c : Cursor} (left : Derives g s a c none) :
      Asks g ⟨s, .alt a b, c⟩ ⟨s, b, c⟩
  | opt {s : Setting} {a : Pattern ρ} {c : Cursor} : Asks g ⟨s, .opt a, c⟩ ⟨s, a, c⟩
  | loop {s : Setting} {a : Pattern ρ} {c : Cursor} : Asks g ⟨s, .loop a, c⟩ ⟨s, a, c⟩
  | loopNext {s : Setting} {a : Pattern ρ} {c d : Cursor} {ns : List (Node ρ)}
      (one : Derives g s a c (some (ns, d))) : Asks g ⟨s, .loop a, c⟩ ⟨s, .loop a, d⟩
  | unless {s : Setting} {a : Pattern ρ} {c : Cursor} :
      Asks g ⟨s, .unless a, c⟩ ⟨{ s with look := s.look.flip }, a, c⟩
  | call {s : Setting} {r : ρ} {c : Cursor} : Asks g ⟨s, .call r, c⟩ ⟨g.inner s r, g.body r, c⟩

/-- A run that is cut short has asked for one that is cut short. -/
theorem Asks.of_exhausted {n : Nat} (h : run g (n + 1) s p c seen = .exhausted) :
    ∃ j seen', Asks g ⟨s, p, c⟩ j ∧ run g n j.setting j.pattern j.start seen' = .exhausted := by
  cases p with
  | text word => cases hmove : c.accept word <;> simp [run, Reply.ofMove, hmove] at h
  | letter l => cases hmove : c.acceptChar l.holds <;> simp [run, Reply.ofMove, hmove] at h
  | atStart | atEnd =>
    rw [run] at h
    split at h <;> cases h
  | gap => cases h
  | cat a b =>
    cases hleft : run g n s a c seen with
    | exhausted => exact ⟨_, _, .catLeft, hleft⟩
    | refused _ => simp [run, hleft] at h
    | matched left mid seen₁ =>
      refine ⟨_, seen₁, .catRight (.of_run (congrArg Reply.result? hleft)), ?_⟩
      cases hright : run g n s b mid seen₁ with
      | exhausted => rfl
      | _ => simp [run, hleft, hright] at h
  | alt a b =>
    cases hleft : run g n s a c seen with
    | exhausted => exact ⟨_, _, .altLeft, hleft⟩
    | refused seen₁ =>
      simp only [run, hleft] at h
      exact ⟨_, seen₁, .altRight (.of_run (congrArg Reply.result? hleft)), h⟩
    | matched => simp [run, hleft] at h
  | opt a =>
    cases hone : run g n s a c seen with
    | exhausted => exact ⟨_, _, .opt, hone⟩
    | _ => simp [run, hone] at h
  | loop a =>
    cases hone : run g n s a c seen with
    | exhausted => exact ⟨_, _, .loop, hone⟩
    | refused _ => simp [run, hone] at h
    | matched left mid seen₁ =>
      refine ⟨_, seen₁, .loopNext (.of_run (congrArg Reply.result? hone)), ?_⟩
      cases hmore : run g n s (.loop a) mid seen₁ with
      | exhausted => rfl
      | _ => simp [run, hone, hmore] at h
  | «unless» a =>
    cases hone : run g n { s with look := s.look.flip } a c seen with
    | exhausted => exact ⟨_, _, .unless, hone⟩
    | _ => simp [run, hone] at h
  | call r =>
    cases hbody : run g n (g.inner s r) (g.body r) c seen with
    | exhausted => exact ⟨_, _, .call, hbody⟩
    | _ => simp [run, hbody, Setting.close] at h

/-- What is asked for starts behind a text that was passed. -/
theorem Asks.leads {j j' : Job ρ} (h : Asks g j j') : j.start.Leads j'.start := by
  cases h with
  | catRight left => exact left.passes
  | loopNext one => exact one.passes
  | _ => exact .refl _

theorem leads_of_asked {j j' : Job ρ} (h : Relation.TransGen (Asks g) j j') :
    j.start.Leads j'.start := by
  induction h with
  | single h => exact h.leads
  | tail _ h ih => exact ih.trans h.leads

/-- How deep a job may still go: each character that is left pays for `width` steps. -/
def Ranking.weight (k : Ranking ρ) (width : Nat) (j : Job ρ) : Nat :=
  width * j.start.rest.length + k.need width j.pattern

theorem Ranking.need_blanks (k : Ranking ρ) (width : Nat) :
    k.need width .blanks < k.need width .gap := by
  have hslashes : "//".toList.isEmpty = false := rfl
  simp only [Pattern.blanks, Pattern.comments, Pattern.white, Pattern.remark, Pattern.lit,
    Pattern.alts, need, mayBeEmpty, hslashes, if_true, Bool.false_and, Bool.false_eq_true, if_false]
  omega

theorem Ranking.advances_blanks (k : Ranking ρ) : k.advances .blanks = true := rfl

variable (hk : k.Bounds g width)

include hk

theorem Ranking.Bounds.need_pos (p : Pattern ρ) : 0 < k.need width p := by
  cases p with
  | call r =>
    have hlevel := hk.level r
    rw [Ranking.need]
    omega
  | _ =>
    rw [Ranking.need]
    omega

/-- A step of a run: what is asked for advances and weighs less. -/
theorem Ranking.Bounds.asks {j j' : Job ρ} (h : Asks g j j') (hj : k.advances j.pattern = true) :
    k.advances j'.pattern = true ∧ k.weight width j' < k.weight width j := by
  cases h with
  | gap =>
    have hneed := k.need_blanks width
    exact ⟨k.advances_blanks, Nat.add_lt_add_left hneed _⟩
  | catLeft | altLeft =>
    simp only [Ranking.advances, Bool.and_eq_true] at hj
    refine ⟨hj.1, ?_⟩
    simp only [Ranking.weight, Ranking.need]
    omega
  | @catRight s a b c d ns left =>
    simp only [Ranking.advances, Bool.and_eq_true] at hj
    refine ⟨hj.2, ?_⟩
    simp only [Ranking.weight, Ranking.need]
    cases hempty : k.mayBeEmpty a with
    | true =>
      have hle := Nat.mul_le_mul_left width left.length_le
      rw [if_pos rfl]
      omega
    | false =>
      -- The character that `a` has passed pays for what `b` needs in excess.
      have hlt := Nat.mul_le_mul_left width (hk.length_lt left hempty)
      rw [Nat.succ_eq_add_one, Nat.mul_add, Nat.mul_one] at hlt
      rw [if_neg Bool.false_ne_true]
      omega
  | altRight =>
    simp only [Ranking.advances, Bool.and_eq_true] at hj
    refine ⟨hj.2, ?_⟩
    simp only [Ranking.weight, Ranking.need]
    omega
  | opt | «unless» =>
    refine ⟨hj, ?_⟩
    simp only [Ranking.weight, Ranking.need]
    omega
  | loop =>
    simp only [Ranking.advances, Bool.and_eq_true] at hj
    refine ⟨hj.1, ?_⟩
    simp only [Ranking.weight, Ranking.need]
    omega
  | loopNext one =>
    refine ⟨hj, Nat.add_lt_add_right ?_ _⟩
    simp only [Ranking.advances, Bool.and_eq_true, Bool.not_eq_true'] at hj
    exact Nat.mul_lt_mul_of_pos_left (hk.length_lt one hj.2) hk.positive
  | @call s r c =>
    refine ⟨hk.loops r, Nat.add_lt_add_left ?_ _⟩
    exact hk.level r

/-- The whole way of a run. -/
theorem Ranking.Bounds.asked {j j' : Job ρ} (h : Relation.ReflTransGen (Asks g) j j')
    (hj : k.advances j.pattern = true) :
    k.advances j'.pattern = true ∧ k.weight width j' ≤ k.weight width j := by
  induction h with
  | refl => exact ⟨hj, Nat.le_refl _⟩
  | tail _ h ih =>
    obtain ⟨hadvances, hlt⟩ := hk.asks h ih.1
    exact ⟨hadvances, Nat.le_trans (Nat.le_of_lt hlt) ih.2⟩

/-- A rule is not asked for again before a character is passed. -/
theorem Ranking.Bounds.call_again {s s' : Setting} {r : ρ}
    (h : Relation.TransGen (Asks g) ⟨s, .call r, c⟩ ⟨s', .call r, d⟩) :
    ∃ w, w ≠ [] ∧ c.Passes w d := by
  obtain ⟨w, hw⟩ : c.Leads d := leads_of_asked h
  refine ⟨w, ?_, hw⟩
  rintro rfl
  obtain ⟨j, hfirst, hrest⟩ := Relation.TransGen.head'_iff.mp h
  obtain ⟨hadvances, hlt⟩ := hk.asks hfirst rfl
  have hle := (hk.asked hrest hadvances).2
  have hrest : c.rest.length = d.rest.length := congrArg List.length hw.1
  simp only [Ranking.weight, hrest] at hlt hle
  omega

/-- There is no way without an end. -/
theorem Ranking.Bounds.not_forever {jobs : Nat → Job ρ} (hj : k.advances (jobs 0).pattern = true) :
    ¬ ∀ i, Asks g (jobs i) (jobs (i + 1)) := by
  intro hasks
  have hweight : ∀ i, k.advances (jobs i).pattern = true ∧
      k.weight width (jobs i) + i ≤ k.weight width (jobs 0) := by
    intro i
    induction i with
    | zero => exact ⟨hj, Nat.le_refl _⟩
    | succ i ih =>
      obtain ⟨hadvances, hlt⟩ := hk.asks (hasks i) ih.1
      refine ⟨hadvances, ?_⟩
      omega
  have hlast := (hweight (k.weight width (jobs 0) + 1)).2
  omega

/-- A run with `width` steps for each character and the need of its pattern is not cut short. -/
theorem Ranking.Bounds.run_ne_exhausted {n : Nat} (hp : k.advances p = true)
    (hn : width * c.rest.length + k.need width p ≤ n) :
    run g n s p c seen ≠ .exhausted := by
  induction n generalizing s p c seen with
  | zero =>
    have hpos := hk.need_pos p
    omega
  | succ n ih =>
    intro hexhausted
    obtain ⟨j, seen', hasks, hj⟩ := Asks.of_exhausted hexhausted
    obtain ⟨hadvances, hlt⟩ := hk.asks hasks hp
    refine ih hadvances ?_ hj
    simp only [Ranking.weight] at hlt
    omega

/-- Every pattern that advances is either matched or refused. -/
theorem Ranking.Bounds.exists_derives (hp : k.advances p = true) (s : Setting) (c : Cursor) :
    ∃ res, Derives g s p c res := by
  have hended : run g (width * c.rest.length + k.need width p) s p c .none ≠ .exhausted :=
    hk.run_ne_exhausted hp (Nat.le_refl _)
  cases hrun : run g (width * c.rest.length + k.need width p) s p c .none with
  | exhausted => exact absurd hrun hended
  | matched ns d _ => exact ⟨some (ns, d), .of_run (by rw [hrun, Reply.result?])⟩
  | refused _ => exact ⟨none, .of_run (by rw [hrun, Reply.result?])⟩

end ObjectLang.Peg
