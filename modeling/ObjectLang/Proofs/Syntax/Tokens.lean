import ObjectLang.Proofs.Syntax.Parsing

/-!
Matching token by token.
Where a text is made of tokens with single spaces between them, a match is told by the tokens before
and behind it. The rules for this are those of derivations, with the blanks left out.
-/
namespace ObjectLang.Syntax

open Peg Pattern

/-- The text of tokens, with single spaces between them. -/
def spaced (ts : List String) : List Char := (" ".intercalate ts).toList

def behind (ts : List String) : List Char := if ts = [] then [] else ' ' :: spaced ts

theorem spaced_cons (t : String) (ts : List String) : spaced (t :: ts) = t.toList ++ behind ts := by
  cases ts with
  | nil => simp [spaced, behind]
  | cons u ts => simp [spaced, behind]

theorem behind_head (ts : List String) : ∀ x ∈ (behind ts).head?, x = ' ' := by
  unfold behind
  split
  · nofun
  · rintro _ ⟨⟩
    rfl

def firm (t : String) : Bool :=
  match t.toList with
  | [] => false
  | c :: cs => !Cursor.isGapChar c && (c != '/' || cs.head? != some '/')

def Ready (ts : List String) : Prop := ∀ t ∈ ts.head?, firm t = true

theorem ready_nil : Ready [] := nofun

variable {t : String}

theorem ready_cons (ht : firm t = true) (ts : List String) : Ready (t :: ts) := by
  rintro _ ⟨⟩
  exact ht

namespace Ready

variable {ts : List String} {c : Cursor}

theorem skipGap_eq (h : Ready ts) (hc : c.rest = spaced ts) : c.skipGap = c := by
  obtain ⟨pos, rest⟩ := c
  have hc : rest = spaced ts := hc
  subst hc
  cases ts with
  | nil => rfl
  | cons t ts =>
    have ht := h t rfl
    rw [spaced_cons]
    unfold firm at ht
    split at ht
    · cases ht
    · next x cs hchars =>
      rw [hchars]
      simp only [Bool.and_eq_true, Bool.not_eq_true', Bool.or_eq_true, bne_iff_ne] at ht
      rw [Cursor.skipGap, List.cons_append, Cursor.skipFrom_cons, if_neg Bool.false_ne_true,
        ht.1, if_neg Bool.false_ne_true]
      rintro rest rfl hcs
      rcases ht.2 with hx | hhead
      · exact hx rfl
      · cases cs with
        | nil =>
          have hblank := behind_head ts '/' (by rw [show behind ts = '/' :: rest from hcs]; rfl)
          cases hblank
        | cons y cs =>
          cases hcs
          exact hhead rfl

/-- The space behind a token is passed. -/
theorem skipGap_rest (h : Ready ts) (hc : c.rest = behind ts) : c.skipGap.rest = spaced ts := by
  obtain ⟨pos, rest⟩ := c
  have hc : rest = behind ts := hc
  subst hc
  unfold behind
  split
  · next hnil =>
    subst hnil
    rfl
  · have hspace : (⟨pos, ' ' :: spaced ts⟩ : Cursor).skipGap =
        (⟨pos.advance ' ', spaced ts⟩ : Cursor).skipGap := by
      rw [Cursor.skipGap, Cursor.skipFrom_cons fun _ heq _ => absurd heq (by decide)]
      rfl
    rw [hspace, h.skipGap_eq rfl]

end Ready

/-- From the tokens `ts` the pattern passes on to `ts'`, with nodes such as `N` tells. If `ts'` can
be read on from, then so can `ts`. -/
def Takes (p : Pattern Rule) (N : List (Node Rule) → Prop) (ts ts' : List String) : Prop :=
  Ready ts' → Ready ts ∧ ∀ c : Cursor, c.rest = spaced ts →
    ∃ ns d, Derives grammar reading p c (some (ns, d)) ∧ N ns ∧ d.skipGap.rest = spaced ts'

def Refuses (p : Pattern Rule) (ts : List String) : Prop :=
  ∀ c : Cursor, c.rest = spaced ts → Derives grammar reading p c none

def Nothing (ns : List (Node Rule)) : Prop := ns = []

/-- There is one node of the rule `r`, whose parts are such as `N` tells. -/
def Single (r : Rule) (N : List (Node Rule) → Prop) (ns : List (Node Rule)) : Prop :=
  ∃ start stop cs, ns = [.mk r start stop cs] ∧ N cs

def Mark (r : Rule) (t : String) (ns : List (Node Rule)) : Prop :=
  ∃ n, ns = [n] ∧ n.rule = r ∧ n.text = t

variable {a b p : Pattern Rule} {N M L : List (Node Rule) → Prop} {ts ts' ts'' : List String}
  {r : Rule}

namespace Takes

theorem mono (h : Takes p N ts ts') (hN : ∀ {ns}, N ns → M ns) : Takes p M ts ts' := by
  intro hts'
  obtain ⟨hts, htake⟩ := h hts'
  refine ⟨hts, fun c hc => ?_⟩
  obtain ⟨ns, d, hone, hns, hd⟩ := htake c hc
  exact ⟨ns, d, hone, hN hns, hd⟩

theorem seq (h : Takes a N ts ts') (h' : Takes b M ts' ts'')
    (hL : ∀ {ns ms}, N ns → M ms → L (ns ++ ms)) : Takes (.seq a b) L ts ts'' := by
  intro hts''
  obtain ⟨hts', hright⟩ := h' hts''
  obtain ⟨hts, hleft⟩ := h hts'
  refine ⟨hts, fun c hc => ?_⟩
  obtain ⟨ns, d, hone, hns, hd⟩ := hleft c hc
  obtain ⟨ms, e, hmore, hms, he⟩ := hright d.skipGap hd
  exact ⟨ns ++ ms, e, .seq rfl hone hmore, hL hns hms, he⟩

/-- What comes first leaves no nodes. -/
theorem muteSeq (h : Takes a Nothing ts ts') (h' : Takes b N ts' ts'') :
    Takes (.seq a b) N ts ts'' := by
  refine h.seq h' ?_
  rintro _ ms rfl hms
  exact hms

/-- What comes last leaves no nodes. -/
theorem seqMute (h : Takes a N ts ts') (h' : Takes b Nothing ts' ts'') :
    Takes (.seq a b) N ts ts'' := by
  refine h.seq h' ?_
  rintro ns _ hns rfl
  rwa [List.append_nil]

theorem alt (h : Takes a N ts ts') : Takes (.alt a b) N ts ts' := by
  intro hts'
  obtain ⟨hts, htake⟩ := h hts'
  refine ⟨hts, fun c hc => ?_⟩
  obtain ⟨ns, d, hone, hrest⟩ := htake c hc
  exact ⟨ns, d, .altFirst hone, hrest⟩

theorem altSecond (h : Refuses a ts) (h' : Takes b N ts ts') : Takes (.alt a b) N ts ts' := by
  intro hts'
  obtain ⟨hts, htake⟩ := h' hts'
  refine ⟨hts, fun c hc => ?_⟩
  obtain ⟨ns, d, hone, hrest⟩ := htake c hc
  exact ⟨ns, d, .altSecond (h c hc) hone, hrest⟩

theorem opt (h : Takes a N ts ts') : Takes (.opt a) N ts ts' := by
  intro hts'
  obtain ⟨hts, htake⟩ := h hts'
  refine ⟨hts, fun c hc => ?_⟩
  obtain ⟨ns, d, hone, hrest⟩ := htake c hc
  exact ⟨ns, d, .optSome hone, hrest⟩

theorem optNone (h : Refuses a ts) : Takes (.opt a) Nothing ts ts := by
  intro hts
  refine ⟨hts, fun c hc => ⟨[], c, .optNone (h c hc), rfl, ?_⟩⟩
  rw [hts.skipGap_eq hc, hc]

theorem manyNone (h : Refuses a ts) : Takes (.many a) Nothing ts ts :=
  optNone fun c hc => .catRefused (h c hc)

theorem many (h : Takes a N ts ts') (h' : Takes (.many a) M ts' ts'')
    (hL : ∀ {ns ms}, N ns → M ms → L (ns ++ ms)) : Takes (.many a) L ts ts'' := by
  intro hts''
  obtain ⟨hts', hright⟩ := h' hts''
  obtain ⟨hts, hleft⟩ := h hts'
  refine ⟨hts, fun c hc => ?_⟩
  obtain ⟨ns, d, hone, hns, hd⟩ := hleft c hc
  obtain ⟨ms, e, hmore, hms, he⟩ := hright d.skipGap hd
  obtain ⟨e', hloop, he'⟩ := hmore.loop_of_many rfl
  exact ⟨ns ++ ms, e', .optSome (.cat hone hloop), hL hns hms, he' ▸ he⟩

/-- A rule that treats blanks as its caller does leaves a node. -/
theorem rule (h : Takes (body r) N ts ts') (hform : form r = .plain) :
    Takes (.call r) (Single r N) ts ts' := by
  intro hts'
  obtain ⟨hts, htake⟩ := h hts'
  refine ⟨hts, fun c hc => ?_⟩
  obtain ⟨ns, d, hone, hns, hd⟩ := htake c hc
  have hinner : grammar.inner reading r = reading := by
    rw [Grammar.inner, Grammar.outer, show grammar.form r = .plain from hform]
    rfl
  refine ⟨[.mk r c d.pos ns], d, .rule (hinner ▸ hone) ?_, ⟨c, d.pos, ns, rfl, hns⟩, hd⟩
  have hkeeps : (grammar.outer reading r).keeps = true := by
    rw [Setting.keeps, Grammar.outer, show grammar.form r = .plain from hform]
    rfl
  simp only [Grammar.wrap, hkeeps, if_true]

/-- A token is passed. -/
theorem token (ht : firm t = true)
    (h : ∀ c d : Cursor, c.Passes t.toList d → (∀ x ∈ d.rest.head?, x = ' ') →
      ∃ ns, Derives grammar reading p c (some (ns, d)) ∧ N ns) : Takes p N (t :: ts) ts := by
  intro hts
  refine ⟨ready_cons ht ts, fun c hc => ?_⟩
  have hpass : c.Passes t.toList ⟨t.toList.foldl Position.advance c.pos, behind ts⟩ :=
    ⟨hc.trans (spaced_cons t ts), rfl⟩
  obtain ⟨ns, hone, hns⟩ := h _ _ hpass (behind_head ts)
  exact ⟨ns, _, hone, hns, hts.skipGap_rest rfl⟩

theorem lit (ht : firm t = true) : Takes (.lit t) Nothing (t :: ts) ts := by
  refine token ht fun c d hpass _ => ⟨[], ?_, rfl⟩
  rw [Pattern.lit, derives_text_iff, hpass.accept]
  rfl

end Takes

namespace Refuses

theorem seq (h : Refuses a ts) : Refuses (.seq a b) ts := fun c hc => .catRefused (h c hc)

theorem seqHalf (h : Takes a N ts ts') (hts' : Ready ts') (h' : Refuses b ts') :
    Refuses (.seq a b) ts := by
  intro c hc
  obtain ⟨-, hleft⟩ := h hts'
  obtain ⟨ns, d, hone, -, hd⟩ := hleft c hc
  exact .seqHalf rfl hone (h' d.skipGap hd)

theorem alt (h : Refuses a ts) (h' : Refuses b ts) : Refuses (.alt a b) ts :=
  fun c hc => .altSecond (h c hc) (h' c hc)

theorem rule (h : Refuses (body r) ts) (hform : form r = .plain) :
    Refuses (.call r) ts := by
  intro c hc
  have hinner : grammar.inner reading r = reading := by
    rw [Grammar.inner, Grammar.outer, show grammar.form r = .plain from hform]
    rfl
  exact .rule (hinner ▸ h c hc) rfl

/-- Another first character stands there. -/
theorem lit {w : String} {x y : Char} (hw : w.toList.head? = some x) (ht : t.toList.head? = some y)
    (hne : y ≠ x) : Refuses (.lit w) (t :: ts) := by
  intro c hc
  obtain ⟨w', hw⟩ := List.head?_eq_some_iff.mp hw
  obtain ⟨t', ht⟩ := List.head?_eq_some_iff.mp ht
  obtain ⟨pos, rest⟩ := c
  have hc : rest = y :: (t' ++ behind ts) := by
    rw [show rest = _ from hc, spaced_cons, ht, List.cons_append]
  rw [Pattern.lit, derives_text_iff, hw, hc, Cursor.accept, if_neg hne]
  rfl

/-- No match begins with the first character of the tokens. -/
theorem ofFirst (hr : ranking.eats r = true)
    (h : ∀ x ∈ (spaced ts).head?, ∀ z ∈ first r, z.holds x = false) : Refuses (.call r) ts :=
  fun _ hc => refused_of_first hr fun x hx => h x (hc ▸ hx)

end Refuses

end ObjectLang.Syntax
