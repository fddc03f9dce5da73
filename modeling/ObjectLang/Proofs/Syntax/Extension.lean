import ObjectLang.Proofs.Syntax.Lexis
import ObjectLang.Proofs.Syntax.Shapes

/-!
Matches in a longer text.
A match made in a text that closes is made again if a line feed and a semicolon follow the text, and
what is refused is refused again; the nodes differ by the line feed at most, which a trailing gap
may take in. The same holds if nothing follows and the text only stands at another place.
-/
namespace ObjectLang.Syntax

open Peg Pattern

/-- What follows the text `rest` in the longer one. With `some v` a line feed, a semicolon and `v`
follow a text; the line feed is left out once the text has been passed. -/
inductive Tail : Option (List Char) → List Char → List Char → Prop
  | nothing (rest : List Char) : Tail none rest []
  | within (v rest : List Char) : Tail (some v) rest ('\n' :: ';' :: v)
  | past (v : List Char) : Tail (some v) [] (';' :: v)

/-- The second cursor stands in the longer text where the first stands in the shorter one. -/
def Abreast (v : Option (List Char)) (c c' : Cursor) : Prop :=
  ∃ ext, Tail v c.rest ext ∧ c'.rest = c.rest ++ ext

def Parallel (N : List (Node Rule) → List (Node Rule) → Prop) (R : Cursor → Cursor → Prop) :
    Result Rule → Result Rule → Prop :=
  Option.Rel fun x y => N x.1 y.1 ∧ R x.2 y.2

theorem Parallel.ofMove {N : List (Node Rule) → List (Node Rule) → Prop}
    {R : Cursor → Cursor → Prop} (hN : N [] []) {d d' : Option Cursor} (h : Option.Rel R d d') :
    Parallel N R (.ofMove d) (.ofMove d') := by
  cases h with
  | none => exact .none
  | some h => exact .some ⟨hN, h⟩

theorem Tail.head {v : Option (List Char)} {rest ext : List Char} (h : Tail v rest ext) :
    ∀ x ∈ ext.head?, x = '\n' ∨ x = ';' := by
  cases h with
  | nothing => nofun
  | within =>
    rintro _ ⟨⟩
    exact Or.inl rfl
  | past =>
    rintro _ ⟨⟩
    exact Or.inr rfl

section Moves

variable {c c' : Cursor} {ext : List Char}

/-- A word that does not hold the first character of what follows is found in both texts or in
neither. -/
theorem accept_extended (hc : c'.rest = c.rest ++ ext) {word : List Char}
    (hword : ∀ x ∈ ext.head?, x ∉ word) :
    Option.Rel (fun d d' => d'.rest = d.rest ++ ext) (c.accept word) (c'.accept word) := by
  induction word generalizing c c' with
  | nil => exact .some hc
  | cons w word ih =>
    obtain ⟨pos, rest⟩ := c
    obtain ⟨pos', rest'⟩ := c'
    have hc : rest' = rest ++ ext := hc
    subst hc
    cases rest with
    | nil =>
      cases ext with
      | nil => exact .none
      | cons x ext =>
        have hne : x ≠ w := fun h => hword x rfl (h ▸ List.mem_cons_self ..)
        rw [List.nil_append, Cursor.accept, Cursor.accept, if_neg hne]
        exact .none
    | cons x rest =>
      rw [List.cons_append, Cursor.accept, Cursor.accept]
      split
      · exact ih rfl fun y hy hmem => hword y hy (List.mem_cons_of_mem _ hmem)
      · exact .none

theorem acceptChar_extended (hc : c'.rest = c.rest ++ ext) {p : Char → Bool}
    (hp : ∀ x ∈ ext.head?, p x = false) :
    Option.Rel (fun d d' => d'.rest = d.rest ++ ext) (c.acceptChar p) (c'.acceptChar p) := by
  obtain ⟨pos, rest⟩ := c
  obtain ⟨pos', rest'⟩ := c'
  have hc : rest' = rest ++ ext := hc
  subst hc
  cases rest with
  | nil =>
    cases ext with
    | nil => exact .none
    | cons x ext =>
      rw [List.nil_append, Cursor.acceptChar, Cursor.acceptChar, hp x rfl,
        if_neg Bool.false_ne_true]
      exact .none
  | cons x rest =>
    rw [List.cons_append, Cursor.acceptChar, Cursor.acceptChar]
    split
    · exact .some rfl
    · exact .none

/-- A gap at the end of the text goes on over what is added. -/
theorem skipFrom_append {ext out : List Char} (hext : ∀ cs, ext ≠ '/' :: cs)
    (hout : ∀ inside pos, (Cursor.skipFrom inside pos ext).rest = out) (inside : Bool)
    (pos pos' : Position) (rest : List Char) : (Cursor.skipFrom inside pos' (rest ++ ext)).rest =
      if (Cursor.skipFrom inside pos rest).rest = [] then out
      else (Cursor.skipFrom inside pos rest).rest ++ ext := by
  have hnext {x : Char} {rest : List Char} (h : ∀ cs, x = '/' → rest = '/' :: cs → False) :
      ∀ cs, x = '/' → rest ++ ext = '/' :: cs → False := by
    intro cs hx heq
    cases rest with
    | nil => exact hext cs heq
    | cons y rest =>
      cases heq
      exact h rest hx rfl
  fun_induction Cursor.skipFrom inside pos rest generalizing pos' with
  | case1 inside pos => exact hout inside pos'
  | case2 inside pos rest ih => exact ih _
  | case3 pos x rest hslash ih =>
    rw [List.cons_append, Cursor.skipFrom_cons (hnext hslash), if_pos rfl]
    exact ih _
  | case4 inside pos x rest hslash hinside hblank ih =>
    rw [List.cons_append, Cursor.skipFrom_cons (hnext hslash), if_neg hinside, if_pos hblank]
    exact ih _
  | case5 inside pos x rest hslash hinside hblank =>
    rw [List.cons_append, Cursor.skipFrom_cons (hnext hslash), if_neg hinside, if_neg hblank]
    rfl

/-- A gap at the end goes on over a line feed. -/
theorem skipFrom_extended (v : List Char) (inside : Bool) (pos pos' : Position) (rest : List Char) :
    (Cursor.skipFrom inside pos' (rest ++ '\n' :: ';' :: v)).rest =
      if (Cursor.skipFrom inside pos rest).rest = [] then ';' :: v
      else (Cursor.skipFrom inside pos rest).rest ++ '\n' :: ';' :: v :=
  skipFrom_append (by simp) (by rintro (_ | _) _ <;> rfl) inside pos pos' rest

theorem skipFrom_moved (inside : Bool) (pos pos' : Position) (rest : List Char) :
    (Cursor.skipFrom inside pos' rest).rest = (Cursor.skipFrom inside pos rest).rest := by
  have h := skipFrom_append (nofun : ∀ cs, [] ≠ '/' :: cs) (fun _ _ => rfl) inside pos pos' rest
  split at h <;> simp_all

end Moves

namespace Abreast

variable {v : Option (List Char)} {c c' d d' : Cursor}

theorem skipGap (h : Abreast v c c') : Abreast v c.skipGap c'.skipGap := by
  obtain ⟨pos, rest⟩ := c
  obtain ⟨pos', rest'⟩ := c'
  obtain ⟨ext, htail, hc⟩ := h
  have hc : rest' = rest ++ ext := hc
  subst hc
  cases htail with
  | nothing =>
    refine ⟨[], .nothing _, ?_⟩
    rw [List.append_nil, List.append_nil]
    exact skipFrom_moved false pos pos' rest
  | within v =>
    have hskip := skipFrom_extended v false pos pos' rest
    split at hskip
    · next hnil =>
      exact ⟨';' :: v, hnil ▸ .past v, by rw [Cursor.skipGap, hskip, Cursor.skipGap, hnil]; rfl⟩
    · exact ⟨_, .within v _, hskip⟩
  | past v => exact ⟨';' :: v, .past v, rfl⟩

/-- At the end of the shorter text a gap leads to the semicolon. -/
theorem rest_skipGap {v : List Char} (h : Abreast (some v) c c') (hc : c.skipGap.rest = []) :
    c'.skipGap.rest = ';' :: v := by
  obtain ⟨pos, rest⟩ := c
  obtain ⟨pos', rest'⟩ := c'
  obtain ⟨ext, htail, hrest⟩ := h
  have hrest : rest' = rest ++ ext := hrest
  subst hrest
  have hc : (Cursor.skipFrom false pos rest).rest = [] := hc
  cases htail with
  | within v =>
    have hskip := skipFrom_extended v false pos pos' rest
    rwa [if_pos hc] at hskip
  | past v => rfl

/-- A match that stays in front of what follows. -/
theorem of_passes {ext w : List Char} (htail : Tail v c.rest ext) (hw : c.Passes w d)
    (hd : d'.rest = d.rest ++ ext) : Abreast v d d' := by
  refine ⟨ext, ?_, hd⟩
  have hrest := hw.1
  generalize c.rest = rest at htail hrest
  cases htail with
  | nothing => exact .nothing _
  | within v => exact .within v _
  | past v =>
    obtain ⟨-, hnil⟩ := List.append_eq_nil_iff.mp hrest.symm
    rw [hnil]
    exact .past v

/-- Moves that find the same in both texts keep the cursors abreast. -/
theorem rel {ext : List Char} {x y : Option Cursor} (htail : Tail v c.rest ext)
    (hx : ∀ d, x = some d → ∃ w, c.Passes w d)
    (h : Option.Rel (fun d d' => d'.rest = d.rest ++ ext) x y) : Option.Rel (Abreast v) x y := by
  cases h with
  | none => exact .none
  | some hd =>
    obtain ⟨w, hw⟩ := hx _ rfl
    exact .some (of_passes htail hw hd)

/-- The texts that are passed differ by a trailing line feed at most. -/
theorem passes_eq {w w' : List Char} (hc : Abreast v c c') (hd : Abreast v d d')
    (hw : c.Passes w d) (hw' : c'.Passes w' d') : w' = w ∨ w' = w ++ ['\n'] := by
  obtain ⟨ext, htail, hc⟩ := hc
  obtain ⟨ext', htail', hd⟩ := hd
  have heq : w' ++ (d.rest ++ ext') = w ++ (d.rest ++ ext) := by
    rw [← hd, ← hw'.1, hc, hw.1, List.append_assoc]
  have hrest := hw.1
  generalize hcr : c.rest = rest at htail hrest
  generalize hdr : d.rest = rest' at htail' heq hrest
  cases htail with
  | nothing =>
    cases htail' with
    | nothing => exact Or.inl (List.append_cancel_right heq)
  | within v =>
    cases htail' with
    | within => exact Or.inl (List.append_cancel_right heq)
    | past =>
      have heq : w' ++ ';' :: v = w ++ ['\n'] ++ ';' :: v := by simpa using heq
      exact Or.inr (List.append_cancel_right heq)
  | past v =>
    obtain ⟨rfl, rfl⟩ := List.append_eq_nil_iff.mp hrest.symm
    cases htail' with
    | within =>
      have hlength := congrArg List.length heq
      simp only [List.length_append, List.length_cons, List.length_nil] at hlength
      omega
    | past => exact Or.inl (List.append_cancel_right heq)

end Abreast

/-- No word or class holds a line feed or a semicolon, and only rules without blanks are called. -/
def narrow : Pattern Rule → Bool
  | .text word => !word.contains '\n' && !word.contains ';'
  | .letter l => l ≠ .any
  | .atStart | .atEnd => false
  | .gap => true
  | .cat a b | .alt a b => narrow a && narrow b
  | .opt a | .loop a | .unless a => narrow a
  | .call r => form r = .solid && r ≠ .stringContent

variable {r : Rule}

theorem narrow_body (hr : form r = .solid) (hne : r ≠ .stringContent) :
    narrow (body r) = true := by
  have h : ∀ r ∈ Rule.all, form r = .solid → r ≠ .stringContent → narrow (body r) = true := by
    decide +kernel
  exact h r r.mem_all hr hne

theorem letter_not_holds {l : Letter} (hl : l ≠ .any) {x : Char} (hx : x = '\n' ∨ x = ';') :
    l.holds x = false := by
  cases hholds : l.holds x with
  | false => rfl
  | true =>
    have halnum := isAlphanum_of_letter hl hholds
    rcases hx with rfl | rfl <;> cases halnum

variable {res : Result Rule} {k : Nat} {p : Pattern Rule} {s : Setting}

/-- Without blanks a match is the same in the longer text. -/
theorem parallel_of_narrow {c c' : Cursor} {ext : List Char} (h : Derives grammar s p c res)
    (hs : s.weave = .solid) (hp : narrow p = true) (hext : ∀ x ∈ ext.head?, x = '\n' ∨ x = ';')
    (hc : c'.rest = c.rest ++ ext) :
    ∃ res', Derives grammar s p c' res' ∧
      Parallel (fun _ _ => True) (fun d d' => d'.rest = d.rest ++ ext) res res' := by
  induction h generalizing c' with
  | text s word c =>
    refine ⟨_, .text s word c', .ofMove trivial (accept_extended hc fun x hx hmem => ?_)⟩
    simp only [narrow, Bool.and_eq_true, Bool.not_eq_true', List.contains_eq_mem,
      decide_eq_false_iff_not] at hp
    rcases hext x hx with rfl | rfl
    · exact hp.1 hmem
    · exact hp.2 hmem
  | letter s l c =>
    refine ⟨_, .letter s l c', .ofMove trivial (acceptChar_extended hc fun x hx => ?_)⟩
    simp only [narrow, decide_eq_true_eq] at hp
    exact letter_not_holds hp (hext x hx)
  | atStart | atEnd => cases hp
  | gap s c =>
    refine ⟨_, .gap s c', ?_⟩
    rw [if_neg (by rw [hs]; decide), if_neg (by rw [hs]; decide)]
    exact .some ⟨trivial, hc⟩
  | catRefused _ ih =>
    simp only [narrow, Bool.and_eq_true] at hp
    obtain ⟨_, hleft, ⟨⟩⟩ := ih hs hp.1 hc
    exact ⟨none, .catRefused hleft, .none⟩
  | catHalf _ _ ih ih' =>
    simp only [narrow, Bool.and_eq_true] at hp
    obtain ⟨_, hleft, ⟨-, hd⟩⟩ := ih hs hp.1 hc
    obtain ⟨_, hright, ⟨⟩⟩ := ih' hs hp.2 hd
    exact ⟨none, .catHalf hleft hright, .none⟩
  | cat _ _ ih ih' =>
    simp only [narrow, Bool.and_eq_true] at hp
    obtain ⟨_, hleft, ⟨-, hd⟩⟩ := ih hs hp.1 hc
    obtain ⟨_, hright, ⟨-, he⟩⟩ := ih' hs hp.2 hd
    exact ⟨_, .cat hleft hright, .some ⟨trivial, he⟩⟩
  | altFirst _ ih =>
    simp only [narrow, Bool.and_eq_true] at hp
    obtain ⟨_, hleft, ⟨-, hd⟩⟩ := ih hs hp.1 hc
    exact ⟨_, .altFirst hleft, .some ⟨trivial, hd⟩⟩
  | altSecond _ _ ih ih' =>
    simp only [narrow, Bool.and_eq_true] at hp
    obtain ⟨_, hleft, ⟨⟩⟩ := ih hs hp.1 hc
    obtain ⟨res', hright, hres⟩ := ih' hs hp.2 hc
    exact ⟨res', .altSecond hleft hright, hres⟩
  | optSome _ ih =>
    obtain ⟨_, hone, ⟨-, hd⟩⟩ := ih hs hp hc
    exact ⟨_, .optSome hone, .some ⟨trivial, hd⟩⟩
  | optNone _ ih =>
    obtain ⟨_, hone, ⟨⟩⟩ := ih hs hp hc
    exact ⟨_, .optNone hone, .some ⟨trivial, hc⟩⟩
  | loopStop _ ih =>
    obtain ⟨_, hone, ⟨⟩⟩ := ih hs hp hc
    exact ⟨_, .loopStop hone, .some ⟨trivial, hc⟩⟩
  | loopNext _ _ ih ih' =>
    obtain ⟨_, hone, ⟨-, hd⟩⟩ := ih hs hp hc
    obtain ⟨_, hmore, ⟨-, he⟩⟩ := ih' hs hp hd
    exact ⟨_, .loopNext hone hmore, .some ⟨trivial, he⟩⟩
  | unlessRefused _ ih =>
    obtain ⟨_, hone, ⟨-, -⟩⟩ := ih hs hp hc
    exact ⟨none, .unlessRefused hone, .none⟩
  | unlessPassed _ ih =>
    obtain ⟨_, hone, ⟨⟩⟩ := ih hs hp hc
    exact ⟨_, .unlessPassed hone, .some ⟨trivial, hc⟩⟩
  | @call s r c res _ ih =>
    simp only [narrow, Bool.and_eq_true, decide_eq_true_eq] at hp
    have hweave : (grammar.inner s r).weave = .solid := by
      rw [Grammar.inner_solid hp.1]
    obtain ⟨res', hinner, hres⟩ := ih hweave (narrow_body hp.1 hp.2) hc
    refine ⟨_, .call hinner, ?_⟩
    cases hres with
    | none => exact .none
    | some hd => exact .some ⟨trivial, hd.2⟩

theorem Alike.node {c d c' d' : Cursor} {ns ns' : List (Node Rule)} {w w' : List Char}
    (hw : c.Passes w d) (hw' : c'.Passes w' d') (hcore : core r w' = core r w)
    (hns : Alike ns ns') : Alike [.mk r c d.pos ns] [.mk r c' d'.pos ns'] := by
  refine .cons ?_ hns .nil
  rw [hw.upTo_eq, hw'.upTo_eq, hcore]

/-- A rule without blanks passes the same text in the longer text. -/
theorem parallel_of_solid {v : Option (List Char)} {c c' : Cursor}
    (h : Derives grammar reading (.call r) c res) (hr : form r = .solid) (hne : r ≠ .stringContent)
    (hc : Abreast v c c') :
    ∃ res', Derives grammar reading (.call r) c' res' ∧
      Parallel Alike (Abreast v) res res' := by
  obtain ⟨inner, hinner, rfl⟩ := derives_call_iff.mp h
  obtain ⟨ext, htail, hc⟩ := hc
  have hweave : (grammar.inner reading r).weave = .solid := by
    rw [Grammar.inner_solid hr]
  obtain ⟨inner', hinner', hres⟩ :=
    parallel_of_narrow hinner hweave (narrow_body hr hne) htail.head hc
  refine ⟨_, .call hinner', ?_⟩
  cases hres with
  | none => exact .none
  | @some x y hd =>
    obtain ⟨ns, d⟩ := x
    obtain ⟨ns', d'⟩ := y
    have hmute : mute (grammar.body r) = true := mute_body r hr
    obtain rfl := nodes_eq_nil hinner hweave hmute
    obtain rfl := nodes_eq_nil hinner' hweave hmute
    obtain ⟨w, hw⟩ := hinner.passes
    obtain ⟨w', hw'⟩ := hinner'.passes
    have hd : d'.rest = d.rest ++ ext := hd.2
    have hww : w' = w := by
      have heq : w' ++ (d.rest ++ ext) = w ++ (d.rest ++ ext) :=
        calc
          w' ++ (d.rest ++ ext) = c'.rest := by rw [hw'.1, hd]
          _ = w ++ (d.rest ++ ext) := by rw [hc, hw.1, List.append_assoc]
      exact List.append_cancel_right heq
    refine .some ⟨?_, .of_passes htail hw hd⟩
    simp only
    split
    · exact .node hw hw' (by rw [hww]) .nil
    · exact .nil

theorem parallel_of_string {v : Option (List Char)} {c c' : Cursor}
    (h : Derives grammar reading (.call .string) c res) (hcloses : closes .code k c.rest = true)
    (hc : Abreast v c c') :
    ∃ res', Derives grammar reading (.call .string) c' res' ∧
      Parallel Alike (Abreast v) res res' := by
  obtain ⟨ext, htail, hrest'⟩ := hc
  cases res with
  | some result =>
    obtain ⟨ns, d⟩ := result
    obtain ⟨w, hw, hrest⟩ := string_passes h
    have hrest' : c'.rest = '"' :: (w ++ '"' :: (d.rest ++ ext)) := by
      rw [hrest', hrest]
      simp
    have hfirst := derives_string hw hrest rfl rfl rfl
    have hsecond := derives_string hw hrest' rfl rfl rfl
    refine ⟨_, hsecond, ?_⟩
    rw [h.unique hfirst]
    have hpasses {c : Cursor} {rest : List Char} (hc : c.rest = '"' :: (w ++ '"' :: rest)) :
        c.Passes ('"' :: (w ++ ['"']))
          ⟨(w.foldl Position.advance (c.pos.advance '"')).advance '"', rest⟩ :=
      ⟨by rw [hc]; simp, by simp⟩
    have hcontent {p : Position} {rest : List Char} :
        (⟨p, w ++ '"' :: rest⟩ : Cursor).Passes w ⟨w.foldl Position.advance p, '"' :: rest⟩ :=
      ⟨rfl, rfl⟩
    refine .some ⟨.node (hpasses hrest) (hpasses hrest') rfl ?_, ?_⟩
    · exact .node hcontent hcontent rfl .nil
    · exact .of_passes htail (hpasses hrest) rfl
  | none =>
    -- The text is closed, so no literal begins here.
    have hquote : ∀ rest, c.rest ≠ '"' :: rest := by
      intro rest hrest
      rw [hrest] at hcloses
      obtain ⟨w, rest', rfl, hw⟩ := exists_unbroken rest hcloses
      cases h.unique (derives_string hw hrest rfl rfl rfl)
    refine ⟨none, refused_of_first rfl fun x hx z hz => ?_, .none⟩
    obtain rfl : z = .char '"' := by simpa [first] using hz
    have hne : '"' ≠ x := by
      rintro rfl
      rw [hrest'] at hx
      cases hcr : c.rest with
      | nil =>
        rw [hcr, List.nil_append] at hx
        rcases htail.head _ hx with heq | heq <;> cases heq
      | cons y rest =>
        rw [hcr] at hx
        cases hx
        exact hquote rest hcr
    exact beq_eq_false_iff_ne.mpr hne

/-- A word of the grammar is not the semicolon that follows the text. -/
theorem not_mem_of_afterText {word rest ext : List Char} {v : Option (List Char)} {q q' : Stand}
    (hq : afterText word q = some q') (htail : Tail v rest ext)
    (hcloses : closes .code (k + q.depth) rest = true) : ∀ x ∈ ext.head?, x ∉ word := by
  have hother : word ≠ [';'] → '\n' ∉ word ∧ ';' ∉ word := by
    intro hne
    unfold afterText at hq
    rw [if_neg hne] at hq
    split at hq
    · next hword => subst hword; decide
    split at hq
    · next hword => subst hword; decide
    split at hq
    · next hword => subst hword; decide
    split at hq
    · next hword =>
      rcases hword with rfl | hcalm
      · decide
      · rw [Bool.and_eq_true, Bool.and_eq_true] at hcalm
        simpa using And.intro hcalm.1.2 hcalm.2
    · cases hq
  by_cases hword : word = [';']
  · subst hword
    cases htail with
    | nothing => nofun
    | within =>
      rintro _ ⟨⟩
      decide
    | past v =>
      -- A brace is open here, but the text that should close it has been passed.
      have hdepth : 0 < q.depth := by
        cases hdepth : q.depth with
        | zero =>
          unfold afterText at hq
          simp [hdepth] at hq
        | succ n => omega
      have hzero : k + q.depth = 0 := by simpa [closes] using hcloses
      omega
  · intro x hx
    rcases htail.head x hx with rfl | rfl
    · exact (hother hword).1
    · exact (hother hword).2

/-- What the grammar does outside of literals with a text that closes it does with the longer text
too. -/
theorem parallel_of_derives {v : Option (List Char)} {c c' : Cursor} {q q' : Stand}
    (h : Derives grammar s p c res) (hs : s = reading) (hq : after .spaced p q = some q')
    (hfresh : q.fresh = true → c.skipGap = c) (hcloses : closes .code (k + q.depth) c.rest = true)
    (hc : Abreast v c c') :
    ∃ res', Derives grammar s p c' res' ∧
      Parallel Alike (Abreast v) res res' := by
  induction h generalizing c' q q' k with
  | text s word c =>
    obtain ⟨ext, htail, hrest⟩ := hc
    have hmoves := accept_extended hrest (not_mem_of_afterText hq htail hcloses)
    refine ⟨_, .text s word c', .ofMove .nil (Abreast.rel htail (fun d hd => ?_) hmoves)⟩
    exact ⟨word, Cursor.accept_passes hd⟩
  | letter s l c =>
    obtain ⟨ext, htail, hrest⟩ := hc
    have hl : l ≠ .any := by
      rintro rfl
      cases hq
    have hmoves := acceptChar_extended hrest fun x hx => letter_not_holds hl (htail.head x hx)
    refine ⟨_, .letter s l c', .ofMove .nil (Abreast.rel htail (fun d hd => ?_) hmoves)⟩
    obtain ⟨x, -, hx⟩ := Cursor.acceptChar_passes hd
    exact ⟨[x], hx⟩
  | atStart | atEnd => cases hq
  | gap s c =>
    subst hs
    exact ⟨_, .gap reading c', .some ⟨.nil, hc.skipGap⟩⟩
  | catRefused _ ih =>
    obtain ⟨q₁, hq₁, -⟩ := Option.bind_eq_some_iff.mp hq
    obtain ⟨_, hleft, ⟨⟩⟩ := ih hs hq₁ hfresh hcloses hc
    exact ⟨none, .catRefused hleft, .none⟩
  | catHalf left _ ih ih' =>
    obtain ⟨q₁, hq₁, hq'⟩ := Option.bind_eq_some_iff.mp hq
    obtain ⟨_, hleft, ⟨-, hd⟩⟩ := ih hs hq₁ hfresh hcloses hc
    subst hs
    obtain ⟨hmid, hfresh₁⟩ := closes_of_derives left (Or.inl rfl) hq₁ hfresh k
    obtain ⟨_, hright, ⟨⟩⟩ := ih' rfl hq' hfresh₁ (hmid ▸ hcloses) hd
    exact ⟨none, .catHalf hleft hright, .none⟩
  | cat left _ ih ih' =>
    obtain ⟨q₁, hq₁, hq'⟩ := Option.bind_eq_some_iff.mp hq
    obtain ⟨_, hleft, ⟨hns, hd⟩⟩ := ih hs hq₁ hfresh hcloses hc
    subst hs
    obtain ⟨hmid, hfresh₁⟩ := closes_of_derives left (Or.inl rfl) hq₁ hfresh k
    obtain ⟨_, hright, ⟨hms, he⟩⟩ := ih' rfl hq' hfresh₁ (hmid ▸ hcloses) hd
    exact ⟨_, .cat hleft hright, .some ⟨hns.append hms, he⟩⟩
  | altFirst _ ih =>
    obtain ⟨_, hleft, ⟨hns, hd⟩⟩ := ih hs (after_alt hq).1 hfresh hcloses hc
    exact ⟨_, .altFirst hleft, .some ⟨hns, hd⟩⟩
  | altSecond _ _ ih ih' =>
    obtain ⟨_, hleft, ⟨⟩⟩ := ih hs (after_alt hq).1 hfresh hcloses hc
    obtain ⟨res', hright, hres⟩ := ih' hs (after_alt hq).2 hfresh hcloses hc
    exact ⟨res', .altSecond hleft hright, hres⟩
  | optSome _ ih =>
    obtain ⟨-, q₁, hq₁, -⟩ := after_opt hq
    obtain ⟨_, hone, ⟨hns, hd⟩⟩ := ih hs hq₁ hfresh hcloses hc
    exact ⟨_, .optSome hone, .some ⟨hns, hd⟩⟩
  | optNone _ ih =>
    obtain ⟨-, q₁, hq₁, -⟩ := after_opt hq
    obtain ⟨_, hone, ⟨⟩⟩ := ih hs hq₁ hfresh hcloses hc
    exact ⟨_, .optNone hone, .some ⟨.nil, hc⟩⟩
  | loopStop _ ih =>
    obtain ⟨-, q₁, hq₁, -⟩ := after_loop hq
    obtain ⟨_, hone, ⟨⟩⟩ := ih hs hq₁ nofun hcloses hc
    exact ⟨_, .loopStop hone, .some ⟨.nil, hc⟩⟩
  | loopNext one _ ih ih' =>
    obtain ⟨rfl, q₁, hq₁, hdepth⟩ := after_loop hq
    obtain ⟨_, hone, ⟨hns, hd⟩⟩ := ih hs hq₁ nofun hcloses hc
    subst hs
    obtain ⟨hmid, -⟩ := closes_of_derives one (Or.inl rfl) hq₁ nofun k
    rw [hdepth] at hmid
    obtain ⟨_, hmore, ⟨hms, he⟩⟩ := ih' (q := ⟨q.depth, false⟩) rfl hq nofun (hmid ▸ hcloses) hd
    exact ⟨_, .loopNext hone hmore, .some ⟨hns.append hms, he⟩⟩
  | unlessRefused | unlessPassed => cases hq
  | @call s r c res inner ih =>
    subst hs
    obtain ⟨rfl, ⟨rfl, -⟩ | ⟨hapart, hw, hsharp⟩⟩ := after_call hq
    · exact parallel_of_string (.call inner) hcloses hc
    · by_cases hsolid : form r = .solid
      · refine parallel_of_solid (.call inner) hsolid ?_ hc
        rintro rfl
        cases hapart
      · have hform : form r = .plain := by
          cases hform : form r with
          | plain => rfl
          | solid => exact absurd hform hsolid
          | joined =>
            rw [form_eq_joined hform] at hapart
            cases hapart
        have hinner : grammar.inner reading r = reading := by
          rw [Grammar.inner, Grammar.outer, show grammar.form r = .plain from hform]
          rfl
        have hbody := after_body r hapart
        rw [hform] at hbody
        obtain ⟨res', hinner', hres⟩ :=
          ih hinner hbody (fun h => hfresh (hsharp h)) (k := k + q.depth) hcloses hc
        refine ⟨_, .call hinner', ?_⟩
        cases hres with
        | none => exact .none
        | @some x y hd =>
          obtain ⟨w, hw⟩ := inner.passes
          obtain ⟨w', hw'⟩ := hinner'.passes
          refine .some ⟨?_, hd.2⟩
          simp only
          split
          · refine .node hw hw' ?_ hd.1
            rw [core, if_neg hsolid, core, if_neg hsolid]
            rcases hc.passes_eq hd.2 hw hw' with rfl | rfl
            · rfl
            · exact Text.trim_append_blank w rfl
          · exact hd.1

end ObjectLang.Syntax
