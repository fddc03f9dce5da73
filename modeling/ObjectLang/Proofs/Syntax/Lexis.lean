import ObjectLang.Proofs.Syntax.Parsing

/-!
Quotes, comments and braces.
Reading a text from the left, one can tell without the grammar where literals, comments and braces
begin and end. A text closes if each literal is closed and the braces that are open are matched.
Every match leaves as many braces open as it has found, so an accepted text closes.
-/
namespace ObjectLang.Syntax

open Peg Pattern

/-- Where a text is being read: outside of literals and comments, or inside one of them; in a
literal a backslash sets the next character apart. -/
inductive Mode where
  | code
  | comment
  | quote
  | escape

/-- Whether a text closes all literals and the `k` braces that are open before it. -/
def closes : Mode → Nat → List Char → Bool
  | .code, k, [] | .comment, k, [] => k == 0
  | .quote, _, [] | .escape, _, [] => false
  | .code, k, '/' :: '/' :: cs => closes .comment k cs
  | .code, k, c :: cs =>
    if c = '"' then closes .quote k cs
    else if c = '\x7b' then closes .code (k + 1) cs
    else if c = '\x7d' then k != 0 && closes .code (k - 1) cs
    else closes .code k cs
  | .comment, k, c :: cs => closes (if c = '\n' then .code else .comment) k cs
  | .quote, k, c :: cs =>
    closes (if c = '"' then .code else if c = '\\' then .escape else .quote) k cs
  | .escape, k, _ :: cs => closes .quote k cs

def calm (c : Char) : Bool := c != '"' && c != '\x7b' && c != '\x7d' && c != '/'

theorem closes_calm {c : Char} (hc : calm c = true) (k : Nat) (cs : List Char) :
    closes .code k (c :: cs) = closes .code k cs := by
  simp only [calm, Bool.and_eq_true, bne_iff_ne] at hc
  obtain ⟨⟨⟨hquote, hopen⟩, hclose⟩, hslash⟩ := hc
  rw [closes]
  · rw [if_neg hquote, if_neg hopen, if_neg hclose]
  · intro _ h _
    exact hslash h

theorem closes_calm_append {w : List Char} (hw : w.all calm = true) (k : Nat) (cs : List Char) :
    closes .code k (w ++ cs) = closes .code k cs := by
  induction w with
  | nil => rfl
  | cons c w ih =>
    rw [List.all_cons, Bool.and_eq_true] at hw
    rw [List.cons_append, closes_calm hw.1, ih hw.2]

/-- A slash that begins no comment. -/
theorem closes_slash {cs : List Char} (h : ∀ rest, cs ≠ '/' :: rest) (k : Nat) :
    closes .code k ('/' :: cs) = closes .code k cs := by
  rw [closes]
  · rfl
  · intro rest _ heq
    exact h rest heq

theorem closes_skipFrom (inside : Bool) (pos : Position) (rest : List Char) (k : Nat) :
    closes .code k (Cursor.skipFrom inside pos rest).rest =
      closes (if inside then .comment else .code) k rest := by
  fun_induction Cursor.skipFrom inside pos rest with
  | case1 inside pos => cases inside <;> rfl
  | case2 inside pos rest ih =>
    rw [ih]
    cases inside <;> rfl
  | case3 pos c rest hslash ih =>
    rw [ih, if_pos rfl]
    cases hc : c != '\n' with
    | true =>
      rw [if_pos rfl, closes, if_neg (bne_iff_ne.mp hc)]
    | false =>
      obtain rfl : c = '\n' := by simpa using hc
      rfl
  | case4 inside pos c rest hslash hinside hblank ih =>
    obtain rfl : inside = false := by simpa using hinside
    have hcalm : calm c = true := by
      simp only [Cursor.isGapChar, Bool.or_eq_true, beq_iff_eq] at hblank
      rcases hblank with ((rfl | rfl) | rfl) | rfl <;> rfl
    rw [ih, if_neg Bool.false_ne_true, closes_calm hcalm]
  | case5 inside pos c rest hslash hinside hblank =>
    obtain rfl : inside = false := by simpa using hinside
    rfl

theorem closes_skipGap (c : Cursor) (k : Nat) :
    closes .code k c.skipGap.rest = closes .code k c.rest :=
  closes_skipFrom false c.pos c.rest k

/-- Text that can stand between quotes: a quote in it comes behind a backslash, and it does not end
with a backslash that sets nothing apart. -/
def unbroken : List Char → Bool
  | [] => true
  | c :: cs =>
    if c = '\\' then
      match cs with
      | [] => false
      | _ :: cs => unbroken cs
    else c != '"' && unbroken cs

theorem unbroken_cons {c : Char} (hquote : c ≠ '"') (hslash : c ≠ '\\') (cs : List Char) :
    unbroken (c :: cs) = unbroken cs := by
  cases cs <;> simp [unbroken, hquote, hslash]

/-- A literal is left behind its closing quote. -/
theorem closes_unbroken {w : List Char} (hw : unbroken w = true) (k : Nat) (rest : List Char) :
    closes .quote k (w ++ '"' :: rest) = closes .code k rest := by
  fun_induction unbroken w with
  | case1 => rfl
  | case2 => cases hw
  | case3 y cs ih => exact ih hw
  | case4 x cs hslash ih =>
    simp only [Bool.and_eq_true, bne_iff_ne] at hw
    rw [List.cons_append, closes, if_neg hw.1, if_neg hslash, ih hw.2]

/-- A literal that is closed has an unbroken text. -/
theorem exists_unbroken {k : Nat} (cs : List Char) (h : closes .quote k cs = true) :
    ∃ w rest, cs = w ++ '"' :: rest ∧ unbroken w = true := by
  match cs with
  | [] => cases h
  | x :: cs =>
    by_cases hquote : x = '"'
    · exact ⟨[], cs, by rw [hquote]; rfl, rfl⟩
    · by_cases hslash : x = '\\'
      · subst hslash
        match cs with
        | [] => cases h
        | y :: cs =>
          obtain ⟨w, rest, rfl, hw⟩ := exists_unbroken cs h
          exact ⟨'\\' :: y :: w, rest, rfl, hw⟩
      · rw [closes, if_neg hquote, if_neg hslash] at h
        obtain ⟨w, rest, rfl, hw⟩ := exists_unbroken cs h
        exact ⟨x :: w, rest, rfl, by rw [unbroken_cons hquote hslash, hw]⟩

def stringUnit : Pattern Rule :=
  alt (seq (.unless (alt (lit "\"") (lit "\\"))) (letter .any)) (seq (lit "\\") (letter .any))

section Unit

variable {s : Setting} (hs : s.weave = .solid) {c d : Cursor} {ns : List (Node Rule)} {x : Char}
  {rest : List Char}

include hs

theorem derives_unit_plain (h : c.rest = x :: rest) (hquote : x ≠ '"') (hslash : x ≠ '\\') :
    Derives grammar s stringUnit c (some ([], ⟨c.pos.advance x, rest⟩)) := by
  obtain ⟨pos, _⟩ := c
  cases h
  have hrun : (run grammar 6 s stringUnit ⟨pos, x :: rest⟩ .none).result? =
      some (some ([], ⟨pos.advance x, rest⟩)) := by
    simp [run, stringUnit, Pattern.seq, lit, Cursor.accept, Cursor.acceptChar, Letter.holds, hquote,
      hslash, hs, Reply.ofMove, Reply.result?]
  exact .of_run hrun

theorem derives_unit_escape (h : c.rest = '\\' :: x :: rest) :
    Derives grammar s stringUnit c (some ([], ⟨(c.pos.advance '\\').advance x, rest⟩)) := by
  obtain ⟨pos, _⟩ := c
  cases h
  have hrun : (run grammar 6 s stringUnit ⟨pos, '\\' :: x :: rest⟩ .none).result? =
      some (some ([], ⟨(pos.advance '\\').advance x, rest⟩)) := by
    simp [run, stringUnit, Pattern.seq, lit, Cursor.accept, Cursor.acceptChar, Letter.holds, hs,
      Reply.ofMove, Reply.result?]
  exact .of_run hrun

theorem derives_unit_refused
    (h : c.rest = [] ∨ c.rest = ['\\'] ∨ ∃ rest, c.rest = '"' :: rest) :
    Derives grammar s stringUnit c none := by
  obtain ⟨pos, cs⟩ := c
  have hrun : (run grammar 6 s stringUnit ⟨pos, cs⟩ .none).result? = some none := by
    have h : cs = [] ∨ cs = ['\\'] ∨ ∃ rest, cs = '"' :: rest := h
    rcases h with rfl | rfl | ⟨rest, rfl⟩ <;>
      simp [run, stringUnit, Pattern.seq, lit, Cursor.accept, Cursor.acceptChar, hs, Reply.ofMove,
        Reply.result?]
  exact .of_run hrun

/-- A unit passes a text that breaks nothing. -/
theorem unit_passes (h : Derives grammar s stringUnit c (some (ns, d))) :
    ns = [] ∧ ∃ v, c.rest = v ++ d.rest ∧ ∀ w, unbroken (v ++ w) = unbroken w := by
  cases hrest : c.rest with
  | nil => cases h.unique (derives_unit_refused hs (Or.inl hrest))
  | cons x rest =>
    by_cases hquote : x = '"'
    · subst hquote
      cases h.unique (derives_unit_refused hs (Or.inr (Or.inr ⟨rest, hrest⟩)))
    · by_cases hslash : x = '\\'
      · subst hslash
        cases rest with
        | nil => cases h.unique (derives_unit_refused hs (Or.inr (Or.inl hrest)))
        | cons y rest =>
          cases h.unique (derives_unit_escape hs hrest)
          exact ⟨rfl, ['\\', y], rfl, fun w => by rw [List.cons_append, List.cons_append]; rfl⟩
      · cases h.unique (derives_unit_plain hs hrest hquote hslash)
        exact ⟨rfl, [x], rfl, fun w => unbroken_cons hquote hslash w⟩

/-- The units of an unbroken text are passed one after the other, up to the closing quote. -/
theorem derives_units {w : List Char} (hw : unbroken w = true) (h : c.rest = w ++ '"' :: rest) :
    Derives grammar s (.loop stringUnit) c
      (some ([], ⟨w.foldl Position.advance c.pos, '"' :: rest⟩)) := by
  fun_induction unbroken w generalizing c with
  | case1 =>
    obtain ⟨pos, _⟩ := c
    cases h
    exact .loopStop (derives_unit_refused hs (Or.inr (Or.inr ⟨rest, rfl⟩)))
  | case2 => cases hw
  | case3 y cs ih =>
    exact .loopNext (derives_unit_escape hs h)
      (ih hw (c := ⟨(c.pos.advance '\\').advance y, _⟩) rfl)
  | case4 x cs hslash ih =>
    simp only [Bool.and_eq_true, bne_iff_ne] at hw
    exact .loopNext (derives_unit_plain hs h hw.1 hslash) (ih hw.2 (c := ⟨c.pos.advance x, _⟩) rfl)

end Unit

abbrev quoting : Setting := ⟨.take, .joined⟩

/-- An unbroken text between quotes is a literal with that content. -/
theorem derives_string {c : Cursor} {w rest : List Char} {p q r : Position}
    (hw : unbroken w = true) (h : c.rest = '"' :: (w ++ '"' :: rest)) (hp : p = c.pos.advance '"')
    (hq : q = w.foldl Position.advance p) (hr : r = q.advance '"') :
    Derives grammar reading (.call .string) c
      (some ([.mk .string c r [.mk .stringContent ⟨p, w ++ '"' :: rest⟩ q []]], ⟨r, rest⟩)) := by
  have hquote {p : Position} {rest : List Char} : Derives grammar quoting (lit "\"")
      ⟨p, '"' :: rest⟩ (some ([], ⟨p.advance '"', rest⟩)) := by
    rw [lit, derives_text_iff]
    rfl
  have hcontent : Derives grammar quoting (.call .stringContent) ⟨p, w ++ '"' :: rest⟩
      (some ([.mk .stringContent ⟨p, w ++ '"' :: rest⟩ q []], ⟨q, '"' :: rest⟩)) := by
    subst hq
    have hmany : Derives grammar ⟨.take, .solid⟩ (.many stringUnit) ⟨p, w ++ '"' :: rest⟩
        (some ([], ⟨w.foldl Position.advance p, '"' :: rest⟩)) :=
      (derives_tightMany_iff (by decide)).mpr (derives_units rfl hw rfl)
    exact .rule hmany rfl
  obtain ⟨pos, _⟩ := c
  cases h
  subst hp hr
  have hbody : Derives grammar quoting (body .string) ⟨pos, '"' :: (w ++ '"' :: rest)⟩
      (some ([.mk .stringContent ⟨pos.advance '"', w ++ '"' :: rest⟩ q []],
        ⟨q.advance '"', rest⟩)) :=
    .cat hquote ((derives_tightThen_iff (by decide)).mpr
      (.cat hcontent ((derives_tightThen_iff (by decide)).mpr hquote)))
  exact .rule hbody rfl

/-- What a literal passes. -/
theorem string_passes {c d : Cursor} {ns : List (Node Rule)}
    (h : Derives grammar reading (.call .string) c (some (ns, d))) :
    ∃ w, unbroken w = true ∧ c.rest = '"' :: (w ++ '"' :: d.rest) := by
  obtain ⟨_ | ⟨ms, e⟩, hbody, hres⟩ := derives_call_iff.mp h
  · cases hres
  cases hres
  have hquote {c d : Cursor} {ns : List (Node Rule)}
      (h : Derives grammar quoting (lit "\"") c (some (ns, d))) : c.rest = '"' :: d.rest := by
    rw [lit, derives_text_iff] at h
    obtain ⟨_, hd, hpair⟩ := Option.map_eq_some_iff.mp h.symm
    cases hpair
    exact (Cursor.accept_passes hd).1
  have hbody : Derives grammar quoting (body .string) c (some (ms, d)) := hbody
  cases hbody with
  | cat first rest =>
    rw [derives_tightThen_iff (by decide)] at rest
    cases rest with
    | cat content last =>
      rw [derives_tightThen_iff (by decide)] at last
      obtain ⟨_ | ⟨ms, e⟩, hmany, hres⟩ := derives_call_iff.mp content
      · cases hres
      cases hres
      have hloop := (derives_tightMany_iff (by decide)).mp
        (show Derives grammar ⟨.take, .solid⟩ (.many stringUnit) _ _ from hmany)
      obtain ⟨w, hw, hrest⟩ := Derives.loop_induction
        (motive := fun c _ d => ∃ w, unbroken w = true ∧ c.rest = w ++ d.rest)
        (fun c _ => ⟨[], rfl, rfl⟩)
        (fun one more => by
          obtain ⟨w, hw, hrest⟩ := more
          obtain ⟨-, v, hv, hunbroken⟩ := unit_passes rfl one
          exact ⟨v ++ w, by rw [hunbroken, hw], by rw [hv, hrest, List.append_assoc]⟩)
        hloop
      exact ⟨w, hw, by rw [hquote first, hrest, hquote last]⟩

/-- Where a match stands: how many braces it has opened, and whether a blank or a comment may come
next. -/
structure Stand where
  depth : Nat
  fresh : Bool
deriving DecidableEq

/-- Rules that may begin with a single slash and are tried only behind a gap. -/
def Rule.sharp : Rule → Bool
  | .mulOp | .operator => true
  | _ => false

def Rule.apart : Rule → Bool
  | .program | .endOfInput | .string | .stringContent => true
  | _ => false

def afterText (word : List Char) (q : Stand) : Option Stand :=
  if word = ['\x7b'] then some ⟨q.depth + 1, false⟩
  else if word = ['\x7d'] then if 0 < q.depth then some ⟨q.depth - 1, false⟩ else none
  else if word = [';'] then if 0 < q.depth then some ⟨q.depth, false⟩ else none
  else if word = ['/'] then if q.fresh then some ⟨q.depth, false⟩ else none
  else if word = ['/', '='] ∨ (word.all calm && !word.contains '\n' && !word.contains ';') then
    some ⟨q.depth, false⟩
  else none

/-- Where a match of the pattern ends that began at `q`. There is no answer if the pattern may open
or close anything but in pairs, or may take a semicolon that stands outside of braces. -/
def after (w : Weave) : Pattern Rule → Stand → Option Stand
  | .text word, q => afterText word q
  | .letter l, q => if l = .any then none else some ⟨q.depth, false⟩
  | .atStart, _ | .atEnd, _ => none
  | .gap, q => some (if w = .spaced then ⟨q.depth, true⟩ else q)
  | .cat a b, q => (after w a q).bind (after w b)
  | .alt a b, q =>
    match after w a q, after w b q with
    | some q₁, some q₂ => if q₁ = q₂ then some q₁ else none
    | _, _ => none
  | .opt a, q =>
    match after w a q with
    | some q₁ => if q₁.depth = q.depth then some ⟨q.depth, false⟩ else none
    | none => none
  | .loop a, q =>
    match after w a ⟨q.depth, false⟩ with
    | some q₁ => if q₁.depth = q.depth then some ⟨q.depth, false⟩ else none
    | none => none
  | .unless _, q => if w = .solid then some q else none
  | .call r, q =>
    if r = .string ∧ w = .spaced then some ⟨q.depth, false⟩
    else if r.apart ∨ (form r ≠ .solid ∧ w ≠ .spaced) ∨ (r.sharp ∧ !q.fresh) then none
    else some ⟨q.depth, false⟩

theorem form_eq_joined {r : Rule} (h : form r = .joined) : r = .string := by
  cases r <;> first | rfl | cases h

theorem after_body (r : Rule) (hr : r.apart = false) :
    after ((form r).weave .spaced) (body r) ⟨0, r.sharp⟩ = some ⟨0, false⟩ := by
  have h : ∀ r ∈ Rule.all, r.apart = false →
      after ((form r).weave .spaced) (body r) ⟨0, r.sharp⟩ = some ⟨0, false⟩ := by
    decide +kernel
  exact h r r.mem_all hr

section After

variable {w : Weave} {a b : Pattern Rule} {q q' : Stand}

theorem after_alt (h : after w (.alt a b) q = some q') :
    after w a q = some q' ∧ after w b q = some q' := by
  rw [after] at h
  split at h
  · next q₁ q₂ hq₁ hq₂ =>
    split at h
    · next heq =>
      cases h
      exact ⟨hq₁, heq ▸ hq₂⟩
    · cases h
  · cases h

theorem after_opt (h : after w (.opt a) q = some q') :
    q' = ⟨q.depth, false⟩ ∧ ∃ q₁, after w a q = some q₁ ∧ q₁.depth = q.depth := by
  rw [after] at h
  split at h
  · next q₁ hq₁ =>
    split at h
    · next hdepth =>
      cases h
      exact ⟨rfl, q₁, hq₁, hdepth⟩
    · cases h
  · cases h

theorem after_loop (h : after w (.loop a) q = some q') :
    q' = ⟨q.depth, false⟩ ∧ ∃ q₁, after w a ⟨q.depth, false⟩ = some q₁ ∧ q₁.depth = q.depth := by
  rw [after] at h
  split at h
  · next q₁ hq₁ =>
    split at h
    · next hdepth =>
      cases h
      exact ⟨rfl, q₁, hq₁, hdepth⟩
    · cases h
  · cases h

theorem after_call {r : Rule} (h : after w (.call r) q = some q') :
    q' = ⟨q.depth, false⟩ ∧ ((r = .string ∧ w = .spaced) ∨
      (r.apart = false ∧ (form r).weave w = (form r).weave .spaced ∧
        (r.sharp = true → q.fresh = true))) := by
  rw [after] at h
  split at h
  · next hstring =>
    cases h
    exact ⟨rfl, Or.inl hstring⟩
  · split at h
    · cases h
    · next hother =>
      cases h
      simp only [not_or, Bool.not_eq_true, not_and, Decidable.not_not, Bool.not_eq_true'] at hother
      refine ⟨rfl, Or.inr ⟨hother.1, ?_, fun hsharp => by simpa using hother.2.2 hsharp⟩⟩
      by_cases hform : form r = .solid
      · rw [hform]
        rfl
      · rw [hother.2.1 hform]

end After

/-- A word of the grammar leaves the braces as told. -/
theorem closes_text {word : List Char} (rest : List Char) {q q' : Stand}
    (hq : afterText word q = some q')
    (hfresh : q.fresh = true → ∀ cs, word ++ rest ≠ '/' :: '/' :: cs) (k : Nat) :
    closes .code (k + q.depth) (word ++ rest) = closes .code (k + q'.depth) rest ∧
      q'.fresh = false := by
  unfold afterText at hq
  split at hq
  · next hword =>
    cases hq
    subst hword
    exact ⟨rfl, rfl⟩
  split at hq
  · next hword =>
    split at hq
    · next hdepth =>
      cases hq
      subst hword
      -- The brace that is closed here was opened since the beginning.
      have hk : k + (q.depth - 1) = k + q.depth - 1 := by omega
      have hne : (k + q.depth != 0) = true := bne_iff_ne.mpr (by omega)
      rw [List.cons_append, List.nil_append, closes, hk]
      · exact ⟨by simp [hne], rfl⟩
      · intro _ h _
        cases h
    · cases hq
  split at hq
  · next hword =>
    split at hq
    · cases hq
      subst hword
      exact ⟨rfl, rfl⟩
    · cases hq
  split at hq
  · next hword =>
    split at hq
    · next hq₁ =>
      cases hq
      subst hword
      exact ⟨closes_slash (fun cs hcs => hfresh hq₁ cs (congrArg ('/' :: ·) hcs)) _, rfl⟩
    · cases hq
  split at hq
  · next hword =>
    cases hq
    rcases hword with rfl | hcalm
    · exact ⟨rfl, rfl⟩
    · simp only [Bool.and_eq_true] at hcalm
      exact ⟨closes_calm_append hcalm.1.1 _ _, rfl⟩
  · cases hq

theorem isAlphanum_of_letter {l : Letter} (hl : l ≠ .any) {x : Char} (hx : l.holds x = true) :
    x.isAlphanum = true := by
  cases l with
  | any => exact absurd rfl hl
  | alphanum => exact hx
  | digit => exact Bool.or_eq_true_iff.mpr (Or.inr hx)
  | alpha => exact Bool.or_eq_true_iff.mpr (Or.inl hx)

theorem calm_of_isAlphanum {x : Char} (hx : x.isAlphanum = true) : calm x = true := by
  have hne {y : Char} (hy : y.isAlphanum = false) : (x != y) = true := by
    rw [bne_iff_ne]
    rintro rfl
    rw [hx] at hy
    cases hy
  rw [calm, hne (by decide), hne (by decide), hne (by decide), hne (by decide)]
  rfl

/-- A match leaves the braces as its pattern tells. -/
theorem closes_of_derives {s : Setting} {p : Pattern Rule} {c d : Cursor} {ns : List (Node Rule)}
    {q q' : Stand} (h : Derives grammar s p c (some (ns, d)))
    (hs : s.look = .take ∨ s.weave = .solid) (hq : after s.weave p q = some q')
    (hfresh : q.fresh = true → c.skipGap = c) (k : Nat) :
    closes .code (k + q.depth) c.rest = closes .code (k + q'.depth) d.rest ∧
      (q'.fresh = true → d.skipGap = d) := by
  induction h using Derives.match_induction generalizing q q' k with
  | @text _ _ _ d hd =>
    have hrest := (Cursor.accept_passes hd).1
    rw [hrest]
    obtain ⟨hcloses, hnot⟩ := closes_text d.rest hq
      (fun hq₁ cs => hrest ▸ Cursor.ne_comment_of_skipGap_eq (hfresh hq₁) cs) k
    exact ⟨hcloses, by rw [hnot]; nofun⟩
  | letter hd =>
    obtain ⟨x, hx, hpasses⟩ := Cursor.acceptChar_passes hd
    rw [after] at hq
    split at hq
    · cases hq
    · next hl =>
      cases hq
      rw [hpasses.1]
      exact ⟨closes_calm (calm_of_isAlphanum (isAlphanum_of_letter hl hx)) _ _, nofun⟩
  | atStart | atEnd => cases hq
  | @gap s c =>
    rw [after] at hq
    cases hq
    split
    · exact ⟨(closes_skipGap c _).symm, fun _ => c.skipGap_skipGap⟩
    · exact ⟨rfl, hfresh⟩
  | cat _ _ ih ih' =>
    obtain ⟨q₁, hq₁, hq'⟩ := Option.bind_eq_some_iff.mp hq
    obtain ⟨hleft, hfresh₁⟩ := ih hs hq₁ hfresh k
    obtain ⟨hright, hfresh₂⟩ := ih' hs hq' hfresh₁ k
    exact ⟨hleft.trans hright, hfresh₂⟩
  | altFirst _ ih => exact ih hs (after_alt hq).1 hfresh k
  | altSecond _ _ ih => exact ih hs (after_alt hq).2 hfresh k
  | optSome _ ih =>
    obtain ⟨rfl, q₁, hq₁, hdepth⟩ := after_opt hq
    obtain ⟨hone, -⟩ := ih hs hq₁ hfresh k
    exact ⟨hdepth ▸ hone, nofun⟩
  | optNone =>
    obtain ⟨rfl, -⟩ := after_opt hq
    exact ⟨rfl, nofun⟩
  | loopStop =>
    obtain ⟨rfl, -⟩ := after_loop hq
    exact ⟨rfl, nofun⟩
  | loopNext _ _ ih ih' =>
    obtain ⟨rfl, q₁, hq₁, hdepth⟩ := after_loop hq
    obtain ⟨hone, -⟩ := ih hs hq₁ Bool.noConfusion k
    obtain ⟨hmore, -⟩ := ih' (q := ⟨q.depth, false⟩) hs hq Bool.noConfusion k
    rw [hdepth] at hone
    exact ⟨hone.trans hmore, nofun⟩
  | unlessPassed =>
    rw [after] at hq
    split at hq
    · cases hq
      exact ⟨rfl, hfresh⟩
    · cases hq
  | @kept s r _ _ _ inner _ ih | @bare s r _ _ _ inner _ ih =>
    obtain ⟨rfl, ⟨rfl, hw⟩ | ⟨hapart, hw, hsharp⟩⟩ := after_call hq
    · have hreading : s = reading := by
        obtain ⟨look, weave⟩ := s
        obtain rfl : weave = .spaced := hw
        rcases hs with hlook | hsolid
        · exact congrArg (Setting.mk · .spaced) hlook
        · cases hsolid
      subst hreading
      obtain ⟨w, hunbroken, hrest⟩ := string_passes (.rule inner rfl)
      rw [hrest]
      exact ⟨closes_unbroken hunbroken _ _, nofun⟩
    · have hweave : (grammar.inner s r).weave = (form r).weave .spaced := by
        rw [← hw]
        exact grammar.weave_inner s r
      have hinner : (grammar.inner s r).look = .take ∨ (grammar.inner s r).weave = .solid := by
        rcases hs with hlook | hsolid
        · exact Or.inl ((grammar.look_inner s r).trans hlook)
        · right
          rw [hweave]
          rw [hsolid] at hw
          cases hform : form r with
          | plain =>
            rw [hform] at hw
            cases hw
          | solid => rfl
          | joined =>
            rw [form_eq_joined hform] at hapart
            cases hapart
      have hbody := after_body r hapart
      rw [← hweave] at hbody
      exact ⟨(ih hinner hbody (fun h => hfresh (hsharp h)) (k + q.depth)).1, nofun⟩

end ObjectLang.Syntax
