import ObjectLang.Proofs.Syntax.Lexis
import ObjectLang.Proofs.Syntax.Tokens

/-!
The tokens of the grammar.
Words, names, symbols, whole numbers and string literals are passed as single tokens. A word is not
taken for the beginning of a longer name, and a reserved word not for a name.
-/
namespace ObjectLang.Syntax

open Peg Pattern

def isNameChar (c : Char) : Bool := c.isAlphanum || c == '_'

def isName : List Char → Bool
  | [] => false
  | c :: cs =>
    (c.isAlpha || c == '_') && cs.all isNameChar &&
      Word.reserved.all fun w => w.spelling.toList != c :: cs

def isModuleName (cs : List Char) : Bool := (cs.splitOn '.').all isName

theorem isNameChar_spelling (w : Word) : w.spelling.toList.all isNameChar = true := by
  cases w <;> decide

variable {cs : List Char}

theorem isName_all (h : isName cs = true) : cs.all isNameChar = true := by
  cases cs with
  | nil => cases h
  | cons c cs =>
    simp only [isName, Bool.and_eq_true] at h
    have hc : isNameChar c = true := by
      have hc := h.1.1
      simp only [isNameChar, Char.isAlphanum, Bool.or_eq_true] at hc ⊢
      rcases hc with hc | hc
      · exact Or.inl (Or.inl hc)
      · exact Or.inr hc
    rw [List.all_cons, hc, h.1.2]
    rfl

theorem spelling_ne_of_isName (h : isName cs = true) {w : Word} (hw : w ∈ Word.reserved) :
    w.spelling.toList ≠ cs := by
  cases cs with
  | nil => cases h
  | cons c cs =>
    simp only [isName, Bool.and_eq_true, List.all_eq_true, bne_iff_ne] at h
    exact h.2 w hw

section Characters

variable {s : Setting} {a : Pattern Rule} {c d : Cursor} {w : List Char} {x : Char}
  {rest : List Char}

/-- Characters that a pattern passes one by one, up to where it is refused. -/
theorem derives_loop_chars {q : Char → Bool}
    (hnext : ∀ {c : Cursor} {x : Char} {rest : List Char}, c.rest = x :: rest → q x = true →
      Derives grammar s a c (some ([], ⟨c.pos.advance x, rest⟩)))
    (hpass : c.Passes w d) (hw : w.all q = true) (hstop : Derives grammar s a d none) :
    Derives grammar s (.loop a) c (some ([], d)) := by
  induction w generalizing c with
  | nil =>
    have hc : c = d := Option.some.inj hpass.accept
    rw [hc]
    exact .loopStop hstop
  | cons x w ih =>
    rw [List.all_cons, Bool.and_eq_true] at hw
    exact .loopNext (hnext hpass.1 hw.1)
      (ih (c := ⟨c.pos.advance x, w ++ d.rest⟩) ⟨rfl, hpass.2⟩ hw.2)

theorem derives_letter (l : Letter) (h : c.rest = x :: rest) (hx : l.holds x = true) :
    Derives grammar s (.letter l) c (some ([], ⟨c.pos.advance x, rest⟩)) := by
  obtain ⟨pos, _⟩ := c
  cases h
  rw [derives_letter_iff, Cursor.acceptChar, if_pos hx]
  rfl

theorem derives_letter_refused (l : Letter) (h : ∀ x ∈ c.rest.head?, l.holds x = false) :
    Derives grammar s (.letter l) c none := by
  obtain ⟨pos, _ | ⟨x, rest⟩⟩ := c
  · rw [derives_letter_iff]
    rfl
  · rw [derives_letter_iff, Cursor.acceptChar, h x rfl]
    rfl

theorem derives_underscore (h : c.rest = '_' :: rest) :
    Derives grammar s (lit "_") c (some ([], ⟨c.pos.advance '_', rest⟩)) := by
  obtain ⟨pos, _⟩ := c
  cases h
  rw [lit, derives_text_iff]
  rfl

/-- A letter of the class or an underscore. -/
theorem derives_letterOr (l : Letter) (h : c.rest = x :: rest)
    (hx : (l.holds x || x == '_') = true) :
    Derives grammar s (alt (letter l) (lit "_")) c (some ([], ⟨c.pos.advance x, rest⟩)) := by
  cases hl : l.holds x with
  | true => exact .altFirst (derives_letter l h hl)
  | false =>
    rw [hl, Bool.false_or, beq_iff_eq] at hx
    subst hx
    refine .altSecond (derives_letter_refused l fun y hy => ?_) (derives_underscore h)
    rw [h] at hy
    cases hy
    exact hl

theorem derives_identChar (h : c.rest = x :: rest) (hx : isNameChar x = true) :
    Derives grammar s identChar c (some ([], ⟨c.pos.advance x, rest⟩)) :=
  derives_letterOr .alphanum h hx

theorem derives_identChar_refused (h : ∀ x ∈ c.rest.head?, isNameChar x = false) :
    Derives grammar s identChar c none := by
  refine .altSecond (derives_letter_refused .alphanum fun x hx => ?_) ?_
  · exact (Bool.or_eq_false_iff.mp (h x hx)).1
  · obtain ⟨pos, _ | ⟨x, rest⟩⟩ := c
    · rw [lit, derives_text_iff]
      rfl
    · have hx := (Bool.or_eq_false_iff.mp (h x rfl)).2
      rw [beq_eq_false_iff_ne] at hx
      have hnone : Cursor.accept ['_'] ⟨pos, x :: rest⟩ = none := by
        rw [Cursor.accept, if_neg hx]
      exact derives_text_iff.mpr (congrArg Result.ofMove hnone.symm)

end Characters

section Words

variable {s : Setting} {c d : Cursor} {x rest v : List Char}

/-- Behind another word that a row of name characters begins with, the row goes on. -/
theorem isNameChar_behind (hc : c.rest = x ++ rest) (hx : x.all isNameChar = true)
    (hrest : ∀ y ∈ rest.head?, isNameChar y = false) (hv : v.all isNameChar = true) (hne : v ≠ x)
    (hpass : c.Passes v d) : ∃ y cs, d.rest = y :: cs ∧ isNameChar y = true := by
  have heq : v ++ d.rest = x ++ rest := hpass.1.symm.trans hc
  rcases List.append_eq_append_iff.mp heq with ⟨u, hu, hrest'⟩ | ⟨u, hu, hrest'⟩
  · cases u with
    | nil => exact absurd (hu.trans (List.append_nil v)).symm hne
    | cons y u =>
      refine ⟨y, u ++ rest, hrest', ?_⟩
      rw [hu, List.all_append, List.all_cons] at hx
      simp only [Bool.and_eq_true] at hx
      exact hx.2.1
  · cases u with
    | nil => exact absurd (hu.trans (List.append_nil x)) hne
    | cons y u =>
      rw [hu, List.all_append, List.all_cons] at hv
      simp only [Bool.and_eq_true] at hv
      rw [hrest y (by rw [hrest']; rfl)] at hv
      exact absurd hv.2.1 Bool.false_ne_true

/-- Of several words one is found, or none. -/
theorem derives_alts_lit (w : String) (ws : List String) (c : Cursor) :
    Derives grammar s (alts (lit w) (ws.map lit)) c none ∨
      ∃ v ∈ w :: ws, ∃ d, c.Passes v.toList d ∧
        Derives grammar s (alts (lit w) (ws.map lit)) c (some ([], d)) := by
  have hfirst (w : String) : Derives grammar s (lit w) c none ∨
      ∃ d, c.Passes w.toList d ∧ Derives grammar s (lit w) c (some ([], d)) := by
    cases hd : c.accept w.toList with
    | none => exact Or.inl (derives_text_iff.mpr (congrArg Result.ofMove hd.symm))
    | some d =>
      exact Or.inr ⟨d, Cursor.accept_passes hd,
        derives_text_iff.mpr (congrArg Result.ofMove hd.symm)⟩
  induction ws generalizing w with
  | nil =>
    rcases hfirst w with hnone | ⟨d, hpass, hone⟩
    · exact Or.inl hnone
    · exact Or.inr ⟨w, List.mem_singleton_self w, d, hpass, hone⟩
  | cons u ws ih =>
    rcases hfirst w with hnone | ⟨d, hpass, hone⟩
    · rcases ih u with hrest | ⟨v, hv, d, hpass, hone⟩
      · exact Or.inl (.altSecond hnone hrest)
      · exact Or.inr ⟨v, List.mem_cons_of_mem w hv, d, hpass, .altSecond hnone hone⟩
    · exact Or.inr ⟨w, List.mem_cons_self, d, hpass, .altFirst hone⟩

/-- Another word is refused at a row of name characters, unless it stands there as a whole. -/
theorem derives_words_refused (w : String) (ws : List String) (hs : s.weave = .solid)
    (hc : c.rest = x ++ rest) (hx : x.all isNameChar = true)
    (hrest : ∀ y ∈ rest.head?, isNameChar y = false)
    (hws : ∀ v ∈ w :: ws, v.toList.all isNameChar = true ∧ v.toList ≠ x) :
    Derives grammar s (seq (alts (lit w) (ws.map lit)) (.unless identChar)) c none := by
  rcases derives_alts_lit w ws c with hnone | ⟨v, hv, d, hpass, hone⟩
  · exact .catRefused hnone
  · obtain ⟨y, cs, hd, hy⟩ := isNameChar_behind hc hx hrest (hws v hv).1 (hws v hv).2 hpass
    refine .catHalf hone ((derives_tightThen_iff (by rw [hs]; decide)).mpr ?_)
    exact .unlessRefused (derives_identChar hd hy)

theorem derives_keyword_refused (hc : c.rest = x ++ rest) (hx : isName x = true)
    (hrest : ∀ y ∈ rest.head?, isNameChar y = false) :
    Derives grammar s (.call .keyword) c none := by
  have hwords : ∀ v ∈ Word.reserved.map Word.spelling,
      v.toList.all isNameChar = true ∧ v.toList ≠ x := by
    intro v hv
    obtain ⟨w, hw, rfl⟩ := List.mem_map.mp hv
    exact ⟨isNameChar_spelling w, spelling_ne_of_isName hx hw⟩
  have hbody := derives_words_refused (s := ⟨s.look, .solid⟩) Word.classWord.spelling
    (Word.reserved.tail.map Word.spelling) rfl hc (isName_all hx) hrest hwords
  rw [List.map_map] at hbody
  exact .rule hbody rfl

/-- A name is passed as a whole. -/
theorem derives_name (hs : s.weave = .solid) (hx : isName x = true) (hpass : c.Passes x d)
    (hd : ∀ y ∈ d.rest.head?, isNameChar y = false) :
    Derives grammar s (body .ident) c (some ([], d)) := by
  have htight : s.weave ≠ .spaced := by
    rw [hs]
    decide
  have hword : Derives grammar s (.unless (.call .keyword)) c (some ([], c)) :=
    .unlessPassed (derives_keyword_refused hpass.1 hx hd)
  cases x with
  | nil => cases hx
  | cons y x =>
    simp only [isName, Bool.and_eq_true] at hx
    have hfirst : Derives grammar s (alt (letter .alpha) (lit "_")) c
        (some ([], ⟨c.pos.advance y, x ++ d.rest⟩)) := derives_letterOr .alpha hpass.1 hx.1.1
    have hmore : Derives grammar s (many identChar) ⟨c.pos.advance y, x ++ d.rest⟩
        (some ([], d)) := by
      rw [derives_tightMany_iff htight]
      exact derives_loop_chars derives_identChar ⟨rfl, hpass.2⟩ hx.1.2
        (derives_identChar_refused hd)
    exact .cat hword ((derives_tightThen_iff htight).mpr
      (.cat hfirst ((derives_tightThen_iff htight).mpr hmore)))

end Words

/-- A space is no character of a name. -/
theorem not_isNameChar_of_space {d : Cursor} (hd : ∀ x ∈ d.rest.head?, x = ' ') :
    ∀ x ∈ d.rest.head?, isNameChar x = false := by
  intro x hx
  rw [hd x hx]
  decide

variable {t : String}

theorem firm_of_isNameChar {x : Char} (ht : t.toList = x :: cs) (hx : isNameChar x = true) :
    firm t = true := by
  have hne {y : Char} (hy : isNameChar y = false) : x ≠ y := by
    rintro rfl
    rw [hx] at hy
    cases hy
  rw [firm, ht]
  simp only [Cursor.isGapChar, beq_eq_false_iff_ne.mpr (hne (y := ' ') (by decide)),
    beq_eq_false_iff_ne.mpr (hne (y := '\t') (by decide)),
    beq_eq_false_iff_ne.mpr (hne (y := '\r') (by decide)),
    beq_eq_false_iff_ne.mpr (hne (y := '\n') (by decide)),
    bne_iff_ne.mpr (hne (y := '/') (by decide))]
  rfl

variable {ts : List String} {xs : List (List Char)} {r : Rule}

/-- A token of a rule without blanks. -/
theorem Takes.solid (hform : form r = .solid) (ht : firm t = true)
    (h : ∀ c d : Cursor, c.Passes t.toList d → (∀ x ∈ d.rest.head?, x = ' ') →
      Derives grammar ⟨.take, .solid⟩ (body r) c (some ([], d))) :
    Takes (.call r) (Mark r t) (t :: ts) ts := by
  refine Takes.token ht fun c d hpass hd => ?_
  have hinner : grammar.inner reading r = ⟨.take, .solid⟩ := by
    rw [Grammar.inner, if_pos (show grammar.form r = .solid from hform)]
  have hkeeps : (grammar.outer reading r).keeps = true := by
    rw [Setting.keeps, Grammar.outer, show grammar.form r = .solid from hform]
    rfl
  refine ⟨[.mk r c d.pos []], .rule (hinner ▸ h c d hpass hd) ?_, _, rfl, rfl, ?_⟩
  · simp only [Grammar.wrap, hkeeps, if_true]
  · rw [Node.text, Node.chars, hpass.upTo_eq, String.ofList_toList]

theorem takes_word (w : Word) :
    Takes (word w) (Mark (.word w) w.spelling) (w.spelling :: ts) ts := by
  have ht : firm w.spelling = true := by cases w <;> decide
  refine .solid rfl ht fun c d hpass hd => ?_
  have hlit : Derives grammar ⟨.take, .solid⟩ (lit w.spelling) c (some ([], d)) :=
    derives_text_iff.mpr (congrArg Result.ofMove hpass.accept.symm)
  exact .cat hlit ((derives_tightThen_iff (by decide)).mpr
    (.unlessPassed (derives_identChar_refused (not_isNameChar_of_space hd))))

/-- A word leaves a node before those of what follows it. -/
theorem Takes.afterWord {w : Word} {p : Pattern Rule} {N M : List (Node Rule) → Prop}
    {ts' : List String} (h : Takes p N ts ts')
    (hM : ∀ {n ns}, n.rule.isWord = true → N ns → M (n :: ns)) :
    Takes (.seq (word w) p) M (w.spelling :: ts) ts' := by
  refine (takes_word w).seq h ?_
  rintro _ ms ⟨n, rfl, hn, -⟩ hms
  exact hM (by rw [hn]; rfl) hms

/-- A word is refused at another token of name characters. -/
theorem refuses_word {w : Word} (ht : t.toList.all isNameChar = true) (hne : t ≠ w.spelling) :
    Refuses (word w) (t :: ts) := by
  intro c hc
  have hbehind : ∀ y ∈ (behind ts).head?, isNameChar y = false := by
    intro y hy
    rw [behind_head ts y hy]
    decide
  have hbody := derives_words_refused (s := ⟨.take, .solid⟩) w.spelling [] rfl
    (hc.trans (spaced_cons t ts)) ht hbehind fun v hv => by
      obtain rfl := List.mem_singleton.mp hv
      exact ⟨isNameChar_spelling w, fun heq => hne (String.toList_inj.mp heq.symm)⟩
  exact .rule hbody rfl

theorem takes_name (ht : isName t.toList = true) :
    Takes (.call .ident) (Mark .ident t) (t :: ts) ts := by
  have hfirm : firm t = true := by
    have hall := isName_all ht
    cases hchars : t.toList with
    | nil =>
      rw [hchars] at ht
      cases ht
    | cons x cs =>
      rw [hchars, List.all_cons, Bool.and_eq_true] at hall
      exact firm_of_isNameChar hchars hall.1
  exact .solid rfl hfirm fun c d hpass hd =>
    derives_name rfl ht hpass (not_isNameChar_of_space hd)

theorem intercalate_singleton {α : Type} (s : α) (x : List α) (xs : List (List α)) :
    [s].intercalate (x :: xs) = x ++ xs.flatMap (s :: ·) := by
  induction xs generalizing x with
  | nil => simp
  | cons y xs ih =>
    rw [List.intercalate_cons_cons, ih, List.flatMap_cons]
    simp

section ModuleNames

/-- Behind a part of a name divided by dots stands a dot or a space. -/
theorem not_isNameChar_of_dotted {rest : List Char} (hrest : ∀ x ∈ rest.head?, x = ' ') :
    ∀ x ∈ (xs.flatMap ('.' :: ·) ++ rest).head?, isNameChar x = false := by
  cases xs with
  | nil =>
    intro x hx
    rw [hrest x hx]
    decide
  | cons y xs =>
    rintro _ ⟨⟩
    decide

theorem derives_part {c d : Cursor} {x : List Char} (hx : isName x = true) (hpass : c.Passes x d)
    (hd : ∀ y ∈ d.rest.head?, isNameChar y = false) :
    Derives grammar ⟨.take, .solid⟩ (.call .ident) c (some ([], d)) :=
  .rule (derives_name rfl hx hpass hd) rfl

theorem derives_parts {c d : Cursor} (hxs : ∀ x ∈ xs, isName x = true)
    (hpass : c.Passes (xs.flatMap ('.' :: ·)) d) (hd : ∀ x ∈ d.rest.head?, x = ' ') :
    Derives grammar ⟨.take, .solid⟩ (.loop (seq (lit ".") (.call .ident))) c (some ([], d)) := by
  induction xs generalizing c with
  | nil =>
    have hc : c = d := Option.some.inj hpass.accept
    subst hc
    refine .loopStop (.catRefused (derives_text_iff.mpr ?_))
    obtain ⟨pos, _ | ⟨x, rest⟩⟩ := c
    · rfl
    · cases hd x rfl
      rfl
  | cons x xs ih =>
    obtain ⟨pos, _⟩ := c
    obtain ⟨hrest, hpos⟩ := hpass
    rw [List.flatMap_cons, List.cons_append, List.cons_append, List.append_assoc] at hrest
    cases hrest
    have hdot : Derives grammar ⟨.take, .solid⟩ (lit ".")
        ⟨pos, '.' :: (x ++ (xs.flatMap ('.' :: ·) ++ d.rest))⟩
        (some ([], ⟨pos.advance '.', x ++ (xs.flatMap ('.' :: ·) ++ d.rest)⟩)) :=
      derives_text_iff.mpr rfl
    have hpart := derives_part (c := ⟨pos.advance '.', x ++ (xs.flatMap ('.' :: ·) ++ d.rest)⟩)
      (d := ⟨x.foldl Position.advance (pos.advance '.'), xs.flatMap ('.' :: ·) ++ d.rest⟩)
      (hxs x List.mem_cons_self) ⟨rfl, rfl⟩ (not_isNameChar_of_dotted hd)
    refine .loopNext (.cat hdot ((derives_tightThen_iff (by decide)).mpr hpart)) ?_
    refine ih (fun y hy => hxs y (List.mem_cons_of_mem x hy)) ⟨rfl, hpos.trans ?_⟩
    rw [List.flatMap_cons, List.cons_append, List.foldl_cons, List.foldl_append]

theorem takes_moduleName (ht : isModuleName t.toList = true) :
    Takes (.call .moduleName) (Mark .moduleName t) (t :: ts) ts := by
  obtain ⟨x, xs, hsplit⟩ := List.exists_cons_of_ne_nil (List.splitOn_ne_nil '.' t.toList)
  have hchars : t.toList = x ++ xs.flatMap ('.' :: ·) := by
    rw [← intercalate_singleton, ← hsplit, List.intercalate_splitOn]
  rw [isModuleName, hsplit, List.all_cons, Bool.and_eq_true, List.all_eq_true] at ht
  have hfirm : firm t = true := by
    have hall := isName_all ht.1
    cases x with
    | nil => cases ht.1
    | cons y x =>
      rw [List.all_cons, Bool.and_eq_true] at hall
      exact firm_of_isNameChar hchars hall.1
  refine .solid rfl hfirm fun c d hpass hd => ?_
  rw [hchars] at hpass
  have hrest : c.rest = x ++ (xs.flatMap ('.' :: ·) ++ d.rest) := by
    rw [hpass.1, List.append_assoc]
  have hfirst := derives_part (c := c)
    (d := ⟨x.foldl Position.advance c.pos, xs.flatMap ('.' :: ·) ++ d.rest⟩) ht.1 ⟨hrest, rfl⟩
    (not_isNameChar_of_dotted hd)
  have hmore := derives_parts
    (c := ⟨x.foldl Position.advance c.pos, xs.flatMap ('.' :: ·) ++ d.rest⟩) ht.2
    ⟨rfl, hpass.2.trans (List.foldl_append ..)⟩ hd
  exact .cat hfirst ((derives_tightThen_iff (by decide)).mpr
    ((derives_tightMany_iff (by decide)).mpr hmore))

end ModuleNames

section Symbols

def symbols : Rule → List String
  | .addOp => ["+", "-"]
  | .mulOp => ["*", "/"]
  | .assignOp => ["+=", "-=", "*=", "/=", "="]
  | .operator => ["()", "[]", "+=", "-=", "*=", "/=", "+", "-", "*", "/", "isa", "."]
  | _ => []

theorem derives_symbol (ht : t ∈ symbols r) (pos : Position) {rest : List Char}
    (hrest : rest = [] ∨ ∃ cs, rest = ' ' :: cs) :
    Derives grammar ⟨.take, .solid⟩ (body r) ⟨pos, t.toList ++ rest⟩
      (some ([], ⟨t.toList.foldl Position.advance pos, rest⟩)) := by
  suffices hrun : (run grammar 20 ⟨.take, .solid⟩ (body r) ⟨pos, t.toList ++ rest⟩ .none).result? =
      some (some ([], ⟨t.toList.foldl Position.advance pos, rest⟩)) from .of_run hrun
  unfold symbols at ht
  split at ht <;> simp only [List.mem_cons, List.not_mem_nil, or_false] at ht
  · rcases ht with rfl | rfl <;> rcases hrest with rfl | ⟨cs, rfl⟩ <;> rfl
  · rcases ht with rfl | rfl <;> rcases hrest with rfl | ⟨cs, rfl⟩ <;> rfl
  · rcases ht with rfl | rfl | rfl | rfl | rfl <;> rcases hrest with rfl | ⟨cs, rfl⟩ <;> rfl
  · rcases ht with rfl | rfl | rfl | rfl | rfl | rfl | rfl | rfl | rfl | rfl | rfl | rfl <;>
      rcases hrest with rfl | ⟨cs, rfl⟩ <;> rfl

theorem takes_symbol (ht : t ∈ symbols r) :
    Takes (.call r) (Mark r t) (t :: ts) ts := by
  have hr : form r = .solid ∧ firm t = true := by
    have h : ∀ r ∈ Rule.all, ∀ t ∈ symbols r, form r = .solid ∧ firm t = true := by
      decide +kernel
    exact h r r.mem_all t ht
  refine .solid hr.1 hr.2 fun c d hpass hd => ?_
  have hrest : d.rest = [] ∨ ∃ cs, d.rest = ' ' :: cs := by
    cases hd' : d.rest with
    | nil => exact Or.inl rfl
    | cons x cs =>
      rw [hd'] at hd
      exact Or.inr ⟨cs, by rw [hd x rfl]⟩
  have hone := derives_symbol ht c.pos hrest
  rw [← hpass.1, ← hpass.2] at hone
  exact hone

end Symbols

section Literals

theorem derives_digits {s : Setting} (hs : s.weave = .solid) {c d : Cursor} {ds : List Char}
    (hds : ds.all Char.isDigit = true) (hne : ds ≠ []) (hpass : c.Passes ds d)
    (hd : ∀ x ∈ d.rest.head?, x = ' ') :
    Derives grammar s (many1 (letter .digit)) c (some ([], d)) := by
  have htight : s.weave ≠ .spaced := by
    rw [hs]
    decide
  have hstop : Derives grammar s (letter .digit) d none := by
    refine derives_letter_refused .digit fun x hx => ?_
    rw [hd x hx]
    decide
  cases ds with
  | nil => exact absurd rfl hne
  | cons x ds =>
    rw [List.all_cons, Bool.and_eq_true] at hds
    have hfirst := derives_letter (s := s) .digit hpass.1 hds.1
    have hmore := derives_loop_chars (s := s) (c := ⟨c.pos.advance x, ds ++ d.rest⟩)
      (fun h hx => derives_letter .digit h hx) ⟨rfl, hpass.2⟩ hds.2 hstop
    exact .cat hfirst ((derives_tightThen_iff htight).mpr
      ((derives_tightMany_iff htight).mpr hmore))

theorem isDigit_repr (n : Nat) : n.repr.toList.all Char.isDigit = true := by
  rw [Nat.toList_repr, List.all_eq_true]
  intro x hx
  exact Nat.isDigit_of_mem_toDigits (by decide) (by decide) hx

theorem repr_toList_ne_nil (n : Nat) : n.repr.toList ≠ [] := by
  rw [Nat.toList_repr]
  exact Nat.toDigits_ne_nil

theorem ofDigits_repr (n : Nat) : Decimal.ofDigits n.repr.toList = n := by
  rw [Nat.toList_repr]
  exact Nat.ofDigitChars_toDigits (by decide) (by decide)

theorem firm_repr (n : Nat) : firm n.repr = true := by
  have hdigits := isDigit_repr n
  cases hchars : n.repr.toList with
  | nil => exact absurd hchars (repr_toList_ne_nil n)
  | cons x cs =>
    rw [hchars, List.all_cons, Bool.and_eq_true] at hdigits
    refine firm_of_isNameChar hchars ?_
    rw [isNameChar, Char.isAlphanum, hdigits.1, Bool.or_true, Bool.true_or]

theorem takes_integer (n : Nat) : Takes (.call .integer) (Mark .integer n.repr) (n.repr :: ts) ts :=
  .solid rfl (firm_repr n) fun _ _ hpass hd =>
    derives_digits rfl (isDigit_repr n) (repr_toList_ne_nil n) hpass hd

/-- A whole number is no number with a point. -/
theorem refuses_float (n : Nat) : Refuses (.call .float) (n.repr :: ts) := by
  intro c hc
  have hpass : c.Passes n.repr.toList ⟨n.repr.toList.foldl Position.advance c.pos, behind ts⟩ :=
    ⟨hc.trans (spaced_cons _ ts), rfl⟩
  have hwhole := derives_digits (s := ⟨.take, .solid⟩) rfl (isDigit_repr n) (repr_toList_ne_nil n)
    hpass (behind_head ts)
  have hpoint : Derives grammar ⟨.take, .solid⟩ (lit ".")
      ⟨n.repr.toList.foldl Position.advance c.pos, behind ts⟩ none := by
    refine derives_text_iff.mpr ?_
    rw [behind]
    split <;> rfl
  have hbody : Derives grammar ⟨.take, .solid⟩ (body .float) c none :=
    .catHalf hwhole ((derives_tightThen_iff (by decide)).mpr (.catRefused hpoint))
  exact .rule hbody rfl

/-- The characters of a string literal: only quotes and backslashes are set apart. -/
def escaped (cs : List Char) : List Char :=
  cs.flatMap fun c => if c = '"' ∨ c = '\\' then ['\\', c] else [c]

def quote (s : String) : String := String.ofList ('"' :: (escaped s.toList ++ ['"']))

theorem unbroken_escaped (cs : List Char) : unbroken (escaped cs) = true := by
  induction cs with
  | nil => rfl
  | cons c cs ih =>
    rw [escaped, List.flatMap_cons]
    split
    · exact ih
    · next hc =>
      obtain ⟨hquote, hslash⟩ := not_or.mp hc
      rw [List.singleton_append, unbroken_cons hquote hslash]
      exact ih

theorem unescape_escaped (cs : List Char) : unescape (escaped cs) = cs := by
  induction cs with
  | nil => rfl
  | cons c cs ih =>
    rw [escaped, List.flatMap_cons]
    split
    · next hc =>
      have hvalue : unescapeChar c = c := by rcases hc with rfl | rfl <;> rfl
      rw [List.cons_append, List.cons_append, List.nil_append, unescape, hvalue]
      exact congrArg (c :: ·) ih
    · next hc =>
      obtain ⟨-, hslash⟩ := not_or.mp hc
      rw [List.singleton_append, unescape]
      · exact congrArg (c :: ·) ih
      · exact fun heq _ => hslash heq
      · exact fun _ _ heq _ => hslash heq

theorem takes_string (s : String) :
    Takes (.call .string) (fun ns => ∃ n, ns = [n] ∧ expr n = .ok (.string s))
    (quote s :: ts) ts := by
  have hchars : (quote s).toList = '"' :: (escaped s.toList ++ ['"']) := String.toList_ofList
  have hfirm : firm (quote s) = true := by
    rw [firm, hchars]
    rfl
  refine Takes.token hfirm fun c d hpass hd => ?_
  rw [hchars] at hpass
  obtain ⟨pos, rest⟩ := d
  have hrest : c.rest = '"' :: (escaped s.toList ++ '"' :: rest) := by
    rw [hpass.1]
    simp
  have hpos : pos =
      ((escaped s.toList).foldl Position.advance (c.pos.advance '"')).advance '"' := by
    rw [show pos = _ from hpass.2, List.foldl_cons, List.foldl_append]
    rfl
  refine ⟨_, derives_string (unbroken_escaped s.toList) hrest rfl rfl hpos, _, rfl, ?_⟩
  have hcontent : (⟨c.pos.advance '"', escaped s.toList ++ '"' :: rest⟩ : Cursor).upTo
      ((escaped s.toList).foldl Position.advance (c.pos.advance '"')) = escaped s.toList :=
    Cursor.Passes.upTo_eq (d := ⟨_, '"' :: rest⟩) ⟨rfl, rfl⟩
  rw [expr, exprOf, stringLiteral, List.head?_cons, Option.map_some, Option.getD_some, Node.chars,
    hcontent, unescape_escaped, String.ofList_toList]

end Literals

end ObjectLang.Syntax
