import ObjectLang.Proofs.Syntax.Shapes
import ObjectLang.Proofs.Syntax.Words

/-!
The texts of tokens.
A match of a rule without blanks passes a text of the form that its rule has: a name is no reserved
word, a module name is made of names, an operator is one of the operators, a number with a point has
digits on both sides of it, and a backslash between quotes sets a character apart.
-/
namespace ObjectLang.Syntax

open Peg Pattern

/-- The form of the texts that nodes of a rule without blanks have. -/
def Spelt : Rule → List Char → Prop
  | .ident, cs => isName cs = true
  | .moduleName, cs => isModuleName cs = true
  | .operator, cs => String.ofList cs ∈ symbols .operator
  | .float, cs => (Decimal.ofLiteral? cs).isSome = true
  | .stringContent, cs => unbroken cs = true
  | _, _ => True

variable {s : Setting} {c d : Cursor} {ns : List (Node Rule)} {l : Letter} {w : Word}

section Characters

theorem letter_passes (h : Derives grammar s (letter l) c (some (ns, d))) :
    ∃ x, l.holds x = true ∧ c.Passes [x] d := by
  rw [derives_letter_iff] at h
  obtain ⟨_, hd, hpair⟩ := Option.map_eq_some_iff.mp h.symm
  cases hpair
  exact Cursor.acceptChar_passes hd

theorem lit_passes {w : String} (h : Derives grammar s (lit w) c (some (ns, d))) :
    c.Passes w.toList d := by
  rw [lit, derives_text_iff] at h
  obtain ⟨_, hd, hpair⟩ := Option.map_eq_some_iff.mp h.symm
  cases hpair
  exact Cursor.accept_passes hd

theorem letterOr_passes (h : Derives grammar s (alt (letter l) (lit "_")) c (some (ns, d))) :
    ∃ x, (l.holds x || x == '_') = true ∧ c.Passes [x] d := by
  cases h with
  | altFirst one =>
    obtain ⟨x, hx, hpass⟩ := letter_passes one
    exact ⟨x, by rw [hx, Bool.true_or], hpass⟩
  | altSecond _ one => exact ⟨'_', by simp, lit_passes one⟩

/-- Rounds that each pass one character of a kind pass a row of them. -/
theorem loop_passes {a : Pattern Rule} {q : Char → Bool}
    (hone : ∀ {c d : Cursor} {ns : List (Node Rule)}, Derives grammar s a c (some (ns, d)) →
      ∃ x, q x = true ∧ c.Passes [x] d)
    (h : Derives grammar s (.loop a) c (some (ns, d))) :
    ∃ w, w.all q = true ∧ c.Passes w d ∧ Derives grammar s a d none := by
  refine Derives.loop_induction
    (motive := fun c _ d => ∃ w, w.all q = true ∧ c.Passes w d ∧ Derives grammar s a d none)
    (fun c hstop => ⟨[], rfl, .refl c, hstop⟩) ?_ h
  rintro c d e ns ms one ⟨w, hw, hpass, hstop⟩
  obtain ⟨x, hx, hfirst⟩ := hone one
  exact ⟨x :: w, by rw [List.all_cons, hx, hw]; rfl, hfirst.trans hpass, hstop⟩

theorem not_isNameChar_of_refused (h : Derives grammar s identChar c none) :
    ∀ x ∈ c.rest.head?, isNameChar x = false := by
  intro x hx
  obtain ⟨pos, _ | ⟨y, rest⟩⟩ := c
  · cases hx
  · cases hx
    cases hname : isNameChar x with
    | false => rfl
    | true => cases h.unique (derives_identChar rfl hname)

end Characters

section Names

/-- A reserved word is found where it stands. -/
theorem derives_reserved (hw : w ∈ Word.reserved) (pos : Position) (rest : List Char) :
    Derives grammar s
      (alts (lit Word.classWord.spelling) (Word.reserved.tail.map fun w => lit w.spelling))
      ⟨pos, w.spelling.toList ++ rest⟩
      (some ([], ⟨w.spelling.toList.foldl Position.advance pos, rest⟩)) := by
  suffices hrun : (run grammar 20 s
      (alts (lit Word.classWord.spelling) (Word.reserved.tail.map fun w => lit w.spelling))
      ⟨pos, w.spelling.toList ++ rest⟩ .none).result? =
        some (some ([], ⟨w.spelling.toList.foldl Position.advance pos, rest⟩)) from .of_run hrun
  simp only [Word.reserved, List.mem_cons, List.not_mem_nil, or_false] at hw
  rcases hw with rfl | rfl | rfl | rfl | rfl | rfl | rfl | rfl | rfl | rfl | rfl | rfl <;> rfl

theorem derives_keyword (hw : w ∈ Word.reserved) (hpass : c.Passes w.spelling.toList d)
    (hd : ∀ x ∈ d.rest.head?, isNameChar x = false) :
    ∃ ns, Derives grammar s (.call .keyword) c (some (ns, d)) := by
  obtain ⟨pos, rest⟩ := c
  obtain ⟨hrest, hpos⟩ := hpass
  obtain ⟨pos', rest'⟩ := d
  have hrest : rest = w.spelling.toList ++ rest' := hrest
  have hpos : pos' = w.spelling.toList.foldl Position.advance pos := hpos
  subst hrest hpos
  have hbody : Derives grammar ⟨s.look, .solid⟩ (body .keyword) ⟨pos, w.spelling.toList ++ rest'⟩
      (some ([], ⟨w.spelling.toList.foldl Position.advance pos, rest'⟩)) :=
    .cat (derives_reserved hw pos rest') ((derives_tightThen_iff (by nofun)).mpr
      (.unlessPassed (derives_identChar_refused hd)))
  exact ⟨_, .rule hbody rfl⟩

/-- What is matched as a name is a name, and no character of a name follows it. -/
theorem name_passes (hs : s.weave = .solid)
    (h : Derives grammar s (body .ident) c (some (ns, d))) :
    ∃ w, isName w = true ∧ c.Passes w d ∧ ∀ x ∈ d.rest.head?, isNameChar x = false := by
  have htight : s.weave ≠ .spaced := by
    rw [hs]
    decide
  have h : Derives grammar s (.cat (.unless (.call .keyword)) (.cat .gap
    (.cat (alt (letter .alpha) (lit "_")) (.cat .gap (many identChar))))) c (some (ns, d)) := h
  cases h with
  | cat noWord rest =>
    rw [derives_tightThen_iff htight] at rest
    cases rest with
    | cat first more =>
      rw [derives_tightThen_iff htight, derives_tightMany_iff htight] at more
      cases noWord with
      | unlessPassed noWord =>
        obtain ⟨x, hx, hfirst⟩ := letterOr_passes first
        obtain ⟨w, hw, hmore, hstop⟩ := loop_passes (q := isNameChar)
          (fun one => letterOr_passes (l := .alphanum) one) more
        have hd := not_isNameChar_of_refused hstop
        have hpass : c.Passes (x :: w) d := hfirst.trans hmore
        refine ⟨x :: w, ?_, hpass, hd⟩
        have hx : (x.isAlpha || x == '_') = true := hx
        rw [isName, hx, hw, Bool.true_and, Bool.true_and, List.all_eq_true]
        intro word hword
        rw [bne_iff_ne]
        intro hspelling
        obtain ⟨_, hkeyword⟩ := derives_keyword hword (hspelling ▸ hpass) hd
        cases noWord.unique hkeyword

theorem part_passes (h : Derives grammar s (.call .ident) c (some (ns, d))) :
    ∃ w, isName w = true ∧ c.Passes w d := by
  obtain ⟨_ | ⟨ms, e⟩, inner, hres⟩ := derives_call_iff.mp h
  · cases hres
  · cases hres
    obtain ⟨w, hw, hpass, -⟩ := name_passes (by rw [Grammar.inner_solid rfl]) inner
    exact ⟨w, hw, hpass⟩

/-- The parts of a text that is divided by dots, if none of them has a dot. -/
theorem splitOn_parts {x : List Char} {xs : List (List Char)} (hx : '.' ∉ x)
    (hxs : ∀ y ∈ xs, '.' ∉ y) : (x ++ xs.flatMap ('.' :: ·)).splitOn '.' = x :: xs := by
  rw [← intercalate_singleton]
  refine List.splitOn_intercalate '.' ?_ (List.cons_ne_nil x xs)
  intro y hy
  rcases List.mem_cons.mp hy with rfl | hy
  · exact hx
  · exact hxs y hy

theorem dot_not_mem {w : List Char} (hw : isName w = true) : '.' ∉ w := by
  intro hdot
  have hall := List.all_eq_true.mp (isName_all hw) '.' hdot
  revert hall
  decide

theorem moduleName_passes (hs : s.weave = .solid)
    (h : Derives grammar s (body .moduleName) c (some (ns, d))) :
    ∃ w, isModuleName w = true ∧ c.Passes w d := by
  have htight : s.weave ≠ .spaced := by
    rw [hs]
    decide
  have h : Derives grammar s (.cat (.call .ident) (.cat .gap (many (seq (lit ".") (.call .ident)))))
    c (some (ns, d)) := h
  cases h with
  | cat first more =>
    rw [derives_tightThen_iff htight, derives_tightMany_iff htight] at more
    obtain ⟨x, hx, hfirst⟩ := part_passes first
    obtain ⟨xs, hxs, hmore⟩ : ∃ xs : List (List Char), (∀ y ∈ xs, isName y = true) ∧
        Cursor.Passes _ (xs.flatMap ('.' :: ·)) d := by
      refine Derives.loop_induction (motive := fun c _ d => ∃ xs : List (List Char),
        (∀ y ∈ xs, isName y = true) ∧ c.Passes (xs.flatMap ('.' :: ·)) d)
        (fun c _ => ⟨[], nofun, .refl c⟩) ?_ more
      rintro c d e ns ms one ⟨xs, hxs, hpass⟩
      cases one with
      | cat dot part =>
        rw [derives_tightThen_iff htight] at part
        obtain ⟨y, hy, hpart⟩ := part_passes part
        refine ⟨y :: xs, ?_, ?_⟩
        · intro z hz
          rcases List.mem_cons.mp hz with rfl | hz
          · exact hy
          · exact hxs z hz
        · exact ((lit_passes dot).trans hpart).trans hpass
    refine ⟨_, ?_, hfirst.trans hmore⟩
    rw [isModuleName, splitOn_parts (dot_not_mem hx) fun y hy => dot_not_mem (hxs y hy),
      List.all_cons, hx, Bool.true_and, List.all_eq_true]
    exact hxs

end Names

/-- One of several words has been passed. -/
theorem alts_passes (w : String) (ws : List String)
    (h : Derives grammar s (alts (lit w) (ws.map lit)) c (some (ns, d))) :
    ∃ v ∈ w :: ws, c.Passes v.toList d := by
  rcases derives_alts_lit w ws c with hnone | ⟨v, hv, e, hpass, hone⟩
  · cases h.unique hnone
  · cases h.unique hone
    exact ⟨v, hv, hpass⟩

theorem digits_pass (hs : s.weave = .solid)
    (h : Derives grammar s (many1 (letter .digit)) c (some (ns, d))) :
    ∃ w, w ≠ [] ∧ w.all Char.isDigit = true ∧ c.Passes w d := by
  have htight : s.weave ≠ .spaced := by
    rw [hs]
    decide
  cases h with
  | cat first more =>
    rw [derives_tightThen_iff htight, derives_tightMany_iff htight] at more
    obtain ⟨x, hx, hfirst⟩ := letter_passes first
    obtain ⟨w, hw, hmore, -⟩ := loop_passes (q := Char.isDigit) (letter_passes (l := .digit)) more
    have hx : x.isDigit = true := hx
    exact ⟨x :: w, List.cons_ne_nil _ _, by rw [List.all_cons, hx, hw]; rfl, hfirst.trans hmore⟩

/-- Digits on both sides of a point make a number. -/
theorem ofLiteral?_isSome {whole fraction : List Char} (hwhole : whole ≠ [])
    (hdigits : whole.all Char.isDigit = true) (hfraction : fraction ≠ [])
    (hmore : fraction.all Char.isDigit = true) :
    (Decimal.ofLiteral? (whole ++ '.' :: fraction)).isSome = true := by
  have hall : ∀ x ∈ whole, x.isDigit = true := List.all_eq_true.mp hdigits
  have htake : (whole ++ '.' :: fraction).takeWhile Char.isDigit = whole := by
    rw [List.takeWhile_append_of_pos hall, List.takeWhile_cons_of_neg (by decide), List.append_nil]
  have hdrop : (whole ++ '.' :: fraction).dropWhile Char.isDigit = '.' :: fraction := by
    rw [List.dropWhile_append_of_pos hall, List.dropWhile_cons_of_neg (by decide)]
  simp [Decimal.ofLiteral?, htake, hdrop, hwhole, hfraction, hmore]

variable (hs : s.weave = .solid)
include hs

theorem float_passes (h : Derives grammar s (body .float) c (some (ns, d))) :
    ∃ w, (Decimal.ofLiteral? w).isSome = true ∧ c.Passes w d := by
  have htight : s.weave ≠ .spaced := by
    rw [hs]
    decide
  have h : Derives grammar s (.cat (many1 (letter .digit)) (.cat .gap
    (.cat (lit ".") (.cat .gap (many1 (letter .digit)))))) c (some (ns, d)) := h
  cases h with
  | cat first rest =>
    rw [derives_tightThen_iff htight] at rest
    cases rest with
    | cat point more =>
      rw [derives_tightThen_iff htight] at more
      obtain ⟨whole, hwhole, hdigits, hfirst⟩ := digits_pass hs first
      obtain ⟨fraction, hfraction, hmore, hlast⟩ := digits_pass hs more
      exact ⟨_, ofLiteral?_isSome hwhole hdigits hfraction hmore,
        hfirst.trans ((lit_passes point).trans hlast)⟩

theorem stringContent_passes (h : Derives grammar s (body .stringContent) c (some (ns, d))) :
    ∃ w, unbroken w = true ∧ c.Passes w d := by
  have hloop := (derives_tightMany_iff (by rw [hs]; decide)).mp
    (show Derives grammar s (.many stringUnit) c (some (ns, d)) from h)
  obtain ⟨w, hpass⟩ := h.passes
  refine ⟨w, ?_, hpass⟩
  obtain ⟨v, hv, hrest⟩ := Derives.loop_induction
    (motive := fun c _ d => ∃ w, unbroken w = true ∧ c.rest = w ++ d.rest)
    (fun c _ => ⟨[], rfl, rfl⟩)
    (fun one ⟨w, hw, hrest⟩ => by
      obtain ⟨-, v, hv, hunbroken⟩ := unit_passes hs one
      exact ⟨v ++ w, by rw [hunbroken, hw], by rw [hv, hrest, List.append_assoc]⟩) hloop
  rw [List.append_cancel_right (hpass.1.symm.trans hrest)]
  exact hv

/-- The text of a match without blanks has the form that its rule asks for. -/
theorem spelt_of_derives {r : Rule} (h : Derives grammar s (body r) c (some (ns, d))) :
    Spelt r (c.upTo d.pos) := by
  suffices hpasses : ∃ w, Spelt r w ∧ c.Passes w d by
    obtain ⟨w, hw, hpass⟩ := hpasses
    rw [hpass.upTo_eq]
    exact hw
  cases r with
  | ident =>
    obtain ⟨w, hw, hpass, -⟩ := name_passes hs h
    exact ⟨w, hw, hpass⟩
  | moduleName => exact moduleName_passes hs h
  | operator =>
    obtain ⟨v, hv, hpass⟩ := alts_passes "()"
      ["[]", "+=", "-=", "*=", "/=", "+", "-", "*", "/", "isa", "."] h
    refine ⟨v.toList, ?_, hpass⟩
    rw [Spelt, String.ofList_toList]
    exact hv
  | float => exact float_passes hs h
  | stringContent => exact stringContent_passes hs h
  | _ =>
    obtain ⟨w, hpass⟩ := h.passes
    exact ⟨w, trivial, hpass⟩

end ObjectLang.Syntax
