import ObjectLang.Peg.Match

/-!
Matches as derivations.
A run that does not end for want of fuel says what the grammar derives for a pattern at a cursor,
whatever failures were recorded before it. A derivation is unique, and the nodes that it makes hold
the texts that were passed.
-/
namespace ObjectLang

variable {word : List Char}

namespace Cursor

def Passes (c : Cursor) (w : List Char) (d : Cursor) : Prop :=
  c.rest = w ++ d.rest ∧ d.pos = w.foldl Position.advance c.pos

variable {rest : List Char} {x : Char} {pos : Position}

namespace Passes

variable {c d e : Cursor} {w w' : List Char}

theorem refl (c : Cursor) : c.Passes [] c := ⟨rfl, rfl⟩

theorem trans (h : c.Passes w d) (h' : d.Passes w' e) : c.Passes (w ++ w') e := by
  refine ⟨?_, ?_⟩
  · rw [h.1, h'.1, List.append_assoc]
  · rw [h'.2, h.2, List.foldl_append]

/-- Passing a character first. -/
theorem cons (h : (⟨pos.advance x, rest⟩ : Cursor).Passes w d) :
    (⟨pos, x :: rest⟩ : Cursor).Passes (x :: w) d :=
  ⟨congrArg (x :: ·) h.1, h.2⟩

theorem length_le (h : c.Passes w d) : d.rest.length ≤ c.rest.length := by
  rw [h.1, List.length_append]
  omega

theorem length_lt (h : c.Passes w d) (hw : w ≠ []) : d.rest.length < c.rest.length := by
  have hpos := List.length_pos_iff.mpr hw
  rw [h.1, List.length_append]
  omega

/-- The text that is passed is told by its ends. -/
theorem unique (h : c.Passes w d) (h' : c.Passes w' d) : w = w' :=
  List.append_cancel_right (h.1.symm.trans h'.1)

theorem offset_foldl (w : List Char) (p : Position) :
    (w.foldl Position.advance p).offset = p.offset + byteLength w := by
  induction w generalizing p with
  | nil => rfl
  | cons x w ih =>
    rw [List.foldl_cons, ih, Position.offset_advance, byteLength]
    omega

theorem takeBytes_append (w rest : List Char) : takeBytes (byteLength w) (w ++ rest) = w := by
  induction w with
  | nil => cases rest <;> rfl
  | cons x w ih =>
    have hx := Char.utf8Size_pos x
    obtain ⟨n, hn⟩ : ∃ n, byteLength (x :: w) = n + 1 := by
      refine ⟨x.utf8Size + byteLength w - 1, ?_⟩
      rw [byteLength]
      omega
    have hrest : byteLength (x :: w) - x.utf8Size = byteLength w := by
      rw [byteLength]
      omega
    rw [List.cons_append, hn, takeBytes, ← hn, hrest, ih]
    intro h
    simp at h

theorem upTo_eq (h : c.Passes w d) : c.upTo d.pos = w := by
  have hoffset : d.pos.offset - c.pos.offset = byteLength w := by
    rw [h.2, offset_foldl]
    omega
  rw [upTo, hoffset, h.1, takeBytes_append]

end Passes

def Leads (c d : Cursor) : Prop := ∃ w, c.Passes w d

namespace Leads

variable {c d e : Cursor}

theorem refl (c : Cursor) : c.Leads c := ⟨[], .refl c⟩

theorem trans (h : c.Leads d) (h' : d.Leads e) : c.Leads e := by
  obtain ⟨w, hw⟩ := h
  obtain ⟨w', hw'⟩ := h'
  exact ⟨w ++ w', hw.trans hw'⟩

theorem offset_le (h : c.Leads d) : c.pos.offset ≤ d.pos.offset := by
  obtain ⟨w, hw⟩ := h
  rw [hw.2, Passes.offset_foldl]
  omega

end Leads

variable {c d : Cursor}

theorem accept_passes (h : c.accept word = some d) : c.Passes word d := by
  fun_induction accept word c with
  | case1 =>
    cases h
    exact .refl d
  | case2 word pos x rest ih => exact (ih h).cons
  | case3 => cases h
  | case4 => cases h

theorem Passes.accept (h : c.Passes word d) : c.accept word = some d := by
  induction word generalizing c with
  | nil =>
    obtain ⟨pos, rest⟩ := c
    obtain ⟨hrest, hpos⟩ := h
    rw [Cursor.accept, show pos = d.pos from hpos.symm, show rest = d.rest from hrest]
  | cons x word ih =>
    obtain ⟨pos, rest⟩ := c
    obtain ⟨hrest, hpos⟩ := h
    have hrest : rest = x :: (word ++ d.rest) := hrest
    subst hrest
    rw [Cursor.accept, if_pos rfl]
    exact ih ⟨rfl, hpos⟩

theorem acceptChar_passes {p : Char → Bool} (h : c.acceptChar p = some d) :
    ∃ x, p x = true ∧ c.Passes [x] d := by
  obtain ⟨pos, _ | ⟨x, rest⟩⟩ := c
  · cases h
  · rw [acceptChar] at h
    split at h
    · next hx =>
      cases h
      exact ⟨x, hx, (Passes.refl _).cons⟩
    · cases h

theorem skipFrom_passes (inside : Bool) (pos : Position) (rest : List Char) :
    ∃ w, (⟨pos, rest⟩ : Cursor).Passes w (skipFrom inside pos rest) := by
  fun_induction skipFrom inside pos rest with
  | case1 inside pos => exact ⟨[], .refl _⟩
  | case2 inside pos rest ih =>
    obtain ⟨w, hw⟩ := ih
    exact ⟨'/' :: '/' :: w, hw.cons.cons⟩
  | case3 pos x rest _ ih =>
    obtain ⟨w, hw⟩ := ih
    exact ⟨x :: w, hw.cons⟩
  | case4 _ pos x rest _ _ _ ih =>
    obtain ⟨w, hw⟩ := ih
    exact ⟨x :: w, hw.cons⟩
  | case5 => exact ⟨[], .refl _⟩

theorem skipGap_passes (c : Cursor) : ∃ w, c.Passes w c.skipGap :=
  skipFrom_passes false c.pos c.rest

/-- One step of a gap, where no comment begins. -/
theorem skipFrom_cons {inside : Bool} (h : ∀ cs, x = '/' → rest = '/' :: cs → False) :
    skipFrom inside pos (x :: rest) =
      if inside then skipFrom (x != '\n') (pos.advance x) rest
      else if isGapChar x then skipFrom false (pos.advance x) rest
      else ⟨pos, x :: rest⟩ := by
  rw [skipFrom]
  exact h

/-- Where neither a blank nor a slash stands, nothing is skipped. -/
theorem skipGap_eq_self (h : c.rest = x :: rest) (hblank : isGapChar x = false) (hslash : x ≠ '/') :
    c.skipGap = c := by
  obtain ⟨pos, _⟩ := c
  cases h
  rw [skipGap, skipFrom_cons fun _ heq _ => hslash heq, if_neg Bool.false_ne_true, hblank,
    if_neg Bool.false_ne_true]

theorem ne_comment_of_skipGap_eq (h : c.skipGap = c) (rest : List Char) :
    c.rest ≠ '/' :: '/' :: rest := by
  obtain ⟨pos, cs⟩ := c
  rintro rfl
  obtain ⟨w, hw⟩ := skipFrom_passes true ((pos.advance '/').advance '/') rest
  have hle := hw.length_le
  have hskip : skipFrom true ((pos.advance '/').advance '/') rest = ⟨pos, '/' :: '/' :: rest⟩ := h
  rw [hskip] at hle
  simp only [List.length_cons] at hle
  omega

theorem skipGap_skipFrom (inside : Bool) (pos : Position) (rest : List Char) :
    (skipFrom inside pos rest).skipGap = skipFrom inside pos rest := by
  fun_induction skipFrom inside pos rest with
  | case1 inside pos => rfl
  | case2 _ _ _ ih | case3 _ _ _ _ ih | case4 _ _ _ _ _ _ _ ih => exact ih
  | case5 inside pos x rest hslash hinside hblank =>
    rw [skipGap, skipFrom_cons hslash, if_neg Bool.false_ne_true, if_neg hblank]

@[simp] theorem skipGap_skipGap (c : Cursor) : c.skipGap.skipGap = c.skipGap :=
  skipGap_skipFrom false c.pos c.rest

end Cursor

namespace Peg

variable {ρ : Type}

/-- What a run says about the text: the nodes of a match and the cursor behind it, or a refusal. -/
abbrev Result (ρ : Type) := Option (List (Node ρ) × Cursor)

def Result.ofMove (d : Option Cursor) : Result ρ := d.map fun d => ([], d)

def Reply.result? : Reply ρ → Option (Result ρ)
  | .matched nodes stop _ => some (some (nodes, stop))
  | .refused _ => some none
  | .exhausted => none

def Grammar.wrap (g : Grammar ρ) (s : Setting) (r : ρ) (c : Cursor) : Result ρ → Result ρ
  | some (nodes, d) =>
    some (if (g.outer s r).keeps then [.mk r c d.pos nodes] else nodes, d)
  | none => none

inductive Derives (g : Grammar ρ) : Setting → Pattern ρ → Cursor → Result ρ → Prop
  | text (s : Setting) (word : List Char) (c : Cursor) :
      Derives g s (.text word) c (.ofMove (c.accept word))
  | letter (s : Setting) (l : Letter) (c : Cursor) :
      Derives g s (.letter l) c (.ofMove (c.acceptChar l.holds))
  | atStart (s : Setting) (c : Cursor) :
      Derives g s .atStart c (.ofMove (if c.pos.offset = 0 then some c else none))
  | atEnd (s : Setting) (c : Cursor) :
      Derives g s .atEnd c (.ofMove (if c.rest.isEmpty then some c else none))
  | gap (s : Setting) (c : Cursor) :
      Derives g s .gap c (some ([], if s.weave = .spaced then c.skipGap else c))
  | catRefused {s : Setting} {a b : Pattern ρ} {c : Cursor} (left : Derives g s a c none) :
      Derives g s (.cat a b) c none
  | catHalf {s : Setting} {a b : Pattern ρ} {c d : Cursor} {ns : List (Node ρ)}
      (left : Derives g s a c (some (ns, d))) (right : Derives g s b d none) :
      Derives g s (.cat a b) c none
  | cat {s : Setting} {a b : Pattern ρ} {c d e : Cursor} {ns ms : List (Node ρ)}
      (left : Derives g s a c (some (ns, d))) (right : Derives g s b d (some (ms, e))) :
      Derives g s (.cat a b) c (some (ns ++ ms, e))
  | altFirst {s : Setting} {a b : Pattern ρ} {c d : Cursor} {ns : List (Node ρ)}
      (left : Derives g s a c (some (ns, d))) : Derives g s (.alt a b) c (some (ns, d))
  | altSecond {s : Setting} {a b : Pattern ρ} {c : Cursor} {res : Result ρ}
      (left : Derives g s a c none) (right : Derives g s b c res) : Derives g s (.alt a b) c res
  | optSome {s : Setting} {a : Pattern ρ} {c d : Cursor} {ns : List (Node ρ)}
      (one : Derives g s a c (some (ns, d))) : Derives g s (.opt a) c (some (ns, d))
  | optNone {s : Setting} {a : Pattern ρ} {c : Cursor} (one : Derives g s a c none) :
      Derives g s (.opt a) c (some ([], c))
  | loopStop {s : Setting} {a : Pattern ρ} {c : Cursor} (one : Derives g s a c none) :
      Derives g s (.loop a) c (some ([], c))
  | loopNext {s : Setting} {a : Pattern ρ} {c d e : Cursor} {ns ms : List (Node ρ)}
      (one : Derives g s a c (some (ns, d))) (more : Derives g s (.loop a) d (some (ms, e))) :
      Derives g s (.loop a) c (some (ns ++ ms, e))
  | unlessRefused {s : Setting} {a : Pattern ρ} {c d : Cursor} {ns : List (Node ρ)}
      (one : Derives g { s with look := s.look.flip } a c (some (ns, d))) :
      Derives g s (.unless a) c none
  | unlessPassed {s : Setting} {a : Pattern ρ} {c : Cursor}
      (one : Derives g { s with look := s.look.flip } a c none) :
      Derives g s (.unless a) c (some ([], c))
  | call {s : Setting} {r : ρ} {c : Cursor} {res : Result ρ}
      (inner : Derives g (g.inner s r) (g.body r) c res) :
      Derives g s (.call r) c (g.wrap s r c res)

variable {g : Grammar ρ} {s : Setting} {p a b : Pattern ρ} {c d : Cursor} {ns : List (Node ρ)}
  {res res' : Result ρ} {seen : Attempts ρ} {reply : Reply ρ} {n : Nat}

theorem Reply.result?_ofMove (seen : Attempts ρ) (d : Option Cursor) :
    (Reply.ofMove seen d).result? = some (Result.ofMove d) := by
  cases d <;> rfl

theorem Grammar.result?_close (r : ρ) (before : Attempts ρ) (reply : Reply ρ) :
    ((g.outer s r).close r c before reply).result? = reply.result?.map (g.wrap s r c) := by
  cases reply <;> rfl

theorem Derives.loop_ne_none (h : Derives g s (.loop a) c res) : res ≠ none := by
  cases h <;> exact Option.some_ne_none _

theorem Reply.eq_none_of_not_matched (hreply : ∀ ns d seen, reply = .matched ns d seen → False)
    (h : reply.result? = some res) : res = none := by
  cases reply with
  | matched ns d seen => exact (hreply ns d seen rfl).elim
  | refused _ => exact (Option.some.inj h).symm
  | exhausted => cases h

theorem Reply.eq_some_of_not_refused (hreply : ∀ seen, reply = .refused seen → False)
    (h : reply.result? = some res) : ∃ ns d, res = some (ns, d) := by
  cases reply with
  | matched ns d _ => exact ⟨ns, d, (Option.some.inj h).symm⟩
  | refused seen => exact (hreply seen rfl).elim
  | exhausted => cases h

/-- A run that ends gives a derivation. -/
theorem Derives.of_run (h : (run g n s p c seen).result? = some res) :
    Derives g s p c res := by
  fun_induction run g n s p c seen generalizing res with
  | case1 => cases h
  | case2 | case3 | case4 | case5 =>
    rw [Reply.result?_ofMove] at h
    cases h
    constructor
  | case6 =>
    cases h
    exact .gap _ _
  | case7 _ _ _ _ _ _ _ _ _ hleft _ _ _ hright ih ih' =>
    cases h
    exact .cat (ih (congrArg _ hleft)) (ih' (congrArg _ hright))
  | case8 _ _ _ _ _ _ _ _ _ hleft hright ih ih' =>
    obtain rfl := Reply.eq_none_of_not_matched hright h
    exact .catHalf (ih (congrArg _ hleft)) (ih' h)
  | case9 _ _ _ _ _ _ hleft ih =>
    obtain rfl := Reply.eq_none_of_not_matched hleft h
    exact .catRefused (ih h)
  | case10 _ _ _ _ _ _ _ hleft ih ih' => exact .altSecond (ih (congrArg _ hleft)) (ih' h)
  | case11 _ _ _ _ _ _ hleft ih =>
    obtain ⟨ns, d, rfl⟩ := Reply.eq_some_of_not_refused hleft h
    exact .altFirst (ih h)
  | case12 _ _ _ _ _ _ hone ih =>
    cases h
    exact .optNone (ih (congrArg _ hone))
  | case13 _ _ _ _ _ hone ih =>
    obtain ⟨ns, d, rfl⟩ := Reply.eq_some_of_not_refused hone h
    exact .optSome (ih h)
  | case14 _ _ _ _ _ _ _ _ hone _ _ _ hmore ih ih' =>
    cases h
    exact .loopNext (ih (congrArg _ hone)) (ih' (congrArg _ hmore))
  | case15 _ _ _ _ _ _ _ _ _ hmore _ ih' =>
    obtain rfl := Reply.eq_none_of_not_matched hmore h
    exact absurd rfl (ih' h).loop_ne_none
  | case16 _ _ _ _ _ _ hone ih =>
    cases h
    exact .loopStop (ih (congrArg _ hone))
  | case17 | case20 => cases h
  | case18 _ _ _ _ _ _ _ _ hone ih =>
    cases h
    exact .unlessRefused (ih (congrArg _ hone))
  | case19 _ _ _ _ _ _ hone ih =>
    cases h
    exact .unlessPassed (ih (congrArg _ hone))
  | case21 _ _ _ _ _ ih =>
    rw [Grammar.result?_close, Option.map_eq_some_iff] at h
    obtain ⟨inner, hinner, rfl⟩ := h
    exact .call (ih hinner)

theorem Reply.eq_refused (h : reply.result? = some none) :
    ∃ seen, reply = .refused seen := by
  cases reply with
  | refused seen => exact ⟨seen, rfl⟩
  | _ => cases h

theorem Reply.eq_matched (h : reply.result? = some (some (ns, d))) :
    ∃ seen, reply = .matched ns d seen := by
  cases reply with
  | matched nodes stop seen =>
    cases h
    exact ⟨seen, rfl⟩
  | _ => cases h

/-- A derivation is what every run with enough fuel gives, whatever was seen before. -/
theorem Derives.run_eq (h : Derives g s p c res) :
    ∃ n, ∀ m, n ≤ m → ∀ seen, (run g (m + 1) s p c seen).result? = some res := by
  induction h with
  | text s word c | letter s l c | atStart s c | atEnd s c =>
    refine ⟨0, fun m _ seen => ?_⟩
    rw [run, Reply.result?_ofMove]
  | gap s c =>
    refine ⟨0, fun m _ seen => ?_⟩
    rw [run, Reply.result?]
  | catRefused _ ih | optNone _ ih | loopStop _ ih | unlessPassed _ ih =>
    obtain ⟨n, hn⟩ := ih
    refine ⟨n + 1, fun m hm seen => ?_⟩
    obtain ⟨m, rfl⟩ := Nat.exists_eq_add_of_le' hm
    obtain ⟨seen₁, hone⟩ := Reply.eq_refused (hn (m + n) (by omega) seen)
    rw [← Nat.add_assoc, run, hone, Reply.result?]
  | altFirst _ ih | optSome _ ih | unlessRefused _ ih =>
    obtain ⟨n, hn⟩ := ih
    refine ⟨n + 1, fun m hm seen => ?_⟩
    obtain ⟨m, rfl⟩ := Nat.exists_eq_add_of_le' hm
    obtain ⟨seen₁, hone⟩ := Reply.eq_matched (hn (m + n) (by omega) seen)
    rw [← Nat.add_assoc, run, hone, Reply.result?]
  | catHalf _ _ ih ih' =>
    obtain ⟨n, hn⟩ := ih
    obtain ⟨n', hn'⟩ := ih'
    refine ⟨n + n' + 1, fun m hm seen => ?_⟩
    obtain ⟨m, rfl⟩ := Nat.exists_eq_add_of_le' hm
    obtain ⟨seen₁, hleft⟩ := Reply.eq_matched (hn (m + (n + n')) (by omega) seen)
    obtain ⟨seen₂, hright⟩ := Reply.eq_refused (hn' (m + (n + n')) (by omega) seen₁)
    rw [← Nat.add_assoc, run, hleft]
    simp only [hright, Reply.result?]
  | cat _ _ ih ih' | loopNext _ _ ih ih' =>
    obtain ⟨n, hn⟩ := ih
    obtain ⟨n', hn'⟩ := ih'
    refine ⟨n + n' + 1, fun m hm seen => ?_⟩
    obtain ⟨m, rfl⟩ := Nat.exists_eq_add_of_le' hm
    obtain ⟨seen₁, hleft⟩ := Reply.eq_matched (hn (m + (n + n')) (by omega) seen)
    obtain ⟨seen₂, hright⟩ := Reply.eq_matched (hn' (m + (n + n')) (by omega) seen₁)
    rw [← Nat.add_assoc, run, hleft]
    simp only [hright, Reply.result?]
  | altSecond _ _ ih ih' =>
    obtain ⟨n, hn⟩ := ih
    obtain ⟨n', hn'⟩ := ih'
    refine ⟨n + n' + 1, fun m hm seen => ?_⟩
    obtain ⟨m, rfl⟩ := Nat.exists_eq_add_of_le' hm
    obtain ⟨seen₁, hleft⟩ := Reply.eq_refused (hn (m + (n + n')) (by omega) seen)
    rw [← Nat.add_assoc, run, hleft]
    exact hn' (m + (n + n')) (by omega) seen₁
  | call _ ih =>
    obtain ⟨n, hn⟩ := ih
    refine ⟨n + 1, fun m hm seen => ?_⟩
    obtain ⟨m, rfl⟩ := Nat.exists_eq_add_of_le' hm
    rw [← Nat.add_assoc, run, Grammar.result?_close, hn (m + n) (by omega) seen, Option.map_some]

theorem Derives.unique (h : Derives g s p c res) (h' : Derives g s p c res') : res = res' := by
  obtain ⟨n, hn⟩ := h.run_eq
  obtain ⟨n', hn'⟩ := h'.run_eq
  have hrun := hn (n + n') (by omega) .none
  rw [hn' (n + n') (by omega) .none] at hrun
  exact (Option.some.inj hrun).symm

/-- A run that is not cut short gives what is derived. -/
theorem Derives.result?_run (h : Derives g s p c res) (hended : run g n s p c seen ≠ .exhausted) :
    (run g n s p c seen).result? = some res := by
  cases hrun : (run g n s p c seen).result? with
  | none => cases hreply : run g n s p c seen <;> simp_all [Reply.result?]
  | some res' => rw [(Derives.of_run hrun).unique h]

/-- Induction on a match: the cases of a derivation that do not end in a refusal. A rule leaves a
node, or it leaves the nodes of its body. -/
@[elab_as_elim]
theorem Derives.match_induction {motive : (s : Setting) → (p : Pattern ρ) → (c : Cursor) →
      (ns : List (Node ρ)) → (d : Cursor) → Derives g s p c (some (ns, d)) → Prop}
    (text : ∀ {s word c d}, c.accept word = some d → ∀ h, motive s (.text word) c [] d h)
    (letter : ∀ {s l c d}, c.acceptChar l.holds = some d → ∀ h, motive s (.letter l) c [] d h)
    (atStart : ∀ {s c} h, motive s .atStart c [] c h)
    (atEnd : ∀ {s c} h, motive s .atEnd c [] c h)
    (gap : ∀ {s c} h, motive s .gap c [] (if s.weave = .spaced then c.skipGap else c) h)
    (cat : ∀ {s a b c d e ns ms} (left : Derives g s a c (some (ns, d)))
      (right : Derives g s b d (some (ms, e))), motive s a c ns d left → motive s b d ms e right →
      motive s (.cat a b) c (ns ++ ms) e (.cat left right))
    (altFirst : ∀ {s a b c d ns} (left : Derives g s a c (some (ns, d))), motive s a c ns d left →
      motive s (.alt a b) c ns d (.altFirst left))
    (altSecond : ∀ {s a b c d ns} (left : Derives g s a c none)
      (right : Derives g s b c (some (ns, d))), motive s b c ns d right →
      motive s (.alt a b) c ns d (.altSecond left right))
    (optSome : ∀ {s a c d ns} (one : Derives g s a c (some (ns, d))), motive s a c ns d one →
      motive s (.opt a) c ns d (.optSome one))
    (optNone : ∀ {s a c} (one : Derives g s a c none), motive s (.opt a) c [] c (.optNone one))
    (loopStop : ∀ {s a c} (one : Derives g s a c none), motive s (.loop a) c [] c (.loopStop one))
    (loopNext : ∀ {s a c d e ns ms} (one : Derives g s a c (some (ns, d)))
      (more : Derives g s (.loop a) d (some (ms, e))), motive s a c ns d one →
      motive s (.loop a) d ms e more → motive s (.loop a) c (ns ++ ms) e (.loopNext one more))
    (unlessPassed : ∀ {s a c} (one : Derives g { s with look := s.look.flip } a c none),
      motive s (.unless a) c [] c (.unlessPassed one))
    (kept : ∀ {s r c d ns} (inner : Derives g (g.inner s r) (g.body r) c (some (ns, d))),
      (g.outer s r).keeps = true → motive (g.inner s r) (g.body r) c ns d inner →
      ∀ h, motive s (.call r) c [.mk r c d.pos ns] d h)
    (bare : ∀ {s r c d ns} (inner : Derives g (g.inner s r) (g.body r) c (some (ns, d))),
      (g.outer s r).keeps = false → motive (g.inner s r) (g.body r) c ns d inner →
      ∀ h, motive s (.call r) c ns d h)
    {s : Setting} {p : Pattern ρ} {c : Cursor} {ns : List (Node ρ)} {d : Cursor}
    (h : Derives g s p c (some (ns, d))) : motive s p c ns d h := by
  suffices hmatch : ∀ {res}, Derives g s p c res → ∀ ns d, res = some (ns, d) →
      ∀ h, motive s p c ns d h from hmatch h ns d rfl h
  clear h
  intro res h
  induction h with
  | text s word c =>
    intro ns d hres
    obtain ⟨d', hd, hpair⟩ := Option.map_eq_some_iff.mp hres
    cases hpair
    exact text hd
  | letter s l c =>
    intro ns d hres
    obtain ⟨d', hd, hpair⟩ := Option.map_eq_some_iff.mp hres
    cases hpair
    exact letter hd
  | atStart s c | atEnd s c =>
    intro ns d hres
    obtain ⟨d', hd, hpair⟩ := Option.map_eq_some_iff.mp hres
    cases hpair
    split at hd
    · cases hd
      first
        | exact atStart
        | exact atEnd
    · cases hd
  | gap s c =>
    rintro _ _ ⟨⟩
    exact gap
  | catRefused | catHalf | unlessRefused => nofun
  | cat left right ih ih' =>
    rintro _ _ ⟨⟩ _
    exact cat left right (ih _ _ rfl left) (ih' _ _ rfl right)
  | altFirst left ih =>
    rintro _ _ ⟨⟩ _
    exact altFirst left (ih _ _ rfl left)
  | altSecond left right _ ih' =>
    rintro _ _ rfl _
    exact altSecond left right (ih' _ _ rfl right)
  | optSome one ih =>
    rintro _ _ ⟨⟩ _
    exact optSome one (ih _ _ rfl one)
  | optNone one =>
    rintro _ _ ⟨⟩ _
    exact optNone one
  | loopStop one =>
    rintro _ _ ⟨⟩ _
    exact loopStop one
  | loopNext one more ih ih' =>
    rintro _ _ ⟨⟩ _
    exact loopNext one more (ih _ _ rfl one) (ih' _ _ rfl more)
  | unlessPassed one =>
    rintro _ _ ⟨⟩ _
    exact unlessPassed one
  | @call s r c res inner ih =>
    cases res with
    | none => nofun
    | some result =>
      intro ns d hres
      rw [Grammar.wrap] at hres
      split at hres
      · next hkeeps =>
        cases hres
        exact kept inner hkeeps (ih _ _ rfl inner)
      · next hkeeps =>
        cases hres
        exact bare inner (Bool.eq_false_iff.mpr hkeeps) (ih _ _ rfl inner)

/-- A match passes the text between its ends. -/
theorem Derives.passes (h : Derives g s p c (some (ns, d))) : ∃ w, c.Passes w d := by
  induction h using Derives.match_induction with
  | text hd => exact ⟨_, Cursor.accept_passes hd⟩
  | letter hd =>
    obtain ⟨x, -, hx⟩ := Cursor.acceptChar_passes hd
    exact ⟨[x], hx⟩
  | @gap s c =>
    split
    · exact c.skipGap_passes
    · exact ⟨[], .refl c⟩
  | cat _ _ ih ih' | loopNext _ _ ih ih' =>
    obtain ⟨w, hw⟩ := ih
    obtain ⟨w', hw'⟩ := ih'
    exact ⟨w ++ w', hw.trans hw'⟩
  | altFirst _ ih | altSecond _ _ ih | optSome _ ih | kept _ _ ih | bare _ _ ih => exact ih
  | atStart | atEnd | optNone | loopStop | unlessPassed => exact ⟨[], .refl _⟩

theorem derives_text_iff :
    Derives g s (.text word) c res ↔ res = .ofMove (c.accept word) :=
  ⟨fun h => h.unique (.text s word c), fun h => h ▸ .text s word c⟩

theorem derives_letter_iff {l : Letter} :
    Derives g s (.letter l) c res ↔ res = .ofMove (c.acceptChar l.holds) :=
  ⟨fun h => h.unique (.letter s l c), fun h => h ▸ .letter s l c⟩

theorem derives_atStart_iff :
    Derives g s .atStart c res ↔ res = .ofMove (if c.pos.offset = 0 then some c else none) :=
  ⟨fun h => h.unique (.atStart s c), fun h => h ▸ .atStart s c⟩

theorem derives_gap_iff :
    Derives g s .gap c res ↔ res = some ([], if s.weave = .spaced then c.skipGap else c) :=
  ⟨fun h => h.unique (.gap s c), fun h => h ▸ .gap s c⟩

theorem derives_call_iff {r : ρ} :
    Derives g s (.call r) c res ↔
      ∃ inner, Derives g (g.inner s r) (g.body r) c inner ∧ res = g.wrap s r c inner := by
  constructor
  · intro h
    generalize hp : Pattern.call r = p at h
    cases h with
    | call inner =>
      cases hp
      exact ⟨_, inner, rfl⟩
    | _ => cases hp
  · rintro ⟨inner, hinner, rfl⟩
    exact .call hinner

theorem Derives.rule {r : ρ} {inner : Result ρ}
    (h : Derives g (g.inner s r) (g.body r) c inner) (hres : g.wrap s r c inner = res) :
    Derives g s (.call r) c res :=
  hres ▸ .call h

/-- What holds after no round and is carried by each round holds of a repetition. -/
theorem Derives.loop_induction {motive : Cursor → List (Node ρ) → Cursor → Prop}
    (stop : ∀ c, Derives g s a c none → motive c [] c)
    (next : ∀ {c d e ns ms}, Derives g s a c (some (ns, d)) → motive d ms e → motive c (ns ++ ms) e)
    (h : Derives g s (.loop a) c (some (ns, d))) : motive c ns d := by
  generalize hp : Pattern.loop a = p at h
  induction h using Derives.match_induction with
  | loopStop one =>
    cases hp
    exact stop _ one
  | loopNext one _ _ ih =>
    cases hp
    exact next one (ih stop next rfl)
  | _ => cases hp

/-- Where blanks are not skipped, a gap does nothing. -/
theorem derives_tightThen_iff (hs : s.weave ≠ .spaced) :
    Derives g s (.cat .gap a) c res ↔ Derives g s a c res := by
  have hgap : Derives g s .gap c (some ([], c)) := by
    rw [derives_gap_iff, if_neg hs]
  have hcat {res : Result ρ} (h : Derives g s a c res) : Derives g s (.cat .gap a) c res := by
    cases res with
    | none => exact .catHalf hgap h
    | some result => exact .cat hgap h
  refine ⟨fun h => ?_, hcat⟩
  obtain ⟨res', h'⟩ : ∃ res', Derives g s a c res' := by
    cases h with
    | catRefused left => cases hgap.unique left
    | catHalf left right | cat left right =>
      cases hgap.unique left
      exact ⟨_, right⟩
  rw [h.unique (hcat h')]
  exact h'

theorem derives_loop_congr (h : ∀ c res, Derives g s a c res ↔ Derives g s b c res) :
    Derives g s (.loop a) c res ↔ Derives g s (.loop b) c res := by
  have hloop {a b : Pattern ρ} (h : ∀ c res, Derives g s a c res ↔ Derives g s b c res)
      (hone : Derives g s (.loop a) c res) : Derives g s (.loop b) c res := by
    cases res with
    | none => exact absurd rfl hone.loop_ne_none
    | some result =>
      exact Derives.loop_induction (motive := fun c ns d => Derives g s (.loop b) c (some (ns, d)))
        (fun c one => .loopStop ((h c none).mp one))
        (fun one more => .loopNext ((h _ _).mp one) more) hone
  exact ⟨hloop h, hloop fun c res => (h c res).symm⟩

/-- Where blanks are not skipped, the rounds of a repetition follow each other directly. -/
theorem derives_tightMany_iff (hs : s.weave ≠ .spaced) :
    Derives g s (.many a) c (some (ns, d)) ↔ Derives g s (.loop a) c (some (ns, d)) := by
  have hloop {c : Cursor} {res : Result ρ} :
      Derives g s (.loop (.cat .gap a)) c res ↔ Derives g s (.loop a) c res :=
    derives_loop_congr fun c res => derives_tightThen_iff hs
  constructor
  · intro h
    cases h with
    | optNone one =>
      cases one with
      | catRefused left => exact .loopStop left
      | catHalf _ right => exact absurd rfl right.loop_ne_none
    | optSome one =>
      cases one with
      | cat left right => exact .loopNext left (hloop.mp right)
  · intro h
    cases h with
    | loopStop one => exact .optNone (.catRefused one)
    | loopNext one more => exact .optSome (.cat one (hloop.mpr more))

section Spaced

variable {e : Cursor} {ms : List (Node ρ)} (hs : s.weave = .spaced)

include hs

theorem Derives.gapThen (h : Derives g s a c.skipGap res) : Derives g s (.cat .gap a) c res := by
  have hgap : Derives g s .gap c (some ([], c.skipGap)) := by
    rw [derives_gap_iff, if_pos hs]
  cases res with
  | none => exact .catHalf hgap h
  | some result => exact .cat hgap h

theorem derives_gapThen_iff : Derives g s (.cat .gap a) c res ↔ Derives g s a c.skipGap res := by
  refine ⟨fun h => ?_, .gapThen hs⟩
  obtain ⟨res', h'⟩ : ∃ res', Derives g s a c.skipGap res' := by
    cases h with
    | catRefused left =>
      rw [derives_gap_iff] at left
      cases left
    | catHalf left right | cat left right =>
      rw [derives_gap_iff, if_pos hs] at left
      cases left
      exact ⟨_, right⟩
  rw [h.unique (.gapThen hs h')]
  exact h'

theorem Derives.seq (left : Derives g s a c (some (ns, d)))
    (right : Derives g s b d.skipGap (some (ms, e))) :
    Derives g s (.seq a b) c (some (ns ++ ms, e)) :=
  .cat left (.gapThen hs right)

theorem Derives.seqHalf (left : Derives g s a c (some (ns, d)))
    (right : Derives g s b d.skipGap none) : Derives g s (.seq a b) c none :=
  .catHalf left (.gapThen hs right)

/-- A repetition from behind a blank, seen as rounds that each begin with one. -/
theorem Derives.loop_of_many (h : Derives g s (.many a) c.skipGap (some (ns, d))) :
    ∃ e, Derives g s (.loop (.cat .gap a)) c (some (ns, e)) ∧ e.skipGap = d.skipGap := by
  cases h with
  | optNone one =>
    cases one with
    | catRefused left => exact ⟨c, .loopStop (.gapThen hs left), c.skipGap_skipGap.symm⟩
    | catHalf _ right => exact absurd rfl right.loop_ne_none
  | optSome one =>
    cases one with
    | cat left right => exact ⟨d, .loopNext (.gapThen hs left) right, rfl⟩

theorem Derives.many_of_loop (h : Derives g s (.loop (.cat .gap a)) c (some (ns, d))) :
    ∃ e, Derives g s (.many a) c.skipGap (some (ns, e)) ∧ e.skipGap = d.skipGap := by
  cases h with
  | loopStop one =>
    exact ⟨c.skipGap, .optNone (.catRefused ((derives_gapThen_iff hs).mp one)), c.skipGap_skipGap⟩
  | loopNext one more =>
    exact ⟨d, .optSome (.cat ((derives_gapThen_iff hs).mp one) more), rfl⟩

end Spaced

end Peg

end ObjectLang
