import ObjectLang.Proofs.Syntax.Building

/-!
Spans and texts of statements.
A span covers the text of its statement, from a place in the source to a later one. The statements
of a block come one behind the other, and a statement in a body lies within the statement around it.
A place is told by its offset as well as by its line and column, and both give the same order.
-/
namespace ObjectLang

open Syntax Peg

/-- The size of a source is the number of bytes of its characters. -/
theorem byteLength_toList (s : String) : byteLength s.toList = s.utf8ByteSize := by
  obtain ⟨cs, rfl⟩ : ∃ cs, s = String.ofList cs := ⟨s.toList, String.ofList_toList.symm⟩
  rw [String.toList_ofList]
  induction cs with
  | nil => rfl
  | cons x cs ih =>
    rw [byteLength, ih, ← List.singleton_append, String.ofList_append, String.utf8ByteSize_append,
      ← String.singleton_eq_ofList, String.utf8ByteSize_singleton]

theorem byteLength_pos {cs : List Char} (h : cs ≠ []) : 0 < byteLength cs := by
  cases cs with
  | nil => exact absurd rfl h
  | cons x cs =>
    have hx := Char.utf8Size_pos x
    rw [byteLength]
    omega

/-- A text in which something is visible is not empty when it is trimmed. -/
theorem Text.trim_ne_nil {cs : List Char} {x : Char} (hx : x ∈ cs) (hblank : isBlank x = false) :
    trim cs ≠ [] := by
  intro h
  rw [trim_eq_rdropWhile, List.rdropWhile_eq_nil_iff] at h
  rw [← List.takeWhile_append_dropWhile (p := isBlank) (l := cs), List.mem_append] at hx
  have htrue : isBlank x = true := hx.elim List.mem_takeWhile_imp (h x)
  rw [hblank] at htrue
  cases htrue

namespace Position

/-- The place behind a text: lines and columns count from one, and a line feed ends a line. -/
def after (pre : List Char) : Position :=
  ⟨1 + pre.count '\n', 1 + (pre.reverse.takeWhile (· ≠ '\n')).length, byteLength pre⟩

theorem foldl_advance (pre : List Char) : pre.foldl advance start = after pre := by
  induction pre using List.reverseRecOn with
  | nil => rfl
  | append_singleton pre x ih =>
    rw [List.foldl_concat, ih, advance]
    by_cases hx : x = '\n'
    · subst hx
      simp [after, byteLength]
      omega
    · simp [after, byteLength, hx, List.count_append]
      omega

/-- The first place is on an earlier line, or further left on the same line. -/
def Precedes (p q : Position) : Prop := p.line < q.line ∨ p.line = q.line ∧ p.column < q.column

theorem Precedes.trans {p q r : Position} (h : p.Precedes q) (h' : q.Precedes r) :
    p.Precedes r := by
  unfold Precedes at h h' ⊢
  omega

theorem precedes_advance (p : Position) (x : Char) : p.Precedes (p.advance x) := by
  rw [advance]
  split
  · exact Or.inl (Nat.lt_succ_self _)
  · exact Or.inr ⟨rfl, Nat.lt_succ_self _⟩

theorem precedes_foldl {w : List Char} (hw : w ≠ []) (p : Position) :
    p.Precedes (w.foldl advance p) := by
  induction w generalizing p with
  | nil => exact absurd rfl hw
  | cons x w ih =>
    rw [List.foldl_cons]
    by_cases hrest : w = []
    · rw [hrest]
      exact p.precedes_advance x
    · exact (p.precedes_advance x).trans (ih hrest _)

/-- Of two places in a text, the one with the smaller offset precedes the other. -/
theorem after_precedes {pre post pre' post' : List Char} (h : pre ++ post = pre' ++ post')
    (hlt : (after pre).offset < (after pre').offset) : (after pre).Precedes (after pre') := by
  have hbytes : byteLength pre < byteLength pre' := hlt
  rcases List.append_eq_append_iff.mp h with ⟨w, rfl, -⟩ | ⟨w, rfl, -⟩
  · have hw : w ≠ [] := by
      rintro rfl
      simp at hbytes
    rw [← foldl_advance, ← foldl_advance, List.foldl_append]
    exact precedes_foldl hw _
  · rw [byteLength_append] at hbytes
    omega

end Position

/-- The statement stands in the source, from one character to a later one, and its text is what
stands there, trimmed. -/
structure Statement.Spans (s : Statement) (src : Source) : Prop where
  forward : s.span.start.offset < s.span.stop.offset
  inside : s.span.stop.offset ≤ src.size
  covers : ∃ pre w post, src.text.toList = pre ++ w ++ post ∧
    s.span = ⟨.after pre, .after (pre ++ w)⟩ ∧ s.text = String.ofList (Text.trim w)
  nonempty : s.text ≠ ""

namespace Syntax

/-- Where a statement stands between two cursors. -/
structure Stands (c d : Cursor) (s : Statement) (start stop : Cursor) (w : List Char) : Prop where
  before : c.Leads start
  through : start.Passes w stop
  behind : stop.Leads d
  visible : ∃ x ∈ w, Text.isBlank x = false
  span : s.span = ⟨start.pos, stop.pos⟩
  text : s.text = String.ofList (Text.trim w)
  bodies : Inside start stop s.command.bodies

namespace Sited

variable {c d : Cursor} {b : Block} {s : Statement}

variable (h : Sited c b d)
include h

theorem leads : c.Leads d := by
  induction h with
  | nil h => exact h
  | cons before through _ _ _ _ ih => exact before.trans (.trans ⟨_, through⟩ ih)

theorem of_mem (hs : s ∈ b) : ∃ start stop w, Stands c d s start stop w := by
  induction h with
  | nil => cases hs
  | @cons c start stop d w command b before through visible bodies rest _ ih =>
    rcases List.mem_cons.mp hs with rfl | hs
    · exact ⟨start, stop, w, before, through, rest.leads, visible, rfl, rfl, bodies⟩
    · obtain ⟨start', stop', w', hstands⟩ := ih hs
      have hbefore := before.trans (.trans ⟨_, through⟩ hstands.before)
      exact ⟨start', stop', w', { hstands with before := hbefore }⟩

theorem of_occurs (hs : s.Occurs b) : ∃ start stop w, Stands c d s start stop w := by
  induction hs generalizing c d with
  | here hs => exact h.of_mem hs
  | inside ho hb _ ih =>
    obtain ⟨start, stop, w, houter⟩ := h.of_mem ho
    obtain ⟨start', stop', w', hstands⟩ := ih (houter.bodies _ hb)
    exact ⟨start', stop', w', { hstands with
      before := houter.before.trans hstands.before
      behind := hstands.behind.trans houter.behind }⟩

/-- The statements of a block come one behind the other. -/
theorem pairwise : b.Pairwise fun s t => s.span.stop.offset ≤ t.span.start.offset := by
  induction h with
  | nil => exact .nil
  | cons _ _ _ _ rest _ ih =>
    refine .cons (fun t ht => ?_) ih
    obtain ⟨start, stop, w, hstands⟩ := rest.of_mem ht
    rw [hstands.span]
    exact hstands.before.offset_le

end Sited

/-- Two cursors in a source are at places of it. -/
theorem places_of_passes {src : Source} {start stop : Cursor} {w : List Char}
    (h : (Cursor.ofSource src).Leads start) (hw : start.Passes w stop) :
    ∃ pre, src.text.toList = pre ++ w ++ stop.rest ∧ start.pos = .after pre ∧
      stop.pos = .after (pre ++ w) := by
  obtain ⟨pre, hpre⟩ := h
  have hboth := hpre.trans hw
  exact ⟨pre, hboth.1, hpre.2.trans (Position.foldl_advance pre),
    hboth.2.trans (Position.foldl_advance _)⟩

theorem Stands.spans {src : Source} {d : Cursor} {s : Statement} {start stop : Cursor}
    {w : List Char} (h : Stands (.ofSource src) d s start stop w) : s.Spans src := by
  obtain ⟨pre, htext, hstart, hstop⟩ := places_of_passes h.before h.through
  obtain ⟨x, hx, hblank⟩ := h.visible
  have hspan : s.span = ⟨.after pre, .after (pre ++ w)⟩ := by
    rw [h.span, hstart, hstop]
  have hw := byteLength_pos (List.ne_nil_of_mem hx)
  refine ⟨?_, ?_, ⟨pre, w, stop.rest, htext, hspan, h.text⟩, ?_⟩
  · rw [hspan]
    simp only [Position.after, byteLength_append]
    omega
  · rw [hspan, Source.size, ← byteLength_toList, htext]
    simp only [Position.after, byteLength_append]
    omega
  · rw [h.text]
    intro hempty
    apply Text.trim_ne_nil hx hblank
    rw [← String.toList_ofList (l := Text.trim w), hempty]
    rfl

end Syntax

/-- In every program that parses, at every depth: a statement spans a part of the source between two
characters, its text is that part trimmed and not empty; the statements of one block, be it the
program or a body in it, have spans one behind the other; and what stands in a body of a statement
lies within the span of that statement. The places that bound the spans have the line and the column
of their offsets, and these grow with the offset. -/
theorem spans_sound {src : Source} {b : Block} (h : parse src = .ok b) :
    (∀ s : Statement, s.Occurs b → s.Spans src) ∧
    (∀ block : Block, (block = b ∨ ∃ outer : Statement, outer.Occurs b ∧
      block ∈ outer.command.bodies) →
      block.Pairwise fun s t => s.span.stop.offset ≤ t.span.start.offset) ∧
    (∀ outer : Statement, outer.Occurs b → ∀ body ∈ outer.command.bodies, ∀ s : Statement,
      s.Occurs body → outer.span.start.offset ≤ s.span.start.offset ∧
        s.span.stop.offset ≤ outer.span.stop.offset) ∧
    ∀ pre post pre' post', src.text.toList = pre ++ post → src.text.toList = pre' ++ post' →
      (Position.after pre).offset < (Position.after pre').offset →
      (Position.after pre).Precedes (.after pre') := by
  obtain ⟨-, d, hsited⟩ := parse_meets h
  refine ⟨fun s hs => ?_, fun block hblock => ?_, fun outer houter body hbody s hs => ?_, ?_⟩
  · obtain ⟨start, stop, w, hstands⟩ := hsited.of_occurs hs
    exact hstands.spans
  · rcases hblock with rfl | ⟨outer, houter, hbody⟩
    · exact hsited.pairwise
    · obtain ⟨start, stop, w, hstands⟩ := hsited.of_occurs houter
      exact (hstands.bodies block hbody).pairwise
  · obtain ⟨start, stop, w, hstands⟩ := hsited.of_occurs houter
    obtain ⟨start', stop', w', hinner⟩ := (hstands.bodies body hbody).of_occurs hs
    rw [hstands.span, hinner.span]
    exact ⟨hinner.before.offset_le, hinner.behind.offset_le⟩
  · intro pre post pre' post' hpre hpre'
    exact Position.after_precedes (hpre.symm.trans hpre')

section Witness

def accentedSource : Source := .ofText "val s = \"é\"\r\nfunction f() \x7b return s // s\n\x7d"

def checkAccented : Bool :=
  match parse accentedSource with
  | .ok [first, .mk (.function _ _ [inner]) span _] =>
    decide (first.span = ⟨⟨1, 1, 0⟩, ⟨2, 1, 14⟩⟩) && decide (span = ⟨⟨2, 1, 14⟩, ⟨3, 2, 44⟩⟩) &&
      decide (inner.span = ⟨⟨2, 16, 29⟩, ⟨3, 1, 43⟩⟩)
  | _ => false

theorem checkAccented_sound (h : checkAccented = true) : ∃ first name params inner span text,
    parse accentedSource = .ok [first, .mk (.function name params [inner]) span text] ∧
      first.span = ⟨⟨1, 1, 0⟩, ⟨2, 1, 14⟩⟩ ∧ span = ⟨⟨2, 1, 14⟩, ⟨3, 2, 44⟩⟩ ∧
      inner.span = ⟨⟨2, 16, 29⟩, ⟨3, 1, 43⟩⟩ := by
  unfold checkAccented at h
  split at h
  · next first name params inner span text hparse =>
    simp only [Bool.and_eq_true, decide_eq_true_eq] at h
    exact ⟨first, name, params, inner, span, text, hparse, h.1.1, h.1.2, h.2⟩
  · cases h

theorem accented_check : checkAccented = true := by decide +kernel

/-- The trailing line end belongs to the first statement, and the comment to the inner one. -/
theorem spans_sound_accented : ∃ b first inner, parse accentedSource = .ok b ∧
    Statement.Occurs first b ∧ first.span = ⟨⟨1, 1, 0⟩, ⟨2, 1, 14⟩⟩ ∧ first.Spans accentedSource ∧
    Statement.Occurs inner b ∧ inner.span = ⟨⟨2, 16, 29⟩, ⟨3, 1, 43⟩⟩ ∧
    inner.Spans accentedSource := by
  obtain ⟨first, name, params, inner, span, text, hparse, hfirst, -, hinner⟩ :=
    checkAccented_sound accented_check
  have hoccurs : Statement.Occurs first [first, .mk (.function name params [inner]) span text] :=
    .here (List.mem_cons_self ..)
  have hbody :
      [inner] ∈ (Statement.mk (.function name params [inner]) span text).command.bodies := by
    simp [Statement.command, Command.bodies]
  have hoccurs' : Statement.Occurs inner [first, .mk (.function name params [inner]) span text] :=
    .inside (List.mem_cons_of_mem _ (List.mem_singleton_self _)) hbody
      (.here (List.mem_singleton_self _))
  have hspans := (spans_sound hparse).1
  exact ⟨_, first, inner, hparse, hoccurs, hfirst, hspans first hoccurs, hoccurs', hinner,
    hspans inner hoccurs'⟩

end Witness

end ObjectLang
