import ObjectLang.Proofs.Refusals

/-!
The texts of syntax errors.
An error spans a part of the source between two characters, wherever it comes from. So all bounds
that its text is cut at are places in the source, and what is shown are the lines that the span
touches.
-/
namespace ObjectLang

open Syntax Peg

/-- A text is cut between two of its characters, and nowhere else. -/
theorem splitBytes?_eq_some_iff {n : Nat} {cs xs ys : List Char} :
    splitBytes? n cs = some (xs, ys) ↔ cs = xs ++ ys ∧ n = byteLength xs := by
  fun_induction splitBytes? n cs generalizing xs with
  | case1 cs =>
    constructor
    · rintro ⟨⟩
      exact ⟨rfl, rfl⟩
    · rintro ⟨rfl, hn⟩
      obtain rfl : xs = [] := by
        by_contra hne
        have := byteLength_pos hne
        omega
      rfl
  | case2 n =>
    refine ⟨nofun, ?_⟩
    rintro ⟨hcs, hn⟩
    obtain ⟨rfl, -⟩ := List.append_eq_nil_iff.mp hcs.symm
    cases hn
  | case3 n c cs hle ih =>
    rw [Option.map_eq_some_iff]
    constructor
    · rintro ⟨⟨as, bs⟩, hrest, heq⟩
      cases heq
      obtain ⟨rfl, hn⟩ := ih.mp hrest
      refine ⟨rfl, ?_⟩
      rw [byteLength, ← hn]
      omega
    · rintro ⟨hcs, hn⟩
      cases xs with
      | nil => cases hn
      | cons x xs =>
        obtain ⟨rfl, rfl⟩ := List.cons.inj hcs
        rw [byteLength] at hn
        exact ⟨(xs, ys), ih.mpr ⟨rfl, by omega⟩, rfl⟩
  | case4 n c cs hlt =>
    refine ⟨nofun, ?_⟩
    rintro ⟨hcs, hn⟩
    cases xs with
    | nil => cases hn
    | cons x xs =>
      obtain ⟨rfl, -⟩ := List.cons.inj hcs
      rw [byteLength] at hn
      omega

theorem Source.slice?_eq_some {s : Source} (pre w post : List Char)
    (h : s.text.toList = pre ++ w ++ post) :
    s.slice? (byteLength pre) (byteLength (pre ++ w)) = some w := by
  rw [slice?, splitBytes?_eq_some_iff.mpr ⟨h, rfl⟩]
  change (splitBytes? (byteLength pre) (pre ++ w) >>= fun parts => some parts.2) = some w
  rw [splitBytes?_eq_some_iff.mpr ⟨rfl, rfl⟩]
  rfl

section Lines

/-- There is one line more than there are line feeds. -/
theorem length_splitOn (a : Char) (xs : List Char) : (xs.splitOn a).length = xs.count a + 1 := by
  induction xs with
  | nil => simp
  | cons x xs ih =>
    rw [List.splitOn_cons_eq_if_modifyHead, List.count_cons]
    split
    · rw [List.length_cons, ih]
    · rw [List.length_modifyHead, ih]

theorem byteLength_reverse (xs : List Char) : byteLength xs.reverse = byteLength xs := by
  induction xs with
  | nil => rfl
  | cons x xs ih =>
    rw [List.reverse_cons, byteLength_append, ih, byteLength, byteLength, byteLength]
    omega

/-- What stands behind a text goes on with its last line `l`. -/
theorem exists_lastLine (xs : List Char) : ∃ front l lines, xs = front ++ l ∧ '\n' ∉ l ∧
    byteLength (xs.reverse.dropWhile (· != '\n')) = byteLength front ∧
    lines.length = xs.count '\n' ∧
    ∀ ys, (xs ++ ys).splitOn '\n' = lines ++ (l ++ ys).splitOn '\n' := by
  induction xs using List.reverseRecOn with
  | nil => exact ⟨[], [], [], rfl, nofun, rfl, rfl, fun _ => rfl⟩
  | append_singleton xs x ih =>
    by_cases hx : x = '\n'
    · subst hx
      refine ⟨xs ++ ['\n'], [], xs.splitOn '\n', by simp, nofun, ?_, ?_, fun ys => ?_⟩
      · rw [List.reverse_concat, List.dropWhile_cons_of_neg (by simp), ← List.reverse_concat,
          byteLength_reverse]
      · rw [length_splitOn, List.count_append, List.count_singleton_self]
      · rw [List.append_assoc, List.singleton_append, List.splitOn_append_cons_self,
          List.nil_append]
    · obtain ⟨front, l, lines, rfl, hl, hbytes, hlines, hsplit⟩ := ih
      refine ⟨front, l ++ [x], lines, by simp, by simp [hl, Ne.symm hx], ?_, ?_, fun ys => ?_⟩
      · rw [List.reverse_concat, List.dropWhile_cons_of_pos (by simpa using hx), hbytes]
      · simp [hlines, List.count_append, hx]
      · rw [List.append_assoc, hsplit, List.append_assoc]

/-- What stands in front of a text goes on with its first line. -/
theorem exists_firstLine (ys : List Char) : ∃ rest lines,
    ys = ys.takeWhile (· != '\n') ++ rest ∧ '\n' ∉ ys.takeWhile (· != '\n') ∧
    ∀ xs, (xs ++ ys).splitOn '\n' =
      (xs ++ ys.takeWhile (· != '\n')).splitOn '\n' ++ lines := by
  induction ys with
  | nil => exact ⟨[], [], rfl, nofun, fun xs => by simp⟩
  | cons y ys ih =>
    by_cases hy : y = '\n'
    · subst hy
      rw [List.takeWhile_cons_of_neg (by simp)]
      refine ⟨'\n' :: ys, ys.splitOn '\n', rfl, nofun, fun xs => ?_⟩
      rw [List.splitOn_append_cons_self, List.append_nil]
    · obtain ⟨rest, lines, hys, hfirst, hsplit⟩ := ih
      rw [List.takeWhile_cons_of_pos (by simpa using hy)]
      refine ⟨rest, lines, by rw [List.cons_append, ← hys], by simp [hfirst, Ne.symm hy], ?_⟩
      intro xs
      have hnext := hsplit (xs ++ [y])
      rwa [List.append_assoc, List.append_assoc] at hnext

end Lines

/-- The lines with the numbers of the bounds of a span and between them; numbers count from one. -/
def Source.linesOf (s : Source) (span : Span) : List (List Char) :=
  (s.text.toList.splitOn '\n').extract (span.start.line - 1) span.stop.line

/-- The bounds of a part of the text are places to cut it at, and the part touches the lines with
the numbers of its bounds and between them. -/
theorem Source.touched?_eq_some {s : Source} {pre w post : List Char}
    (h : s.text.toList = pre ++ w ++ post) :
    ∃ text, s.touched? ⟨.after pre, .after (pre ++ w)⟩ = some text ∧
      text.splitOn '\n' = s.linesOf ⟨.after pre, .after (pre ++ w)⟩ := by
  obtain ⟨front, l, before, rfl, hl, hbytes, hbefore, hsplit⟩ := exists_lastLine pre
  obtain ⟨rest, behind, hpost, hr, hsplit'⟩ := exists_firstLine post
  have hsize : s.size = byteLength (front ++ l ++ w ++ post) := by
    rw [Source.size, ← byteLength_toList, h]
  have hstart : min (byteLength (front ++ l)) s.size = byteLength (front ++ l) := by
    simp only [hsize, byteLength_append]
    omega
  have hstop : max (byteLength (front ++ l)) (min (byteLength (front ++ l ++ w)) s.size) =
      byteLength (front ++ l ++ w) := by
    simp only [hsize, byteLength_append]
    omega
  have hfront : s.slice? 0 (byteLength (front ++ l)) = some (front ++ l) :=
    slice?_eq_some [] (front ++ l) (w ++ post) (by rw [h]; simp)
  have hbehind : s.slice? (byteLength (front ++ l ++ w)) s.size = some post := by
    rw [hsize]
    exact slice?_eq_some _ post [] (by rw [h, List.append_nil])
  have hlines : s.slice? (byteLength front) (byteLength (front ++ l ++ w) +
      byteLength (post.takeWhile (· != '\n'))) = some (l ++ w ++ post.takeWhile (· != '\n')) := by
    rw [← byteLength_append, List.append_assoc, List.append_assoc, List.append_assoc]
    refine slice?_eq_some _ _ rest ?_
    rw [h]
    nth_rewrite 1 [hpost]
    simp
  refine ⟨l ++ w ++ post.takeWhile (· != '\n'), ?_, ?_⟩
  · simp only [touched?, Position.after, hstart, hstop, hfront, hbehind, Option.bind_eq_bind,
      Option.bind_some, hbytes, hlines]
  · have htext : s.text.toList.splitOn '\n' =
        before ++ ((l ++ w ++ post.takeWhile (· != '\n')).splitOn '\n' ++ behind) := by
      rw [h, ← hsplit', List.append_assoc, hsplit, List.append_assoc]
    have hcount : ((l ++ w ++ post.takeWhile (· != '\n')).splitOn '\n').length =
        1 + (front ++ l ++ w).count '\n' - before.length := by
      rw [length_splitOn, hbefore]
      simp only [List.count_append, List.count_eq_zero_of_not_mem hl,
        List.count_eq_zero_of_not_mem hr]
      omega
    simp only [linesOf, Position.after, List.extract_eq_take_drop, Nat.add_sub_cancel_left,
      ← hbefore, htext, List.drop_left, ← hcount, List.take_left]

/-- Whatever refuses a text, it does so at a part of it between two characters. -/
theorem error_span {s : Source} {e : SyntaxError} (h : parse s = .error e) :
    e.source = s ∧ ∃ pre w post, s.text.toList = pre ++ w ++ post ∧
      e.span = ⟨.after pre, .after (pre ++ w)⟩ := by
  rw [parse] at h
  cases hmatch : matchProgram s with
  | exhausted =>
    simp only [hmatch, Except.error.injEq] at h
    subst h
    exact ⟨rfl, [], [], s.text.toList, rfl, rfl⟩
  | refused seen =>
    simp only [hmatch, Except.error.injEq] at h
    subst h
    obtain ⟨pre, post, htext, hpos⟩ := refused_at hmatch
    refine ⟨rfl, pre, [], post, by rw [htext, List.append_nil], ?_⟩
    rw [hpos, List.append_nil]
    rfl
  | matched ns d seen =>
    have hmeets := program_of_match hmatch
    simp only [hmatch, build] at h
    split at h
    · cases h
    · next m span hbuild =>
      cases h
      rw [hbuild] at hmeets
      cases hmeets with
      | refused _ hspan =>
        obtain ⟨start, stop, hstart, ⟨w, hw⟩, -, rfl⟩ := hspan
        obtain ⟨pre, htext, hpre, hstop⟩ := places_of_passes hstart hw
        exact ⟨rfl, pre, w, stop.rest, htext, by rw [hpre, hstop]⟩

/-- All lines are shown but for a last one that is empty. -/
theorem shownLines_eq_map (lines : List (List Char)) :
    ∃ shown, (lines = shown ++ [[]] ∨ lines = shown ∧ shown.getLast? ≠ some []) ∧
      SyntaxError.shownLines lines =
        shown.map fun l => "| " ++ String.ofList (Text.trim l) ++ "\n" := by
  rcases List.eq_nil_or_concat' lines with rfl | ⟨init, last, rfl⟩
  · exact ⟨[], Or.inr ⟨rfl, by simp⟩, rfl⟩
  · by_cases hlast : last = []
    · subst hlast
      exact ⟨init, Or.inl rfl, by simp [SyntaxError.shownLines]⟩
    · exact ⟨init ++ [last], Or.inr ⟨rfl, by simp [hlast]⟩,
        by simp [SyntaxError.shownLines, hlast]⟩

/-- The text of every syntax error. The error spans a part of the source between two characters, so
that each place at which the source is cut is one of its places. The text is the cause, then the
name of the source with the line and the column of the start, then the lines of the source from the
one with the start to the one with the end, each trimmed and behind a bar. A last line that is empty
is left out. -/
theorem errors_rendered {s : Source} {e : SyntaxError} (h : parse s = .error e) :
    (∃ pre w post, s.text.toList = pre ++ w ++ post ∧
      e.span = ⟨.after pre, .after (pre ++ w)⟩ ∧ e.span.start.offset ≤ e.span.stop.offset ∧
      e.span.stop.offset ≤ s.size ∧ s.slice? 0 e.span.start.offset = some pre ∧
      s.slice? e.span.stop.offset s.size = some post ∧ (s.touched? e.span).isSome = true) ∧
    ∃ shown, (s.linesOf e.span = shown ++ [[]] ∨
        s.linesOf e.span = shown ∧ shown.getLast? ≠ some []) ∧
      e.message = e.cause.message ++ "\n" ++ s.title ++ ":" ++ toString e.span.start.line ++ ":" ++
        toString e.span.start.column ++ "\n" ++
        String.join (shown.map fun l => "| " ++ String.ofList (Text.trim l) ++ "\n") := by
  obtain ⟨rfl, pre, w, post, htext, hspan⟩ := error_span h
  obtain ⟨text, htouched, hlines⟩ := Source.touched?_eq_some htext
  have hsize : e.source.size = byteLength (pre ++ w ++ post) := by
    rw [Source.size, ← byteLength_toList, htext]
  rw [← hspan] at htouched hlines
  refine ⟨⟨pre, w, post, htext, hspan, ?_, ?_, ?_, ?_, by rw [htouched]; rfl⟩, ?_⟩
  · rw [hspan]
    simp only [Position.after, byteLength_append]
    omega
  · rw [hspan, hsize]
    simp only [Position.after, byteLength_append]
    omega
  · rw [hspan]
    exact Source.slice?_eq_some [] pre (w ++ post) (by rw [htext]; simp)
  · rw [hspan, hsize]
    exact Source.slice?_eq_some _ post [] (by rw [htext, List.append_nil])
  · obtain ⟨shown, hshown, hmap⟩ := shownLines_eq_map (e.source.linesOf e.span)
    refine ⟨shown, hshown, ?_⟩
    rw [SyntaxError.message, htouched, Option.getD_some, hlines, hmap]
    rfl

section Witness

def assignedCall : Source := .ofText "\"é\"\nf(\n) = 1\n"

def errorSpan? (s : Source) : Option Span :=
  match parse s with
  | .error e => some e.span
  | .ok _ => none

theorem errorSpan?_eq_some {s : Source} {span : Span} (h : errorSpan? s = some span) :
    ∃ e, parse s = .error e ∧ e.span = span := by
  unfold errorSpan? at h
  split at h
  · next e he => exact ⟨e, he, Option.some.inj h⟩
  · cases h

/-- Both lines of the call are shown. -/
theorem errors_rendered_call : ∃ e, parse assignedCall = .error e ∧
    e.span = ⟨⟨2, 1, 5⟩, ⟨3, 2, 9⟩⟩ ∧ assignedCall.slice? 0 5 = some "\"é\"\n".toList ∧
    e.message = e.cause.message ++ "\n<input>:2:1\n| f(\n| ) = 1\n" := by
  obtain ⟨e, he, hspan⟩ := errorSpan?_eq_some
    (by decide +kernel : errorSpan? assignedCall = some ⟨⟨2, 1, 5⟩, ⟨3, 2, 9⟩⟩)
  obtain ⟨-, shown, hshown, hmessage⟩ := errors_rendered he
  have hlines : assignedCall.linesOf e.span = ["f(".toList, ") = 1".toList] := by
    rw [hspan]
    decide
  refine ⟨e, he, hspan, by decide, ?_⟩
  rw [hlines] at hshown
  obtain rfl : shown = ["f(".toList, ") = 1".toList] := by
    rcases hshown with hempty | ⟨hall, -⟩
    · have hlast := congrArg List.getLast? hempty
      simp at hlast
    · exact hall.symm
  rw [hmessage, hspan]
  simp only [String.append_assoc]
  exact congrArg (e.cause.message ++ ·) (by decide)

end Witness

end ObjectLang
