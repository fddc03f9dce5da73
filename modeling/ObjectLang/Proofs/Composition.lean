import ObjectLang.Proofs.Syntax.Building
import ObjectLang.Proofs.Syntax.Extension

/-!
Parsing is compositional.
Two accepted texts with a line feed and a semicolon between them make an accepted text, and its
statements are those of the first text followed by those of the second. The kinds and the texts are
the same at every depth; only the spans differ.
-/
namespace ObjectLang

namespace Syntax

open Peg Pattern

theorem after_statement : after .spaced (.call .statement) ⟨0, true⟩ = some ⟨0, false⟩ := by
  decide +kernel

namespace Listed

variable {c d : Cursor} {ns : List (Node Rule)}

variable (h : Listed (.call .statement) c ns d)
include h

/-- The statements of a list leave no brace and no quote open. -/
theorem closes_eq : closes .code 0 c.rest = closes .code 0 d.rest := by
  induction h with
  | stop => rfl
  | @divided c d e ns hsemi rest ih =>
    calc
      closes .code 0 c.rest = closes .code 0 (';' :: d.rest) := by
        rw [← closes_skipGap, (Cursor.accept_passes hsemi).1]
        rfl
      _ = closes .code 0 d.rest := closes_calm (by decide) 0 d.rest
      _ = closes .code 0 e.rest := ih
  | @entry c d e ns ms one rest ih =>
    have hone := closes_of_derives one (Or.inl rfl) after_statement
      (fun _ => c.skipGap_skipGap) 0
    rw [← closes_skipGap, ← ih]
    exact hone.1

/-- A list of statements is found again in the longer text. -/
theorem extended (hcloses : closes .code 0 c.rest = true) {v : Option (List Char)} {c' : Cursor}
    (hc : Abreast v c c') :
    ∃ ns' d', Listed (.call .statement) c' ns' d' ∧ Abreast v d d' ∧
      Alike ns ns' := by
  induction h generalizing c' with
  | stop => exact ⟨[], c', .stop c', hc, .nil⟩
  | @divided c d e ns hsemi rest ih =>
    have hpass := Cursor.accept_passes hsemi
    obtain ⟨ext, htail, hrest⟩ := hc.skipGap
    have hpass' : c'.skipGap.Passes [';'] ⟨c'.skipGap.pos.advance ';', d.rest ++ ext⟩ := by
      refine ⟨?_, rfl⟩
      rw [hrest, hpass.1, List.append_assoc]
    have hd := closes_eq (.divided hsemi (.stop d))
    have hnext : Abreast v d ⟨c'.skipGap.pos.advance ';', d.rest ++ ext⟩ :=
      .of_passes htail hpass rfl
    obtain ⟨ns', e', hlisted, he, hns⟩ := ih (hd ▸ hcloses) hnext
    exact ⟨ns', e', .divided hpass'.accept hlisted, he, hns⟩
  | @entry c d e ns ms one rest ih =>
    have hd := closes_eq (.entry one (.stop d))
    have hgap : closes .code 0 c.skipGap.rest = true := closes_skipGap c 0 ▸ hcloses
    obtain ⟨res', hone, hres⟩ := parallel_of_derives (k := 0) one rfl after_statement
      (fun _ => c.skipGap_skipGap) hgap hc.skipGap
    cases hres with
    | @some _ y hnodes =>
      obtain ⟨ms', e', hlisted, he, hms⟩ := ih (hd ▸ hcloses) hnodes.2
      exact ⟨y.1 ++ ms', e', .entry hone hlisted, he, hnodes.1.append hms⟩

/-- The nodes of a list are those of statements, and they stand where the list has passed them. -/
theorem laid : Laid c ns d ∧ ∀ r ∈ ns.map Node.rule, r = .statement := by
  induction h with
  | stop c => exact ⟨.nil (.refl c), nofun⟩
  | @divided c d e ns hsemi _ ih =>
    have hgap : c.Leads c.skipGap := c.skipGap_passes
    have hd : c.Leads d := hgap.trans ⟨_, Cursor.accept_passes hsemi⟩
    exact ⟨ih.1.widen hd (.refl e), ih.2⟩
  | @entry c d e ns ms one _ ih =>
    have hlaid := laid_of_derives one
    obtain ⟨_ | ⟨parts, stop⟩, -, hres⟩ := derives_call_iff.mp one
    · cases hres
    cases hres
    refine ⟨(hlaid.append ih.1).widen c.skipGap_passes (.refl e), ?_⟩
    exact List.forall_mem_cons.mpr ⟨rfl, ih.2⟩

end Listed

theorem statements_append {ns ms : List (Node Rule)} {b b' : Block} (h : statements ns = .ok b)
    (h' : statements ms = .ok b') : statements (ns ++ ms) = .ok (b ++ b') := by
  induction ns generalizing b with
  | nil =>
    cases h
    exact h'
  | cons n ns ih =>
    rw [statements] at h
    rw [List.cons_append, statements]
    split at h
    · next hr =>
      rw [if_pos hr]
      cases hn : statement n with
      | error e =>
        rw [hn] at h
        cases h
      | ok s =>
        cases hns : statements ns with
        | error e =>
          rw [hn, hns] at h
          cases h
        | ok rest =>
          rw [hn, hns] at h
          cases h
          rw [ih hns]
          rfl
    · next hr =>
      rw [if_neg hr]
      exact ih h

/-- Nodes that are alike give statements that are alike but for their spans. -/
theorem Listed.statements_alike {c d : Cursor} {ns ns' : List (Node Rule)} {b : Block}
    (h : Listed (.call .statement) c ns d) (ha : Alike ns ns') (hb : statements ns = .ok b) :
    ∃ b', statements ns' = .ok b' ∧ Statement.forgetAll id b' = Statement.forgetAll id b := by
  have hmeets := statements_meets ns (fun r hr => Or.inl (h.laid.2 r hr)) h.laid.1 ha
  rw [hb] at hmeets
  generalize statements ns' = built at hmeets
  cases hmeets with
  | ok htwins => exact ⟨_, rfl, htwins.same⟩

end Syntax

open Syntax Peg

/-- Accepted texts can be put together, with a line feed and a semicolon between them. -/
theorem parse_append {name name' name'' : Option String} {text text' : String} {b b' : Block}
    (h : parse ⟨name, text⟩ = .ok b) (h' : parse ⟨name', text'⟩ = .ok b') :
    ∃ b'', parse ⟨name'', text ++ "\n;" ++ text'⟩ = .ok b'' ∧
      Statement.forgetAll id b'' = Statement.forgetAll id (b ++ b') := by
  obtain ⟨ns, d, hlisted, hd, hbuild⟩ := parse_eq_ok_iff.mp h
  obtain ⟨ms, e, hlisted', he, hbuild'⟩ := parse_eq_ok_iff.mp h'
  -- Accepted texts are passed to their end, so they close.
  have hcloses {f : Cursor} (hf : f.skipGap.rest = []) : closes .code 0 f.rest = true := by
    rw [← closes_skipGap, hf]
    rfl
  -- The first text is read as before, up to the semicolon.
  have hstart : Abreast (some text'.toList) (.ofSource ⟨name, text⟩)
      (.ofSource ⟨name'', text ++ "\n;" ++ text'⟩) := by
    refine ⟨_, .within text'.toList _, ?_⟩
    simp [Cursor.ofSource]
  obtain ⟨ns', d', hfirst, hd', hns⟩ :=
    hlisted.extended (hlisted.closes_eq.trans (hcloses hd)) hstart
  have hsemi : d'.skipGap.Passes [';'] ⟨d'.skipGap.pos.advance ';', text'.toList⟩ :=
    ⟨hd'.rest_skipGap hd, rfl⟩
  -- The second text is read as before, at another place.
  have hmoved : Abreast none (.ofSource ⟨name', text'⟩)
      ⟨d'.skipGap.pos.advance ';', text'.toList⟩ :=
    ⟨[], .nothing _, (List.append_nil _).symm⟩
  obtain ⟨ms', e', hsecond, he', hms⟩ :=
    hlisted'.extended (hlisted'.closes_eq.trans (hcloses he)) hmoved
  have hend : e'.skipGap.rest = [] := by
    obtain ⟨ext, ⟨⟩, hrest⟩ := he'.skipGap
    rw [hrest, he]
    rfl
  obtain ⟨b₁, hbuild₁, hb₁⟩ := hlisted.statements_alike hns hbuild
  obtain ⟨b₂, hbuild₂, hb₂⟩ := hlisted'.statements_alike hms hbuild'
  refine ⟨b₁ ++ b₂, parse_eq_ok_iff.mpr ?_, ?_⟩
  · exact ⟨ns' ++ ms', e', hfirst.append (.divided hsemi.accept hsecond), hend,
      statements_append hbuild₁ hbuild₂⟩
  · simp only [Statement.forgetAll_eq_map, List.map_append] at hb₁ hb₂ ⊢
    rw [hb₁, hb₂]

/-- A text may end in a comment: the line feed ends it. -/
theorem parse_append_comment : ∃ b b' b'',
    parse ⟨none, "function f() \x7b return \";\" \x7d // one"⟩ = .ok b ∧
      parse ⟨none, "f() // two"⟩ = .ok b' ∧
        parse ⟨none, "function f() \x7b return \";\" \x7d // one" ++ "\n;" ++ "f() // two"⟩ =
        .ok b'' ∧
          Statement.forgetAll id b'' = Statement.forgetAll id (b ++ b') := by
  have hok {s : Source} (h : (parse s).isOk = true) : ∃ b, parse s = .ok b := by
    cases hparse : parse s with
    | ok b => exact ⟨b, rfl⟩
    | error e =>
      rw [hparse] at h
      cases h
  obtain ⟨b, hb⟩ := hok (s := ⟨none, "function f() \x7b return \";\" \x7d // one"⟩)
    (by decide +kernel)
  obtain ⟨b', hb'⟩ := hok (s := ⟨none, "f() // two"⟩) (by decide +kernel)
  obtain ⟨b'', hb''⟩ := parse_append hb hb'
  exact ⟨b, b', b'', hb, hb', hb''⟩

end ObjectLang
