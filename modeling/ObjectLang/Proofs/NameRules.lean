import ObjectLang.Proofs.RoundTrip
import ObjectLang.Proofs.Standing

/-!
The names that the grammar reads are those that the tables take.
A text is read as a single name exactly if it is a symbol and no reserved word, and likewise for the
names of modules. All names in a parsed program keep to the rules of the tables that they are meant
for, so that no program fails because of the form of a name.
-/
namespace ObjectLang

open Machine

variable {s : Source} {w : String}

namespace Syntax

open Peg Pattern

variable {toks : List String} {N : List (Node Rule) → Prop} {c : Command}

/-- One statement makes up a program, without a semicolon behind it. -/
theorem takes_lastStatement (h : Takes (.call .statement) N toks []) :
    Takes statementList N toks [] := by
  have hone : Takes (seq (.call .statement) separators) N toks [] :=
    h.seqMute (.manyNone semicolon_refused_atEnd)
  have hstops : Stops [.statement] [] := .atEnd rfl
  have hend : Refuses (seq (.call .statement) separators) [] :=
    .seq (hstops .statement (by decide))
  refine .muteSeq (.manyNone (h.refusesSemicolon ready_nil statement_refused_semicolon)) ?_
  refine hone.many (.manyNone hend) ?_
  rintro ns _ hns rfl
  rwa [List.append_nil]

/-- A text that is read as one command is parsed as a statement of it. -/
theorem parse_of_command (hs : s.text.toList = spaced toks) (h : Takes (body .statement)
      (Builds (Command.forget blank) firstCommand c) toks []) :
    ∃ c' span text, c'.forget blank = c.forget blank ∧ parse s = .ok [.mk c' span text] := by
  obtain ⟨_, ⟨start, stop, cs, rfl, hcs⟩, hparse⟩ :=
    parse_of_takes (takes_lastStatement (h.rule rfl)) hs
  obtain ⟨c', hbuild, hc⟩ := hcs ⟨start.pos, stop⟩
  refine ⟨c', ⟨start.pos, stop⟩, String.ofList (Text.trim (start.upTo stop)), hc, hparse _ ?_⟩
  rw [statements, Node.rule, if_pos rfl, statement, hbuild]
  rfl

/-- A name by itself is read as a reference. -/
theorem parse_name (hs : s.text = w) (hw : isName w.toList = true) :
    ∃ span text, parse s = .ok [.mk (.evaluate (.name w)) span text] := by
  have hcommand := takes_evaluate (reads_name hw) ready_nil (.atEnd rfl)
  rw [Expr.tokens, List.append_nil] at hcommand
  obtain ⟨c', span, text, hc, hparse⟩ := parse_of_command (by rw [hs, spaced_cons]; simp [behind])
    hcommand
  cases c' with
  | evaluate e =>
    cases e with
    | name x =>
      cases hc
      exact ⟨span, text, hparse⟩
    | _ => simp at hc
  | _ => simp at hc

/-- The name of a module behind the word `import` is read as an import of everything. -/
theorem parse_import (hs : s.text = "import " ++ w) (hw : isModuleName w.toList = true) :
    ∃ span text, parse s = .ok [.mk (.importModule w .everything) span text] := by
  have hnone : Takes (opt (alt (.call .importAlias) (.call .importOnly))) Nothing [] [] := by
    have hstops : Stops [.importAlias, .importOnly] [] := .atEnd rfl
    exact .optNone (.alt (hstops .importAlias (by decide)) (hstops .importOnly (by decide)))
  have htail : Takes (seq (.call .moduleName) (opt (alt (.call .importAlias) (.call .importOnly))))
      (Named w) [w] [] := by
    refine (takes_module hw).seq hnone ?_
    rintro _ _ hn rfl
    rwa [List.append_nil]
  have hbody : Takes (body .importStmt) (fun cs => ∃ n, meaning cs = [n] ∧ n.text = w)
      [Word.importWord.spelling, w] [] := by
    refine htail.afterWord ?_
    rintro v _ hv ⟨n, rfl, hr, hn⟩
    exact ⟨n, by rw [meaning_cons_of_isWord hv, meaning_cons_of_not_isWord hr]; rfl, hn⟩
  have hcommand : Takes (body .statement) (fun cs => ∀ span,
      Gives (Command.forget blank) (firstCommand span cs) (.importModule w .everything))
      [Word.importWord.spelling, w] [] := by
    refine takes_command .importStmt (by decide)
      (.ofOthers (isNameChar_spelling .importWord) (by decide)) (hbody.rule rfl) ?_
    rintro start stop cs ⟨n, hcs, rfl⟩
    simp only [command, importStmt, hcs]
    exact .pure rfl
  have htext : s.text.toList = spaced [Word.importWord.spelling, w] := by
    rw [hs, spaced_cons, behind, if_neg (List.cons_ne_nil _ _), spaced_cons, String.toList_append]
    simp [behind, Word.spelling]
  obtain ⟨c', span, text, hc, hparse⟩ := parse_of_command htext hcommand
  cases c' with
  | importModule name binding =>
    cases hc
    exact ⟨span, text, hparse⟩
  | _ => simp at hc

end Syntax

open Syntax

theorem parse_name_iff (hs : s.text = w) :
    (∃ span text, parse s = .ok [.mk (.evaluate (.name w)) span text]) ↔
      NameRule.symbol.accepts w = true ∧ ∀ k ∈ Word.reserved, k.spelling ≠ w := by
  have hname : isName w.toList = true ↔
      NameRule.symbol.accepts w = true ∧ ∀ k ∈ Word.reserved, k.spelling ≠ w := by
    rw [isName_iff]
    simp only [NameRule.accepts, ne_eq, String.toList_inj]
  rw [← hname]
  refine ⟨?_, parse_name hs⟩
  rintro ⟨span, text, hparse⟩
  exact parse_writes hparse (.name .symbol w) (by simp)

theorem parse_import_iff (hs : s.text = "import " ++ w) :
    (∃ span text, parse s = .ok [.mk (.importModule w .everything) span text]) ↔
      NameRule.dotted.accepts w = true ∧
        ∀ x ∈ NameRule.components w.toList, ∀ k ∈ Word.reserved, k.spelling.toList ≠ x := by
  have hname : isModuleName w.toList = true ↔ NameRule.dotted.accepts w = true ∧
      ∀ x ∈ NameRule.components w.toList, ∀ k ∈ Word.reserved, k.spelling.toList ≠ x := by
    rw [isModuleName_iff, NameRule.accepts, List.all_eq_true]
    simp only [isName_iff, forall_and]
  rw [← hname]
  refine ⟨?_, parse_import hs⟩
  rintro ⟨span, text, hparse⟩
  exact parse_writes hparse (.name .dotted w) (by simp)

/-- The grammar and the tables agree on names. A text is parsed as a reference to itself exactly if
it is a symbol and no reserved word, and behind `import` as the name of a module exactly if it is a
dotted name without reserved parts. Whatever a parsed program mentions, at any depth, is a name that
the table it is meant for takes. So neither the end of a program nor a statement on the way fails
because of the form of a name. -/
theorem names_agree :
    (∀ name w, (∃ span text, parse ⟨name, w⟩ = .ok [.mk (.evaluate (.name w)) span text]) ↔
      NameRule.symbol.accepts w = true ∧ ∀ k ∈ Word.reserved, k.spelling ≠ w) ∧
    (∀ name w, (∃ span text,
        parse ⟨name, "import " ++ w⟩ = .ok [.mk (.importModule w .everything) span text]) ↔
      NameRule.dotted.accepts w = true ∧
        ∀ x ∈ NameRule.components w.toList, ∀ k ∈ Word.reserved, k.spelling.toList ≠ x) ∧
    (∀ s b, parse s = .ok b → ∀ rule x, .name rule x ∈ Statement.mentionsAll b →
      rule.accepts x = true) ∧
    ∀ sources m, After sources m → ∀ d src rule x,
      (∀ e m', Eval.runSource (.ofDepth d) src m = .failed e m' →
        e.rootCause ≠ .fault (.invalidName rule x)) ∧
      ∀ p ∈ (Eval.runSource (.ofDepth d) src).moments m, ∀ st e, p.deed = .leaves st e →
        e.rootCause ≠ .fault (.invalidName rule x) := by
  refine ⟨fun name w => parse_name_iff rfl, fun name w => parse_import_iff rfl, ?_, ?_⟩
  · intro s b hparse rule x hx
    exact (parse_writes hparse _ hx).proper
  · intro sources m h d src rule x
    exact h.rootCause_ne d src id

example : Word.reserved.map Word.spelling = ["class", "closure", "export", "function", "import",
    "method", "module", "operator", "property", "return", "val", "var"] := by decide

/-- A word that only begins like a reserved one is a name, and the reserved word is none. -/
theorem names_agree_values :
    (∃ span text, parse ⟨none, "values"⟩ = .ok [.mk (.evaluate (.name "values")) span text]) ∧
    (¬ ∃ span text, parse ⟨none, "val"⟩ = .ok [.mk (.evaluate (.name "val")) span text]) ∧
    ∃ span text, parse ⟨none, "import as.get"⟩ =
      .ok [.mk (.importModule "as.get" .everything) span text] := by
  refine ⟨(names_agree.1 none "values").mpr (by decide), fun h => ?_,
    (names_agree.2.1 none "as.get").mpr (by decide)⟩
  exact absurd ((names_agree.1 none "val").mp h) (by decide)

end ObjectLang
