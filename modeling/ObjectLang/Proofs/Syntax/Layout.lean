import ObjectLang.Proofs.Syntax.Mentions
import ObjectLang.Proofs.Syntax.Spelling

/-!
Where nodes and statements stand.
The nodes of a match stand one behind the other, and the parts of a node between its ends. The
builder keeps this order: the statements of a block follow each other in the text, and every body
stands between the ends of the statement that it belongs to.
-/
namespace ObjectLang

namespace Syntax

open Peg

/-- A node with the text and the parts that its rule gives it, throughout. -/
inductive Shaped : Node Rule → Prop
  | mk {r : Rule} {start : Cursor} {stop : Position} {ns : List (Node Rule)}
      (spelt : Spelt r (start.upTo stop))
      (shape : form r ≠ .solid → Shape (ns.map Node.rule) r) (parts : ∀ n ∈ ns, Shaped n) :
      Shaped (.mk r start stop ns)

variable {s : Setting} {p : Pattern Rule} {x : Char}

theorem shaped_of_derives {c d : Cursor} {ns : List (Node Rule)}
    (h : Derives grammar s p c (some (ns, d))) : ∀ n ∈ ns, Shaped n := by
  induction h using Derives.match_induction with
  | text | letter | atStart | atEnd | gap | optNone | loopStop | unlessPassed => nofun
  | cat _ _ ih ih' | loopNext _ _ ih ih' =>
    intro n hn
    exact (List.mem_append.mp hn).elim (ih n) (ih' n)
  | altFirst _ ih | altSecond _ _ ih | optSome _ ih | bare _ _ ih => exact ih
  | @kept s r _ _ _ inner hkeeps ih =>
    intro n hn
    obtain rfl := List.mem_singleton.mp hn
    simp only [Setting.keeps, Bool.and_eq_true, decide_eq_true_eq, bne_iff_ne] at hkeeps
    by_cases hform : form r = .solid
    · refine .mk (spelt_of_derives ?_ inner) (absurd hform) ih
      rw [Grammar.inner_solid hform]
    · refine .mk ?_ (fun _ => ?_) ih
      · cases r <;> trivial
      · have hinner : grammar.inner s r = grammar.outer s r := by
          rw [Grammar.inner, if_neg (show ¬grammar.form r = .solid from hform)]
        rw [hinner] at inner
        exact shape_of_yields (yields_of_derives inner hkeeps.1 hkeeps.2)

namespace Shaped

variable {r : Rule} {start : Cursor} {stop : Position} {ns : List (Node Rule)} {n : Node Rule}

theorem parts (h : Shaped (.mk r start stop ns)) : ∀ n ∈ ns, Shaped n := by
  cases h with
  | mk _ _ parts => exact parts

theorem shape (h : Shaped (.mk r start stop ns)) (hr : form r ≠ .solid) :
    Shape (ns.map Node.rule) r := by
  cases h with
  | mk _ shape _ => exact shape hr

variable (h : Shaped n)
include h

theorem spelt : Spelt n.rule n.text.toList := by
  cases h with
  | mk spelt _ _ =>
    rw [Node.text, String.toList_ofList]
    exact spelt

theorem isName (hr : n.rule = .ident) : Syntax.isName n.text.toList = true := by
  have hspelt := h.spelt
  rw [hr] at hspelt
  exact hspelt

theorem isModuleName (hr : n.rule = .moduleName) : Syntax.isModuleName n.text.toList = true := by
  have hspelt := h.spelt
  rw [hr] at hspelt
  exact hspelt

theorem operator_mem (hr : n.rule = .operator) : n.text ∈ symbols .operator := by
  have hspelt := h.spelt
  rw [hr, Spelt, String.ofList_toList] at hspelt
  exact hspelt

end Shaped

/-- The nodes stand one behind the other between two cursors, and the parts of each between its
ends. Each is shaped, and a rule that eats has passed one of its first characters. -/
inductive Laid : Cursor → List (Node Rule) → Cursor → Prop
  | nil {c d : Cursor} (h : c.Leads d) : Laid c [] d
  | cons {c start stop d : Cursor} {r : Rule} {ns ms : List (Node Rule)} (before : c.Leads start)
      (shaped : Shaped (.mk r start stop.pos ns))
      (eats : ranking.eats r = true →
        ∃ x w, start.Passes (x :: w) stop ∧ ∃ z ∈ first r, z.holds x = true)
      (parts : Laid start ns stop) (rest : Laid stop ms d) :
      Laid c (.mk r start stop.pos ns :: ms) d

namespace Laid

variable {c c' d d' : Cursor} {n : Node Rule} {ns ms : List (Node Rule)}

theorem leads (h : Laid c ns d) : c.Leads d := by
  induction h with
  | nil h => exact h
  | cons before _ _ _ _ inner behind => exact before.trans (inner.trans behind)

theorem widen (h : Laid c ns d) (hc : c'.Leads c) (hd : d.Leads d') : Laid c' ns d' := by
  induction h generalizing c' with
  | nil h => exact .nil (hc.trans (h.trans hd))
  | cons before shaped eats parts _ _ ih =>
    exact .cons (hc.trans before) shaped eats parts (ih (.refl _) hd)

theorem append (h : Laid c ns d) (h' : Laid d ms d') : Laid c (ns ++ ms) d' := by
  induction h with
  | nil h => exact h'.widen h (.refl _)
  | cons before shaped eats parts _ _ ih => exact .cons before shaped eats parts (ih h')

/-- The first node stands before the others. -/
theorem uncons (h : Laid c (n :: ns) d) : ∃ mid, Laid c [n] mid ∧ Laid mid ns d := by
  cases h with
  | cons before shaped eats parts rest =>
    exact ⟨_, .cons before shaped eats parts (.nil (.refl _)), rest⟩

theorem head (h : Laid c (n :: ns) d) : Laid c [n] d := by
  obtain ⟨mid, hhead, htail⟩ := h.uncons
  exact hhead.widen (.refl c) htail.leads

theorem tail (h : Laid c (n :: ns) d) : Laid c ns d := by
  obtain ⟨mid, hhead, htail⟩ := h.uncons
  exact htail.widen hhead.leads (.refl d)

theorem parts {r : Rule} {start : Cursor} {stop : Position}
    (h : Laid c (.mk r start stop ns :: ms) d) : Laid c ns d := by
  cases h with
  | cons before _ _ parts rest => exact parts.widen before rest.leads

theorem shaped (h : Laid c (n :: ns) d) : Shaped n := by
  cases h with
  | cons _ shaped _ _ _ => exact shaped

end Laid

/-- A rule that eats passes one of its first characters. -/
theorem first_of_derives {r : Rule} {c d : Cursor} {ns : List (Node Rule)}
    (h : Derives grammar s (.call r) c (some (ns, d))) (hr : ranking.eats r = true) :
    ∃ x w, c.Passes (x :: w) d ∧ ∃ z ∈ first r, z.holds x = true := by
  have hempty : ranking.mayBeEmpty (.call r) = false := by
    rw [Ranking.mayBeEmpty, hr, Bool.not_true]
  have hlt := ranking_bounds.length_lt h hempty
  obtain ⟨w, hw⟩ := h.passes
  cases w with
  | nil =>
    rw [hw.1, List.nil_append] at hlt
    omega
  | cons x w => exact ⟨x, w, hw, ranking_bounds.starts first_covers h hw⟩

/-- The nodes of a match stand where the match has passed them. -/
theorem laid_of_derives {c d : Cursor} {ns : List (Node Rule)}
    (h : Derives grammar s p c (some (ns, d))) : Laid c ns d := by
  induction h using Derives.match_induction with
  | text _ h | letter _ h | atStart h | atEnd h | gap h => exact .nil h.passes
  | optNone | loopStop | unlessPassed => exact .nil (.refl _)
  | cat _ _ ih ih' | loopNext _ _ ih ih' => exact ih.append ih'
  | altFirst _ ih | altSecond _ _ ih | optSome _ ih | bare _ _ ih => exact ih
  | kept _ _ ih h =>
    have hshaped := shaped_of_derives h _ (List.mem_singleton_self _)
    exact .cons (.refl _) hshaped (first_of_derives h) ih (.nil (.refl _))

def Visible (c d : Cursor) : Prop := ∃ w, c.Passes w d ∧ ∃ x ∈ w, Text.isBlank x = false

theorem Visible.widen {c c' d d' : Cursor} (h : Visible c d) (hc : c'.Leads c) (hd : d.Leads d') :
    Visible c' d' := by
  obtain ⟨w, hw, x, hx, hblank⟩ := h
  obtain ⟨u, hu⟩ := hc
  obtain ⟨v, hv⟩ := hd
  refine ⟨u ++ (w ++ v), hu.trans (hw.trans hv), x, ?_, hblank⟩
  exact List.mem_append_right _ (List.mem_append_left _ hx)

def isVisible : Start → Bool
  | .char x => !Text.isBlank x
  | .letter .any => false
  | .letter _ => true

/-- Letters and digits lie between the white space of ASCII and that beyond it. -/
theorem isBlank_of_isAlphanum (h : x.isAlphanum = true) : Text.isBlank x = false := by
  delta Char.isAlphanum Char.isAlpha Char.isUpper Char.isLower Char.isDigit at h
  simp [UInt32.le_iff_toNat_le] at h
  simp only [Text.isBlank, Text.blankRanges, List.any_cons, List.any_nil, Bool.or_false,
    Bool.or_eq_false_iff, Bool.and_eq_false_iff, decide_eq_false_iff_not]
  omega

theorem isBlank_eq_false {z : Start} (hz : isVisible z = true) (hx : z.holds x = true) :
    Text.isBlank x = false := by
  cases z with
  | char y =>
    obtain rfl : y = x := beq_iff_eq.mp hx
    exact (Bool.not_eq_true' _).mp hz
  | letter l =>
    refine isBlank_of_isAlphanum (isAlphanum_of_letter ?_ hx)
    rintro rfl
    cases hz

/-- No rule that eats begins with white space. -/
theorem isVisible_of_first {r : Rule} (hr : ranking.eats r = true) :
    ∀ z ∈ first r, isVisible z = true := by
  have h : ∀ r ∈ Rule.all, ranking.eats r = true → ∀ z ∈ first r, isVisible z = true := by
    decide +kernel
  exact h r r.mem_all hr

theorem Laid.visible {c d start : Cursor} {stop : Position} {r : Rule} {ns ms : List (Node Rule)}
    (h : Laid c (.mk r start stop ns :: ms) d) (hr : ranking.eats r = true) : Visible c d := by
  cases h with
  | cons before _ eats _ rest =>
    obtain ⟨x, w, hw, z, hz, hx⟩ := eats hr
    have hstart : Visible start _ :=
      ⟨x :: w, hw, x, List.mem_cons_self .., isBlank_eq_false (isVisible_of_first hr z hz) hx⟩
    exact hstart.widen before rest.leads

/-- The node of a command passes a character that is no white space. -/
theorem Laid.visible_of_command {c d : Cursor} {ns : List (Node Rule)} (h : Laid c ns d)
    (hns : Shape (ns.map Node.rule) .statement) : Visible c d := by
  obtain ⟨r, hrs, hcommand⟩ := hns
  obtain ⟨⟨r', start, stop, ms⟩, _, rfl, hr, -⟩ := List.map_eq_cons_iff.mp hrs
  obtain rfl : r' = r := hr
  have heats : ∀ r ∈ [Rule.moduleDecl, .importStmt, .exportStmt, .classDecl, .functionDecl,
      .valDecl, .varDecl, .returnStmt, .assignment, .sum], ranking.eats r = true := by decide
  exact h.visible (heats r' hcommand)

/-- The statements of a block stand one behind the other between two cursors, each with the text
that it covers, and the bodies in a statement stand between its ends. -/
inductive Sited : Cursor → Block → Cursor → Prop
  | nil {c d : Cursor} (h : c.Leads d) : Sited c [] d
  | cons {c start stop d : Cursor} {w : List Char} {command : Command} {b : Block}
      (before : c.Leads start) (through : start.Passes w stop)
      (visible : ∃ x ∈ w, Text.isBlank x = false)
      (bodies : ∀ body ∈ command.bodies, Sited start body stop) (rest : Sited stop b d) :
      Sited c (.mk command ⟨start.pos, stop.pos⟩ (String.ofList (Text.trim w)) :: b) d

theorem Sited.from_earlier {c c' d : Cursor} {b : Block} (h : Sited c b d) (hc : c'.Leads c) :
    Sited c' b d := by
  cases h with
  | nil h => exact .nil (hc.trans h)
  | cons before through visible bodies rest =>
    exact .cons (hc.trans before) through visible bodies rest

theorem Sited.append {c d e : Cursor} {b b' : Block} (h : Sited c b d) (h' : Sited d b' e) :
    Sited c (b ++ b') e := by
  induction h with
  | nil h => exact h'.from_earlier h
  | cons before through visible bodies _ _ ih => exact .cons before through visible bodies (ih h')

def Inside (c d : Cursor) (bodies : List Block) : Prop := ∀ body ∈ bodies, Sited c body d

section Inside

variable {c d : Cursor} {b : Block} {bs bs' : List Block}

@[simp] theorem inside_nil : Inside c d [] := nofun

@[simp] theorem inside_append : Inside c d (bs ++ bs') ↔ Inside c d bs ∧ Inside c d bs' :=
  List.forall_mem_append

@[simp] theorem inside_singleton : Inside c d [b] ↔ Sited c b d := by
  simp [Inside]

end Inside

end Syntax

end ObjectLang
