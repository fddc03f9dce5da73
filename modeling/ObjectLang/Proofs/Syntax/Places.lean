import Mathlib.Data.List.DropRight
import ObjectLang.Proofs.Peg.Derivation
import ObjectLang.Syntax.Build

/-!
Trees without their places.
Nodes are alike where they have the same rules and the same texts at every depth, wherever they
stand; the text of a node with blanks around it may be trimmed.
-/
namespace ObjectLang

mutual

/-- The same expression with the places of its statements forgotten and their texts changed by
`f`. -/
@[simp] def Expr.forget (f : String → String) : Expr → Expr
  | .integer value => .integer value
  | .float value => .float value
  | .string value => .string value
  | .name name => .name name
  | .binary op lhs rhs => .binary op (lhs.forget f) (rhs.forget f)
  | .call callee args => .call (callee.forget f) (Expr.forgetAll f args)
  | .index target args => .index (target.forget f) (Expr.forgetAll f args)
  | .member target name => .member (target.forget f) name
  | .function params body => .function params (Statement.forgetAll f body)
  | .closure params body => .closure params (Statement.forgetAll f body)

@[simp] def Expr.forgetAll (f : String → String) : List Expr → List Expr
  | [] => []
  | e :: rest => e.forget f :: Expr.forgetAll f rest

@[simp] def Expr.forgetIn (f : String → String) : Option Expr → Option Expr
  | none => none
  | some e => some (e.forget f)

@[simp] def Statement.forget (f : String → String) : Statement → Statement
  | .mk command _ text => .mk (command.forget f) (.ofPosition .start) (f text)

@[simp] def Statement.forgetAll (f : String → String) : List Statement → List Statement
  | [] => []
  | s :: rest => s.forget f :: Statement.forgetAll f rest

@[simp] def Command.forget (f : String → String) : Command → Command
  | .val name value => .val name (value.forget f)
  | .var name value => .var name (Expr.forgetIn f value)
  | .assign name op value => .assign name op (value.forget f)
  | .assignMember target name op value => .assignMember (target.forget f) name op (value.forget f)
  | .giveBack value => .giveBack (Expr.forgetIn f value)
  | .function name params body => .function name params (Statement.forgetAll f body)
  | .declareClass name superclass members =>
    .declareClass name (Expr.forgetIn f superclass) (Member.forgetAll f members)
  | .declareModule name body => .declareModule name (Statement.forgetAll f body)
  | .importModule name binding => .importModule name binding
  | .exportNames names => .exportNames names
  | .evaluate value => .evaluate (value.forget f)

@[simp] def Member.forget (f : String → String) : Member → Member
  | .val name value => .val name (value.forget f)
  | .var name value => .var name (Expr.forgetIn f value)
  | .method name params body => .method name params (Statement.forgetAll f body)
  | .operator symbol params body => .operator symbol params (Statement.forgetAll f body)
  | .property name getter setter =>
    .property name (Accessor.forgetIn f getter) (Accessor.forgetIn f setter)

@[simp] def Member.forgetAll (f : String → String) : List Member → List Member
  | [] => []
  | m :: rest => m.forget f :: Member.forgetAll f rest

@[simp] def Accessor.forget (f : String → String) : Accessor → Accessor
  | .mk params body => .mk params (Statement.forgetAll f body)

@[simp] def Accessor.forgetIn (f : String → String) : Option Accessor → Option Accessor
  | none => none
  | some a => some (a.forget f)

end

theorem Statement.forgetAll_eq_map (f : String → String) (b : Block) :
    Statement.forgetAll f b = b.map (Statement.forget f) := by
  induction b with
  | nil => rfl
  | cons s rest ih => rw [forgetAll, ih, List.map_cons]

namespace Text

theorem trim_eq_rdropWhile (cs : List Char) :
    trim cs = (cs.dropWhile isBlank).rdropWhile isBlank := rfl

/-- A blank behind a text is trimmed away. -/
theorem trim_append_blank (cs : List Char) {x : Char} (hx : isBlank x = true) :
    trim (cs ++ [x]) = trim cs := by
  rw [trim_eq_rdropWhile, trim_eq_rdropWhile, List.dropWhile_append]
  split
  · next hempty =>
    rw [List.isEmpty_iff.mp hempty, List.dropWhile_cons_of_pos hx]
    rfl
  · rw [List.rdropWhile_concat_pos _ _ _ hx]

end Text

namespace Syntax

open Peg

/-- What of a node's text matters: of rules without blanks all of it, of the others what is left
without the white space around it. -/
def core (r : Rule) (cs : List Char) : List Char := if form r = .solid then cs else Text.trim cs

/-- Nodes that are alike: at every depth they have the same rules, and the same matters of their
texts. -/
inductive Alike : List (Node Rule) → List (Node Rule) → Prop
  | nil : Alike [] []
  | cons {r : Rule} {start start' : Cursor} {stop stop' : Position}
      {ns ns' ms ms' : List (Node Rule)}
      (text : core r (start'.upTo stop') = core r (start.upTo stop)) (parts : Alike ns ns')
      (rest : Alike ms ms') : Alike (.mk r start stop ns :: ms) (.mk r start' stop' ns' :: ms')

variable {m n n' : Node Rule} {ns ns' ms ms' : List (Node Rule)}

theorem meaning_cons_of_not_isWord (hn : n.rule.isWord = false) :
    meaning (n :: ns) = n :: meaning ns :=
  List.filter_cons_of_pos (by rw [hn]; rfl)

theorem meaning_cons_of_isWord (hn : n.rule.isWord = true) : meaning (n :: ns) = meaning ns :=
  List.filter_cons_of_neg (by rw [hn]; decide)

namespace Alike

theorem refl : (ns : List (Node Rule)) → Alike ns ns
  | [] => .nil
  | .mk _ _ _ parts :: rest => .cons rfl (refl parts) (refl rest)

theorem append (h : Alike ns ns') (h' : Alike ms ms') : Alike (ns ++ ms) (ns' ++ ms') := by
  induction h with
  | nil => exact h'
  | cons text parts _ _ ih => exact .cons text parts ih

theorem uncons (h : Alike (n :: ns) ms) :
    ∃ n' ns', ms = n' :: ns' ∧ Alike [n] [n'] ∧ Alike ns ns' := by
  cases h with
  | cons text parts rest => exact ⟨_, _, rfl, .cons text parts .nil, rest⟩

theorem uncons_pair (h : Alike (n :: m :: ns) ms) : ∃ n' m' ns', ms = n' :: m' :: ns' ∧
    Alike [n] [n'] ∧ Alike [m] [m'] ∧ Alike ns ns' := by
  obtain ⟨n', _, rfl, hn, h⟩ := h.uncons
  obtain ⟨m', ns', rfl, hm, hns⟩ := h.uncons
  exact ⟨n', m', ns', rfl, hn, hm, hns⟩

theorem of_mk {r : Rule} {start : Cursor} {stop : Position} (h : Alike [.mk r start stop ns] [n']) :
    ∃ start' stop' ns', n' = .mk r start' stop' ns' ∧
      (form r = .solid → start'.upTo stop' = start.upTo stop) ∧ Alike ns ns' := by
  cases h with
  | cons text parts _ =>
    refine ⟨_, _, _, rfl, fun hr => ?_, parts⟩
    rwa [core, core, if_pos hr, if_pos hr] at text

theorem children (h : Alike [n] [n']) : Alike n.children n'.children := by
  cases h with
  | cons _ parts _ => exact parts

theorem rule (h : Alike [n] [n']) : n'.rule = n.rule := by
  cases h with
  | cons _ _ _ => rfl

/-- Where a rule takes no blanks, all of the text matters. -/
theorem chars (h : Alike [n] [n']) (hr : form n.rule = .solid) : n'.chars = n.chars := by
  obtain ⟨r, start, stop, ns⟩ := n
  obtain ⟨start', stop', ns', rfl, hchars, -⟩ := h.of_mk
  exact hchars hr

theorem text {r : Rule} (h : Alike [n] [n']) (hr : n.rule = r) (hsolid : form r = .solid) :
    n'.text = n.text := congrArg String.ofList (h.chars (hr ▸ hsolid))

/-- Of nodes that are alike the same ones are words. -/
theorem meaning (h : Alike ns ns') : Alike (meaning ns) (meaning ns') := by
  induction ns generalizing ns' with
  | nil =>
    cases h
    exact .nil
  | cons n rest ih =>
    obtain ⟨n', rest', rfl, hn, hrest⟩ := h.uncons
    cases hword : n.rule.isWord with
    | true =>
      rw [meaning_cons_of_isWord hword, meaning_cons_of_isWord (by rwa [hn.rule])]
      exact ih hrest
    | false =>
      rw [meaning_cons_of_not_isWord hword, meaning_cons_of_not_isWord (by rwa [hn.rule])]
      exact append hn (ih hrest)

theorem texts (h : Alike ns ns') (hr : ∀ r ∈ ns.map Node.rule, r = .ident) :
    ns'.map Node.text = ns.map Node.text := by
  induction ns generalizing ns' with
  | nil =>
    cases h
    rfl
  | cons n rest ih =>
    obtain ⟨n', rest', rfl, hn, hrest⟩ := h.uncons
    obtain ⟨hrule, hrules⟩ := List.forall_mem_cons.mp hr
    rw [List.map_cons, List.map_cons, hn.text hrule rfl, ih hrest hrules]

end Alike

def Naming (r : Rule) : Prop :=
  r = .parameters ∨ r = .importAlias ∨ r = .importOnly ∨ r = .exportStmt

def Linking (r : Rule) : Prop := r = .call ∨ r = .index ∨ r = .member

end Syntax

end ObjectLang
