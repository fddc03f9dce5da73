import ObjectLang.Proofs.Syntax.Places

/-!
The shapes of nodes.
The rules of the nodes that a pattern leaves can be read off the pattern. So the parts that the
builder reads as texts are always names, operators and the insides of literals.
-/
namespace ObjectLang.Syntax

open Peg Pattern

/-- The rules of the nodes that a match of the pattern may leave. -/
def Yields : Pattern Rule → List Rule → Prop
  | .text _, rs | .letter _, rs | .atStart, rs | .atEnd, rs | .gap, rs | .unless _, rs => rs = []
  | .cat a b, rs => ∃ xs ys, rs = xs ++ ys ∧ Yields a xs ∧ Yields b ys
  | .alt a b, rs => Yields a rs ∨ Yields b rs
  | .opt a, rs => rs = [] ∨ Yields a rs
  | .loop a, rs => ∃ xss : List (List Rule), rs = xss.flatten ∧ ∀ xs ∈ xss, Yields a xs
  | .call r, rs => rs = [r]

section Combinators

variable {a b : Pattern Rule} {rs : List Rule}

theorem yields_seq : Yields (.seq a b) rs ↔ ∃ xs ys, rs = xs ++ ys ∧ Yields a xs ∧ Yields b ys := by
  simp [Yields, Pattern.seq]

theorem yields_many :
    Yields (.many a) rs ↔ ∃ xss : List (List Rule), rs = xss.flatten ∧ ∀ xs ∈ xss, Yields a xs := by
  simp only [Yields, Pattern.many]
  constructor
  · rintro (rfl | ⟨xs, ys, rfl, hxs, xss, rfl, hxss⟩)
    · exact ⟨[], rfl, by simp⟩
    · refine ⟨xs :: xss, rfl, ?_⟩
      intro zs hzs
      rcases List.mem_cons.mp hzs with rfl | hzs
      · exact hxs
      · obtain ⟨_, zs', rfl, rfl, hzs'⟩ := hxss zs hzs
        exact hzs'
  · rintro ⟨_ | ⟨xs, xss⟩, rfl, h⟩
    · exact Or.inl rfl
    · refine Or.inr ⟨xs, xss.flatten, rfl, h xs (List.mem_cons_self ..), xss, rfl, ?_⟩
      intro zs hzs
      exact ⟨[], zs, rfl, rfl, h zs (List.mem_cons_of_mem _ hzs)⟩

theorem yields_separators : Yields separators rs ↔ rs = [] := by
  rw [separators, yields_many]
  constructor
  · rintro ⟨xss, rfl, h⟩
    exact List.flatten_eq_nil_iff.mpr h
  · rintro rfl
    exact ⟨[], rfl, by simp⟩

end Combinators

variable {s : Setting} {p : Pattern Rule} {c d : Cursor} {ns : List (Node Rule)} {r : Rule}

def mute : Pattern Rule → Bool
  | .text _ | .letter _ | .atStart | .atEnd | .gap => true
  | .cat a b | .alt a b => mute a && mute b
  | .opt a | .loop a | .unless a => mute a
  | .call r => form r = .solid

theorem mute_body (r : Rule) (hr : form r = .solid) : mute (body r) = true := by
  have h : ∀ r ∈ Rule.all, form r = .solid → mute (body r) = true := by decide +kernel
  exact h r r.mem_all hr

theorem Grammar.inner_solid (hr : form r = .solid) :
    grammar.inner s r = { s with weave := .solid } := by
  rw [Grammar.inner, if_pos (show grammar.form r = .solid from hr)]

/-- Inside a rule without blanks there are no nodes. -/
theorem nodes_eq_nil (h : Derives grammar s p c (some (ns, d))) (hs : s.weave = .solid)
    (hp : mute p = true) : ns = [] := by
  induction h using Derives.match_induction with
  | text | letter | atStart | atEnd | gap | optNone | loopStop | unlessPassed => rfl
  | cat _ _ ih ih' =>
    simp only [mute, Bool.and_eq_true] at hp
    rw [ih hs hp.1, ih' hs hp.2, List.nil_append]
  | loopNext _ _ ih ih' => rw [ih hs hp, ih' hs hp, List.nil_append]
  | altFirst _ ih =>
    simp only [mute, Bool.and_eq_true] at hp
    exact ih hs hp.1
  | altSecond _ _ ih =>
    simp only [mute, Bool.and_eq_true] at hp
    exact ih hs hp.2
  | optSome _ ih => exact ih hs hp
  | @kept s r _ _ _ _ hkeeps _ =>
    have hform : form r = .solid := by simpa [mute] using hp
    have hjoined : ¬grammar.form r = .joined := by
      rw [show grammar.form r = .solid from hform]
      decide
    rw [Setting.keeps, Grammar.outer, if_neg hjoined, hs] at hkeeps
    simp at hkeeps
  | @bare s r _ _ _ _ _ ih =>
    have hform : form r = .solid := by simpa [mute] using hp
    exact ih (by rw [Grammar.inner_solid hform]) (mute_body r hform)

theorem yields_of_derives (h : Derives grammar s p c (some (ns, d))) (hlook : s.look = .take)
    (hs : s.weave ≠ .solid) : Yields p (ns.map Node.rule) := by
  induction h using Derives.match_induction with
  | text | letter | atStart | atEnd | gap | unlessPassed => rfl
  | cat _ _ ih ih' => exact ⟨_, _, List.map_append, ih hlook hs, ih' hlook hs⟩
  | altFirst _ ih => exact Or.inl (ih hlook hs)
  | altSecond _ _ ih => exact Or.inr (ih hlook hs)
  | optSome _ ih => exact Or.inr (ih hlook hs)
  | optNone => exact Or.inl rfl
  | loopStop => exact ⟨[], rfl, by simp⟩
  | loopNext _ _ ih ih' =>
    obtain ⟨xss, hflat, hxss⟩ := ih' hlook hs
    refine ⟨_ :: xss, by rw [List.map_append, hflat, List.flatten_cons], ?_⟩
    intro xs hxs
    rcases List.mem_cons.mp hxs with rfl | hxs
    · exact ih hlook hs
    · exact hxss xs hxs
  | kept => rfl
  | @bare s r _ _ _ _ hbare _ =>
    -- Where nodes are taken, every rule leaves one.
    have hkeeps : (grammar.outer s r).keeps = true := by
      rw [Setting.keeps, Grammar.outer]
      split <;> simp [hlook, hs]
    rw [hkeeps] at hbare
    cases hbare

def Alternates (op operand : Rule) : List Rule → Prop
  | [] => True
  | [_] => False
  | x :: y :: rest => x = op ∧ y = operand ∧ Alternates op operand rest

def Expressive (r : Rule) : Prop :=
  r ∈ [Rule.sum, .product, .chain, .integer, .float, .string, .ident, .functionExpr, .closureExpr]

def Commanding (r : Rule) : Prop :=
  r ∈ [Rule.moduleDecl, .importStmt, .exportStmt, .classDecl, .functionDecl, .valDecl, .varDecl,
    .returnStmt, .assignment, .sum]

def Belonging (r : Rule) : Prop :=
  r ∈ [Rule.valDecl, .varDecl, .methodDecl, .propertyDecl, .operatorDecl]

/-- The rules `rs` that the parts of a node of a rule with blanks have, one after the other. -/
def Shape (rs : List Rule) : Rule → Prop
  | .program => ∃ rest, rs = rest ++ [.endOfInput] ∧ ∀ r ∈ rest, r = .statement
  | .block => ∀ r ∈ rs, r = .statement
  | .statement => ∃ r, rs = [r] ∧ Commanding r
  | .sum => ∃ rest, rs = .product :: rest ∧ Alternates .addOp .product rest
  | .product => ∃ rest, rs = .chain :: rest ∧ Alternates .mulOp .chain rest
  | .chain => ∃ r rest, rs = r :: rest ∧ Expressive r ∧ ∀ x ∈ rest, Linking x
  | .call | .index => ∀ r ∈ rs, r = .sum
  | .member => rs = [.ident]
  | .importAlias => rs = [.word .asWord, .ident]
  | .parameters | .importOnly => ∀ r ∈ rs, r = .ident
  | .exportStmt => ∃ rest, rs = .word .exportWord :: rest ∧ ∀ r ∈ rest, r = .ident
  | .string => rs = [.stringContent]
  | .valDecl => rs = [.word .valWord, .ident, .sum]
  | .varDecl => rs = [.word .varWord, .ident] ∨ rs = [.word .varWord, .ident, .sum]
  | .returnStmt => rs = [.word .returnWord] ∨ rs = [.word .returnWord, .sum]
  | .assignment => rs = [.chain, .assignOp, .sum]
  | .functionExpr => rs = [.word .functionWord, .parameters, .block]
  | .closureExpr => rs = [.word .closureWord, .parameters, .block]
  | .setter => rs = [.word .setWord, .parameters, .block]
  | .getter => rs = [.word .getWord, .block]
  | .functionDecl => rs = [.word .functionWord, .ident, .parameters, .block]
  | .methodDecl => rs = [.word .methodWord, .ident, .parameters, .block]
  | .operatorDecl => rs = [.word .operatorWord, .operator, .parameters, .block]
  | .classDecl => rs = [.word .classWord, .ident, .classBody] ∨
    rs = [.word .classWord, .ident, .superclass, .classBody]
  | .superclass => rs = [.chain]
  | .classBody => ∀ r ∈ rs, Belonging r
  | .propertyDecl => rs = [.word .propertyWord, .ident] ∨
    rs = [.word .propertyWord, .ident, .getter] ∨
    rs = [.word .propertyWord, .ident, .getter, .setter]
  | .moduleDecl => rs = [.word .moduleWord, .moduleName, .block]
  | .importStmt => rs = [.word .importWord, .moduleName] ∨
    rs = [.word .importWord, .moduleName, .importAlias] ∨
    rs = [.word .importWord, .moduleName, .importOnly]
  | _ => True

theorem alternates_flatten (op operand : Rule) {xss : List (List Rule)}
    (h : ∀ xs ∈ xss, xs = [op, operand]) : Alternates op operand xss.flatten := by
  induction xss with
  | nil => trivial
  | cons xs xss ih =>
    rw [h xs (List.mem_cons_self ..)]
    exact ⟨rfl, rfl, ih fun ys hys => h ys (List.mem_cons_of_mem _ hys)⟩

/-- Parts of one rule, divided by commas. -/
theorem mem_of_yields_sepBy {rs : List Rule} {x : Rule}
    (h : Yields (sepBy (.call x) ",") rs) : ∀ r ∈ rs, r = x := by
  simp only [sepBy, yields_seq, yields_many, Yields, lit] at h
  obtain ⟨_, _, rfl, rfl, xss, rfl, hxss⟩ := h
  intro r hr
  rcases List.mem_cons.mp hr with rfl | hr
  · rfl
  · obtain ⟨xs, hxs, hrxs⟩ := List.mem_flatten.mp hr
    obtain ⟨_, _, rfl, rfl, rfl⟩ := hxss xs hxs
    exact List.mem_singleton.mp hrxs

/-- Parts that each leave one node of certain rules, divided by semicolons. -/
theorem mem_of_yields_divided {rs : List Rule} {a : Pattern Rule} {P : Rule → Prop}
    (ha : ∀ {xs}, Yields a xs → ∃ x, xs = [x] ∧ P x)
    (h : Yields (.many (.seq a separators)) rs) : ∀ r ∈ rs, P r := by
  simp only [yields_many, yields_seq, yields_separators] at h
  obtain ⟨xss, rfl, hxss⟩ := h
  intro r hr
  obtain ⟨_, hxs, hrxs⟩ := List.mem_flatten.mp hr
  obtain ⟨xs, _, rfl, hone, rfl⟩ := hxss _ hxs
  obtain ⟨x, rfl, hx⟩ := ha hone
  rw [List.append_nil, List.mem_singleton] at hrxs
  exact hrxs ▸ hx

theorem shape_of_yields_statementList {rs : List Rule} (h : Yields statementList rs) :
    ∀ r ∈ rs, r = .statement := by
  simp only [statementList, yields_seq, yields_separators] at h
  obtain ⟨_, _, rfl, rfl, hmany⟩ := h
  refine mem_of_yields_divided (P := (· = .statement)) (fun {xs} hone =>
    ⟨.statement, ?_, rfl⟩) hmany
  exact hone

/-- What the patterns leave has a shape: rule by rule, the lists of rules that they allow. -/
theorem shape_of_yields {rs : List Rule} (h : Yields (body r) rs) : Shape rs r := by
  cases r with
  | program =>
    simp only [body, seqs, yields_seq, Yields] at h
    obtain ⟨_, _, rfl, rfl, _, _, rfl, hlist, rfl⟩ := h
    exact ⟨_, rfl, shape_of_yields_statementList hlist⟩
  | block =>
    simp only [body, seqs, yields_seq, Yields, lit] at h
    obtain ⟨_, _, rfl, rfl, _, _, rfl, hlist, rfl⟩ := h
    rw [List.nil_append, List.append_nil]
    exact shape_of_yields_statementList hlist
  | statement =>
    simp only [body, alts, Yields] at h
    rcases h with rfl | rfl | rfl | rfl | rfl | rfl | rfl | rfl | rfl | rfl <;>
      exact ⟨_, rfl, by simp [Commanding]⟩
  | sum =>
    simp only [body, yields_seq, yields_many, Yields] at h
    obtain ⟨_, _, rfl, rfl, xss, rfl, hxss⟩ := h
    refine ⟨_, rfl, alternates_flatten .addOp .product fun xs hxs => ?_⟩
    obtain ⟨_, _, rfl, rfl, rfl⟩ := hxss xs hxs
    rfl
  | product =>
    simp only [body, yields_seq, yields_many, Yields] at h
    obtain ⟨_, _, rfl, rfl, xss, rfl, hxss⟩ := h
    refine ⟨_, rfl, alternates_flatten .mulOp .chain fun xs hxs => ?_⟩
    obtain ⟨_, _, rfl, rfl, rfl⟩ := hxss xs hxs
    rfl
  | chain =>
    simp only [body, yields_seq, yields_many, alts, Yields] at h
    obtain ⟨xs, _, rfl, hxs, xss, rfl, hxss⟩ := h
    obtain ⟨first, rfl, hfirst⟩ : ∃ first, xs = [first] ∧ Expressive first := by
      simp [primary, alts, seqs, yields_seq, Yields, lit] at hxs
      rcases hxs with rfl | rfl | rfl | rfl | rfl | rfl | rfl <;>
        exact ⟨_, rfl, by simp [Expressive]⟩
    refine ⟨first, _, rfl, hfirst, fun r hr => ?_⟩
    obtain ⟨xs, hxs, hrxs⟩ := List.mem_flatten.mp hr
    rcases hxss xs hxs with rfl | rfl | rfl <;> simp_all [Linking]
  | call | index =>
    simp only [body, seqs, arguments, yields_seq, Yields, lit] at h
    obtain ⟨_, _, rfl, rfl, _, _, rfl, rfl | hsums, rfl⟩ := h
    · nofun
    · rw [List.nil_append, List.append_nil]
      exact mem_of_yields_sepBy hsums
  | parameters =>
    simp only [body, seqs, yields_seq, Yields, lit] at h
    obtain ⟨_, _, rfl, rfl, _, _, rfl, rfl | hnames, rfl⟩ := h
    · nofun
    · rw [List.nil_append, List.append_nil]
      exact mem_of_yields_sepBy hnames
  | importOnly =>
    simp only [body, seqs, yields_seq, Yields, lit] at h
    obtain ⟨_, _, rfl, rfl, _, _, rfl, hnames, rfl⟩ := h
    rw [List.nil_append, List.append_nil]
    exact mem_of_yields_sepBy hnames
  | exportStmt =>
    simp only [body, word, yields_seq, Yields] at h
    obtain ⟨_, _, rfl, rfl, hnames⟩ := h
    exact ⟨_, rfl, mem_of_yields_sepBy hnames⟩
  | classBody =>
    simp only [body, seqs, yields_seq, yields_separators, Yields, lit] at h
    obtain ⟨_, _, rfl, rfl, _, _, rfl, rfl, _, _, rfl, hmany, rfl⟩ := h
    rw [List.nil_append, List.nil_append, List.append_nil]
    refine mem_of_yields_divided (fun hone => ?_) hmany
    simp only [classMember, alts, Yields] at hone
    rcases hone with rfl | rfl | rfl | rfl | rfl <;> exact ⟨_, rfl, by simp [Belonging]⟩
  | propertyDecl =>
    simp only [body, seqs, word, yields_seq, yields_separators, Yields, lit] at h
    obtain ⟨_, _, rfl, rfl, _, _, rfl, rfl, rfl | h⟩ := h
    · exact Or.inl rfl
    · obtain ⟨_, _, rfl, rfl, _, _, rfl, rfl, _, _, rfl, rfl, _, _, rfl, rfl | rfl, rfl⟩ := h
      · exact Or.inr (Or.inl rfl)
      · exact Or.inr (Or.inr rfl)
  | varDecl =>
    simp only [body, seqs, word, yields_seq, Yields, lit] at h
    obtain ⟨_, _, rfl, rfl, _, _, rfl, rfl, rfl | ⟨_, _, rfl, rfl, rfl⟩⟩ := h
    · exact Or.inl rfl
    · exact Or.inr rfl
  | returnStmt =>
    simp only [body, word, yields_seq, Yields] at h
    obtain ⟨_, _, rfl, rfl, rfl | rfl⟩ := h
    · exact Or.inl rfl
    · exact Or.inr rfl
  | classDecl =>
    simp only [body, seqs, word, yields_seq, Yields] at h
    obtain ⟨_, _, rfl, rfl, _, _, rfl, rfl, _, _, rfl, rfl | rfl, rfl⟩ := h
    · exact Or.inl rfl
    · exact Or.inr rfl
  | importStmt =>
    simp only [body, seqs, word, yields_seq, Yields] at h
    obtain ⟨_, _, rfl, rfl, _, _, rfl, rfl, rfl | rfl | rfl⟩ := h
    · exact Or.inl rfl
    · exact Or.inr (Or.inl rfl)
    · exact Or.inr (Or.inr rfl)
  | importAlias | member | string | valDecl | moduleDecl | functionExpr | closureExpr | setter
  | getter | functionDecl | methodDecl | operatorDecl | assignment | superclass =>
    simpa [Shape, body, seqs, word, yields_seq, Yields, lit] using h
  | _ => trivial

end ObjectLang.Syntax
