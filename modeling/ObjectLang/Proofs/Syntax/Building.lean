import ObjectLang.Proofs.Syntax.Layout
import ObjectLang.Proofs.Syntax.Mentions

/-!
What the builder makes of matched nodes.
The nodes of a match have the shapes and the texts that the grammar gives them. Of such nodes the
builder refuses only integers beyond 64 bits and assignments to what is no place. All that the tree
mentions is written as the grammar writes it, and every body stands between the ends of its
statement.
-/
namespace ObjectLang

open Syntax Peg

/-- A mention as the grammar lets it be written: no name is a reserved word. -/
def Mention.Written : Mention → Prop
  | .name .symbol text => isName text.toList = true
  | .name .dotted text => isModuleName text.toList = true
  | .name .operator text => text ∈ Syntax.symbols .operator
  | .property getter setter => setter = true → getter = true

abbrev Writes (xs : List Mention) : Prop := Mention.Each Mention.Written xs

variable {ns : List (Node Rule)} {cs : List Char} {s : Source} {b : Block}

namespace Syntax

/-- Names that stand for themselves are mentioned as they are written. -/
theorem writes_texts (h : ∀ n ∈ ns, Shaped n) (hr : ∀ r ∈ ns.map Node.rule, r = .ident) :
    Writes (Mention.symbols (ns.map Node.text)) := by
  intro x hx
  obtain ⟨_, ht, rfl⟩ := List.mem_map.mp hx
  obtain ⟨n, hn, rfl⟩ := List.mem_map.mp ht
  exact (h n hn).isName (hr _ (List.mem_map_of_mem hn))

/-- Without the words, names are left. -/
theorem rules_of_meaning (h : ∀ r ∈ ns.map Node.rule, r = .ident ∨ r.isWord = true) :
    ∀ r ∈ (meaning ns).map Node.rule, r = .ident := by
  intro r hr
  obtain ⟨n, hn, rfl⟩ := List.mem_map.mp hr
  obtain ⟨hmem, hword⟩ := List.mem_filter.mp hn
  refine (h _ (List.mem_map_of_mem hmem)).resolve_right fun hn => ?_
  rw [hn] at hword
  cases hword

theorem rules_of_naming {n : Node Rule} (h : Shaped n) (hr : Naming n.rule) :
    ∀ r ∈ (meaning n.children).map Node.rule, r = .ident := by
  obtain ⟨r, start, stop, ns⟩ := n
  have hr : r = .parameters ∨ r = .importAlias ∨ r = .importOnly ∨ r = .exportStmt := hr
  apply rules_of_meaning
  change ∀ r ∈ ns.map Node.rule, r = .ident ∨ r.isWord = true
  rcases hr with rfl | rfl | rfl | rfl
  · have hshape : ∀ r ∈ ns.map Node.rule, r = .ident := h.shape (by decide)
    exact fun r hr => Or.inl (hshape r hr)
  · have hshape : ns.map Node.rule = [.word .asWord, .ident] := h.shape (by decide)
    simp [hshape, Rule.isWord]
  · have hshape : ∀ r ∈ ns.map Node.rule, r = .ident := h.shape (by decide)
    exact fun r hr => Or.inl (hshape r hr)
  · obtain ⟨rest, hrs, hrest⟩ := h.shape (by decide)
    rw [hrs]
    exact List.forall_mem_cons.mpr ⟨Or.inr rfl, fun r hr => Or.inl (hrest r hr)⟩

/-- Alike nodes list the same names, and the names are written well. -/
theorem names_alike {n n' : Node Rule} (h : Shaped n) (ha : Alike [n] [n']) (hr : Naming n.rule) :
    names n' = names n ∧ Writes (Mention.symbols (names n)) := by
  have hrules := rules_of_naming h hr
  obtain ⟨r, start, stop, ns⟩ := n
  refine ⟨ha.children.meaning.texts hrules, writes_texts (fun n hn => ?_) hrules⟩
  exact h.parts n (List.mem_filter.mp hn).1

def Covers (c d : Cursor) (span : Span) : Prop :=
  ∃ start stop : Cursor, c.Leads start ∧ start.Leads stop ∧ stop.Leads d ∧
    span = ⟨start.pos, stop.pos⟩

theorem Laid.covers {c d : Cursor} {n : Node Rule}
    (h : Laid c (n :: ns) d) : Covers c d n.span := by
  cases h with
  | cons before _ _ parts rest => exact ⟨_, _, before, parts.leads, rest.leads, rfl⟩

/-- What is built of nodes between two cursors and of nodes that are alike: trees such as `P` tells,
or twice one of the two refusals that texts can lead to. -/
inductive Meets {α : Type} (c d : Cursor) (P : α → α → Prop) : Built α → Built α → Prop
  | ok {a a' : α} (h : P a a') : Meets c d P (.ok a) (.ok a')
  | refused {m : Misfit} {span span' : Span} (hm : m = .noPlace ∨ m = .integerRange)
      (hspan : Covers c d span) : Meets c d P (refuse m span) (refuse m span')

namespace Meets

variable {α β : Type} {P : α → α → Prop} {Q : β → β → Prop} {x x' : Built α}
  {f f' : α → Built β} {c c' d d' : Cursor}

theorem bind (h : Meets c d P x x') (hf : ∀ a a', P a a' → Meets c d Q (f a) (f' a')) :
    Meets c d Q (x >>= f) (x' >>= f') := by
  cases h with
  | ok h => exact hf _ _ h
  | refused hm hspan => exact .refused hm hspan

theorem mono {Q : α → α → Prop} (h : Meets c d P x x') (hQ : ∀ a a', P a a' → Q a a') :
    Meets c d Q x x' := by
  cases h with
  | ok h => exact .ok (hQ _ _ h)
  | refused hm hspan => exact .refused hm hspan

theorem widen (h : Meets c d P x x') (hc : c'.Leads c) (hd : d.Leads d') : Meets c' d' P x x' := by
  cases h with
  | ok h => exact .ok h
  | refused hm hspan =>
    obtain ⟨start, stop, hstart, hmid, hstop, rfl⟩ := hspan
    exact .refused hm ⟨start, stop, hc.trans hstart, hmid, hstop.trans hd, rfl⟩

end Meets

/-- A tree with all that it mentions written well and its bodies between two cursors, and a twin
that differs from it in places alone. -/
structure Twins {α : Type} (mentions : α → List Mention) (bodies : α → List Block)
    (forget : α → α) (c d : Cursor) (a a' : α) : Prop where
  writes : Writes (mentions a)
  inside : Inside c d (bodies a)
  same : forget a' = forget a

abbrev ExprTwins := Twins Expr.mentions Expr.bodies (Expr.forget id)

abbrev OptionTwins := Twins Expr.mentionsIn (bodiesIn Expr.bodies) (Expr.forgetIn id)

abbrev CommandTwins := Twins Command.mentions Command.bodies (Command.forget id)

abbrev MembersTwins :=
  Twins Member.mentionsAll (·.flatMap Member.bodies) (Member.forgetAll id)

abbrev MemberTwins := Twins Member.mentions Member.bodies (Member.forget id)

abbrev AccessorTwins := Twins Accessor.mentions Accessor.bodies (Accessor.forget id)

/-- A block whose statements stand between two cursors, and a twin of it. -/
structure BlockTwins (c d : Cursor) (b b' : Block) : Prop where
  writes : Writes (Statement.mentionsAll b)
  sited : Sited c b d
  same : Statement.forgetAll id b' = Statement.forgetAll id b

/-- Parameters and a body, with the same parameters in the twin. -/
structure LambdaTwins (c d : Cursor) (f f' : List String × Block) : Prop where
  params : f'.1 = f.1
  writes : Writes (Mention.symbols f.1)
  body : BlockTwins c d f.2 f'.2

def NamedTwins {α : Type} (rule : NameRule) (P : Cursor → Cursor → α → α → Prop) (c d : Cursor)
    (v v' : String × α) : Prop :=
  (v'.1 = v.1 ∧ Mention.Written (.name rule v.1)) ∧ P c d v.2 v'.2

/-- What is built of a node and of nodes that are alike, wherever the node stands. -/
def MeetsAt {α : Type} (P : Cursor → Cursor → α → α → Prop) (f : Node Rule → Built α)
    (n : Node Rule) : Prop :=
  ∀ ⦃n' c d⦄, Laid c [n] d → Alike [n] [n'] → Meets c d (P c d) (f n) (f n')

def MeetsAll {α : Type} (P : Cursor → Cursor → α → α → Prop) (f f' : List (Node Rule) → Built α)
    (ns : List (Node Rule)) : Prop :=
  ∀ ⦃ns' c d⦄, Laid c ns d → Alike ns ns' → Meets c d (P c d) (f ns) (f' ns')

theorem integer_meets {c d : Cursor} {span : Span} (h : Covers c d span) (span' : Span)
    (digits : List Char) :
    Meets c d (ExprTwins c d) (integer span digits) (integer span' digits) := by
  rw [integer, integer]
  split
  · exact .ok ⟨Mention.each_nil, inside_nil, rfl⟩
  · exact .refused (Or.inr rfl) h

theorem float_meets {c d : Cursor} (span span' : Span) (h : Spelt .float cs) :
    Meets c d (ExprTwins c d) (float span cs) (float span' cs) := by
  obtain ⟨x, hx⟩ := Option.isSome_iff_exists.mp h
  rw [float, float, hx]
  exact .ok ⟨Mention.each_nil, inside_nil, rfl⟩

theorem aliasName_eq {n : Node Rule} {x : String} {xs : List String} (h : names n = x :: xs) :
    aliasName n = .ok (.under x) := by
  obtain ⟨name, rest, hmeaning, rfl, -⟩ := List.map_eq_cons_iff.mp h
  simp only [aliasName, hmeaning]

theorem binding_alike {ns' : List (Node Rule)} (h : ∀ n ∈ ns, Shaped n) (ha : Alike ns ns')
    (hr : ns.map Node.rule = [] ∨ ns.map Node.rule = [.importAlias] ∨
      ns.map Node.rule = [.importOnly]) :
    ∃ b : Binding, Writes b.mentions ∧ binding ns = .ok b ∧ binding ns' = .ok b := by
  cases ns with
  | nil =>
    cases ha
    exact ⟨.everything, Mention.each_nil, rfl, rfl⟩
  | cons n rest =>
    obtain ⟨n', rest', rfl, hn', -⟩ := ha.uncons
    obtain ⟨hn, -⟩ := List.forall_mem_cons.mp h
    rw [binding, binding, hn'.rule]
    have hrule : n.rule = .importAlias ∨ n.rule = .importOnly := by
      rcases hr with hr | hr | hr
      · cases hr
      · exact Or.inl (List.cons.inj hr).1
      · exact Or.inr (List.cons.inj hr).1
    rcases hrule with hrule | hrule
    · obtain ⟨hnames, hwrites⟩ := names_alike hn hn' (Or.inr (Or.inl hrule))
      -- An alias has one name, behind a word.
      obtain ⟨x, hx⟩ : ∃ x, names n = [x] := by
        obtain ⟨r, start, stop, cs⟩ := n
        obtain rfl : r = .importAlias := hrule
        have hshape : cs.map Node.rule = [.word .asWord, .ident] := hn.shape (by decide)
        obtain ⟨w, _, rfl, hw, hrest⟩ := List.map_eq_cons_iff.mp hshape
        obtain ⟨name, rfl, hname⟩ := List.map_eq_singleton_iff.mp hrest
        refine ⟨name.text, ?_⟩
        rw [names, Node.children, meaning_cons_of_isWord (by rw [hw]; rfl),
          meaning_cons_of_not_isWord (by rw [hname]; rfl)]
        rfl
      rw [if_pos hrule, if_pos hrule, aliasName_eq hx, aliasName_eq (hnames.trans hx)]
      rw [hx] at hwrites
      exact ⟨.under x, hwrites, rfl, rfl⟩
    · obtain ⟨hnames, hwrites⟩ := names_alike hn hn' (Or.inr (Or.inr (Or.inl hrule)))
      rw [hrule, if_neg (by decide), if_neg (by decide), hnames]
      exact ⟨.only (names n), hwrites, rfl, rfl⟩

/-- Assigning to a place keeps the place and the value; what is no place is refused. -/
theorem assignTo_meets {c d : Cursor} {span : Span} (hspan : Covers c d span) (span' : Span)
    {place place' : Expr} (h : ExprTwins c d place place') :
    Meets c d (fun f f' => ∀ op v v', ExprTwins c d v v' → CommandTwins c d (f op v) (f' op v'))
      (assignTo span place) (assignTo span' place') := by
  have hsame := h.same
  cases place with
  | name n =>
    cases place' with
    | name n' =>
      cases hsame
      refine .ok fun op v v' hv => ⟨?_, hv.inside, by simp [hv.same]⟩
      simpa using And.intro (Mention.each_cons.mp h.writes).1 hv.writes
    | _ => cases hsame
  | member t n =>
    cases place' with
    | member t' n' =>
      simp only [Expr.forget, Expr.member.injEq] at hsame
      obtain ⟨ht, rfl⟩ := hsame
      have hplace := h.writes
      simp only [Expr.mentions, Mention.each_cons] at hplace
      refine .ok fun op v v' hv =>
        ⟨?_, inside_append.mpr ⟨h.inside, hv.inside⟩, by simp [ht, hv.same]⟩
      simpa using And.intro hplace.1 (And.intro hplace.2 hv.writes)
    | _ => cases hsame
  | _ =>
    cases place' with
    | name _ | member _ _ => cases hsame
    | _ => exact .refused (Or.inl rfl) hspan

theorem importStmt_meets (span span' : Span) (hrs : Shape (ns.map Node.rule) .importStmt)
    (hshaped : ∀ n ∈ ns, Shaped n) {ns' : List (Node Rule)} {c d : Cursor} (ha : Alike ns ns') :
    Meets c d (CommandTwins c d) (importStmt span ns) (importStmt span' ns') := by
  obtain ⟨w, name, rest, rfl, hw, hname, hrest⟩ : ∃ w name rest, ns = w :: name :: rest ∧
      w.rule.isWord = true ∧ name.rule = .moduleName ∧ (rest.map Node.rule = [] ∨
        rest.map Node.rule = [.importAlias] ∨ rest.map Node.rule = [.importOnly]) := by
    match ns, hrs with
    | [], hrs | [_], hrs => simp [Shape] at hrs
    | w :: name :: rest, hrs =>
      refine ⟨w, name, rest, rfl, ?_⟩
      simp only [Shape, List.map_cons, List.cons.injEq] at hrs
      rcases hrs with hrs | hrs | hrs <;> simp [hrs, Rule.isWord]
  obtain ⟨w', name', rest', rfl, hw', hname', hrest'⟩ := ha.uncons_pair
  obtain ⟨-, hshaped⟩ := List.forall_mem_cons.mp hshaped
  obtain ⟨hmodule, hshaped⟩ := List.forall_mem_cons.mp hshaped
  have hmeaning : meaning rest = rest := by
    refine List.filter_eq_self.mpr fun n hn => ?_
    have hmem : n.rule ∈ rest.map Node.rule := List.mem_map_of_mem hn
    rcases hrest with hrest | hrest | hrest <;> rw [hrest] at hmem <;> simp_all [Rule.isWord]
  have halike : Alike rest (meaning rest') := hmeaning ▸ hrest'.meaning
  obtain ⟨b, hwrites, hbinding, hbinding'⟩ := binding_alike hshaped halike hrest
  simp only [importStmt, meaning_cons_of_isWord hw, meaning_cons_of_isWord (hw'.rule ▸ hw),
    meaning_cons_of_not_isWord (show name.rule.isWord = false by rw [hname]; rfl),
    meaning_cons_of_not_isWord (show name'.rule.isWord = false by rw [hname'.rule, hname]; rfl),
    hmeaning, hbinding, hbinding']
  have hmodule := hmodule.isModuleName hname
  exact .ok ⟨by simpa [Mention.Written] using And.intro hmodule hwrites, inside_nil,
    by simp [hname'.text hname rfl]⟩

/-- An expression's node, given what its parts meet. -/
theorem exprOf_meets {r : Rule} {start start' : Cursor} {stop stop' : Position}
    {cs cs' : List (Node Rule)} {c d : Cursor} {joined joined' linked linked' : Unit → Built Expr}
    {lambda lambda' : Unit → Built (List String × Block)} (hr : Expressive r)
    (hspan : Covers c d ⟨start.pos, stop⟩) (hn : Shaped (.mk r start stop cs))
    (hchars : form r = .solid → start'.upTo stop' = start.upTo stop) (parts : Alike cs cs')
    (hjoined : r = .sum ∨ r = .product → Meets c d (ExprTwins c d) (joined ()) (joined' ()))
    (hlinked : r = .chain → Meets c d (ExprTwins c d) (linked ()) (linked' ()))
    (hlambda : r = .functionExpr ∨ r = .closureExpr →
      Meets c d (LambdaTwins c d) (lambda ()) (lambda' ())) :
    Meets c d (ExprTwins c d) (exprOf r start stop cs joined linked lambda)
      (exprOf r start' stop' cs' joined' linked' lambda') := by
  cases r with
  | sum | product => exact hjoined (by simp)
  | chain => exact hlinked rfl
  | integer =>
    rw [exprOf, exprOf, hchars rfl]
    exact integer_meets hspan _ _
  | float =>
    rw [exprOf, exprOf, hchars rfl]
    cases hn with
    | mk spelt _ _ => exact float_meets _ _ spelt
  | string =>
    have hshape : cs.map Node.rule = [.stringContent] := hn.shape (by decide)
    obtain ⟨content, _, rfl, hcontent, -⟩ := List.map_eq_cons_iff.mp hshape
    obtain ⟨content', _, rfl, hchars, -⟩ := parts.uncons
    refine .ok ⟨Mention.each_nil, inside_nil, ?_⟩
    simp [stringLiteral, hchars.chars (hcontent ▸ rfl)]
  | ident =>
    rw [exprOf, exprOf, hchars rfl]
    exact .ok ⟨Mention.each_cons.mpr ⟨hn.isName rfl, Mention.each_nil⟩, inside_nil, rfl⟩
  | functionExpr | closureExpr =>
    refine (hlambda (by simp)).bind fun f f' hf => .ok ?_
    exact ⟨by simpa using And.intro hf.writes hf.body.writes, inside_singleton.mpr hf.body.sited,
      by simp [hf.params, hf.body.same]⟩
  | _ => simp [Expressive] at hr

mutual

theorem expr_meets : (n : Node Rule) → Expressive n.rule → MeetsAt ExprTwins expr n
  | .mk r start stop cs, hr => by
    intro _ c d h ha
    have hparts := h.parts
    have hn := h.shaped
    obtain ⟨start', stop', cs', rfl, hchars, parts⟩ := ha.of_mk
    rw [expr, expr]
    refine exprOf_meets hr h.covers hn hchars parts ?_ ?_ ?_
    · rintro (rfl | rfl)
      all_goals
        obtain ⟨rest, hrs, hrest⟩ := hn.shape (by decide)
        exact operands_meets rfl (by simp [Expressive]) _ _ cs hrs hrest hparts parts
    · rintro rfl
      exact links_meets _ _ cs (hn.shape (by decide)) hparts parts
    · rintro (rfl | rfl)
      all_goals exact wordLambda_meets _ _ cs (hn.shape (by decide)) hparts parts

theorem operands_meets {op operand : Rule} (hop : form op = .solid) (hoperand : Expressive operand)
    (span span' : Span) : (ns : List (Node Rule)) → {rest : List Rule} →
      ns.map Node.rule = operand :: rest → Alternates op operand rest →
      MeetsAll ExprTwins (operands span) (operands span') ns
  | [], _, hrs, _ => by cases hrs
  | n :: ns, rest, hrs, hrest => by
    intro _ c d h ha
    obtain ⟨n', ns', rfl, hn, hns⟩ := ha.uncons
    obtain ⟨hrule, rfl⟩ := List.cons.inj hrs
    rw [operands, operands]
    exact (expr_meets n (hrule ▸ hoperand) h.head hn).bind fun e e' he =>
      operations_meets hop hoperand span span' he ns h.tail hns hrest

theorem operations_meets {op operand : Rule} (hop : form op = .solid)
    (hoperand : Expressive operand) (span span' : Span) {lhs lhs' : Expr} {c d : Cursor}
    (hlhs : ExprTwins c d lhs lhs') :
    (ns : List (Node Rule)) → {ns' : List (Node Rule)} → Laid c ns d → Alike ns ns' →
      Alternates op operand (ns.map Node.rule) →
      Meets c d (ExprTwins c d) (operations span lhs ns) (operations span' lhs' ns')
  | [], _, _, .nil, _ => by
    rw [operations, operations]
    exact .ok hlhs
  | [_], _, _, _, halt => halt.elim
  | o :: rhs :: rest, _, h, ha, halt => by
    obtain ⟨o', rhs', rest', rfl, ho, hrhs, hrest⟩ := ha.uncons_pair
    rw [operations, operations, ho.text halt.1 hop]
    refine (expr_meets rhs (halt.2.1 ▸ hoperand) h.tail.head hrhs).bind fun e e' he =>
      operations_meets hop hoperand span span' ?_ rest h.tail.tail hrest halt.2.2
    exact ⟨by simpa using And.intro hlhs.writes he.writes,
      inside_append.mpr ⟨hlhs.inside, he.inside⟩, by simp [hlhs.same, he.same]⟩

theorem links_meets (span span' : Span) : (ns : List (Node Rule)) →
    Shape (ns.map Node.rule) .chain →
      MeetsAll ExprTwins (links span) (links span') ns
  | [], hr => by
    obtain ⟨_, _, hrs, -⟩ := hr
    cases hrs
  | n :: rest, hr => by
    intro _ c d h ha
    obtain ⟨n', rest', rfl, hn, hrest⟩ := ha.uncons
    obtain ⟨r, rs, hrs, hfirst, hlinks⟩ := hr
    obtain ⟨rfl, rfl⟩ := List.cons.inj hrs
    rw [links, links]
    exact (expr_meets n hfirst h.head hn).bind fun e e' he =>
      linksFrom_meets he rest h.tail hrest hlinks

theorem linksFrom_meets {target target' : Expr} {c d : Cursor}
    (htarget : ExprTwins c d target target') : (ns : List (Node Rule)) → {ns' : List (Node Rule)} →
      Laid c ns d → Alike ns ns' → (∀ r ∈ ns.map Node.rule, Linking r) →
      Meets c d (ExprTwins c d) (linksFrom target ns) (linksFrom target' ns')
  | [], _, _, .nil, _ => by
    rw [linksFrom, linksFrom]
    exact .ok htarget
  | n :: rest, _, h, ha, hr => by
    obtain ⟨n', rest', rfl, hn, hrest⟩ := ha.uncons
    obtain ⟨hrule, hrules⟩ := List.forall_mem_cons.mp hr
    rw [linksFrom, linksFrom]
    exact (link_meets htarget n h.head hn hrule).bind fun e e' he =>
      linksFrom_meets he rest h.tail hrest hrules

theorem link_meets {target target' : Expr} {c d : Cursor} (htarget : ExprTwins c d target target') :
    (n : Node Rule) → {n' : Node Rule} → Laid c [n] d → Alike [n] [n'] → Linking n.rule →
      Meets c d (ExprTwins c d) (link target n) (link target' n')
  | .mk r start stop cs, _, h, .cons _ parts _, hr => by
    have hparts := h.parts
    have hn := h.shaped
    cases r with
    | call | index =>
      rw [link, link]
      refine (exprs_meets cs (hn.shape (by decide)) hparts parts).bind fun es es' hes => .ok ?_
      exact ⟨by simpa using And.intro htarget.writes hes.writes,
        inside_append.mpr ⟨htarget.inside, hes.inside⟩, by simp [htarget.same, hes.same]⟩
    | member =>
      have hshape : cs.map Node.rule = [.ident] := hn.shape (by decide)
      obtain ⟨name, _, rfl, hrule, -⟩ := List.map_eq_cons_iff.mp hshape
      obtain ⟨name', _, rfl, hname, -⟩ := parts.uncons
      have hwritten := hparts.shaped.isName hrule
      exact .ok ⟨by simpa [Mention.Written] using And.intro hwritten htarget.writes, htarget.inside,
        by simp [htarget.same, hname.text hrule rfl]⟩
    | _ => simp [Linking, Node.rule] at hr

theorem exprs_meets : (ns : List (Node Rule)) → (∀ r ∈ ns.map Node.rule, r = .sum) →
      MeetsAll (Twins Expr.mentionsAll Expr.bodiesOfAll (Expr.forgetAll id)) exprs exprs ns
  | [], _ => by
    rintro _ c d - ⟨⟩
    rw [exprs]
    exact .ok ⟨Mention.each_nil, inside_nil, rfl⟩
  | n :: rest, hr => by
    intro _ c d h ha
    obtain ⟨n', rest', rfl, hn, hrest⟩ := ha.uncons
    obtain ⟨hrule, hrules⟩ := List.forall_mem_cons.mp hr
    rw [exprs, exprs]
    refine (expr_meets n (by simp [hrule, Expressive]) h.head hn).bind fun e e' he =>
      (exprs_meets rest hrules h.tail hrest).bind fun es es' hes => .ok ?_
    exact ⟨by simpa using And.intro he.writes hes.writes,
      inside_append.mpr ⟨he.inside, hes.inside⟩, by simp [he.same, hes.same]⟩

theorem optional_meets : (ns : List (Node Rule)) →
    (ns.map Node.rule = [] ∨ ns.map Node.rule = [.sum]) →
      MeetsAll OptionTwins optional optional ns
  | [], _ => by
    rintro _ c d - ⟨⟩
    rw [optional]
    exact .ok ⟨Mention.each_nil, inside_nil, rfl⟩
  | n :: rest, hr => by
    intro _ c d h ha
    obtain ⟨n', rest', rfl, hn, -⟩ := ha.uncons
    have hrule : n.rule = .sum ∧ rest = [] := by simpa using hr
    rw [optional, optional, hn.rule, hrule.1, if_neg (by decide), if_neg (by decide)]
    refine (expr_meets n (by simp [hrule, Expressive]) h.head hn).bind fun e e' he => .ok ?_
    exact ⟨he.writes, he.inside, by simp [he.same]⟩

theorem wordOptional_meets {w : Word} : (ns : List (Node Rule)) →
    (ns.map Node.rule = [.word w] ∨ ns.map Node.rule = [.word w, .sum]) →
      MeetsAll OptionTwins optional optional ns
  | [], hrs => by simp at hrs
  | word :: rest, hrs => by
    intro _ c d h ha
    obtain ⟨word', rest', rfl, hword, hrest⟩ := ha.uncons
    have hrs : word.rule = .word w ∧ (rest.map Node.rule = [] ∨ rest.map Node.rule = [.sum]) := by
      simpa [and_or_left] using hrs
    simp only [optional, hword.rule, hrs.1, Rule.isWord, reduceIte]
    exact optional_meets rest hrs.2 h.tail hrest

theorem required_meets (span span' : Span) : (ns : List (Node Rule)) →
    ns.map Node.rule = [.sum] → MeetsAll ExprTwins (required span) (required span') ns
  | [], hrs => by cases hrs
  | n :: rest, hrs => by
    intro _ c d h ha
    obtain ⟨n', rest', rfl, hn, -⟩ := ha.uncons
    have hrule := (List.cons.inj hrs).1
    rw [required, required, hn.rule, hrule, if_neg (by decide), if_neg (by decide)]
    exact expr_meets n (by simp [hrule, Expressive]) h.head hn

theorem lambda_meets (span span' : Span) : (ns : List (Node Rule)) →
    ns.map Node.rule = [.parameters, .block] →
      MeetsAll LambdaTwins (lambda span) (lambda span') ns
  | [], hrs => by cases hrs
  | params :: rest, hrs => by
    intro _ c d h ha
    obtain ⟨params', rest', rfl, hparams, hrest⟩ := ha.uncons
    obtain ⟨hrule, hrs⟩ := List.cons.inj hrs
    rw [lambda, lambda, hparams.rule, hrule, if_neg (by decide), if_neg (by decide)]
    refine (firstBlock_meets span span' rest hrs h.tail hrest).bind fun b b' hb => .ok ?_
    obtain ⟨hnames, hwrites⟩ := names_alike h.shaped hparams (Or.inl hrule)
    exact ⟨hnames, hwrites, hb⟩

theorem wordLambda_meets (span span' : Span) {w : Word} : (ns : List (Node Rule)) →
    ns.map Node.rule = [.word w, .parameters, .block] →
      MeetsAll LambdaTwins (lambda span) (lambda span') ns
  | [], hrs => by cases hrs
  | word :: rest, hrs => by
    intro _ c d h ha
    obtain ⟨word', rest', rfl, hword, hrest⟩ := ha.uncons
    obtain ⟨hrule, hrs⟩ := List.cons.inj hrs
    simp only [lambda, hword.rule, hrule, Rule.isWord, reduceIte]
    exact lambda_meets span span' rest hrs h.tail hrest

theorem named_meets (rule : NameRule) (span span' : Span) {w : Word} {x : Rule}
    (hsolid : form x = .solid ∧ x.isWord = false)
    (hx : ∀ n, Shaped n → n.rule = x → Mention.Written (.name rule n.text)) :
    (ns : List (Node Rule)) → ns.map Node.rule = [.word w, x, .parameters, .block] →
      MeetsAll (NamedTwins rule LambdaTwins) (named span) (named span') ns
  | [], hrs | [_], hrs => by simp at hrs
  | word :: name :: rest, hrs => by
    intro _ c d h ha
    obtain ⟨word', name', rest', rfl, hword, hname, hrest⟩ := ha.uncons_pair
    simp only [List.map_cons, List.cons.injEq] at hrs
    obtain ⟨hw, hrule, hrs⟩ := hrs
    have hskip : (Rule.word w).isWord = true := rfl
    simp only [named, hword.rule, hname.rule, hw, hrule, hsolid.2, hskip, reduceIte,
      Bool.false_eq_true]
    exact (lambda_meets span span' rest hrs h.tail.tail hrest).bind fun f f' hf =>
      .ok ⟨⟨hname.text hrule hsolid.1, hx name h.tail.shaped hrule⟩, hf⟩

theorem firstBlock_meets (span span' : Span) : (ns : List (Node Rule)) →
    ns.map Node.rule = [.block] →
      MeetsAll BlockTwins (firstBlock span) (firstBlock span') ns
  | [], hrs => by cases hrs
  | n :: rest, hrs => by
    intro _ c d h ha
    obtain ⟨n', rest', rfl, hn, -⟩ := ha.uncons
    have hrule := (List.cons.inj hrs).1
    rw [firstBlock, firstBlock, hn.rule, hrule, if_neg (by decide), if_neg (by decide)]
    exact block_meets n hrule h.head hn

theorem block_meets : (n : Node Rule) → n.rule = .block → MeetsAt BlockTwins block n
  | .mk r start stop cs, hr => by
    intro _ c d h ha
    obtain ⟨_, _, _, rfl, -, parts⟩ := ha.of_mk
    have hr : r = .block := hr
    subst hr
    rw [block, block]
    have hrules : ∀ r ∈ cs.map Node.rule, r = .statement := h.shaped.shape (by decide)
    exact statements_meets cs (fun r hr => Or.inl (hrules r hr)) h.parts parts

theorem statements_meets : (ns : List (Node Rule)) →
    (∀ r ∈ ns.map Node.rule, r = .statement ∨ r = .endOfInput) →
      MeetsAll BlockTwins statements statements ns
  | [], _ => by
    rintro _ c d h ⟨⟩
    rw [statements]
    exact .ok ⟨Mention.each_nil, .nil h.leads, rfl⟩
  | n :: rest, hr => by
    intro _ c d h ha
    obtain ⟨n', rest', rfl, hn, hrest⟩ := ha.uncons
    obtain ⟨hrule, hrules⟩ := List.forall_mem_cons.mp hr
    obtain ⟨mid, hhead, htail⟩ := h.uncons
    have hmeets := (statements_meets rest hrules htail hrest).widen hhead.leads (.refl d)
    rw [statements, statements, hn.rule]
    rcases hrule with hrule | hrule
    · rw [if_pos hrule, if_pos hrule]
      refine ((statement_meets n hrule hhead hn).widen (.refl c) htail.leads).bind fun s s' hs => ?_
      refine hmeets.bind fun b b' hb => .ok ?_
      have hsame : s'.forget id = s.forget id := by simpa using hs.same
      exact ⟨by simpa using And.intro hs.writes hb.writes, hs.sited.append hb.sited,
        by simp [hsame, hb.same]⟩
    · rw [hrule, if_neg (by decide), if_neg (by decide)]
      refine hmeets.mono fun b b' hb => ?_
      exact ⟨hb.writes, hb.sited.from_earlier hhead.leads, hb.same⟩

/-- A statement has a command, whose node has passed a character that is no white space. -/
theorem statement_meets : (n : Node Rule) → n.rule = .statement →
      MeetsAt (fun c d s s' => BlockTwins c d [s] [s']) statement n
  | .mk r start stop cs, hr => by
    intro _ c d h ha
    have hr : r = .statement := hr
    subst hr
    have hshape := h.shaped.shape (by decide)
    cases h with
    | cons before _ _ laid rest =>
      obtain _ | ⟨text, parts, -⟩ := ha
      rw [statement, statement]
      refine ((firstCommand_meets _ _ cs hshape laid parts).widen before rest.leads).bind
        fun k k' hk => .ok ?_
      obtain ⟨w, hw, hvisible⟩ := laid.visible_of_command hshape
      have htext : Text.trim _ = Text.trim _ := text
      rw [htext, hw.upTo_eq]
      exact ⟨by simpa using hk.writes, .cons before hw hvisible hk.inside (.nil rest.leads),
        by simp [hk.same]⟩

theorem firstCommand_meets (span span' : Span) : (ns : List (Node Rule)) →
    Shape (ns.map Node.rule) .statement →
      MeetsAll CommandTwins (firstCommand span) (firstCommand span') ns
  | [], hr => by
    obtain ⟨_, hrs, -⟩ := hr
    cases hrs
  | n :: rest, hr => by
    intro _ c d h ha
    obtain ⟨n', rest', rfl, hn, -⟩ := ha.uncons
    obtain ⟨r, hrs, hcommand⟩ := hr
    rw [firstCommand, firstCommand]
    exact command_meets n ((List.cons.inj hrs).1 ▸ hcommand) h.head hn

theorem command_meets : (n : Node Rule) → Commanding n.rule → MeetsAt CommandTwins command n
  | .mk r start stop cs, hr => by
    intro _ c d h ha
    obtain ⟨start', stop', _, rfl, -, parts⟩ := ha.of_mk
    have hparts := h.parts
    have hn := h.shaped
    cases r with
    | valDecl =>
      rw [command, command]
      refine (valued_meets _ _ cs (hn.shape (by decide)) hparts parts).bind fun v v' hv => .ok ?_
      exact ⟨by simpa using And.intro hv.1.2 hv.2.writes, hv.2.inside, by simp [hv.1.1, hv.2.same]⟩
    | varDecl =>
      rw [command, command]
      refine (maybeValued_meets _ _ cs (hn.shape (by decide)) hparts parts).bind fun v v' hv =>
        .ok ?_
      exact ⟨by simpa using And.intro hv.1.2 hv.2.writes, hv.2.inside, by simp [hv.1.1, hv.2.same]⟩
    | assignment =>
      rw [command, command]
      exact assignment_meets _ _ cs (hn.shape (by decide)) hparts parts
    | returnStmt =>
      rw [command, command]
      refine (wordOptional_meets cs (hn.shape (by decide)) hparts parts).bind fun e e' he => .ok ?_
      exact ⟨by simpa using he.writes, he.inside, by simp [he.same]⟩
    | functionDecl =>
      rw [command, command]
      refine (named_meets .symbol _ _ ⟨rfl, rfl⟩ (fun n hn => hn.isName) cs (hn.shape (by decide))
        hparts parts).bind fun f f' hf => .ok ?_
      exact ⟨by simpa using And.intro hf.1.2 (And.intro hf.2.writes hf.2.body.writes),
        inside_singleton.mpr hf.2.body.sited, by simp [hf.1.1, hf.2.params, hf.2.body.same]⟩
    | classDecl =>
      rw [command, command]
      exact classDecl_meets _ _ cs (hn.shape (by decide)) hparts parts
    | moduleDecl =>
      rw [command, command]
      exact moduleDecl_meets _ _ cs (hn.shape (by decide)) hparts parts
    | importStmt =>
      rw [command, command]
      exact importStmt_meets _ _ (hn.shape (by decide)) hn.parts parts
    | exportStmt =>
      obtain ⟨hnames, hwrites⟩ := names_alike hn ha (Or.inr (Or.inr (Or.inr rfl)))
      rw [command, command]
      exact .ok ⟨hwrites, inside_nil, congrArg Command.exportNames hnames⟩
    | sum =>
      obtain ⟨rest, hrs, hrest⟩ := hn.shape (by decide)
      have hmeets := operands_meets rfl (by simp [Expressive]) ⟨start.pos, stop⟩ ⟨start'.pos, stop'⟩
        cs hrs hrest hparts parts
      simp only [command, exprOf]
      refine hmeets.bind fun e e' he => .ok ?_
      exact ⟨by simpa using he.writes, he.inside, by simp [he.same]⟩
    | _ => simp [Commanding, Node.rule] at hr

theorem valued_meets (span span' : Span) : (ns : List (Node Rule)) →
    ns.map Node.rule = [.word .valWord, .ident, .sum] →
      MeetsAll (NamedTwins .symbol ExprTwins) (valued span) (valued span') ns
  | [], hrs | [_], hrs => by simp at hrs
  | word :: name :: rest, hrs => by
    intro _ c d h ha
    obtain ⟨word', name', rest', rfl, hword, hname, hrest⟩ := ha.uncons_pair
    simp only [List.map_cons, List.cons.injEq] at hrs
    obtain ⟨hw, hrule, hrs⟩ := hrs
    simp only [valued, hword.rule, hname.rule, hw, hrule, Rule.isWord, reduceIte,
      Bool.false_eq_true]
    exact (required_meets span span' rest hrs h.tail.tail hrest).bind
      fun e e' he => .ok ⟨⟨hname.text hrule rfl, h.tail.shaped.isName hrule⟩, he⟩

theorem maybeValued_meets (span span' : Span) : (ns : List (Node Rule)) →
    (ns.map Node.rule = [.word .varWord, .ident] ∨
      ns.map Node.rule = [.word .varWord, .ident, .sum]) →
      MeetsAll (NamedTwins .symbol OptionTwins) (maybeValued span) (maybeValued span') ns
  | [], hrs | [_], hrs => by simp at hrs
  | word :: name :: rest, hrs => by
    intro _ c d h ha
    obtain ⟨word', name', rest', rfl, hword, hname, hrest⟩ := ha.uncons_pair
    have hrs : word.rule = .word .varWord ∧ name.rule = .ident ∧
        (rest.map Node.rule = [] ∨ rest.map Node.rule = [.sum]) := by
      simpa [and_or_left] using hrs
    obtain ⟨hw, hrule, hrs⟩ := hrs
    simp only [maybeValued, hword.rule, hname.rule, hw, hrule, Rule.isWord, reduceIte,
      Bool.false_eq_true]
    exact (optional_meets rest hrs h.tail.tail hrest).bind fun e e' he =>
      .ok ⟨⟨hname.text hrule rfl, h.tail.shaped.isName hrule⟩, he⟩

theorem assignment_meets (span span' : Span) : (ns : List (Node Rule)) →
    ns.map Node.rule = [.chain, .assignOp, .sum] →
      MeetsAll CommandTwins (assignment span) (assignment span') ns
  | [], hrs => by cases hrs
  | target :: rest, hrs => by
    intro _ c d h ha
    obtain ⟨target', rest', rfl, htarget, hrest⟩ := ha.uncons
    obtain ⟨hrule, hrs⟩ := List.cons.inj hrs
    rw [assignment, assignment, htarget.rule, hrule, if_neg (by decide), if_neg (by decide)]
    refine (expr_meets target (by simp [hrule, Expressive]) h.head htarget).bind
      fun place place' hplace => ?_
    exact (assignTo_meets h.covers _ hplace).bind fun assign assign' hassign =>
      assigned_meets span span' hassign rest hrs h.tail hrest

theorem assigned_meets (span span' : Span) {assign assign' : Option Arith → Expr → Command}
    {c d : Cursor} (hassign : ∀ op v v', ExprTwins c d v v' →
      CommandTwins c d (assign op v) (assign' op v')) :
    (ns : List (Node Rule)) → ns.map Node.rule = [.assignOp, .sum] →
      ∀ ⦃ns'⦄, Laid c ns d → Alike ns ns' →
      Meets c d (CommandTwins c d) (assigned span assign ns) (assigned span' assign' ns')
  | [], hrs => by cases hrs
  | op :: rest, hrs => by
    intro _ h ha
    obtain ⟨op', rest', rfl, hop, hrest⟩ := ha.uncons
    obtain ⟨hrule, hrs⟩ := List.cons.inj hrs
    rw [assigned, assigned, hop.rule, hop.text hrule rfl, hrule, if_neg (by decide),
      if_neg (by decide)]
    exact (required_meets span span' rest hrs h.tail hrest).bind
      fun v v' hv => .ok (hassign _ v v' hv)

theorem moduleDecl_meets (span span' : Span) : (ns : List (Node Rule)) →
    ns.map Node.rule = [.word .moduleWord, .moduleName, .block] →
      MeetsAll CommandTwins (moduleDecl span) (moduleDecl span') ns
  | [], hrs | [_], hrs => by simp at hrs
  | word :: name :: rest, hrs => by
    intro _ c d h ha
    obtain ⟨word', name', rest', rfl, hword, hname, hrest⟩ := ha.uncons_pair
    simp only [List.map_cons, List.cons.injEq] at hrs
    obtain ⟨hw, hrule, hrs⟩ := hrs
    simp only [moduleDecl, hword.rule, hname.rule, hw, hrule, Rule.isWord, reduceIte,
      Bool.false_eq_true]
    refine (firstBlock_meets span span' rest hrs h.tail.tail hrest).bind fun b b' hb => .ok ?_
    have hmodule := h.tail.shaped.isModuleName hrule
    exact ⟨by simpa [Mention.Written] using And.intro hmodule hb.writes,
      inside_singleton.mpr hb.sited, by simp [hname.text hrule rfl, hb.same]⟩

theorem classDecl_meets (span span' : Span) : (ns : List (Node Rule)) →
    Shape (ns.map Node.rule) .classDecl →
      MeetsAll CommandTwins (classDecl span) (classDecl span') ns
  | [], hrs | [_], hrs => by simp [Shape] at hrs
  | word :: name :: rest, hrs => by
    intro _ c d h ha
    obtain ⟨word', name', rest', rfl, hword, hname, hrest⟩ := ha.uncons_pair
    have hrs : word.rule = .word .classWord ∧ name.rule = .ident ∧
        (rest.map Node.rule = [.classBody] ∨ rest.map Node.rule = [.superclass, .classBody]) := by
      simpa [Shape, and_or_left] using hrs
    obtain ⟨hw, hrule, hrs⟩ := hrs
    simp only [classDecl, hword.rule, hname.rule, hw, hrule, Rule.isWord, reduceIte,
      Bool.false_eq_true, hname.text hrule rfl]
    exact classParts_meets (h.tail.shaped.isName hrule) rest hrs h.tail.tail hrest

theorem classParts_meets {x : String} (hx : isName x.toList = true) : (ns : List (Node Rule)) →
    (ns.map Node.rule = [.classBody] ∨ ns.map Node.rule = [.superclass, .classBody]) →
      MeetsAll CommandTwins (classParts x none []) (classParts x none []) ns
  | [], hrs => by simp at hrs
  | [body], hrs => by
    intro _ c d h ha
    obtain ⟨body', _, rfl, hbody, ⟨⟩⟩ := ha.uncons
    have hrule : body.rule = .classBody := by simpa using hrs
    simp only [classParts, hbody.rule, hrule, Rule.isWord, Bool.false_eq_true, reduceCtorEq,
      reduceIte, List.nil_append]
    refine (classBody_meets body hrule h hbody).bind fun ms ms' hms => .ok ?_
    exact ⟨by simpa [Mention.Written] using And.intro hx hms.writes,
      inside_append.mpr ⟨inside_nil, hms.inside⟩, by simp [hms.same]⟩
  | base :: body :: rest, hrs => by
    intro _ c d h ha
    obtain ⟨base', body', _, rfl, hbase, hbody, hrest⟩ := ha.uncons_pair
    obtain ⟨hrule, hrule', rfl⟩ : base.rule = .superclass ∧ body.rule = .classBody ∧ rest = [] := by
      simpa using hrs
    cases hrest
    simp only [classParts, hbase.rule, hbody.rule, hrule, hrule', Rule.isWord, Bool.false_eq_true,
      reduceCtorEq, reduceIte, List.nil_append]
    refine (superclass_meets base hrule h.head hbase).bind fun e e' he =>
      (classBody_meets body hrule' h.tail hbody).bind fun ms ms' hms => .ok ?_
    exact ⟨by simpa [Mention.Written] using And.intro hx (And.intro he.writes hms.writes),
      inside_append.mpr ⟨he.inside, hms.inside⟩, by simp [he.same, hms.same]⟩

theorem superclass_meets : (n : Node Rule) → n.rule = .superclass → MeetsAt ExprTwins superclass n
  | .mk r start stop cs, hr => by
    intro _ c d h ha
    obtain ⟨_, _, _, rfl, -, parts⟩ := ha.of_mk
    have hr : r = .superclass := hr
    subst hr
    rw [superclass, superclass]
    exact firstExpr_meets _ _ cs (h.shaped.shape (by decide)) h.parts parts

theorem firstExpr_meets (span span' : Span) : (ns : List (Node Rule)) →
    ns.map Node.rule = [.chain] → MeetsAll ExprTwins (firstExpr span) (firstExpr span') ns
  | [], hrs => by cases hrs
  | n :: rest, hrs => by
    intro _ c d h ha
    obtain ⟨n', rest', rfl, hn, -⟩ := ha.uncons
    rw [firstExpr, firstExpr]
    exact expr_meets n (by simp [(List.cons.inj hrs).1, Expressive]) h.head hn

theorem classBody_meets : (n : Node Rule) → n.rule = .classBody → MeetsAt MembersTwins classBody n
  | .mk r start stop cs, hr => by
    intro _ c d h ha
    obtain ⟨_, _, _, rfl, -, parts⟩ := ha.of_mk
    have hr : r = .classBody := hr
    subst hr
    rw [classBody, classBody]
    exact members_meets cs (h.shaped.shape (by decide)) h.parts parts

theorem members_meets : (ns : List (Node Rule)) → (∀ r ∈ ns.map Node.rule, Belonging r) →
      MeetsAll MembersTwins members members ns
  | [], _ => by
    rintro _ c d - ⟨⟩
    rw [members]
    exact .ok ⟨Mention.each_nil, inside_nil, rfl⟩
  | n :: rest, hr => by
    intro _ c d h ha
    obtain ⟨n', rest', rfl, hn, hrest⟩ := ha.uncons
    obtain ⟨hrule, hrules⟩ := List.forall_mem_cons.mp hr
    rw [members, members]
    refine (member_meets n hrule h.head hn).bind fun m m' hm =>
      (members_meets rest hrules h.tail hrest).bind fun ms ms' hms => .ok ?_
    refine ⟨by simpa using And.intro hm.writes hms.writes, ?_, by simp [hm.same, hms.same]⟩
    rw [List.flatMap_cons]
    exact inside_append.mpr ⟨hm.inside, hms.inside⟩

theorem member_meets : (n : Node Rule) → Belonging n.rule → MeetsAt MemberTwins member n
  | .mk r start stop cs, hr => by
    intro _ c d h ha
    obtain ⟨_, _, _, rfl, -, parts⟩ := ha.of_mk
    have hparts := h.parts
    have hn := h.shaped
    cases r with
    | valDecl =>
      rw [member, member]
      refine (valued_meets _ _ cs (hn.shape (by decide)) hparts parts).bind fun v v' hv => .ok ?_
      exact ⟨by simpa using And.intro hv.1.2 hv.2.writes, hv.2.inside, by simp [hv.1.1, hv.2.same]⟩
    | varDecl =>
      rw [member, member]
      refine (maybeValued_meets _ _ cs (hn.shape (by decide)) hparts parts).bind fun v v' hv =>
        .ok ?_
      exact ⟨by simpa using And.intro hv.1.2 hv.2.writes, hv.2.inside, by simp [hv.1.1, hv.2.same]⟩
    | methodDecl =>
      rw [member, member]
      refine (named_meets .symbol _ _ ⟨rfl, rfl⟩ (fun n hn => hn.isName) cs (hn.shape (by decide))
        hparts parts).bind fun f f' hf => .ok ?_
      exact ⟨by simpa using And.intro hf.1.2 (And.intro hf.2.writes hf.2.body.writes),
        inside_singleton.mpr hf.2.body.sited, by simp [hf.1.1, hf.2.params, hf.2.body.same]⟩
    | operatorDecl =>
      rw [member, member]
      refine (named_meets .operator _ _ ⟨rfl, rfl⟩ (fun n hn => hn.operator_mem) cs
        (hn.shape (by decide)) hparts parts).bind fun f f' hf => .ok ?_
      exact ⟨by simpa using And.intro hf.1.2 (And.intro hf.2.writes hf.2.body.writes),
        inside_singleton.mpr hf.2.body.sited, by simp [hf.1.1, hf.2.params, hf.2.body.same]⟩
    | propertyDecl =>
      rw [member, member]
      exact property_meets _ _ cs (hn.shape (by decide)) hparts parts
    | _ => simp [Belonging, Node.rule] at hr

theorem property_meets (span span' : Span) : (ns : List (Node Rule)) →
    Shape (ns.map Node.rule) .propertyDecl →
      MeetsAll MemberTwins (property span) (property span') ns
  | [], hrs | [_], hrs => by simp [Shape] at hrs
  | word :: name :: rest, hrs => by
    intro _ c d h ha
    obtain ⟨word', name', rest', rfl, hword, hname, hrest⟩ := ha.uncons_pair
    have hrs : word.rule = .word .propertyWord ∧ name.rule = .ident ∧ (rest.map Node.rule = [] ∨
        rest.map Node.rule = [.getter] ∨ rest.map Node.rule = [.getter, .setter]) := by
      simpa [Shape, and_or_left] using hrs
    obtain ⟨hw, hrule, hrs⟩ := hrs
    simp only [property, hword.rule, hname.rule, hw, hrule, Rule.isWord, reduceIte,
      Bool.false_eq_true, hname.text hrule rfl]
    exact accessors_meets (h.tail.shaped.isName hrule) rest hrs h.tail.tail hrest

theorem accessors_meets {x : String} (hx : isName x.toList = true) : (ns : List (Node Rule)) →
    (ns.map Node.rule = [] ∨ ns.map Node.rule = [.getter] ∨
      ns.map Node.rule = [.getter, .setter]) →
      MeetsAll MemberTwins (accessors x none none) (accessors x none none) ns
  | [], _ => by
    rintro _ c d - ⟨⟩
    rw [accessors]
    exact .ok ⟨by simpa [Mention.Written] using hx, inside_append.mpr ⟨inside_nil, inside_nil⟩, rfl⟩
  | [getter], hrs => by
    intro _ c d h ha
    obtain ⟨getter', _, rfl, hgetter, ⟨⟩⟩ := ha.uncons
    have hrule : getter.rule = .getter := by simpa using hrs
    simp only [accessors, hgetter.rule, hrule, Rule.isWord, Bool.false_eq_true, reduceIte]
    refine (accessor_meets getter (Or.inl hrule) h hgetter).bind fun a a' ha => .ok ?_
    exact ⟨by simpa [Mention.Written] using And.intro hx ha.writes,
      inside_append.mpr ⟨ha.inside, inside_nil⟩, by simp [ha.same]⟩
  | getter :: setter :: rest, hrs => by
    intro _ c d h ha
    obtain ⟨getter', setter', _, rfl, hgetter, hsetter, hrest⟩ := ha.uncons_pair
    obtain ⟨hrule, hrule', rfl⟩ : getter.rule = .getter ∧ setter.rule = .setter ∧ rest = [] := by
      simpa using hrs
    cases hrest
    simp only [accessors, hgetter.rule, hsetter.rule, hrule, hrule', Rule.isWord,
      Bool.false_eq_true, reduceCtorEq, reduceIte]
    refine (accessor_meets getter (Or.inl hrule) h.head hgetter).bind fun a a' ha =>
      (accessor_meets setter (Or.inr hrule') h.tail hsetter).bind fun b b' hb => .ok ?_
    exact ⟨by simpa [Mention.Written] using And.intro hx (And.intro ha.writes hb.writes),
      inside_append.mpr ⟨ha.inside, hb.inside⟩, by simp [ha.same, hb.same]⟩

theorem accessor_meets : (n : Node Rule) → (n.rule = .getter ∨ n.rule = .setter) →
      MeetsAt AccessorTwins accessor n
  | .mk r start stop cs, hr => by
    intro _ c d h ha
    obtain ⟨_, _, _, rfl, -, parts⟩ := ha.of_mk
    rw [accessor, accessor]
    refine accessorParts_meets _ _ cs ?_ h.parts parts
    have hr : r = .getter ∨ r = .setter := hr
    rcases hr with rfl | rfl
    · exact Or.inl (h.shaped.shape (by decide))
    · exact Or.inr (h.shaped.shape (by decide))

theorem accessorParts_meets (span span' : Span) : (ns : List (Node Rule)) →
    (ns.map Node.rule = [.word .getWord, .block] ∨
      ns.map Node.rule = [.word .setWord, .parameters, .block]) →
      MeetsAll AccessorTwins (accessorParts span [] none) (accessorParts span' [] none) ns
  | [], hrs | [_], hrs => by simp at hrs
  | [word, body], hrs => by
    intro _ c d h ha
    obtain ⟨word', body', _, rfl, hword, hbody, ⟨⟩⟩ := ha.uncons_pair
    obtain ⟨hw, hrule⟩ : word.rule = .word .getWord ∧ body.rule = .block := by simpa using hrs
    simp only [accessorParts, hword.rule, hbody.rule, hw, hrule, Rule.isWord, Bool.false_eq_true,
      reduceCtorEq, reduceIte]
    refine (block_meets body hrule h.tail hbody).bind fun b b' hb => .ok ?_
    exact ⟨by simpa [Mention.symbols] using hb.writes, inside_singleton.mpr hb.sited,
      by simp [hb.same]⟩
  | word :: params :: body :: rest, hrs => by
    intro _ c d h ha
    obtain ⟨word', params', _, rfl, hword, hparams, ha⟩ := ha.uncons_pair
    obtain ⟨body', _, rfl, hbody, hrest⟩ := ha.uncons
    obtain ⟨hw, hrule, hrule', rfl⟩ : word.rule = .word .setWord ∧ params.rule = .parameters ∧
        body.rule = .block ∧ rest = [] := by
      simpa using hrs
    cases hrest
    simp only [accessorParts, hword.rule, hparams.rule, hbody.rule, hw, hrule, hrule', Rule.isWord,
      Bool.false_eq_true, reduceCtorEq, reduceIte]
    refine (block_meets body hrule' h.tail.tail hbody).bind fun b b' hb => .ok ?_
    obtain ⟨hnames, hwrites⟩ := names_alike h.tail.shaped hparams (Or.inl hrule)
    exact ⟨by simpa using And.intro hwrites hb.writes, inside_singleton.mpr hb.sited,
      by simp [hnames, hb.same]⟩

end

section Parsed

/-- A name is a symbol that is no reserved word. -/
theorem isName_iff :
    isName cs = true ↔ NameRule.isSymbol cs = true ∧ ∀ w ∈ Word.reserved,
    w.spelling.toList ≠ cs := by
  cases cs with
  | nil => simp [isName, NameRule.isSymbol]
  | cons c cs =>
    rw [isName, Bool.and_eq_true]
    refine and_congr .rfl ?_
    simp

theorem components_eq_splitOn (cs : List Char) : NameRule.components cs = cs.splitOn '.' := by
  induction cs with
  | nil => rfl
  | cons c cs ih =>
    obtain ⟨x, xs, hsplit⟩ := List.exists_cons_of_ne_nil (List.splitOn_ne_nil '.' cs)
    have hstep : (c :: cs).splitOn '.' =
        if c == '.' then [] :: cs.splitOn '.' else (cs.splitOn '.').modifyHead (c :: ·) :=
      List.splitOnP_cons_eq_if_modifyHead ..
    rw [NameRule.components, ih, hstep, hsplit]
    by_cases hc : c = '.'
    · simp [hc]
    · simp [hc]

/-- The name of a module is divided by dots into names. -/
theorem isModuleName_iff :
    isModuleName cs = true ↔ ∀ x ∈ NameRule.components cs, isName x = true := by
  rw [isModuleName, components_eq_splitOn, List.all_eq_true]

end Parsed

end Syntax

/-- What is written as the grammar asks is what the tables ask for. -/
theorem Mention.Written.proper {x : Mention} (h : x.Written) : x.Proper := by
  cases x with
  | property getter setter => exact h
  | name rule text =>
    cases rule with
    | symbol => exact (isName_iff.mp h).1
    | operator =>
      have hoperators : ∀ t ∈ Syntax.symbols .operator, NameRule.operators.contains t = true := by
        decide
      exact hoperators text h
    | dotted =>
      refine List.all_eq_true.mpr fun x hx => ?_
      exact (isName_iff.mp (isModuleName_iff.mp h x hx)).1

/-- The nodes of a match lead to a tree with all that it mentions written well and with every
statement in its place, or to one of two refusals. -/
theorem program_of_match {d : Cursor} {seen : Attempts Rule}
    (h : matchProgram s = .matched ns d seen) :
    Meets (.ofSource s) d (BlockTwins (.ofSource s) d) (program ns) (program ns) := by
  have hderives : Derives grammar reading (.call .program) (.ofSource s) (some (ns, d)) :=
    .of_run (congrArg Reply.result? h)
  have hlaid := laid_of_derives hderives
  obtain ⟨_ | ⟨ms, e⟩, -, hres⟩ := derives_call_iff.mp hderives
  · cases hres
  obtain rfl : ns = [.mk .program (.ofSource s) e.pos ms] := by
    cases hres
    rfl
  obtain ⟨rest, hrs, hrest⟩ := hlaid.shaped.shape (by decide)
  rw [program, block]
  refine statements_meets ms (fun r hr => ?_) hlaid.parts (.refl ms)
  rw [hrs, List.mem_append, List.mem_singleton] at hr
  exact hr.imp_left (hrest r)

theorem parse_meets (h : parse s = .ok b) :
    Writes (Statement.mentionsAll b) ∧ ∃ d, Sited (.ofSource s) b d := by
  rw [parse] at h
  cases hmatch : matchProgram s with
  | refused seen => simp [hmatch] at h
  | exhausted => simp [hmatch] at h
  | matched ns d seen =>
    have hmeets := program_of_match hmatch
    simp only [hmatch, build] at h
    split at h
    · next b' hbuild =>
      cases h
      rw [hbuild] at hmeets
      cases hmeets with
      | ok hb => exact ⟨hb.writes, d, hb.sited⟩
    · cases h

theorem parse_writes (h : parse s = .ok b) :
    Writes (Statement.mentionsAll b) := (parse_meets h).1

end ObjectLang
