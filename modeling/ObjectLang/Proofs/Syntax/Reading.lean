import ObjectLang.Proofs.Syntax.Places
import ObjectLang.Proofs.Syntax.Printing

/-!
Reading printed expressions.
Operands of one rank are read from the left, and so are calls, indexings and member accesses. What
an expression is read as is therefore told together with what is read behind it.
-/
namespace ObjectLang.Syntax

open Peg Pattern

def blank (_ : String) : String := ""

/-- The result is `a` but for what `E` leaves out. -/
def Gives {α β : Type} (E : α → β) (x : Built α) (a : α) : Prop := ∃ a', x = .ok a' ∧ E a' = E a

theorem Gives.bind {α β γ δ : Type} {E : α → β} {E' : γ → δ} {x : Built α} {f : α → Built γ} {a : α}
    {b : γ} (h : Gives E x a) (hf : ∀ a', E a' = E a → Gives E' (f a') b) :
    Gives E' (x >>= f) b := by
  obtain ⟨a', rfl, ha⟩ := h
  exact hf a' ha

theorem Gives.pure {α β : Type} {E : α → β} {a a' : α} (h : E a' = E a) : Gives E (.ok a') a :=
  ⟨a', rfl, h⟩

variable {ts ts' toks : List String} {N M : List (Node Rule) → Prop} {e l r t : Expr}
  {ns ms : List (Node Rule)} {args : List Expr} {x : Char} {op : Arith} {K : Expr → Expr}

def Denotes (e : Expr) (ns : List (Node Rule)) : Prop :=
  ∃ n, ns = [n] ∧ Gives (Expr.forget blank) (expr n) e

/-- No word is built to an expression. -/
theorem Gives.not_isWord {n : Node Rule} (h : Gives (Expr.forget blank) (expr n) e) :
    n.rule.isWord = false := by
  obtain ⟨r, start, stop, cs⟩ := n
  obtain ⟨e', h, -⟩ := h
  rw [expr] at h
  cases r with
  | word w => cases h
  | _ => rfl

/-- The first nodes are operands and operators that make up the expression. -/
def Opens (M : List (Node Rule) → Prop) (e : Expr) (ns : List (Node Rule)) : Prop :=
  ∃ xs ys, ns = xs ++ ys ∧ M ys ∧ ∃ e' : Expr, e'.forget blank = e.forget blank ∧
    ∀ span rest, operands span (xs ++ rest) = operations span e' rest

def Heads (M : List (Node Rule) → Prop) (e : Expr) (ns : List (Node Rule)) : Prop :=
  ∃ xs ys, ns = xs ++ ys ∧ M ys ∧ ∃ e' : Expr, e'.forget blank = e.forget blank ∧
    ∀ span rest, links span (xs ++ rest) = linksFrom e' rest

def Stops (rs : List Rule) (ts : List String) : Prop := ∀ r ∈ rs, Refuses (.call r) ts

def bars (rs : List Rule) (x : Char) : Bool :=
  rs.all fun r => ranking.eats r && (first r).all fun z => !z.holds x

theorem Stops.ofBars {rs : List Rule} {t : String} (ht : t.toList.head? = some x)
    (h : bars rs x = true) (ts : List String) : Stops rs (t :: ts) := by
  intro r hr
  rw [bars, List.all_eq_true] at h
  have h := h r hr
  rw [Bool.and_eq_true, List.all_eq_true] at h
  obtain ⟨cs, hchars⟩ := List.head?_eq_some_iff.mp ht
  refine .ofFirst h.1 fun y hy z hz => ?_
  rw [spaced_cons, hchars] at hy
  cases hy
  simpa using h.2 z hz

def linkRules : List Rule := [.call, .index, .member]

def linkPattern : Pattern Rule := alts (.call .call) [.call .index, .call .member]

theorem Stops.links (h : Stops linkRules ts) : Refuses linkPattern ts :=
  .alt (h .call (by decide)) (.alt (h .index (by decide)) (h .member (by decide)))

/-- The expression is read as a sum from its tokens; `M` tells what is read behind it. -/
def ReadsSum (e : Expr) : Prop :=
  ∀ ⦃ts ts' M⦄, Stops (.mulOp :: linkRules) ts →
    Takes (many (seq (.call .addOp) (.call .product))) M ts ts' →
      Takes (body .sum) (Opens M e) (e.tokens ++ ts) ts'

def ReadsProduct (e : Expr) : Prop :=
  ∀ ⦃ts ts' M⦄, Stops linkRules ts →
    Takes (many (seq (.call .mulOp) (.call .chain))) M ts ts' →
      Takes (body .product) (Opens M e) (Print.parens (e.rank < 1) e.tokens ++ ts) ts'

def ReadsChain (e : Expr) : Prop :=
  ∀ ⦃ts ts' M⦄, Takes (many linkPattern) M ts ts' →
    Takes (body .chain) (Heads M e) (Print.parens (e.rank < 2) e.tokens ++ ts) ts'

def declRules : List Rule :=
  [.moduleDecl, .importStmt, .exportStmt, .classDecl, .functionDecl, .valDecl,
    .varDecl, .returnStmt]

/-- The expression is read back from its tokens at every level, and is taken for no declaration and
for no assignment. -/
structure Reads (e : Expr) : Prop where
  sum : ReadsSum e
  product : ReadsProduct e
  chain : ReadsChain e
  starts : ∀ {ts}, Stops declRules (e.tokens ++ ts)
  unassigned : ∀ {ts}, Ready ts → Stops (.assignOp :: linkRules) ts →
    Refuses (.call .assignment) (e.tokens ++ ts)

section Levels

theorem Opens.operand (h : Denotes e ns) (hms : M ms) :
    Opens M e (ns ++ ms) := by
  obtain ⟨n, rfl, e', hn, he⟩ := h
  refine ⟨[n], ms, rfl, hms, e', he, fun span rest => ?_⟩
  rw [List.singleton_append, operands, hn]
  rfl

theorem Heads.primary (h : Denotes e ns) (hms : M ms) :
    Heads M e (ns ++ ms) := by
  obtain ⟨n, rfl, e', hn, he⟩ := h
  refine ⟨[n], ms, rfl, hms, e', he, fun span rest => ?_⟩
  rw [List.singleton_append, links, hn]
  rfl

theorem denotes_of_opens {r : Rule} (hr : r = .sum ∨ r = .product)
    (h : Single r (Opens Nothing e) ns) : Denotes e ns := by
  obtain ⟨start, stop, _, rfl, xs, _, rfl, rfl, e', he, hopen⟩ := h
  refine ⟨_, rfl, e', ?_, he⟩
  rcases hr with rfl | rfl
  · rw [expr, exprOf, hopen, operations]
  · rw [expr, exprOf, hopen, operations]

theorem denotes_of_heads (h : Single .chain (Heads Nothing e) ns) :
    Denotes e ns := by
  obtain ⟨start, stop, _, rfl, xs, _, rfl, rfl, e', he, hhead⟩ := h
  exact ⟨_, rfl, e', by rw [expr, exprOf, hhead, linksFrom], he⟩

def closers : List Rule := .addOp :: .mulOp :: linkRules

theorem ReadsSum.takesNode (h : ReadsSum e) (hts : Stops closers ts) :
    Takes (.call .sum) (Single .sum (Opens Nothing e)) (e.tokens ++ ts) ts := by
  have hmany : Takes (many (seq (.call .addOp) (.call .product))) Nothing ts ts :=
    .manyNone (.seq (hts .addOp (by decide)))
  exact (h (fun r hr => hts r (List.mem_cons_of_mem _ hr)) hmany).rule rfl

theorem ReadsSum.takes (h : ReadsSum e) (hts : Stops closers ts) :
    Takes (.call .sum) (Denotes e) (e.tokens ++ ts) ts :=
  (h.takesNode hts).mono (denotes_of_opens (Or.inl rfl))

theorem ReadsProduct.takes (h : ReadsProduct e) (hts : Stops (.mulOp :: linkRules) ts) :
    Takes (.call .product) (Denotes e) (Print.parens (e.rank < 1) e.tokens ++ ts) ts := by
  have hmany : Takes (many (seq (.call .mulOp) (.call .chain))) Nothing ts ts :=
    .manyNone (.seq (hts .mulOp (by decide)))
  have hbody := h (fun r hr => hts r (List.mem_cons_of_mem _ hr)) hmany
  exact (hbody.rule rfl).mono (denotes_of_opens (Or.inr rfl))

theorem ReadsChain.takes (h : ReadsChain e) (hts : Stops linkRules ts) :
    Takes (.call .chain) (Denotes e) (Print.parens (e.rank < 2) e.tokens ++ ts) ts :=
  ((h (.manyNone hts.links)).rule rfl).mono denotes_of_heads

/-- At an opening parenthesis no other primary expression is read. -/
theorem takes_parens (h : Takes (.call .sum) (Denotes e) toks (")" :: ts)) :
    Takes primary (Denotes e) ("(" :: toks) ts := by
  have hstops : Stops [.float, .integer, .string, .functionExpr, .closureExpr] ("(" :: toks) :=
    .ofBars rfl (by decide) _
  refine .altSecond (hstops .float (by decide)) (.altSecond (hstops .integer (by decide))
    (.altSecond (hstops .string (by decide)) (.altSecond (hstops .functionExpr (by decide))
      (.altSecond (hstops .closureExpr (by decide)) (.alt ?_)))))
  exact .muteSeq (.lit (by decide)) (.seqMute h (.lit (by decide)))

/-- Sums and products are read as chains in parentheses. -/
theorem ReadsSum.readsChain (h : ReadsSum e) (hrank : e.rank < 2) : ReadsChain e := by
  intro ts ts' M hmore
  have hsum : Takes (.call .sum) (Denotes e) (e.tokens ++ ")" :: ts) (")" :: ts) :=
    h.takes (.ofBars rfl (by decide) _)
  have hprimary := takes_parens hsum
  rw [Print.parens, decide_eq_true hrank, if_pos rfl, List.cons_append, List.append_assoc,
    List.singleton_append]
  exact hprimary.seq hmore Heads.primary

theorem ReadsChain.readsProduct (h : ReadsChain e) (hrank : e.rank ≠ 1) : ReadsProduct e := by
  intro ts ts' M hts hmore
  have hparens : decide (e.rank < 1) = decide (e.rank < 2) := by
    rw [decide_eq_decide]
    omega
  rw [hparens]
  exact (h.takes hts).seq hmore Opens.operand

theorem ReadsProduct.readsSum (h : ReadsProduct e) (hrank : e.rank ≠ 0) : ReadsSum e := by
  intro ts ts' M hts hmore
  have hproduct := h.takes hts
  rw [Print.parens, decide_eq_false (by omega), if_neg Bool.false_ne_true] at hproduct
  exact hproduct.seq hmore Opens.operand

/-- An expression of the lowest rank that is read as a chain is no target of an assignment. -/
theorem ReadsChain.unassigned (h : ReadsChain e) (hts : Ready ts)
    (hstops : Stops (.assignOp :: linkRules) ts) :
    Refuses (.call .assignment) (Print.parens (e.rank < 2) e.tokens ++ ts) :=
  .rule (.seqHalf (h.takes fun r hr => hstops r (List.mem_cons_of_mem _ hr)) hts
    (.seq (hstops .assignOp (by decide)))) rfl

theorem Reads.ofChain (h : ReadsChain e) (hrank : e.rank = 2)
    (hstarts : ∀ {ts}, Stops declRules (e.tokens ++ ts)) : Reads e := by
  have hproduct := h.readsProduct (by omega)
  refine ⟨hproduct.readsSum (by omega), hproduct, h, hstarts, fun hts hstops => ?_⟩
  have hrefuses := h.unassigned hts hstops
  rwa [Print.parens, hrank, if_neg (by decide)] at hrefuses

/-- Expressions in parentheses are no declarations either. -/
theorem Reads.startsIn (h : Reads e) (needed : Bool) :
    Stops declRules (Print.parens needed e.tokens ++ ts) := by
  cases needed with
  | false => exact h.starts
  | true => exact .ofBars rfl (by decide) _

end Levels

section Binary

def Round (sym : String) (e : Expr) (M : List (Node Rule) → Prop) (ns : List (Node Rule)) : Prop :=
  ∃ op n rest, ns = op :: n :: rest ∧ op.text = sym ∧ Gives (Expr.forget blank) (expr n) e ∧ M rest

theorem takes_round {o p : Rule} {sym : String} (hsym : sym ∈ symbols o)
    (h : Takes (.call p) (Denotes e) toks ts)
    (hmore : Takes (many (seq (.call o) (.call p))) M ts ts') :
    Takes (many (seq (.call o) (.call p))) (Round sym e M) (sym :: toks) ts' := by
  have hround : Takes (seq (.call o) (.call p))
      (fun ns => ∃ op n, ns = [op, n] ∧ op.text = sym ∧ Gives (Expr.forget blank) (expr n) e)
      (sym :: toks) ts := by
    refine (takes_symbol hsym).seq h ?_
    rintro _ _ ⟨op, rfl, -, hop⟩ ⟨n, rfl, hn⟩
    exact ⟨op, n, rfl, hop, hn⟩
  refine hround.many hmore ?_
  rintro _ ms ⟨op, n, rfl, hop, hn⟩ hms
  exact ⟨op, n, ms, rfl, hop, hn, hms⟩

theorem Opens.binary (h : Opens (Round op.symbol r M) l ns) :
    Opens M (.binary op l r) ns := by
  obtain ⟨xs, _, rfl, ⟨o, n, rest, rfl, ho, ⟨r', hn, hr⟩, hrest⟩, l', hl, hopen⟩ := h
  refine ⟨xs ++ [o, n], rest, ?_, hrest, .binary op l' r', ?_, fun span more => ?_⟩
  · simp
  · rw [Expr.forget, Expr.forget, hl, hr]
  · have harith : arith o.text = op := by
      rw [ho]
      cases op <;> rfl
    rw [List.append_assoc, hopen, List.cons_append, List.singleton_append, operations, hn, harith]
    rfl

theorem ready_symbol (op : Arith) (ts : List String) : Ready (op.symbol :: ts) :=
  ready_cons (by cases op <;> decide) ts

/-- At an operator no assignment and no link goes on. -/
theorem stops_symbol (op : Arith) (ts : List String) :
    Stops (.assignOp :: linkRules) (op.symbol :: ts) := by
  intro r hr
  rcases List.mem_cons.mp hr with rfl | hr
  · intro c hc
    obtain ⟨pos, rest⟩ := c
    have hc : rest = op.symbol.toList ++ behind ts := by
      rw [show rest = _ from hc, spaced_cons]
    subst hc
    have hrun : (run grammar 20 ⟨.take, .solid⟩ (body .assignOp)
        ⟨pos, op.symbol.toList ++ behind ts⟩ .none).result? = some none := by
      rw [behind]
      cases op <;> split <;> rfl
    exact .rule (.of_run hrun) rfl
  · have hbars : ∃ x, op.symbol.toList.head? = some x ∧ bars linkRules x = true := by
      cases op <;> exact ⟨_, rfl, by decide⟩
    obtain ⟨x, hx, hbars⟩ := hbars
    exact Stops.ofBars hx hbars ts r hr

theorem reads_sum (hop : op.rank = 0) (hl : Reads l) (hr : Reads r) :
    Reads (.binary op l r) := by
  have hsym : op.symbol ∈ symbols .addOp ∧
      ∃ x, op.symbol.toList.head? = some x ∧ bars (.mulOp :: linkRules) x = true := by
    cases op with
    | add | sub => exact ⟨by decide, _, rfl, by decide⟩
    | mul | div => cases hop
  obtain ⟨hsym, x, hx, hbars⟩ := hsym
  have hparens : decide (r.rank ≤ 0) = decide (r.rank < 1) := by
    rw [decide_eq_decide]
    omega
  have htoks : (Expr.binary op l r).tokens =
      l.tokens ++ op.symbol :: Print.parens (r.rank < 1) r.tokens := by
    rw [Expr.tokens, hop, hparens]
    rfl
  have hsum : ReadsSum (.binary op l r) := by
    intro ts ts' M hts hmore
    have hround := takes_round hsym (hr.product.takes hts) hmore
    have hleft := hl.sum (.ofBars hx hbars _) hround
    rw [htoks, List.append_assoc, List.cons_append]
    exact hleft.mono Opens.binary
  have hrank : (Expr.binary op l r).rank = 0 := hop
  have hchain := hsum.readsChain (by omega)
  refine ⟨hsum, hchain.readsProduct (by omega), hchain, fun {ts} => ?_, fun {ts} hts hstops => ?_⟩
  · rw [htoks, List.append_assoc]
    exact hl.starts
  · rw [htoks, List.append_assoc, List.cons_append]
    exact hl.unassigned (ready_symbol op _) (stops_symbol op _)

theorem reads_product (hop : op.rank = 1) (hl : Reads l) (hr : Reads r) :
    Reads (.binary op l r) := by
  have hsym : op.symbol ∈ symbols .mulOp ∧
      ∃ x, op.symbol.toList.head? = some x ∧ bars linkRules x = true := by
    cases op with
    | add | sub => cases hop
    | mul | div => exact ⟨by decide, _, rfl, by decide⟩
  obtain ⟨hsym, x, hx, hbars⟩ := hsym
  have hrank : (Expr.binary op l r).rank = 1 := hop
  have hparens : decide (r.rank ≤ 1) = decide (r.rank < 2) := by
    rw [decide_eq_decide]
    omega
  have htoks : (Expr.binary op l r).tokens = Print.parens (l.rank < 1) l.tokens ++
      op.symbol :: Print.parens (r.rank < 2) r.tokens := by
    rw [Expr.tokens, hop, hparens]
  have hproduct : ReadsProduct (.binary op l r) := by
    intro ts ts' M hts hmore
    have hround := takes_round hsym (hr.chain.takes hts) hmore
    have hleft := hl.product (.ofBars hx hbars _) hround
    rw [hrank, htoks, Print.parens, if_neg (by decide), List.append_assoc, List.cons_append]
    exact hleft.mono Opens.binary
  have hsum := hproduct.readsSum (by omega)
  refine ⟨hsum, hproduct, hsum.readsChain (by omega), fun {ts} => ?_, fun {ts} hts hstops => ?_⟩
  · rw [htoks, List.append_assoc]
    exact hl.startsIn _
  · rw [htoks, List.append_assoc, List.cons_append]
    by_cases hlow : l.rank < 1
    · have hboth : decide (l.rank < 1) = decide (l.rank < 2) := by
        rw [decide_eq_decide]
        omega
      rw [hboth]
      exact hl.chain.unassigned (ready_symbol op _) (stops_symbol op _)
    · rw [decide_eq_false hlow]
      exact hl.unassigned (ready_symbol op _) (stops_symbol op _)

theorem reads_binary (op : Arith) (hl : Reads l) (hr : Reads r) : Reads (.binary op l r) := by
  cases op with
  | add | sub => exact reads_sum rfl hl hr
  | mul | div => exact reads_product rfl hl hr

end Binary

section Lists

variable {α : Type} {p : Pattern Rule} {as : List α} {f : α → List String}
  {P : α → Node Rule → Prop} {rs : List Rule}

theorem commas_cons (x : List String) (xs : List (List String)) :
    Print.commas (x :: xs) = x ++ xs.flatMap ("," :: ·) := intercalate_singleton "," x xs

/-- Behind an item of a list comes a comma or what stands behind the list. -/
theorem Stops.ofItems (hcomma : bars rs ',' = true) (hts : Stops rs ts) (xs : List (List String)) :
    Stops rs (xs.flatMap ("," :: ·) ++ ts) := by
  cases xs with
  | nil => exact hts
  | cons x xs => exact .ofBars rfl hcomma _

theorem takes_items (hcomma : bars rs ',' = true) (hts : Stops rs ts)
    (hend : Refuses (lit ",") ts)
    (h : ∀ a ∈ as, ∀ {ts}, Stops rs ts → Takes p (fun ns => ∃ n, ns = [n] ∧ P a n) (f a ++ ts) ts) :
    Takes (many (seq (lit ",") p)) (List.Forall₂ P as)
    ((as.map f).flatMap ("," :: ·) ++ ts) ts := by
  induction as with
  | nil => exact (Takes.manyNone hend.seq).mono fun hns => hns ▸ .nil
  | cons a as ih =>
    have hmore := ih fun b hb => h b (List.mem_cons_of_mem a hb)
    have hone := h a List.mem_cons_self (Stops.ofItems hcomma hts (as.map f))
    rw [List.map_cons, List.flatMap_cons, List.cons_append, List.cons_append, List.append_assoc]
    refine (Takes.muteSeq (.lit (by decide)) hone).many hmore ?_
    rintro _ ms ⟨n, rfl, hn⟩ hms
    exact .cons hn hms

/-- A list with commas between its items. -/
theorem takes_commas (hcomma : bars rs ',' = true) (hts : Stops rs ts) (hend : Refuses (lit ",") ts)
    (hne : as ≠ [])
    (h : ∀ a ∈ as, ∀ {ts}, Stops rs ts → Takes p (fun ns => ∃ n, ns = [n] ∧ P a n) (f a ++ ts) ts) :
    Takes (sepBy p ",") (List.Forall₂ P as) (Print.commas (as.map f) ++ ts) ts := by
  cases as with
  | nil => exact absurd rfl hne
  | cons a as =>
    have hmore := takes_items hcomma hts hend fun b hb => h b (List.mem_cons_of_mem a hb)
    have hone := h a List.mem_cons_self (Stops.ofItems hcomma hts (as.map f))
    rw [List.map_cons, commas_cons, List.append_assoc]
    refine hone.seq hmore ?_
    rintro _ ms ⟨n, rfl, hn⟩ hms
    exact .cons hn hms

end Lists

section Links

def Link (K : Expr → Expr) (M : List (Node Rule) → Prop) (ns : List (Node Rule)) : Prop :=
  ∃ n rest, ns = n :: rest ∧ (∀ t t' : Expr, t'.forget blank = t.forget blank →
    Gives (Expr.forget blank) (link t' n) (K t)) ∧ M rest

theorem Heads.link (h : Heads (Link K M) t ns) :
    Heads M (K t) ns := by
  obtain ⟨xs, _, rfl, ⟨n, rest, rfl, hlink, hrest⟩, t', ht, hhead⟩ := h
  obtain ⟨e', hn, he⟩ := hlink t t' ht
  refine ⟨xs ++ [n], rest, ?_, hrest, e', he, fun span more => ?_⟩
  · simp
  · rw [List.append_assoc, hhead, List.singleton_append, linksFrom, hn]
    rfl

theorem reads_link (ht : Reads t) (hrank : (K t).rank = 2)
    (htoks : (K t).tokens = Print.parens (t.rank < 2) t.tokens ++ toks)
    (h : ∀ {ts}, Takes linkPattern (Link K Nothing) (toks ++ ts) ts) : Reads (K t) := by
  refine .ofChain (fun ts ts' M hmore => ?_) hrank fun {ts} => ?_
  · have hlink : Takes (many linkPattern) (Link K M) (toks ++ ts) ts' := by
      refine h.many hmore ?_
      rintro _ ms ⟨n, _, rfl, hn, rfl⟩ hms
      exact ⟨n, ms, rfl, hn, hms⟩
    have hhead := ht.chain hlink
    rw [Print.parens, hrank, if_neg (by decide), htoks, List.append_assoc]
    exact hhead.mono Heads.link
  · rw [htoks, List.append_assoc]
    exact ht.startsIn _

end Links

section Arguments

theorem tokensEach_eq_map (es : List Expr) : Expr.tokensEach es = es.map Expr.tokens := by
  induction es with
  | nil => rfl
  | cons e es ih => rw [Expr.tokensEach, ih, List.map_cons]

theorem exprs_gives {es : List Expr}
    (h : List.Forall₂ (fun e n => Gives (Expr.forget blank) (expr n) e) es ns) :
    Gives (Expr.forgetAll blank) (exprs ns) es := by
  induction h with
  | nil => exact .pure rfl
  | cons hn _ ih =>
    rw [exprs]
    refine hn.bind fun e' he => ih.bind fun es' hes => .pure ?_
    rw [Expr.forgetAll, Expr.forgetAll, he, hes]

theorem takes_arguments (hargs : ∀ a ∈ args, Reads a) {close : String}
    (hclose : close.toList.head? = some x) (hbars : bars (.sum :: closers) x = true)
    (hx : x ≠ ',') :
    Takes arguments (fun ns => Gives (Expr.forgetAll blank) (exprs ns) args)
      (Print.commas (Expr.tokensEach args) ++ close :: ts) (close :: ts) := by
  have hstops : Stops (.sum :: closers) (close :: ts) := .ofBars hclose hbars ts
  rw [tokensEach_eq_map]
  by_cases hargs' : args = []
  · subst hargs'
    refine (Takes.optNone (.seq (hstops .sum List.mem_cons_self))).mono ?_
    rintro _ rfl
    exact .pure rfl
  · refine Takes.opt ((takes_commas (by decide : bars closers ',' = true)
      (fun r hr => hstops r (List.mem_cons_of_mem _ hr)) (.lit rfl hclose hx) hargs'
      fun a ha ts hts => ?_).mono exprs_gives)
    exact (hargs a ha).sum.takes hts

/-- Arguments in brackets. -/
theorem takes_brackets (hargs : ∀ a ∈ args, Reads a) {left right : String}
    (hleft : firm left = true) (hright : firm right = true) (hclose : right.toList.head? = some x)
    (hbars : bars (.sum :: closers) x = true) (hx : x ≠ ',') :
    Takes (seqs (lit left) [arguments, lit right])
      (fun ns => Gives (Expr.forgetAll blank) (exprs ns) args)
      (left :: (Print.commas (Expr.tokensEach args) ++ [right]) ++ ts) ts := by
  rw [List.cons_append, List.append_assoc, List.singleton_append]
  exact .muteSeq (.lit hleft) (.seqMute (takes_arguments hargs hclose hbars hx) (.lit hright))

theorem reads_call {f : Expr} (hf : Reads f) (hargs : ∀ a ∈ args, Reads a) :
    Reads (.call f args) := by
  refine reads_link (K := fun f => .call f args) hf rfl (by rw [Expr.tokens]) fun {ts} => ?_
  have hbody : Takes (body .call) _ _ ts :=
    takes_brackets hargs (by decide) (by decide) rfl (by decide) (by decide)
  refine .alt ((hbody.rule rfl).mono ?_)
  rintro _ ⟨start, stop, cs, rfl, hcs⟩
  refine ⟨_, [], rfl, fun t t' ht => ?_, rfl⟩
  rw [link]
  refine hcs.bind fun args' hargs' => .pure ?_
  rw [Expr.forget, Expr.forget, ht, hargs']

theorem reads_index (ht : Reads t) (hargs : ∀ a ∈ args, Reads a) :
    Reads (.index t args) := by
  refine reads_link (K := fun t => .index t args) ht rfl (by rw [Expr.tokens]) fun {ts} => ?_
  have hbody : Takes (body .index) _ _ ts :=
    takes_brackets hargs (by decide) (by decide) rfl (by decide) (by decide)
  refine .altSecond (Stops.ofBars rfl (by decide : bars [.call] '[' = true) _ .call (by decide))
    (.alt ((hbody.rule rfl).mono ?_))
  rintro _ ⟨start, stop, cs, rfl, hcs⟩
  refine ⟨_, [], rfl, fun t t' ht => ?_, rfl⟩
  rw [link]
  refine hcs.bind fun args' hargs' => .pure ?_
  rw [Expr.forget, Expr.forget, ht, hargs']

theorem reads_member {x : String} (ht : Reads t) (hx : isName x.toList = true) :
    Reads (.member t x) := by
  refine reads_link (K := fun t => .member t x) ht rfl (by rw [Expr.tokens]) fun {ts} => ?_
  have hbody : Takes (body .member) (Mark .ident x) ([".", x] ++ ts) ts :=
    .muteSeq (.lit (by decide)) (takes_name hx)
  have hstops : Stops [.call, .index] ([".", x] ++ ts) := .ofBars rfl (by decide) _
  refine .altSecond (hstops .call (by decide)) (.altSecond (hstops .index (by decide))
    ((hbody.rule rfl).mono ?_))
  rintro _ ⟨start, stop, _, rfl, n, rfl, -, hn⟩
  refine ⟨_, [], rfl, fun t t' ht => .pure ?_, rfl⟩
  rw [hn, Expr.forget, Expr.forget, ht]

end Arguments

section Primaries

theorem Reads.ofPrimary (hrank : e.rank = 2)
    (h : ∀ {ts}, Takes primary (Denotes e) (e.tokens ++ ts) ts)
    (hstarts : ∀ {ts}, Stops declRules (e.tokens ++ ts)) : Reads e := by
  refine .ofChain (fun ts ts' M hmore => ?_) hrank hstarts
  rw [Print.parens, hrank, if_neg (by decide)]
  exact h.seq hmore Heads.primary

theorem isAlpha_eq_false_of_isDigit (hx : x.isDigit = true) : x.isAlpha = false := by
  delta Char.isDigit at hx
  delta Char.isAlpha Char.isUpper Char.isLower
  grind

theorem reads_integer {v : Int64} (hv : 0 ≤ v) : Reads (.integer v) := by
  obtain ⟨k, hk⟩ : ∃ k : Nat, v.toInt.toNat = k := ⟨_, rfl⟩
  have hint : v.toInt = k := by
    have h0 : (0 : Int) ≤ v.toInt := Int64.le_iff_toInt_le.mp hv
    omega
  have hlt : k < Nat.pow 2 63 := by
    have hmax := v.toInt_lt
    rw [Nat.pow_eq]
    omega
  have hvalue : Int64.ofNat k = v := by
    rw [← Int64.ofInt_toInt v, hint]
    rfl
  have htoks : (Expr.integer v).tokens = [k.repr] := by rw [Expr.tokens, hk]
  have hstarts {ts : List String} : Stops declRules (k.repr :: ts) := by
    have hdigits := isDigit_repr k
    cases hchars : k.repr.toList with
    | nil => exact absurd hchars (repr_toList_ne_nil k)
    | cons x cs =>
      rw [hchars, List.all_cons, Bool.and_eq_true] at hdigits
      refine .ofBars (by rw [hchars]; rfl) ?_ ts
      simp [bars, declRules, first, ranking, Start.holds, Letter.holds,
        isAlpha_eq_false_of_isDigit hdigits.1]
  refine .ofPrimary rfl (fun {ts} => ?_) fun {ts} => htoks ▸ hstarts
  rw [htoks]
  refine .altSecond (refuses_float k) (.alt ((takes_integer k).mono ?_))
  rintro _ ⟨⟨r, start, stop, cs⟩, rfl, rfl, hn⟩
  refine ⟨_, rfl, .integer v, ?_, rfl⟩
  have hchars : start.upTo stop = k.repr.toList := by
    rw [← hn, Node.text, Node.chars, String.toList_ofList]
  rw [expr, exprOf, hchars, integer, ofDigits_repr, if_pos hlt, hvalue]

theorem reads_string (s : String) : Reads (.string s) := by
  have hhead : (quote s).toList.head? = some '"' := by
    rw [quote, String.toList_ofList, List.head?_cons]
  refine .ofPrimary rfl (fun {ts} => ?_) fun {ts} => .ofBars hhead (by decide) _
  have hstops : Stops [.float, .integer] (quote s :: ts) := .ofBars hhead (by decide) _
  refine .altSecond (hstops .float (by decide)) (.altSecond (hstops .integer (by decide))
    (.alt ((takes_string s).mono ?_)))
  rintro _ ⟨n, rfl, hn⟩
  exact ⟨n, rfl, _, hn, rfl⟩

def leads : Rule → Option Word
  | .moduleDecl => some .moduleWord
  | .importStmt => some .importWord
  | .exportStmt => some .exportWord
  | .classDecl => some .classWord
  | .functionDecl | .functionExpr => some .functionWord
  | .closureExpr => some .closureWord
  | .valDecl => some .valWord
  | .varDecl => some .varWord
  | .returnStmt => some .returnWord
  | .methodDecl => some .methodWord
  | .propertyDecl => some .propertyWord
  | .operatorDecl => some .operatorWord
  | _ => none

theorem refuses_led {q : Rule} {w : Word} {t : String} (hq : leads q = some w)
    (ht : t.toList.all isNameChar = true) (hne : t ≠ w.spelling) : Refuses (.call q) (t :: ts) := by
  have hword : Refuses (word w) (t :: ts) := refuses_word ht hne
  unfold leads at hq
  split at hq <;> cases hq <;> exact .rule (.seq hword) rfl

def others (t : String) (rs : List Rule) : Bool :=
  rs.all fun q => (leads q).any fun w => t != w.spelling

theorem Stops.ofOthers {t : String} {rs : List Rule} (ht : t.toList.all isNameChar = true)
    (h : others t rs = true) : Stops rs (t :: ts) := by
  intro q hq
  rw [others, List.all_eq_true] at h
  obtain ⟨w, hw, hne⟩ := (Option.any_eq_true _ _).mp (h q hq)
  exact refuses_led hw ht (bne_iff_ne.mp hne)

/-- A name is no word that a rule begins with. -/
theorem others_of_isName {x : String} (hx : isName x.toList = true) {rs : List Rule}
    (hrs : ∀ q ∈ rs, ∃ w ∈ Word.reserved, leads q = some w) : others x rs = true := by
  rw [others, List.all_eq_true]
  intro q hq
  obtain ⟨w, hw, hlead⟩ := hrs q hq
  rw [hlead, Option.any_some, bne_iff_ne]
  rintro rfl
  exact spelling_ne_of_isName hx hw rfl

theorem reads_name {x : String} (hx : isName x.toList = true) : Reads (.name x) := by
  have hothers {rs : List Rule} (hrs : ∀ q ∈ rs, ∃ w ∈ Word.reserved, leads q = some w)
      (ts : List String) : Stops rs (x :: ts) := .ofOthers (isName_all hx) (others_of_isName hx hrs)
  refine .ofPrimary rfl (fun {ts} => ?_) fun {ts} => hothers (by decide) ts
  obtain ⟨y, hhead, hy⟩ : ∃ y, x.toList.head? = some y ∧ (y.isAlpha || y == '_') = true := by
    cases hchars : x.toList with
    | nil =>
      rw [hchars] at hx
      cases hx
    | cons y cs =>
      rw [hchars, isName, Bool.and_eq_true, Bool.and_eq_true] at hx
      exact ⟨y, rfl, hx.1.1⟩
  have hne {z : Char} (hz : (z.isAlpha || z == '_') = false) : y ≠ z := by
    rintro rfl
    rw [hy] at hz
    cases hz
  have hdigit : y.isDigit = false := by
    cases hdigit : y.isDigit with
    | false => rfl
    | true =>
      rw [isAlpha_eq_false_of_isDigit hdigit, Bool.false_or, beq_iff_eq] at hy
      subst hy
      cases hdigit
  have hstops : Stops [.float, .integer, .string] (x :: ts) := by
    refine .ofBars hhead ?_ ts
    simp [bars, first, ranking, Start.holds, Letter.holds, hdigit,
      (hne (z := '"') (by decide)).symm]
  have hwords : Stops [.functionExpr, .closureExpr] (x :: ts) := hothers (by decide) ts
  refine .altSecond (hstops .float (by decide)) (.altSecond (hstops .integer (by decide))
    (.altSecond (hstops .string (by decide)) (.altSecond (hwords .functionExpr (by decide))
      (.altSecond (hwords .closureExpr (by decide)) (.altSecond
        (.seq (.lit rfl hhead (hne (by decide)))) ((takes_name hx).mono ?_))))))
  rintro _ ⟨⟨r, start, stop, cs⟩, rfl, rfl, hn⟩
  refine ⟨_, rfl, .name x, ?_, rfl⟩
  rw [expr, exprOf, show String.ofList (start.upTo stop) = x from hn]

end Primaries

end ObjectLang.Syntax
