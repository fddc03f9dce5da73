import ObjectLang.Proofs.Syntax.Reading

/-!
Parsing undoes printing.
A program that can be printed is parsed back from its text, but for the places and the texts of its
statements. Statements are read up to the semicolons behind them, and so are the members of classes.
-/
namespace ObjectLang

namespace Syntax

open Peg Pattern

variable {ts ts' toks xs : List String} {N : List (Node Rule) → Prop} {ns : List (Node Rule)}

section Building

variable {α β : Type} {E : α → β} {a : α}

/-- Wherever they stand, the nodes are built to `a` but for what `E` leaves out. -/
def Builds (E : α → β) (f : Span → List (Node Rule) → Built α) (a : α) (ns : List (Node Rule)) :
    Prop :=
  ∀ span, Gives E (f span ns) a

/-- One node of the rule, which is built to `a` but for what `E` leaves out. -/
def Makes (q : Rule) (E : α → β) (f : Node Rule → Built α) (a : α) (ns : List (Node Rule)) : Prop :=
  ∃ n, ns = [n] ∧ n.rule = q ∧ Gives E (f n) a

theorem Takes.makes {q : Rule} {f : Node Rule → Built α} (h : Takes (body q) N ts ts')
    (hform : form q = .plain) (hN : ∀ {start stop cs}, N cs → Gives E (f (.mk q start stop cs)) a) :
    Takes (.call q) (Makes q E f a) ts ts' := by
  refine (h.rule hform).mono ?_
  rintro _ ⟨start, stop, cs, rfl, hcs⟩
  exact ⟨_, rfl, rfl, hN hcs⟩

theorem Takes.pastWord {f : Span → List (Node Rule) → Built α} {w : Word} {p : Pattern Rule}
    (h : Takes p (Builds E f a) ts ts')
    (hf : ∀ {span n ns}, n.rule.isWord = true → f span (n :: ns) = f span ns) :
    Takes (.seq (word w) p) (Builds E f a) (w.spelling :: ts) ts' := by
  refine h.afterWord fun hw hns span => ?_
  rw [hf hw]
  exact hns span

end Building

section Entries

variable {α : Type} {p : Pattern Rule} {as : List α} {f : α → List String}
  {P : α → Node Rule → Prop}

def entryTokens (f : α → List String) (as : List α) : List String :=
  as.flatMap fun a => f a ++ [";"]

/-- Where an entry is read, no semicolon stands. -/
theorem Takes.refusesSemicolon (h : Takes p N ts ts') (hts' : Ready ts')
    (hp : ∀ c c' : Cursor, c.accept [';'] = some c' → Derives grammar reading p c none) :
    Refuses (.lit ";") ts := by
  intro c hc
  obtain ⟨-, htake⟩ := h hts'
  obtain ⟨ns, d, hone, -⟩ := htake c hc
  cases haccept : c.accept [';'] with
  | none => exact derives_text_iff.mpr (congrArg Result.ofMove haccept.symm)
  | some c' => cases hone.unique (hp c c' haccept)

theorem takes_semicolon (h : Refuses (lit ";") ts) : Takes separators Nothing (";" :: ts) ts := by
  refine (Takes.lit (by decide)).many (.manyNone h) ?_
  rintro _ _ rfl rfl
  rfl

theorem takes_entries
    (hp : ∀ c c' : Cursor, c.accept [';'] = some c' → Derives grammar reading p c none)
    (h : ∀ a ∈ as, ∀ ts, Takes p (fun ns => ∃ n, ns = [n] ∧ P a n) (f a ++ ";" :: ts) (";" :: ts))
    (hend : Refuses p ts) (hsemi : Refuses (lit ";") ts) :
    Takes (many (seq p separators)) (List.Forall₂ P as) (entryTokens f as ++ ts) ts ∧
      Refuses (lit ";") (entryTokens f as ++ ts) := by
  induction as with
  | nil => exact ⟨(Takes.manyNone hend.seq).mono fun hns => hns ▸ .nil, hsemi⟩
  | cons a as ih =>
    obtain ⟨hmore, hnext⟩ := ih fun b hb => h b (List.mem_cons_of_mem a hb)
    have hone := h a List.mem_cons_self (entryTokens f as ++ ts)
    have htoks : entryTokens f (a :: as) ++ ts = f a ++ ";" :: (entryTokens f as ++ ts) := by
      simp [entryTokens]
    rw [htoks]
    refine ⟨(hone.seqMute (takes_semicolon hnext)).many hmore ?_, ?_⟩
    · rintro _ ms ⟨n, rfl, hn⟩ hms
      exact .cons hn hms
    · exact hone.refusesSemicolon (ready_cons (by decide) _) hp

end Entries

def Stated (s : Statement) : Prop :=
  ∀ ts, Takes (.call .statement) (Makes .statement (Statement.forget blank) statement s)
    (s.tokens ++ ";" :: ts) (";" :: ts)

/-- The parameters of a body are names, and its statements are read back. -/
def Bodied (ps : List String) (b : Block) : Prop :=
  ps.all (isName ·.toList) = true ∧ ∀ s ∈ b, Stated s

section Blocks

variable {b : Block} {ps : List String} {x : String} {w : Word}

theorem tokensAll_eq (b : Block) : Statement.tokensAll b = entryTokens Statement.tokens b := by
  induction b with
  | nil => rfl
  | cons s b ih =>
    rw [Statement.tokensAll, ih]
    simp [entryTokens]

theorem statements_gives
    (h : List.Forall₂ (fun s n => n.rule = .statement ∧
      Gives (Statement.forget blank) (statement n) s) b ns) :
    Gives (Statement.forgetAll blank) (statements ns) b := by
  induction h with
  | nil => exact .pure rfl
  | cons hn _ ih =>
    rw [statements, if_pos hn.1]
    refine hn.2.bind fun s' hs => ih.bind fun b' hb => .pure ?_
    rw [Statement.forgetAll, Statement.forgetAll, hs, hb]

theorem takes_statementList (hb : ∀ s ∈ b, Stated s) (hend : Refuses (.call .statement) ts)
    (hsemi : Refuses (lit ";") ts) :
    Takes statementList (fun ns => Gives (Statement.forgetAll blank) (statements ns) b)
      (Statement.tokensAll b ++ ts) ts := by
  obtain ⟨hentries, hnext⟩ := takes_entries statement_refused_semicolon
    (fun s hs => hb s hs) hend hsemi
  rw [tokensAll_eq]
  exact .muteSeq (.manyNone hnext) (hentries.mono statements_gives)

theorem takes_block (hb : ∀ s ∈ b, Stated s) :
    Takes (.call .block) (Makes .block (Statement.forgetAll blank) block b)
      (Print.braces (Statement.tokensAll b) ++ ts) ts := by
  have hstops : Stops [.statement] ("\x7d" :: ts) := .ofBars rfl (by decide) ts
  have hlist := takes_statementList hb (hstops .statement (by decide)) (.lit rfl rfl (by decide))
  have hbody : Takes (body .block)
      (fun ns => Gives (Statement.forgetAll blank) (statements ns) b)
      (Print.braces (Statement.tokensAll b) ++ ts) ts := by
    rw [Print.braces, List.cons_append, List.append_assoc, List.singleton_append]
    exact .muteSeq (.lit (by decide)) (.seqMute hlist (.lit (by decide)))
  refine hbody.makes rfl fun hcs => ?_
  rwa [block]

def Term (t : String) (n : Node Rule) : Prop := n.rule.isWord = false ∧ n.text = t

def Named (t : String) (ns : List (Node Rule)) : Prop := ∃ n, ns = [n] ∧ Term t n

theorem Mark.named {q : Rule} (hq : q.isWord = false) (h : Mark q x ns) : Named x ns := by
  obtain ⟨n, rfl, rfl, hn⟩ := h
  exact ⟨n, rfl, hq, hn⟩

theorem takes_ident (hx : isName x.toList = true) :
    Takes (.call .ident) (Named x) (x :: ts) ts :=
  (takes_name hx).mono (Mark.named rfl)

theorem takes_names (hxs : xs.all (isName ·.toList) = true) (hne : xs ≠ [])
    (hend : Refuses (lit ",") ts) :
    Takes (sepBy (.call .ident) ",") (fun ns => (meaning ns).map Node.text = xs)
      (Print.names xs ++ ts) ts := by
  rw [List.all_eq_true] at hxs
  have hlist : Takes (sepBy (.call .ident) ",") (List.Forall₂ Term xs)
      (Print.names xs ++ ts) ts :=
    takes_commas (by decide : bars [] ',' = true) nofun hend hne fun x hx ts _ =>
      takes_ident (hxs x hx)
  refine hlist.mono fun hns => ?_
  clear hlist hend hne hxs
  induction hns with
  | nil => rfl
  | cons hn _ ih => rw [meaning_cons_of_not_isWord hn.1, List.map_cons, hn.2, ih]

theorem takes_parameters (hps : ps.all (isName ·.toList) = true) :
    Takes (.call .parameters) (fun ns => ∃ n, ns = [n] ∧ n.rule = .parameters ∧ names n = ps)
      (Print.params ps ++ ts) ts := by
  have hlist : Takes (opt (sepBy (.call .ident) ",")) (fun ns => (meaning ns).map Node.text = ps)
      (Print.names ps ++ ")" :: ts) (")" :: ts) := by
    by_cases hne : ps = []
    · subst hne
      have hstops : Stops [.ident] (")" :: ts) := .ofBars rfl (by decide) ts
      refine (Takes.optNone (.seq (hstops .ident (by decide)))).mono ?_
      rintro _ rfl
      rfl
    · exact (takes_names hps hne (.lit rfl rfl (by decide))).opt
  have hbody : Takes (body .parameters) (fun ns => (meaning ns).map Node.text = ps)
      (Print.params ps ++ ts) ts := by
    rw [Print.params, List.cons_append, List.append_assoc, List.singleton_append]
    exact .muteSeq (.lit (by decide)) (.seqMute hlist (.lit (by decide)))
  refine (hbody.rule rfl).mono ?_
  rintro _ ⟨start, stop, cs, rfl, hcs⟩
  exact ⟨_, rfl, rfl, hcs⟩

def bareLambda (f : List String × Block) : List String × Block :=
  (f.1, Statement.forgetAll blank f.2)

theorem takes_lambda (hb : Bodied ps b) :
    Takes (seq (.call .parameters) (.call .block)) (Builds bareLambda lambda (ps, b))
      (Print.params ps ++ Print.braces (Statement.tokensAll b) ++ ts) ts := by
  rw [List.append_assoc]
  refine (takes_parameters hb.1).seq (takes_block hb.2) ?_
  rintro _ _ ⟨n, rfl, hr, hn⟩ ⟨m, rfl, hr', hm⟩ span
  rw [List.singleton_append, lambda, hr, if_neg (by decide), firstBlock, hr',
    if_neg (by decide), hn]
  exact hm.bind fun b' hb' => .pure (congrArg (Prod.mk ps) hb')

theorem takes_wordLambda (hb : Bodied ps b) :
    Takes (seqs (word w) [.call .parameters, .call .block]) (Builds bareLambda lambda (ps, b))
      (w.spelling :: (Print.params ps ++ Print.braces (Statement.tokensAll b)) ++ ts) ts :=
  (takes_lambda hb).pastWord fun hw => by rw [lambda, if_pos hw]

/-- A word, a name, parameters and a body. -/
theorem takes_named {q : Pattern Rule} (hq : ∀ {ts}, Takes q (Named x) (x :: ts) ts)
    (hb : Bodied ps b) :
    Takes (seqs (word w) [q, .call .parameters, .call .block])
      (Builds (fun f => (f.1, bareLambda f.2)) named (x, ps, b))
      (w.spelling :: x :: (Print.params ps ++ Print.braces (Statement.tokensAll b)) ++ ts) ts := by
  refine (hq.seq (takes_lambda hb) ?_).pastWord fun hw => by rw [named, if_pos hw]
  rintro _ _ ⟨n, rfl, hr, hn⟩ hcs span
  rw [List.singleton_append, named, hr, if_neg Bool.false_ne_true, hn]
  exact (hcs span).bind fun f hf => .pure (congrArg (Prod.mk x) hf)

/-- A word with parameters and a body behind it is no declaration, since no name follows. -/
theorem stops_lambda (hw : w = .functionWord ∨ w = .closureWord) (toks : List String) :
    Stops declRules (w.spelling :: (Print.params ps ++ toks)) := by
  have hspelling : w.spelling.toList.all isNameChar = true := isNameChar_spelling w
  intro q hq
  by_cases hfunction : q = .functionDecl ∧ w = .functionWord
  · obtain ⟨rfl, rfl⟩ := hfunction
    have hparams : Stops [.ident] (Print.params ps ++ toks) := .ofBars rfl (by decide) _
    exact .rule (.seqHalf (takes_word .functionWord) (ready_cons (by decide) _)
      (.seq (hparams .ident (by decide)))) rfl
  · have hothers : ∀ q ∈ declRules, ¬(q = .functionDecl ∧ w = .functionWord) →
        others w.spelling [q] = true := by
      rcases hw with rfl | rfl <;> decide
    exact Stops.ofOthers hspelling (hothers q hq hfunction) q (List.mem_singleton_self q)

/-- Functions and closures differ in the word that they begin with. -/
theorem reads_lambda {e : Expr} {q : Rule} (hb : Bodied ps b)
    (h : e = .function ps b ∧ w = .functionWord ∧ q = .functionExpr ∨
      e = .closure ps b ∧ w = .closureWord ∧ q = .closureExpr) : Reads e := by
  have htoks : e.tokens =
      w.spelling :: (Print.params ps ++ Print.braces (Statement.tokensAll b)) := by
    rcases h with ⟨rfl, rfl, -⟩ | ⟨rfl, rfl, -⟩ <;> rw [Expr.tokens] <;> rfl
  have hnode {ts} : Takes (.call q) (Denotes e) (e.tokens ++ ts) ts := by
    rw [htoks]
    rcases h with ⟨rfl, rfl, rfl⟩ | ⟨rfl, rfl, rfl⟩ <;>
    · refine Takes.mono (Takes.rule (takes_wordLambda hb) rfl) ?_
      rintro _ ⟨start, stop, cs, rfl, hcs⟩
      refine ⟨_, rfl, ?_⟩
      rw [expr, exprOf]
      refine (hcs _).bind fun f hf => .pure ?_
      rw [Expr.forget, Expr.forget, (Prod.mk.inj hf).1, (Prod.mk.inj hf).2]
  refine .ofPrimary ?_ (fun {ts} => ?_) fun {ts} => ?_
  · rcases h with ⟨rfl, -⟩ | ⟨rfl, -⟩ <;> rfl
  · have hstops : Stops [.float, .integer, .string] (e.tokens ++ ts) := by
      rw [htoks]
      rcases h with ⟨-, rfl, -⟩ | ⟨-, rfl, -⟩ <;> exact .ofBars rfl (by decide) _
    refine .altSecond (hstops .float (by decide)) (.altSecond (hstops .integer (by decide))
      (.altSecond (hstops .string (by decide)) ?_))
    rcases h with ⟨-, -, rfl⟩ | ⟨-, rfl, rfl⟩
    · exact .alt hnode
    · have hfunction : Stops [.functionExpr] (e.tokens ++ ts) := htoks ▸
        .ofOthers (isNameChar_spelling .closureWord) (by decide)
      exact .altSecond (hfunction .functionExpr (by decide)) (.alt hnode)
  · rw [htoks, List.cons_append, List.append_assoc]
    exact stops_lambda (h.imp (·.2.1) (·.2.1)) _

end Blocks

/-- Of several rules the one is read before which all are refused. -/
theorem takes_choice {q r : Rule} {rs : List Rule} (hq : q ∈ r :: rs)
    (hpre : Stops ((r :: rs).takeWhile (· != q)) ts) (h : Takes (.call q) N ts ts') :
    Takes (alts (.call r) (rs.map .call)) N ts ts' := by
  induction rs generalizing r with
  | nil =>
    obtain rfl := List.mem_singleton.mp hq
    exact h
  | cons r' rs ih =>
    by_cases hr : r = q
    · subst hr
      exact .alt h
    · rw [List.takeWhile_cons_of_pos (by simpa using hr)] at hpre
      refine .altSecond (hpre r List.mem_cons_self) (ih ?_ fun r hr => hpre r ?_)
      · exact (List.mem_cons.mp hq).resolve_left (Ne.symm hr)
      · exact List.mem_cons_of_mem _ hr

section Values

variable {x : String} {e : Expr} {value : Option Expr}

theorem stops_semicolon : Stops (.sum :: .assignOp :: closers) (";" :: ts) :=
  .ofBars rfl (by decide) ts

theorem Reads.takesLast (he : Reads e) :
    Takes (.call .sum) (Denotes e) (e.tokens ++ ";" :: ts) (";" :: ts) :=
  he.sum.takes fun r hr => stops_semicolon r (List.mem_cons_of_mem _ (List.mem_cons_of_mem _ hr))

theorem takes_val (hx : isName x.toList = true) (he : Reads e) :
    Takes (.call .valDecl)
      (Single .valDecl (Builds (fun v => (v.1, v.2.forget blank)) valued (x, e)))
      ("val" :: x :: "=" :: e.tokens ++ ";" :: ts) (";" :: ts) := by
  refine .rule (((takes_ident hx).seq (.muteSeq (.lit (by decide)) he.takesLast) ?_).pastWord
    fun hw => by rw [valued, if_pos hw]) rfl
  rintro _ _ ⟨n, rfl, hr, hn⟩ ⟨m, rfl, hm⟩ span
  rw [List.singleton_append, valued, hr, if_neg Bool.false_ne_true, required, hm.not_isWord,
    if_neg Bool.false_ne_true, hn]
  exact hm.bind fun e' he' => .pure (congrArg (Prod.mk x) he')

/-- A value that may be missing, in front of a semicolon. -/
theorem takes_optional {q : Pattern Rule} {front : List String} (hnone : Refuses q (";" :: ts))
    (hsome : ∀ e ∈ value, Takes q (Denotes e) (front ++ e.tokens ++ ";" :: ts) (";" :: ts)) :
    Takes (opt q) (fun cs => Gives (Expr.forgetIn blank) (optional cs) value)
      (Expr.tokensIn front 0 value ++ ";" :: ts) (";" :: ts) := by
  cases value with
  | none =>
    refine (Takes.optNone hnone).mono ?_
    rintro _ rfl
    exact .pure rfl
  | some e =>
    refine Takes.opt ((hsome e rfl).mono ?_)
    rintro _ ⟨n, rfl, hn⟩
    rw [optional, hn.not_isWord, if_neg Bool.false_ne_true]
    exact hn.bind fun e' he' => .pure (congrArg some he')

theorem takes_var (hx : isName x.toList = true) (hvalue : ∀ e ∈ value, Reads e) :
    Takes (.call .varDecl)
      (Single .varDecl (Builds (fun v => (v.1, Expr.forgetIn blank v.2)) maybeValued (x, value)))
      ("var" :: x :: Expr.tokensIn ["="] 0 value ++ ";" :: ts) (";" :: ts) := by
  have hoptional : Takes (opt (seq (.lit "=") (.call .sum))) _
      (Expr.tokensIn ["="] 0 value ++ ";" :: ts) (";" :: ts) :=
    takes_optional (.seq (.lit rfl rfl (by decide))) fun e he =>
      .muteSeq (.lit (by decide)) (hvalue e he).takesLast
  refine .rule (((takes_ident hx).seq hoptional ?_).pastWord
    fun hw => by rw [maybeValued, if_pos hw]) rfl
  rintro _ _ ⟨n, rfl, hr, hn⟩ hms span
  rw [List.singleton_append, maybeValued, hr, if_neg Bool.false_ne_true, hn]
  exact hms.bind fun value' hvalue' => .pure (congrArg (Prod.mk x) hvalue')

end Values

/-- The command is read back from its tokens. -/
def Ordered (c : Command) : Prop :=
  ∀ ts, Takes (body .statement) (Builds (Command.forget blank) firstCommand c)
    (c.tokens ++ ";" :: ts) (";" :: ts)

theorem Ordered.stated {c : Command} (h : Ordered c) (span : Span) (text : String) :
    Stated (.mk c span text) := by
  intro ts
  rw [Statement.tokens]
  refine (h ts).makes rfl fun hcs => ?_
  rw [statement]
  refine (hcs _).bind fun c' hc => .pure ?_
  rw [Statement.forget, Statement.forget, hc]
  rfl

section Commands

variable {x : String} {e target : Expr} {value : Option Expr} {b : Block} {ps : List String}
  {c : Command} {bind : Binding}

def statementRules : List Rule := declRules ++ [.assignment, .sum]

theorem takes_command (q : Rule) (hq : q ∈ statementRules)
    (hpre : Stops (statementRules.takeWhile (· != q)) toks)
    (h : Takes (.call q) (Single q N) toks ts)
    (hN : ∀ {start stop cs}, N cs →
      Gives (Command.forget blank) (command (.mk q start stop cs)) c) :
    Takes (body .statement) (Builds (Command.forget blank) firstCommand c) toks ts := by
  refine (takes_choice hq hpre h).mono ?_
  rintro _ ⟨start, stop, cs, rfl, hcs⟩ span
  rw [firstCommand]
  exact hN hcs

/-- A command that begins with a word of its own. -/
theorem ordered_of_word (q : Rule) (w : Word) (hq : q ∈ statementRules)
    (hpre : others w.spelling (statementRules.takeWhile (· != q)) = true)
    (htoks : c.tokens = w.spelling :: toks)
    (h : ∀ {ts}, Takes (.call q) (Single q N) (w.spelling :: toks ++ ";" :: ts) (";" :: ts))
    (hN : ∀ {start stop cs}, N cs →
      Gives (Command.forget blank) (command (.mk q start stop cs)) c) :
    Ordered c := by
  intro ts
  rw [htoks]
  exact takes_command q hq (.ofOthers (isNameChar_spelling w) hpre) h hN

theorem ordered_val (hx : isName x.toList = true) (he : Reads e) : Ordered (.val x e) := by
  refine ordered_of_word .valDecl .valWord (by decide) (by decide) (by rw [Command.tokens]; rfl)
    (takes_val hx he) ?_
  intro start stop cs hcs
  rw [command]
  refine (hcs _).bind fun v hv => .pure ?_
  rw [Command.forget, Command.forget, (Prod.mk.inj hv).1, (Prod.mk.inj hv).2]

theorem ordered_var (hx : isName x.toList = true) (hvalue : ∀ e ∈ value, Reads e) :
    Ordered (.var x value) := by
  refine ordered_of_word .varDecl .varWord (by decide) (by decide) (by rw [Command.tokens]; rfl)
    (takes_var hx hvalue) ?_
  intro start stop cs hcs
  rw [command]
  refine (hcs _).bind fun v hv => .pure ?_
  rw [Command.forget, Command.forget, (Prod.mk.inj hv).1, (Prod.mk.inj hv).2]

theorem ordered_giveBack (hvalue : ∀ e ∈ value, Reads e) : Ordered (.giveBack value) := by
  have hbody {ts : List String} : Takes (body .returnStmt)
      (fun cs => Gives (Expr.forgetIn blank) (optional cs) value)
      (Word.returnWord.spelling :: Expr.tokensIn [] 0 value ++ ";" :: ts) (";" :: ts) := by
    refine (takes_optional (stops_semicolon .sum (by decide))
      fun e he => (hvalue e he).takesLast).afterWord fun hw hcs => ?_
    rwa [optional, if_pos hw]
  refine ordered_of_word .returnStmt .returnWord (by decide) (by decide)
    (by rw [Command.tokens]; rfl) (hbody.rule rfl) ?_
  intro start stop cs hcs
  rw [command]
  refine hcs.bind fun value' hvalue' => .pure ?_
  rw [Command.forget, Command.forget, hvalue']

theorem ordered_function (hx : isName x.toList = true) (hb : Bodied ps b) :
    Ordered (.function x ps b) := by
  refine ordered_of_word .functionDecl .functionWord (by decide) (by decide)
    (by rw [Command.tokens]; rfl) (Takes.rule (takes_named (takes_ident hx) hb) rfl) ?_
  intro start stop cs hcs
  rw [command]
  refine (hcs _).bind fun f hf => .pure ?_
  obtain ⟨hname, hlambda⟩ := Prod.mk.inj hf
  obtain ⟨hparams, hbody⟩ := Prod.mk.inj hlambda
  rw [Command.forget, Command.forget, hname, hparams, hbody]

/-- An expression by itself, in front of what cannot go on with it. -/
theorem takes_evaluate (he : Reads e) (hts : Ready ts)
    (hstops : Stops (.sum :: .assignOp :: closers) ts) :
    Takes (body .statement) (Builds (Command.forget blank) firstCommand (.evaluate e))
      (e.tokens ++ ts) ts := by
  have hsum : Takes (.call .sum) (Single .sum (Opens Nothing e)) (e.tokens ++ ts) ts :=
    he.sum.takesNode fun r hr => hstops r (List.mem_cons_of_mem _ (List.mem_cons_of_mem _ hr))
  have hassign : Refuses (.call .assignment) (e.tokens ++ ts) := by
    refine he.unassigned hts fun r hr => hstops r ?_
    exact List.mem_cons_of_mem _ ((by decide : .assignOp :: linkRules ⊆ .assignOp :: closers) hr)
  refine takes_command .sum (by decide) (fun r hr => ?_) hsum ?_
  · rw [show statementRules.takeWhile (· != .sum) = declRules ++ [.assignment] by decide] at hr
    rcases List.mem_append.mp hr with hr | hr
    · exact he.starts r hr
    · obtain rfl := List.mem_singleton.mp hr
      exact hassign
  · rintro start stop _ ⟨xs, _, rfl, rfl, e', he', hopen⟩
    simp only [command, exprOf, hopen, operations]
    exact .pure (congrArg Command.evaluate he')

theorem ordered_evaluate (he : Reads e) : Ordered (.evaluate e) := by
  intro ts
  rw [Command.tokens]
  exact takes_evaluate he (ready_cons (by decide) ts) stops_semicolon

/-- A target, the symbol of an assignment and a value. -/
theorem takes_assignment (htarget : Reads target) (hrank : target.rank = 2) (op : Option Arith)
    (he : Reads e) :
    Takes (.call .assignment) (Single .assignment fun cs => ∃ n o m, cs = [n, o, m] ∧
        Gives (Expr.forget blank) (expr n) target ∧ o.rule = .assignOp ∧ update o.text = op ∧
          Gives (Expr.forget blank) (expr m) e)
      (target.tokens ++ assignSymbol op :: e.tokens ++ ";" :: ts) (";" :: ts) := by
  have hsym : assignSymbol op ∈ symbols .assignOp ∧ update (assignSymbol op) = op ∧
      ∃ y, (assignSymbol op).toList.head? = some y ∧ bars linkRules y = true := by
    rcases op with _ | op
    · exact ⟨by decide, rfl, _, rfl, by decide⟩
    · cases op <;> exact ⟨by decide, rfl, _, rfl, by decide⟩
  obtain ⟨hmem, hupdate, y, hy, hbars⟩ := hsym
  have hchain := htarget.chain.takes
    (Stops.ofBars hy hbars (e.tokens ++ ";" :: ts))
  rw [Print.parens, hrank, if_neg (by decide)] at hchain
  rw [List.append_assoc, List.cons_append]
  have hrest : Takes (seq (.call .assignOp) (.call .sum))
      (fun ns => ∃ o m, ns = [o, m] ∧ o.rule = .assignOp ∧ update o.text = op ∧
        Gives (Expr.forget blank) (expr m) e)
      (assignSymbol op :: (e.tokens ++ ";" :: ts)) (";" :: ts) := by
    refine (takes_symbol hmem).seq he.takesLast ?_
    rintro _ _ ⟨o, rfl, hr, ho⟩ ⟨m, rfl, hm⟩
    exact ⟨o, m, rfl, hr, by rw [ho, hupdate], hm⟩
  refine Takes.rule (hchain.seq hrest ?_) rfl
  rintro _ _ ⟨n, rfl, hn⟩ ⟨o, m, rfl, hr, ho, hm⟩
  exact ⟨n, o, m, rfl, hn, hr, ho, hm⟩

/-- An assignment to a place, with what the place makes of its value. -/
theorem ordered_assignment (htarget : Reads target) (hrank : target.rank = 2) (op : Option Arith)
    (he : Reads e) (htoks : c.tokens = target.tokens ++ assignSymbol op :: e.tokens)
    (hplace : ∀ target' e' : Expr, target'.forget blank = target.forget blank →
      e'.forget blank = e.forget blank → ∀ span,
        ∃ assign, assignTo span target' = .ok assign ∧
          (assign op e').forget blank = c.forget blank) :
    Ordered c := by
  intro ts
  rw [htoks]
  refine takes_command .assignment (by decide) (fun r hr => ?_)
    (takes_assignment htarget hrank op he) ?_
  · rw [show statementRules.takeWhile (· != .assignment) = declRules by decide] at hr
    rw [List.append_assoc]
    exact htarget.starts r hr
  · rintro start stop _ ⟨n, o, m, rfl, hn, hr, ho, hm⟩
    rw [command, assignment, hn.not_isWord, if_neg Bool.false_ne_true]
    refine hn.bind fun target' ht => ?_
    have hword := hm.not_isWord
    obtain ⟨e', hm, he'⟩ := hm
    obtain ⟨assign, hassign, hgives⟩ := hplace target' e' ht he' n.span
    rw [hassign]
    change Gives _ (assigned _ assign [o, m]) c
    rw [assigned, hr, if_neg (by decide), required, hword, if_neg Bool.false_ne_true, ho, hm]
    exact .pure hgives

theorem ordered_assign (hx : isName x.toList = true) (op : Option Arith) (he : Reads e) :
    Ordered (.assign x op e) := by
  refine ordered_assignment (reads_name hx) rfl op he (by rw [Command.tokens, Expr.tokens]; rfl) ?_
  intro target' e' ht he' span
  obtain rfl : target' = .name x := by
    cases target' <;> simp_all [Expr.forget]
  refine ⟨_, rfl, ?_⟩
  rw [Command.forget, Command.forget, he']

theorem ordered_assignMember {t : Expr} (ht : Reads t) (hx : isName x.toList = true)
    (op : Option Arith) (he : Reads e) : Ordered (.assignMember t x op e) := by
  refine ordered_assignment (reads_member ht hx) rfl op he ?_ ?_
  · rw [Command.tokens, Expr.tokens]
    simp
  · intro target' e' htarget he' span
    obtain ⟨t', rfl, ht'⟩ : ∃ t', target' = .member t' x ∧ t'.forget blank = t.forget blank := by
      cases target' <;> simp_all [Expr.forget]
    refine ⟨_, rfl, ?_⟩
    rw [Command.forget, Command.forget, ht', he']

theorem takes_module {name : String} (hname : isModuleName name.toList = true) :
    Takes (.call .moduleName) (Named name) (name :: ts) ts :=
  (takes_moduleName hname).mono (Mark.named rfl)

theorem ordered_declareModule (hx : isModuleName x.toList = true) (hb : ∀ s ∈ b, Stated s) :
    Ordered (.declareModule x b) := by
  have hbody {ts : List String} : Takes (body .moduleDecl)
      (Builds (Command.forget blank) moduleDecl (.declareModule x b))
      (Word.moduleWord.spelling :: x :: Print.braces (Statement.tokensAll b) ++ ts) ts := by
    refine ((takes_module hx).seq (takes_block hb) ?_).pastWord fun hw => by
      rw [moduleDecl, if_pos hw]
    rintro _ _ ⟨n, rfl, hr, rfl⟩ ⟨m, rfl, hr', hm⟩ span
    rw [List.singleton_append, moduleDecl, hr, if_neg Bool.false_ne_true, firstBlock, hr',
      if_neg (by decide)]
    refine hm.bind fun b' hb' => .pure ?_
    rw [Command.forget, Command.forget, hb']
  refine ordered_of_word .moduleDecl .moduleWord (by decide) (by decide)
    (by rw [Command.tokens]; rfl) (hbody.rule rfl) ?_
  intro start stop cs hcs
  rw [command]
  exact hcs _

theorem ordered_exportNames (hne : xs ≠ []) (hxs : xs.all (isName ·.toList) = true) :
    Ordered (.exportNames xs) := by
  have hbody {ts : List String} : Takes (body .exportStmt)
      (fun cs => (meaning cs).map Node.text = xs)
      (Word.exportWord.spelling :: Print.names xs ++ ";" :: ts) (";" :: ts) := by
    refine (takes_names hxs hne (.lit rfl rfl (by decide))).afterWord fun hw hcs => ?_
    rwa [meaning_cons_of_isWord hw]
  refine ordered_of_word .exportStmt .exportWord (by decide) (by decide)
    (by rw [Command.tokens]; rfl) (hbody.rule rfl) ?_
  intro start stop cs hcs
  rw [command, hcs]
  exact .pure rfl

/-- What an import binds is read back from its tokens. -/
theorem takes_binding (hbind : bind.writable = true) :
    Takes (opt (alt (.call .importAlias) (.call .importOnly)))
      (fun ns => binding (meaning ns) = .ok bind) (Print.binding bind ++ ";" :: ts)
      (";" :: ts) := by
  cases bind with
  | everything =>
    have hstops : Stops [.importAlias, .importOnly] (";" :: ts) := .ofBars rfl (by decide) ts
    refine (Takes.optNone (.alt (hstops .importAlias (by decide))
      (hstops .importOnly (by decide)))).mono ?_
    rintro _ rfl
    rfl
  | only xs =>
    rw [Binding.writable, Bool.and_eq_true, Bool.not_eq_true', List.isEmpty_eq_false_iff] at hbind
    have hbody : Takes (body .importOnly) (fun ns => (meaning ns).map Node.text = xs)
        (Print.binding (.only xs) ++ ";" :: ts) (";" :: ts) := by
      rw [Print.binding, List.cons_append, List.append_assoc, List.singleton_append]
      exact .muteSeq (.lit (by decide)) (.seqMute
        (takes_names hbind.2 hbind.1 (.lit rfl rfl (by decide))) (.lit (by decide)))
    have hstops : Stops [.importAlias] (Print.binding (.only xs) ++ ";" :: ts) :=
      .ofBars rfl (by decide) _
    refine Takes.opt (.altSecond (hstops .importAlias (by decide)) ((hbody.rule rfl).mono ?_))
    rintro _ ⟨start, stop, cs, rfl, hcs⟩
    exact congrArg (fun xs => Except.ok (Binding.only xs)) hcs
  | under x =>
    have hbody : Takes (body .importAlias) (fun ns => ∃ n rest, meaning ns = n :: rest ∧ n.text = x)
        (Print.binding (.under x) ++ ";" :: ts) (";" :: ts) := by
      refine Takes.afterWord (w := .asWord) (takes_ident hbind) ?_
      rintro w _ hw ⟨n, rfl, hr, hn⟩
      exact ⟨n, [], by rw [meaning_cons_of_isWord hw, meaning_cons_of_not_isWord hr]; rfl, hn⟩
    refine Takes.opt (.alt ((hbody.rule rfl).mono ?_))
    rintro _ ⟨start, stop, cs, rfl, n, rest, hcs, rfl⟩
    change aliasName (.mk .importAlias start stop cs) = _
    simp only [aliasName, Node.children, hcs]

theorem ordered_importModule (hx : isModuleName x.toList = true) (hbind : bind.writable = true) :
    Ordered (.importModule x bind) := by
  have hbody {ts : List String} : Takes (body .importStmt)
      (fun cs => ∃ n rest, meaning cs = n :: rest ∧ n.text = x ∧ binding rest = .ok bind)
      (Word.importWord.spelling :: x :: Print.binding bind ++ ";" :: ts) (";" :: ts) := by
    refine Takes.afterWord (w := .importWord) (N := fun cs => ∃ n rest, meaning cs = n :: rest ∧
      n.text = x ∧ binding rest = .ok bind) ((takes_module hx).seq (takes_binding hbind) ?_) ?_
    · rintro _ ms ⟨n, rfl, hr, hn⟩ hms
      exact ⟨n, meaning ms, meaning_cons_of_not_isWord hr, hn, hms⟩
    · intro w cs hw hcs
      rwa [meaning_cons_of_isWord hw]
  refine ordered_of_word .importStmt .importWord (by decide) (by decide)
    (by rw [Command.tokens]; rfl) (hbody.rule rfl) ?_
  rintro start stop cs ⟨n, rest, hcs, rfl, hrest⟩
  simp only [command, importStmt, hcs, hrest]
  exact .pure rfl

end Commands

def Enrolled (m : Member) : Prop :=
  ∀ ts, Takes classMember (fun ns => ∃ n, ns = [n] ∧ Gives (Member.forget blank) (member n) m)
    (m.tokens ++ ";" :: ts) (";" :: ts)

section Members

variable {x : String} {e : Expr} {value : Option Expr} {b : Block} {ps : List String} {m : Member}
  {ms : List Member} {setter : Option Accessor}

def memberRules : List Rule := [.valDecl, .varDecl, .methodDecl, .propertyDecl, .operatorDecl]

theorem enrolled_of_word (q : Rule) (w : Word) (hq : q ∈ memberRules)
    (hpre : others w.spelling (memberRules.takeWhile (· != q)) = true)
    (htoks : m.tokens = w.spelling :: toks)
    (h : ∀ {ts}, Takes (.call q) (Single q N) (w.spelling :: toks ++ ";" :: ts) (";" :: ts))
    (hN : ∀ {start stop cs}, N cs → Gives (Member.forget blank) (member (.mk q start stop cs)) m) :
    Enrolled m := by
  intro ts
  rw [htoks]
  refine (takes_choice hq (.ofOthers (isNameChar_spelling w) hpre) h).mono ?_
  rintro _ ⟨start, stop, cs, rfl, hcs⟩
  exact ⟨_, rfl, hN hcs⟩

theorem enrolled_val (hx : isName x.toList = true) (he : Reads e) : Enrolled (.val x e) := by
  refine enrolled_of_word .valDecl .valWord (by decide) (by decide) (by rw [Member.tokens]; rfl)
    (takes_val hx he) ?_
  intro start stop cs hcs
  rw [member]
  refine (hcs _).bind fun v hv => .pure ?_
  rw [Member.forget, Member.forget, (Prod.mk.inj hv).1, (Prod.mk.inj hv).2]

theorem enrolled_var (hx : isName x.toList = true) (hvalue : ∀ e ∈ value, Reads e) :
    Enrolled (.var x value) := by
  refine enrolled_of_word .varDecl .varWord (by decide) (by decide) (by rw [Member.tokens]; rfl)
    (takes_var hx hvalue) ?_
  intro start stop cs hcs
  rw [member]
  refine (hcs _).bind fun v hv => .pure ?_
  rw [Member.forget, Member.forget, (Prod.mk.inj hv).1, (Prod.mk.inj hv).2]

theorem enrolled_method (hx : isName x.toList = true) (hb : Bodied ps b) :
    Enrolled (.method x ps b) := by
  refine enrolled_of_word .methodDecl .methodWord (by decide) (by decide)
    (by rw [Member.tokens]; rfl) (Takes.rule (takes_named (takes_ident hx) hb) rfl) ?_
  intro start stop cs hcs
  rw [member]
  refine (hcs _).bind fun f hf => .pure ?_
  obtain ⟨hname, hlambda⟩ := Prod.mk.inj hf
  obtain ⟨hparams, hbody⟩ := Prod.mk.inj hlambda
  rw [Member.forget, Member.forget, hname, hparams, hbody]

theorem enrolled_operator (hx : x ∈ symbols .operator) (hb : Bodied ps b) :
    Enrolled (.operator x ps b) := by
  have hsymbol {ts : List String} : Takes (.call .operator) (Named x) (x :: ts) ts :=
    (takes_symbol hx).mono (Mark.named rfl)
  refine enrolled_of_word .operatorDecl .operatorWord (by decide) (by decide)
    (by rw [Member.tokens]; rfl) (Takes.rule (takes_named hsymbol hb) rfl) ?_
  intro start stop cs hcs
  rw [member]
  refine (hcs _).bind fun f hf => .pure ?_
  obtain ⟨hname, hlambda⟩ := Prod.mk.inj hf
  obtain ⟨hparams, hbody⟩ := Prod.mk.inj hlambda
  rw [Member.forget, Member.forget, hname, hparams, hbody]

def Accesses (q : Rule) : Accessor → List (Node Rule) → Prop :=
  Makes q (Accessor.forget blank) accessor

theorem takes_getter (hb : ∀ s ∈ b, Stated s) :
    Takes (.call .getter) (Accesses .getter (.mk [] b))
      ("get" :: Print.braces (Statement.tokensAll b) ++ ts) ts := by
  have hbody : Takes (body .getter)
      (Builds (Accessor.forget blank) (accessorParts · [] none) (.mk [] b))
      ("get" :: Print.braces (Statement.tokensAll b) ++ ts) ts := by
    refine Takes.afterWord (w := .getWord) (takes_block hb) ?_
    rintro w _ hw ⟨n, rfl, hr, hn⟩ span
    beta_reduce
    rw [accessorParts, if_pos hw, accessorParts, hr, if_neg (by decide), if_neg (by decide)]
    refine hn.bind fun b' hb' => .pure ?_
    rw [Accessor.forget, Accessor.forget, hb']
  exact hbody.makes rfl fun hcs => hcs _

theorem takes_setter (hb : Bodied ps b) :
    Takes (.call .setter) (Accesses .setter (.mk ps b))
      ("set" :: (Print.params ps ++ Print.braces (Statement.tokensAll b)) ++ ts) ts := by
  have hbody : Takes (body .setter)
      (Builds (Accessor.forget blank) (accessorParts · [] none) (.mk ps b))
      ("set" :: (Print.params ps ++ Print.braces (Statement.tokensAll b)) ++ ts) ts := by
    rw [List.cons_append, List.append_assoc]
    refine Takes.pastWord (w := .setWord) ((takes_parameters hb.1).seq (takes_block hb.2) ?_)
      fun hw => by simp only [accessorParts, if_pos hw]
    rintro _ _ ⟨n, rfl, hr, rfl⟩ ⟨m, rfl, hr', hm⟩ span
    beta_reduce
    rw [List.singleton_append, accessorParts, hr, if_neg (by decide), if_pos rfl,
      accessorParts, hr', if_neg (by decide), if_neg (by decide)]
    refine hm.bind fun b' hb' => .pure ?_
    rw [Accessor.forget, Accessor.forget, hb']
  exact hbody.makes rfl fun hcs => hcs _

/-- The setter that may come behind a getter. -/
theorem takes_setterIn (hsetter : ∀ ps b, setter = some (.mk ps b) → Bodied ps b) :
    Takes (seqs separators [opt (.call .setter), lit "\x7d"])
      (fun ns => setter.elim (ns = []) fun a => Accesses .setter a ns)
      (Accessor.setTokens setter ++ "\x7d" :: ts) ts := by
  rcases setter with _ | ⟨ps, b⟩
  · have hstops : Stops [.setter] ("\x7d" :: ts) := .ofBars rfl (by decide) ts
    rw [Accessor.setTokens]
    exact .muteSeq (.manyNone (.lit rfl rfl (by decide)))
      (.seqMute (.optNone (hstops .setter (by decide))) (.lit (by decide)))
  · rw [Accessor.setTokens]
    exact .muteSeq (.manyNone (.lit rfl rfl (by decide)))
      (.seqMute (.opt (takes_setter (hsetter ps b rfl))) (.lit (by decide)))

theorem accessors_gives {getter : Accessor} {n : Node Rule} (hr : n.rule = .getter)
    (hn : Gives (Accessor.forget blank) (accessor n) getter)
    (h : setter.elim (ns = []) fun a => Accesses .setter a ns) :
    Gives (Member.forget blank) (accessors x none none (n :: ns))
      (.property x (some getter) setter) := by
  rw [accessors, hr, if_neg (by decide), if_pos rfl]
  refine hn.bind fun g hg => ?_
  cases setter with
  | none =>
    obtain rfl : ns = [] := h
    rw [accessors]
    refine .pure ?_
    simp only [Member.forget, Accessor.forgetIn, hg]
  | some a =>
    obtain ⟨m, rfl, hr', hm⟩ := h
    rw [accessors, hr', if_neg (by decide), if_neg (by decide)]
    refine hm.bind fun a' ha => ?_
    rw [accessors]
    refine .pure ?_
    simp only [Member.forget, Accessor.forgetIn, hg, ha]

theorem takes_accessors (hb : ∀ s ∈ b, Stated s)
    (hsetter : ∀ ps b, setter = some (.mk ps b) → Bodied ps b) :
    Takes (seqs (lit "\x7b") [.call .getter, separators, opt (.call .setter), lit "\x7d"])
      (fun ns => Gives (Member.forget blank) (accessors x none none ns)
        (.property x (some (.mk [] b)) setter))
      (Print.accessors (Accessor.getTokens (some (.mk [] b))) (Accessor.setTokens setter) ++ ts)
      ts := by
  have htoks :
      Print.accessors (Accessor.getTokens (some (.mk [] b))) (Accessor.setTokens setter) ++ ts =
        "\x7b" :: ("get" :: Print.braces (Statement.tokensAll b) ++
          (Accessor.setTokens setter ++ "\x7d" :: ts)) := by
    rw [Accessor.getTokens, Print.accessors, if_neg (List.cons_ne_nil _ _)]
    simp [Print.braces]
  rw [htoks]
  refine .muteSeq (.lit (by decide)) ((takes_getter hb).seq (takes_setterIn hsetter) ?_)
  rintro _ ms ⟨n, rfl, hr, hn⟩ hms
  exact accessors_gives hr hn hms

/-- A property whose accessors are read back from the tokens behind its name. -/
theorem enrolled_of_accessors {getter : Option Accessor} {accessorTokens : List String}
    (hx : isName x.toList = true)
    (htoks : (Member.property x getter setter).tokens = "property" :: x :: accessorTokens)
    (h : ∀ {ts}, Takes (opt (seqs (lit "\x7b") [.call .getter, separators, opt (.call .setter),
        lit "\x7d"]))
      (fun ns => Gives (Member.forget blank) (accessors x none none ns) (.property x getter setter))
      (accessorTokens ++ ";" :: ts) (";" :: ts)) :
    Enrolled (.property x getter setter) := by
  have hbody {ts : List String} : Takes (body .propertyDecl)
      (Builds (Member.forget blank) property (.property x getter setter))
      (Word.propertyWord.spelling :: x :: accessorTokens ++ ";" :: ts) (";" :: ts) := by
    refine ((takes_ident hx).seq h ?_).pastWord fun hw => by rw [property, if_pos hw]
    rintro _ ms ⟨n, rfl, hr, rfl⟩ hms span
    rw [List.singleton_append, property, hr, if_neg Bool.false_ne_true]
    exact hms
  refine enrolled_of_word .propertyDecl .propertyWord (by decide) (by decide) htoks
    (hbody.rule rfl) ?_
  intro start stop cs hcs
  rw [member]
  exact hcs _

theorem enrolled_property (hx : isName x.toList = true) (hb : ∀ s ∈ b, Stated s)
    (hsetter : ∀ ps b, setter = some (.mk ps b) → Bodied ps b) :
    Enrolled (.property x (some (.mk [] b)) setter) :=
  enrolled_of_accessors hx (by rw [Member.tokens]) (takes_accessors hb hsetter).opt

theorem enrolled_bareProperty (hx : isName x.toList = true) : Enrolled (.property x none none) := by
  refine enrolled_of_accessors hx (by rw [Member.tokens]) fun {ts} => ?_
  refine (Takes.optNone (.seq (.lit rfl rfl (by decide)))).mono ?_
  rintro _ rfl
  exact .pure rfl

theorem membersAll_eq (ms : List Member) : Member.tokensAll ms = entryTokens Member.tokens ms := by
  induction ms with
  | nil => rfl
  | cons m ms ih =>
    rw [Member.tokensAll, ih]
    simp [entryTokens]

theorem members_gives
    (h : List.Forall₂ (fun m n => Gives (Member.forget blank) (member n) m) ms ns) :
    Gives (Member.forgetAll blank) (members ns) ms := by
  induction h with
  | nil => exact .pure rfl
  | cons hn _ ih =>
    rw [members]
    refine hn.bind fun m' hm => ih.bind fun ms' hms => .pure ?_
    rw [Member.forgetAll, Member.forgetAll, hm, hms]

theorem member_refused_semicolon (c c' : Cursor) (h : c.accept [';'] = some c') :
    Derives grammar reading classMember c none := by
  have hrefused {q : Rule} (hq : ranking.eats q = true ∧ ∀ z ∈ first q, z.holds ';' = false) :
      Derives grammar reading (.call q) c none := by
    refine refused_of_first hq.1 fun x hx => ?_
    rw [(Cursor.accept_passes h).1] at hx
    cases hx
    exact hq.2
  exact .altSecond (hrefused (by decide)) (.altSecond (hrefused (by decide))
    (.altSecond (hrefused (by decide)) (.altSecond (hrefused (by decide)) (hrefused (by decide)))))

theorem takes_classBody (hms : ∀ m ∈ ms, Enrolled m) :
    Takes (.call .classBody) (Makes .classBody (Member.forgetAll blank) classBody ms)
      (Print.braces (Member.tokensAll ms) ++ ts) ts := by
  have hstops : Stops memberRules ("\x7d" :: ts) := .ofBars rfl (by decide) ts
  have hend : Refuses classMember ("\x7d" :: ts) :=
    .alt (hstops .valDecl (by decide)) (.alt (hstops .varDecl (by decide))
      (.alt (hstops .methodDecl (by decide)) (.alt (hstops .propertyDecl (by decide))
        (hstops .operatorDecl (by decide)))))
  obtain ⟨hentries, hnext⟩ := takes_entries member_refused_semicolon (fun m hm => hms m hm) hend
    (.lit rfl rfl (by decide))
  have hbody : Takes (body .classBody)
      (fun ns => Gives (Member.forgetAll blank) (members ns) ms)
      (Print.braces (Member.tokensAll ms) ++ ts) ts := by
    rw [Print.braces, List.cons_append, List.append_assoc, List.singleton_append, membersAll_eq]
    exact .muteSeq (.lit (by decide)) (.muteSeq (.manyNone hnext)
      (.seqMute (hentries.mono members_gives) (.lit (by decide))))
  refine hbody.makes rfl fun hcs => ?_
  rwa [classBody]

theorem takes_superclass (he : Reads e) (hts : Stops linkRules ts) :
    Takes (.call .superclass) (Makes .superclass (Expr.forget blank) superclass e)
      (":" :: Print.parens (e.rank < 2) e.tokens ++ ts) ts := by
  have hbody : Takes (body .superclass) (Denotes e)
      (":" :: Print.parens (e.rank < 2) e.tokens ++ ts) ts :=
    .muteSeq (.lit (by decide)) (he.chain.takes hts)
  refine hbody.makes rfl ?_
  rintro start stop _ ⟨n, rfl, hn⟩
  rwa [superclass, firstExpr]

theorem classParts_gives {base : Option Expr} {n : Node Rule} (hr : n.rule = .classBody)
    (hn : Gives (Member.forgetAll blank) (classBody n) ms)
    (hbase : Expr.forgetIn blank base = Expr.forgetIn blank value) :
    Gives (Command.forget blank) (classParts x base [] [n]) (.declareClass x value ms) := by
  rw [classParts, hr, if_neg (by decide), if_neg (by decide)]
  refine hn.bind fun ms' hms' => ?_
  rw [classParts, List.nil_append]
  refine .pure ?_
  rw [Command.forget, Command.forget, hms', hbase]

/-- The superclass and the members, behind the name of a class. -/
theorem takes_classParts (hvalue : ∀ e ∈ value, Reads e) (hms : ∀ m ∈ ms, Enrolled m) :
    Takes (seq (opt (.call .superclass)) (.call .classBody))
      (fun cs => Gives (Command.forget blank) (classParts x none [] cs) (.declareClass x value ms))
      (Expr.tokensIn [":"] 2 value ++ Print.braces (Member.tokensAll ms) ++ ts) ts := by
  rw [List.append_assoc]
  cases value with
  | none =>
    have hstops : Stops [.superclass] (Print.braces (Member.tokensAll ms) ++ ts) :=
      .ofBars rfl (by decide) _
    refine (Takes.optNone (hstops .superclass (by decide))).muteSeq ((takes_classBody hms).mono ?_)
    rintro _ ⟨n, rfl, hr, hn⟩
    exact classParts_gives hr hn rfl
  | some e =>
    have hstops : Stops linkRules (Print.braces (Member.tokensAll ms) ++ ts) :=
      .ofBars rfl (by decide) _
    refine (takes_superclass (hvalue e rfl) hstops).opt.seq (takes_classBody hms) ?_
    rintro _ _ ⟨n, rfl, hr, hn⟩ ⟨m, rfl, hr', hm⟩
    rw [List.singleton_append, classParts, hr, if_neg (by decide), if_pos rfl]
    exact hn.bind fun e' he => classParts_gives hr' hm (congrArg some he)

theorem ordered_declareClass (hx : isName x.toList = true) (hvalue : ∀ e ∈ value, Reads e)
    (hms : ∀ m ∈ ms, Enrolled m) : Ordered (.declareClass x value ms) := by
  have hbody {ts : List String} : Takes (body .classDecl)
      (Builds (Command.forget blank) classDecl (.declareClass x value ms))
      (Word.classWord.spelling :: x :: (Expr.tokensIn [":"] 2 value ++
        Print.braces (Member.tokensAll ms)) ++ ts) ts := by
    refine ((takes_ident hx).seq (takes_classParts (x := x) hvalue hms) ?_).pastWord
      fun hw => by rw [classDecl, if_pos hw]
    rintro _ cs ⟨n, rfl, hr, rfl⟩ hcs span
    rw [List.singleton_append, classDecl, hr, if_neg Bool.false_ne_true]
    exact hcs
  refine ordered_of_word .classDecl .classWord (by decide) (by decide)
    (by rw [Command.tokens]; rfl) (hbody.rule rfl) ?_
  intro start stop cs hcs
  rw [command]
  exact hcs _

end Members

mutual

theorem reads : (e : Expr) → e.writable = true → Reads e
  | .integer v, h => reads_integer (of_decide_eq_true h)
  | .float _, h => nomatch h
  | .string s, _ => reads_string s
  | .name _, h => reads_name h
  | .binary op l r, h => by
    rw [Expr.writable, Bool.and_eq_true] at h
    exact reads_binary op (reads l h.1) (reads r h.2)
  | .call f args, h => by
    rw [Expr.writable, Bool.and_eq_true] at h
    exact reads_call (reads f h.1) (readsAll args h.2)
  | .index t args, h => by
    rw [Expr.writable, Bool.and_eq_true] at h
    exact reads_index (reads t h.1) (readsAll args h.2)
  | .member t x, h => by
    rw [Expr.writable, Bool.and_eq_true] at h
    exact reads_member (reads t h.1) h.2
  | .function ps b, h => by
    rw [Expr.writable, Bool.and_eq_true] at h
    exact reads_lambda ⟨h.1, statedAll b h.2⟩ (Or.inl ⟨rfl, rfl, rfl⟩)
  | .closure ps b, h => by
    rw [Expr.writable, Bool.and_eq_true] at h
    exact reads_lambda ⟨h.1, statedAll b h.2⟩ (Or.inr ⟨rfl, rfl, rfl⟩)

theorem readsAll : (es : List Expr) → Expr.writableAll es = true → ∀ e ∈ es, Reads e
  | [], _ => nofun
  | e :: es, h => by
    rw [Expr.writableAll, Bool.and_eq_true] at h
    exact List.forall_mem_cons.mpr ⟨reads e h.1, readsAll es h.2⟩

theorem readsIn : (value : Option Expr) → Expr.writableIn value = true → ∀ e ∈ value, Reads e
  | none, _ => nofun
  | some e, h => by
    rintro _ ⟨⟩
    exact reads e h

theorem stated : (s : Statement) → s.writable = true → Stated s
  | .mk c p t, h => (ordered c h).stated p t

theorem statedAll : (b : List Statement) → Statement.writableAll b = true → ∀ s ∈ b, Stated s
  | [], _ => nofun
  | s :: b, h => by
    rw [Statement.writableAll, Bool.and_eq_true] at h
    exact List.forall_mem_cons.mpr ⟨stated s h.1, statedAll b h.2⟩

theorem ordered : (c : Command) → c.writable = true → Ordered c
  | .val x e, h => by
    rw [Command.writable, Bool.and_eq_true] at h
    exact ordered_val h.1 (reads e h.2)
  | .var x value, h => by
    rw [Command.writable, Bool.and_eq_true] at h
    exact ordered_var h.1 (readsIn value h.2)
  | .assign x op e, h => by
    rw [Command.writable, Bool.and_eq_true] at h
    exact ordered_assign h.1 op (reads e h.2)
  | .assignMember t x op e, h => by
    rw [Command.writable, Bool.and_eq_true, Bool.and_eq_true] at h
    exact ordered_assignMember (reads t h.1.1) h.1.2 op (reads e h.2)
  | .giveBack value, h => ordered_giveBack (readsIn value h)
  | .function x ps b, h => by
    rw [Command.writable, Bool.and_eq_true, Bool.and_eq_true] at h
    exact ordered_function h.1.1 ⟨h.1.2, statedAll b h.2⟩
  | .declareClass x value ms, h => by
    rw [Command.writable, Bool.and_eq_true, Bool.and_eq_true] at h
    exact ordered_declareClass h.1.1 (readsIn value h.1.2) (enrolledAll ms h.2)
  | .declareModule x b, h => by
    rw [Command.writable, Bool.and_eq_true] at h
    exact ordered_declareModule h.1 (statedAll b h.2)
  | .importModule x bind, h => by
    rw [Command.writable, Bool.and_eq_true] at h
    exact ordered_importModule h.1 h.2
  | .exportNames xs, h => by
    rw [Command.writable, Bool.and_eq_true, Bool.not_eq_true', List.isEmpty_eq_false_iff] at h
    exact ordered_exportNames h.1 h.2
  | .evaluate e, h => ordered_evaluate (reads e h)

theorem enrolled : (m : Member) → m.writable = true → Enrolled m
  | .val x e, h => by
    rw [Member.writable, Bool.and_eq_true] at h
    exact enrolled_val h.1 (reads e h.2)
  | .var x value, h => by
    rw [Member.writable, Bool.and_eq_true] at h
    exact enrolled_var h.1 (readsIn value h.2)
  | .method x ps b, h => by
    rw [Member.writable, Bool.and_eq_true, Bool.and_eq_true] at h
    exact enrolled_method h.1.1 ⟨h.1.2, statedAll b h.2⟩
  | .operator x ps b, h => by
    rw [Member.writable, Bool.and_eq_true, Bool.and_eq_true, List.contains_iff_mem] at h
    exact enrolled_operator h.1.1 ⟨h.1.2, statedAll b h.2⟩
  | .property x none none, h => by
    simp only [Member.writable, Bool.and_eq_true] at h
    exact enrolled_bareProperty h.1.1.1
  | .property x none (some setter), h => by
    simp only [Member.writable, Bool.and_eq_true] at h
    exact absurd h.1.1.2 (by simp)
  | .property x (some (.mk ps b)) setter, h => by
    simp only [Member.writable, Bool.and_eq_true, Accessor.writableGetter, List.isEmpty_iff] at h
    obtain ⟨⟨⟨hx, -⟩, rfl, hb⟩, hsetter⟩ := h
    exact enrolled_property hx (statedAll b hb) (settersIn setter hsetter)

theorem enrolledAll : (ms : List Member) → Member.writableAll ms = true → ∀ m ∈ ms, Enrolled m
  | [], _ => nofun
  | m :: ms, h => by
    rw [Member.writableAll, Bool.and_eq_true] at h
    exact List.forall_mem_cons.mpr ⟨enrolled m h.1, enrolledAll ms h.2⟩

theorem settersIn : (setter : Option Accessor) → Accessor.writableSetter setter = true →
    ∀ ps b, setter = some (.mk ps b) → Bodied ps b
  | none, _ => nofun
  | some (.mk ps b), h => by
    rintro _ _ ⟨⟩
    rw [Accessor.writableSetter, Bool.and_eq_true] at h
    exact ⟨h.1, statedAll b h.2⟩

end

/-- Where the text ends, nothing is read that passes a character. -/
theorem Stops.atEnd {rs : List Rule} (h : rs.all ranking.eats = true) : Stops rs [] := fun r hr =>
  .ofFirst (List.all_eq_true.mp h r hr) nofun

theorem semicolon_refused_atEnd : Refuses (lit ";") [] := by
  intro c hc
  obtain ⟨pos, rest⟩ := c
  cases hc
  exact derives_text_iff.mpr rfl

/-- A program that is read from its tokens is parsed. -/
theorem parse_of_takes {s : Source} (h : Takes statementList N toks [])
    (hs : s.text.toList = spaced toks) :
    ∃ ns, N ns ∧ ∀ b, statements ns = .ok b → parse s = .ok b := by
  obtain ⟨hready, htake⟩ := h ready_nil
  obtain ⟨ns, d, hderives, hns, hd⟩ := htake (.ofSource s) hs
  have hstart : (Cursor.ofSource s).skipGap = .ofSource s := hready.skipGap_eq hs
  obtain ⟨e, hlisted, he⟩ := Listed.of_list (hstart.symm ▸ hderives)
  exact ⟨ns, hns, fun b hb => parse_eq_ok_iff.mpr ⟨ns, e, hlisted, by rw [he, hd]; rfl, hb⟩⟩

end Syntax

open Syntax

/-- A program that can be printed is parsed back from its text, but for the places and the texts of
its statements. -/
theorem parse_render {b : Block} (h : Statement.writableAll b = true) (name : Option String) :
    ∃ b', parse ⟨name, render b⟩ = .ok b' ∧
      Statement.forgetAll (fun _ => "") b' = Statement.forgetAll (fun _ => "") b := by
  have hstops : Stops [.statement] [] := .atEnd rfl
  have htakes := takes_statementList (statedAll b h) (hstops .statement (by decide))
    semicolon_refused_atEnd
  rw [List.append_nil] at htakes
  obtain ⟨ns, ⟨b', hbuild, hb⟩, hparse⟩ := parse_of_takes (s := ⟨name, render b⟩) htakes rfl
  exact ⟨b', hparse b' hbuild, hb⟩

/-- Two statements with most of what needs care: parentheses, a quote and a line feed in a string, a
symbol as a name, accessors. -/
def intricate : Block :=
  [.mk (.assignMember (.binary .add (.name "a") (.name "b")) "x" (some .mul)
      (.binary .sub (.name "c") (.binary .sub (.integer 7) (.string "\"\\\n"))))
      (.ofPosition .start) "",
    .mk (.declareClass "K" (some (.name "A")) [.operator "[]" ["i"] [],
      .property "p" (some (.mk [] [.mk (.giveBack none) (.ofPosition .start) ""]))
        (some (.mk ["v"] []))]) (.ofPosition .start) ""]

theorem parse_render_intricate :
    render intricate = "( a + b ) . x *= c - ( 7 - \"\\\"\\\\\n\" ) ; class K : A \x7b " ++
        "operator [] ( i ) \x7b \x7d ; property p \x7b get \x7b return ; \x7d " ++
        "set ( v ) \x7b \x7d \x7d ; \x7d ;" ∧
      Statement.writableAll intricate = true ∧ ∃ b', parse ⟨none, render intricate⟩ = .ok b' ∧
        Statement.forgetAll (fun _ => "") b' = Statement.forgetAll (fun _ => "") intricate :=
  ⟨by decide +kernel, by decide +kernel, parse_render (by decide +kernel) none⟩

end ObjectLang
