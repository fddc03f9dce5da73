import ObjectLang.Proofs.Eval.GuardedCalls
import ObjectLang.Proofs.ModuleDeclaration

/-!
Modules, statements and programs keep guard, to every depth.
The tables of a module take all names that its body has bound, since these are different from each
other, and its exports, since none of them is recorded twice. What is registered is a module.
-/
namespace ObjectLang

open Machine Routine

namespace Activation

variable {a : Activation} {s : Store}

theorem nodup_record (h : a.notes.Nodup) (key text : String) : (a.record key text).notes.Nodup := by
  rw [record]
  split
  · exact h
  · next hnew =>
    refine List.nodup_append.mpr ⟨h, by simp, ?_⟩
    rintro x hx _ hy rfl
    exact hnew (List.mem_singleton.mp hy ▸ hx)

theorem nodup_foldl_record (h : a.notes.Nodup) (key : String) (texts : List String) :
    (texts.foldl (·.record key ·) a).notes.Nodup := by
  induction texts generalizing a with
  | nil => exact h
  | cons text rest ih => exact ih (nodup_record h key text)

theorem nodup_recorded (h : a.notes.Nodup) (key : String) : (a.recorded key).Nodup := by
  rw [recorded, sortNames, (sortBy_perm _ _).nodup_iff]
  rw [List.Nodup, List.pairwise_map]
  refine List.Pairwise.imp_of_mem (fun {x y} hx hy hne heq => hne ?_) (h.filter _)
  have hkeys : x.1 = y.1 := by
    simp only [List.mem_filter, decide_eq_true_eq] at hx hy
    rw [hx.2, hy.2]
  exact Prod.ext hkeys heq

end Activation

namespace Eval

variable {k : Inner} {m : Machine} {p : ModuleParts} {name : String} {body : Block} {v : ObjectId}
  {c : CellId} {home : TableId} {s : Store}

section Modules

theorem moduleMachine_keeps (hm : m.Guarded) (name : String) :
    m.Keeps (moduleMachine m name) ∧
      (moduleActivation m name).Sturdy (moduleMachine m name).store := by
  have hone := hm.store.newTable (x := .empty) (by simp [Table.empty]) rfl
  have htwo := hone.newTable (x := .empty) (by simp [Table.empty]) rfl
  have hthree := htwo.newTable (x := .empty) (by simp [Table.empty]) rfl
  have hgrows : m.store.Grows m.store.moduleTables :=
    (m.store.newTable_grows _).trans ((Store.newTable_grows _ _).trans (Store.newTable_grows _ _))
  have hroots := hm.roots.mono hgrows
  have hkind : (Kind.ofModule (m.store.nextModule name)).Apt m.store.moduleTables := ⟨rfl, rfl⟩
  have hmodule := hthree.rooted hroots.root hroots.module_ hkind
  have howner : (moduleMachine m name).store.kind (moduleActivation m name).owner =
      .ofModule (m.store.nextModule name) := moduleMachine_kind m name
  refine ⟨.of_store hm hmodule (hgrows.trans (Store.rooted_grows _ _ _ _))
    fun _ ho => Store.Formless.of_rooted (s := m.store.moduleTables) ho, ?_, List.cons_ne_nil _ _,
    ?_, rfl, List.nodup_nil⟩
  · exact Store.ordinary_of_kind (Store.has_of_kind (by simp [howner])) (by simp [howner])
  · intro t ht
    rcases List.mem_cons.mp ht with rfl | ht
    · rfl
    · rw [List.mem_singleton.mp ht]
      exact hm.builtins

/-- No name is exported twice. -/
theorem runBodyIn_guards (hk : k.Guarded) {a : Activation} (ha : a.Sturdy m.store) (body : Block) :
    (runBodyIn k a body).Guards m fun r _ => r.2.Nodup := by
  refine .withActivation (S := fun (r : TableId × List String) _ => r.2.Nodup) ha
    ((hk.execute _ body).bind fun _ m₁ _ _ => .bind_top fun b _ _ hb => .pure ?_)
  exact Activation.nodup_recorded hb.notes _

/-- What a table of a module refuses on a machine that programs come by is a name that it has. -/
theorem Reachable.refusal_taken (h : Reachable m) {t : TableId} (hp : m.store.HasModule p)
    (ht : p.Owns t) (hname : ∃ x y, p.Owns y ∧ m.store.Binds y name x)
    (hrefusal : m.store.refusal? t name ≠ none) : name ∈ (m.store.bindings t).map Prod.fst := by
  have hproper := h.proper.store
  obtain ⟨o, ho⟩ := hp
  have hparts : p.Proper initial.modules := by
    have hkind := hproper.kinds o
    rwa [ho] at hkind
  obtain ⟨x, y, hy, hbinds⟩ := hname
  have haccepts := accepts_of_bound hproper (hparts.plain hy) hbinds
  by_contra hnot
  refine hrefusal ?_
  have hlocal : m.store.local? t name = none := by
    cases hlocal : m.store.local? t name with
    | none => rfl
    | some z => exact absurd (List.mem_map.mpr ⟨_, Store.Binds.of_local? hlocal, rfl⟩) hnot
  simp [Store.refusal?, hproper.rules t (hparts.plain ht), haccepts, hlocal]

/-- How far the table of all bindings is filled. -/
structure TakenOver (p : ModuleParts) (bs before : Bindings) (m : Machine) : Prop where
  hasModule : m.store.HasModule p
  holds : ∀ t, p.Owns t → m.store.Holds t
  hidden : m.store.bindings p.hidden = before.reverse
  body : m.store.bindings p.body = bs
  shown : m.store.bindings p.shown = []

/-- The bindings of the body are taken over one after the other: no two of them have one name. -/
theorem defineAll_guards {bs : Bindings} (hp : p.hidden.isFree = true)
    (hfree : p.body.isFree = true) (hne : p.hidden ≠ p.shown ∧ p.hidden ≠ p.body)
    (hm : TakenOver p bs [] m) :
    (defineAll p.hidden bs.sorted).Guards m fun _ m' => TakenOver p bs bs.sorted m' := by
  refine .forM_inv (fun before m' => TakenOver p bs before m') _ hm ?_
  intro before b after m₁ heq _ hm₁
  have hmem : b ∈ m₁.store.bindings p.body := by
    rw [hm₁.body, ← (sortBy_perm _ bs).mem_iff]
    change b ∈ bs.sorted
    simp [heq]
  refine Guards.doing ((Guards.define fun hg => ?_).mono ?_) _ ?_
  · exact (hg.store.discreet (fun o => TableId.ne_part hfree o _) hmem).allows
      (fun o => TableId.ne_part hp o _) _
  · rintro _ _ hkeeps rfl
    have hheld := hm₁.holds _ (Or.inl rfl)
    have hbindings := m₁.store.bindings_bind p.hidden b.1 b.2
    refine ⟨hm₁.hasModule.grows hkeeps.grows, fun t ht => (hm₁.holds t ht).mono hkeeps.grows.sizes,
      ?_, ?_, ?_⟩
    · change (m₁.store.bind p.hidden b.1 b.2).bindings p.hidden = _
      rw [hbindings _ hheld, if_pos rfl, hm₁.hidden]
      simp
    · change (m₁.store.bind p.hidden b.1 b.2).bindings p.body = _
      rw [hbindings _ hheld, if_neg hne.2.symm, hm₁.body]
    · change (m₁.store.bind p.hidden b.1 b.2).bindings p.shown = _
      rw [hbindings _ hheld, if_neg hne.1.symm, hm₁.shown]
  · -- A name that is refused has been taken over already, but names are bound once.
    intro e m₂ hfailed _ _ hreachable
    simp only [define, quiet] at hfailed
    split at hfailed
    · cases hfailed
    next f hrefusal =>
    cases hfailed
    exfalso
    have htaken := Reachable.refusal_taken hreachable hm₁.hasModule (Or.inl rfl)
      ⟨b.2, p.body, Or.inr (Or.inr rfl), hmem⟩ (by simp [hrefusal])
    have hdistinct := hreachable.orderly.distinct p.body
    rw [hm₁.body] at hdistinct
    have hsorted : (bs.sorted.map Prod.fst).Nodup :=
      ((sortBy_perm _ bs).map Prod.fst).nodup_iff.mpr hdistinct
    rw [heq, List.map_append, List.map_cons, List.nodup_append] at hsorted
    rw [hm₁.hidden, List.map_reverse, List.mem_reverse] at htaken
    exact hsorted.2.2 _ htaken _ (List.mem_cons_self ..) rfl

/-- How far the table of the exports is filled. -/
structure Showing (p : ModuleParts) (before : List String) (m : Machine) : Prop where
  hasModule : m.store.HasModule p
  holds : m.store.Holds p.shown
  shown : (m.store.bindings p.shown).map Prod.fst = before.reverse

theorem showAll_guards {exports : List String} (hp : p.hidden.isFree = true)
    (hfree : p.shown.isFree = true) (hnodup : exports.Nodup) (hm : Showing p [] m) :
    (exports.forM (showName p)).Guards m fun _ m' => Showing p exports m' := by
  refine .forM_inv (fun before m' => Showing p before m') _ hm ?_
  intro before n after m₁ heq _ hm₁
  refine .of_guarded fun hg => .bind_see ((found_guards n _).bind ?_)
  rintro c _ - ⟨rfl, hc⟩
  have hdiscreet := hg.store.discreet_lookup (fun o => TableId.ne_part hp o _) hc
  have hbinds : m₁.store.Binds p.hidden n c := by
    refine .of_lookup ?_ hc
    cases hhidden : p.hidden with
    | free i => exact hg.store.outer i
    | part o q =>
      rw [hhidden] at hp
      cases hp
  refine (Guards.newCell (c := .view c) fun _ => hdiscreet).bind ?_
  rintro v _ hkeeps ⟨rfl, rfl⟩
  have hcell := m₁.store.cell_newCell_self (.view c)
  refine Guards.doing ((Guards.define fun _ => ?_).mono ?_) _ ?_
  · refine Store.Discreet.allows ⟨by simp [Store.HasCell], fun f hf => ?_⟩
      (fun o => TableId.ne_part hfree o _) n
    cases hcell.symm.trans hf
  · rintro _ _ hkeeps' rfl
    have hgrows := (hkeeps.trans hkeeps').grows
    have hheld := hm₁.holds.mono hkeeps.grows.sizes
    refine ⟨hm₁.hasModule.grows hgrows, hm₁.holds.mono hgrows.sizes, ?_⟩
    change ((((m₁.store.newCell (.view c)).2.bind p.shown n _).bindings p.shown).map Prod.fst) = _
    rw [Store.bindings_bind _ _ _ _ _ hheld, if_pos rfl, Store.bindings_newCell, List.map_cons,
      hm₁.shown]
    simp
  · intro e m₂ hfailed _ _ hreachable
    simp only [define, quiet] at hfailed
    split at hfailed
    · cases hfailed
    next f hrefusal =>
    cases hfailed
    exfalso
    have htaken := Reachable.refusal_taken hreachable (hm₁.hasModule.grows hkeeps.grows)
      (Or.inr (Or.inl rfl)) ⟨c, p.hidden, Or.inl rfl, by rwa [Store.Binds, Store.bindings_newCell]⟩
      (by simp [hrefusal])
    rw [Store.bindings_newCell, hm₁.shown, List.mem_reverse] at htaken
    rw [heq, List.nodup_append] at hnodup
    exact hnodup.2.2 _ htaken _ (List.mem_cons_self ..) rfl

theorem enrolModule_yields {o : ObjectId} (ho : m.store.Ordinary o) (name : String)
    (p : ModuleParts) : (enrolModule name p o).Yields m := by
  have hrefuse : ∀ {m : Machine}, (refuseTaken name).Guards m fun _ m' => m = m' := by
    refine .bind_read (.bind_see ?_)
    split
    · exact .fail id
    · exact .pure rfl
  refine .bind_see ((Guards.note _).bind fun _ m₁ h₁ _ => ?_)
  have ho₁ := ho.mono h₁.grows
  refine Guards.bind (P := fun _ _ => True) (hrefuse.bind ?_) fun _ m₂ h₂ _ =>
    .pure (ho₁.mono h₂.grows)
  rintro _ _ - rfl
  refine .of_guarded fun hm₁ => .bind_read ((Guards.defineConst (fun _ => ho₁.1) ho₁.elim ?_).mono
    fun _ _ _ _ => trivial)
  exact fun x hx => absurd hx (TableId.ne_part hm₁.modules x _)

/-- A declaration breaks off no task of the machine's own. -/
theorem declareModule_yields (hk : k.Guarded) (h : Reachable m) (name : String) (body : Block) :
    (declareModule k name body).Yields m := by
  refine Guards.of_guarded fun hm => ?_
  cases hlocal : m.store.local? m.modules name with
  | some c => exact .of_resumes (declareModule_refuses hlocal) .refl (.fail id)
  | none =>
    obtain ⟨hkeeps, ha⟩ := moduleMachine_keeps hm name
    refine .of_resumes (declareModule_resumes hlocal) (fun _ => hkeeps) ?_
    have hprepare : (prepareModule k m name body).Guards (moduleMachine m name)
        fun _ _ => True := by
      refine (runBodyIn_guards hk ha body).bind_run fun r m₁ hrun h₁ hnodup => ?_
      obtain ⟨hhome, hp, hhidden, hshown⟩ := body_done hk.tame h.admits hrun
      have htidy : m₁.store.Tidy :=
        ((runBodyIn_tended hk.tame h.admits name body).1.ending m₁ (by rw [hrun]; rfl)).spares.tidy
      obtain ⟨hne, hneBody, -⟩ := htidy.tables_ne hp hp
      obtain ⟨hheld, hheld', hheld''⟩ := htidy.holds hp
      rw [fillModule, hhome]
      refine .bind_see ((defineAll_guards rfl rfl ⟨hne, hneBody⟩
        ⟨hp, ?_, hhidden, rfl, hshown⟩).bind fun _ m₂ h₂ hm₂ => ?_)
      · rintro t (rfl | rfl | rfl)
        · exact hheld
        · exact hheld'
        · exact hheld''
      · exact (showAll_guards rfl rfl hnodup ⟨hm₂.hasModule, hm₂.holds _ (Or.inr (Or.inl rfl)), by
          rw [hm₂.shown]; rfl⟩).mono fun _ _ _ _ => trivial
    exact hprepare.bind fun _ m₂ h₂ _ => enrolModule_yields (ha.owner.mono h₂.grows) name _

theorem exportNames_guards (names : List String) :
    (exportNames names).Guards m fun _ _ => True := by
  refine .bind_top fun a rest hstack ha => .bind_see ?_
  split
  · refine .of_done (a := ()) (moments_quiet _ m) rfl (fun hm => ?_) fun _ => trivial
    obtain ⟨extra, heq, -⟩ := Activation.foldl_record names a
    have hnodup := Activation.nodup_foldl_record ha.notes Activation.exportKey names
    have hsturdy : (names.foldl (·.record Activation.exportKey ·) a).Sturdy m.store := by
      rw [heq] at hnodup ⊢
      exact ⟨ha.owner, ha.inner, ha.scopes, ha.home, hnodup⟩
    change m.Keeps (m.modifyTop (names.foldl (·.record Activation.exportKey ·)))
    rw [modifyTop_eq hstack]
    refine ⟨hm.retop hstack hsturdy, .refl _, fun _ => id, ?_⟩
    rw [hstack, heq]
    rfl
  · exact .fail id

theorem declare_guards (hc : m.store.Discreet c) (name : String) :
    (declare name c).Guards m fun _ _ => True := by
  refine .bind_top fun a rest _ ha => ?_
  obtain ⟨t, outer, hscopes⟩ := List.exists_cons_of_ne_nil ha.inner
  rw [defineLocal, hscopes]
  refine (Guards.define fun _ => hc.allows (fun o => ?_) name).mono fun _ _ _ _ => trivial
  exact TableId.ne_part (ha.scopes t (hscopes ▸ List.mem_cons_self ..)) o _

/-- What is registered under a name is a module. -/
theorem moduleNamed_guards (name : String) : (moduleNamed k name).Guards m fun o m' =>
    m = m' ∧ m.store.HasObject o ∧ ∃ p, m.store.kind o = .ofModule p := by
  refine .of_guarded fun hm => .bind_read (.bind_see ((found_guards name _).bind ?_))
  rintro c _ - ⟨rfl, hc⟩
  have hbinds : m.store.Binds m.modules name c := by
    have hmodules := hm.modules
    refine .of_lookup ?_ hc
    cases ht : m.modules with
    | free i => exact hm.store.outer i
    | part o q =>
      rw [ht] at hmodules
      cases hmodules
  refine .bind_touch fun hreachable => ?_
  rw [hreachable.proper.modules] at hbinds
  obtain ⟨p, hhas, ⟨o, ho, hkind⟩, -⟩ := hreachable.proper.store.enrolled name c hbinds
  refine .bind_see ?_
  rw [ho]
  exact .pure ⟨rfl, Store.has_of_kind (by rw [hkind]; nofun), p, hkind⟩

theorem importModule_guards (name : String) (binding : Binding) :
    (importModule k name binding).Guards m fun _ _ => True := by
  refine .of_guarded fun hm => (moduleNamed_guards name).bind ?_
  rintro o _ - ⟨rfl, ho, p, hkind⟩
  have hapt : (Kind.ofModule p).Apt m.store := hkind ▸ hm.store.kinds o
  have hshown : ∀ x, p.shown ≠ .part x .operators := fun x => TableId.ne_part hapt.2 x _
  refine .bind_see ?_
  rw [hkind]
  cases binding with
  | everything =>
    refine .bind_see (.forM _ fun b hb m₁ h₁ => declare_guards ?_ b.1)
    exact (hm.store.discreet hshown ((mem_sortBy _).mp hb)).mono hm.store h₁.grows
  | only names =>
    refine .forM _ fun n _ m₁ h₁ => .of_guarded fun hm₁ => .bind_see ((found_guards n _).bind ?_)
    rintro c _ - ⟨rfl, hc⟩
    exact declare_guards (hm₁.store.discreet_lookup hshown hc) n
  | under other =>
    refine (makeRooted_guards (.moduleAlias o p) (fun hm => hm.roots.module_) hapt).bind ?_
    rintro a m₁ - ⟨-, hhas, halias, -⟩
    have ha : m₁.store.Ordinary a := Store.ordinary_of_kind hhas (by simp [halias])
    refine (Guards.newCell (c := .const a) fun _ => hhas).bind ?_
    rintro c _ h₂ ⟨rfl, rfl⟩
    exact declare_guards ((ha.mono h₂.grows).discreet (by simp [Store.HasCell])
      (m₁.store.cell_newCell_self _)) other

end Modules

section Statements

section

variable (hk : k.Guarded)
include hk

theorem declareFunction_yields (name : String) (params : List String) (body : Block) :
    (declareFunction k name params body).Yields m :=
  Guards.bind_top fun _ _ _ ha => makeFunction_yields hk (Code.fair_block (by simp [ha.home]))

theorem declareClosure_yields (params : List String) (body : Block) :
    (declareClosure k params body).Yields m := by
  refine Guards.bind_top fun a rest _ ha => .bind_touch fun h => ?_
  refine .of_guarded fun hm => ?_
  obtain ⟨hguarded, hgrows, hcopy⟩ := hm.store.captureActivation ha
  have hobjects := (Store.captureActivation_copy h.tidy a).1.objects
  refine (Guards.make (fun _ => ⟨hguarded, hgrows⟩) fun _ ho => ?_).bind ?_
  · exact ho.of_objects hobjects
  rintro captured _ - ⟨rfl, rfl⟩
  exact makeClosure_yields hk (Code.fair_block (by simp [hcopy.home])) hcopy

theorem evaluateAll_guards (es : List Expr) :
    (evaluateAll k es).Guards m fun vs m' => ∀ v ∈ vs, m'.store.Ordinary v := by
  induction es generalizing m with
  | nil => exact .pure (by simp)
  | cons e rest ih =>
    refine (hk.evaluate m e).bind fun v m₁ _ hv => ih.bind fun vs m₂ h₂ hvs => .pure ?_
    exact List.forall_mem_cons.mpr ⟨hv.mono h₂.grows, hvs⟩

/-- No operator of the language is the one that reads members. -/
theorem dispatch_other {target : ObjectId} {op : String} {args : List ObjectId} (hop : op ≠ ".")
    (hhook : op ∈ Builtin.objectBlueprint.operators.map Code.name)
    (htarget : m.store.Ordinary target) (hargs : ∀ a ∈ args, m.store.Ordinary a) :
    (dispatch k target op args).Yields m :=
  dispatch_yields hk hhook htarget hargs fun h => absurd h hop

theorem evaluate_yields (e : Expr) : (evaluate k e).Yields m := by
  rw [evaluate.eq_def]
  split
  · exact integer_yields hk _
  · exact float_yields hk _
  · exact string_yields hk _
  · exact getName_yields hk _
  · next op lhs rhs =>
    refine (hk.evaluate m lhs).bind fun l m₁ _ hl => (hk.evaluate m₁ rhs).bind fun r m₂ h₂ hr => ?_
    refine dispatch_other hk (by cases op <;> decide) (by cases op <;> decide) (hl.mono h₂.grows)
      fun a ha => ?_
    exact List.mem_singleton.mp ha ▸ hr
  · next target name args =>
    refine (hk.evaluate m target).bind fun t m₁ _ ht => ?_
    exact (evaluateAll_guards hk args).bind fun vs m₂ h₂ hvs =>
      callMember_yields hk hvs (ht.mono h₂.grows) name
  · next callee args _ =>
    refine (hk.evaluate m callee).bind fun f m₁ _ hf => ?_
    refine (evaluateAll_guards hk args).bind fun vs m₂ h₂ hvs => ?_
    exact hk.invoke (hf.mono h₂.grows).1 (by simp) hvs (hf.mono h₂.grows).unread
  · next target args =>
    refine (hk.evaluate m target).bind fun t m₁ _ ht => ?_
    exact (evaluateAll_guards hk args).bind fun vs m₂ h₂ hvs =>
      dispatch_other hk (by decide) (by decide) (ht.mono h₂.grows) hvs
  · next target name =>
    exact (hk.evaluate m target).bind fun t m₁ _ ht => getMember_yields hk ht name
  · exact declareFunction_yields hk _ _ _
  · exact declareClosure_yields hk _ _

theorem evaluateOr_yields (e : Option Expr) : (evaluateOr k e).Yields m := by
  cases e with
  | none => exact nothing_yields
  | some e => exact hk.evaluate m e

theorem assigned_yields (op : Option Arith) {current : Routine ObjectId}
    (hcurrent : current.Yields m) (value : Expr) : (assigned k op current value).Yields m := by
  cases op with
  | none => exact hk.evaluate m value
  | some op =>
    refine hcurrent.bind fun c m₁ _ hc => (hk.evaluate m₁ value).bind fun v m₂ h₂ hv => ?_
    refine dispatch_other hk (by cases op <;> decide) (by cases op <;> decide) (hc.mono h₂.grows)
      fun a ha => ?_
    exact List.mem_singleton.mp ha ▸ hv

end

/-- A member of a program leaves a blueprint as programs may have it. -/
theorem addMember_apt (hhome : home.isFree = true) {b : Blueprint} (hb : b.Apt s) (x : Member) :
    (addMember home b x).Apt s := by
  have hfair : ∀ (name : String) (params : List String) (body : Block),
      (methodCode home name params body).Fair := fun _ _ _ => Code.fair_block (by simpa using hhome)
  have haccessor : ∀ (name : String) (a : Accessor), (accessorCode home name a).Fair ∧
      (accessorCode home name a).isBlock = true := fun name ⟨params, body⟩ => ⟨hfair _ _ _, rfl⟩
  cases x with
  | val name value => exact ⟨hb.base, hb.operators, hb.methods, hb.properties, hb.home⟩
  | var name value => exact ⟨hb.base, hb.operators, hb.methods, hb.properties, hb.home⟩
  | method name params body =>
    exact { hb with methods := forall_mem_concat hb.methods (hfair _ _ _) }
  | operator symbol params body =>
    have hcode := hfair symbol params body
    exact { hb with operators := forall_mem_concat hb.operators ⟨hcode.1, hcode.unread,
      fun _ => rfl⟩ }
  | property name getter setter =>
    refine { hb with properties := forall_mem_concat hb.properties ⟨fun c hc => ?_,
      fun c hc => ?_⟩ }
    · obtain ⟨a, -, rfl⟩ := Option.map_eq_some_iff.mp hc
      exact ⟨(haccessor name a).1, by cases a; rfl⟩
    · obtain ⟨a, -, rfl⟩ := Option.map_eq_some_iff.mp hc
      exact haccessor name a

theorem declaredBlueprint_apt (hhome : home.isFree = true) (name : String) {base : ObjectId}
    (hbase : s.Ordinary base) (members : List Member) :
    (declaredBlueprint home name base members).Apt s := by
  have hfold : ∀ b : Blueprint, b.Apt s → (members.foldl (addMember home) b).Apt s := by
    induction members with
    | nil => exact fun b hb => hb
    | cons x rest ih => exact fun b hb => ih _ (addMember_apt hhome hb x)
  refine hfold _ ⟨?_, ?_, ?_, ?_, by simpa using hhome⟩
  · rintro _ ⟨⟩
    exact hbase
  · simp [Blueprint.empty]
  · simp [Blueprint.empty]
  · simp [Blueprint.empty]

variable (hk : k.Guarded)
include hk

theorem declareClass_yields (name : String) (superclass : Option Expr) (members : List Member) :
    (declareClass k name superclass members).Yields m := by
  have hbase : (superclassOf k superclass).Yields m := by
    cases superclass with
    | none =>
      refine (builtin_guards "Object" (by decide)).mono ?_
      rintro v _ - ⟨rfl, hv⟩
      exact hv
    | some e => exact hk.evaluate m e
  refine hbase.bind fun base m₁ _ hbase => (blueprint_guards base).bind ?_
  rintro b _ - ⟨rfl, -⟩
  exact .bind_top fun a _ _ ha => makeClass_yields
    (declaredBlueprint_apt ha.home name hbase members)

omit hk in
theorem declareValue_guards (name : String) {cell : ObjectId → Cell}
    (hcell : cell = .const ∨ cell = .var) (hv : m.store.Ordinary v) :
    (declareValue name cell v).Guards m fun flow m' => m'.store.Ordinary flow.value := by
  have hapt : (cell v).Apt m.store := by
    rcases hcell with rfl | rfl
    · exact hv.1
    · exact hv
  refine (Guards.newCell fun _ => hapt).bind ?_
  rintro c _ h₁ ⟨rfl, rfl⟩
  have hv₁ := hv.mono h₁.grows
  refine (declare_guards ⟨by simp [Store.HasCell], fun f hf => ?_⟩ name).bind
    fun _ m₂ h₂ _ => .pure (hv₁.mono h₂.grows)
  rcases hcell with rfl | rfl
  · cases (m.store.cell_newCell_self (.const v)).symm.trans hf
    exact hv₁.2
  · cases (m.store.cell_newCell_self (.var v)).symm.trans hf

theorem runCommand_guards (h : Reachable m) (c : Command) :
    (runCommand k c).Guards m fun flow m' => m'.store.Ordinary flow.value := by
  have hnothing : ∀ {m : Machine}, (Flow.next <$> nothing k).Guards m fun flow m' =>
      m'.store.Ordinary flow.value := nothing_yields.map _ fun _ _ hv => hv
  cases c with
  | val name value =>
    exact (hk.evaluate m value).bind fun v m₁ _ hv => declareValue_guards name (Or.inl rfl) hv
  | var name value =>
    exact (evaluateOr_yields hk value).bind fun v m₁ _ hv =>
      declareValue_guards name (Or.inr rfl) hv
  | assign name op value =>
    refine (assigned_yields hk op (getName_yields hk name) value).bind fun v m₁ _ hv => ?_
    exact (setName_guards hk name hv).bind fun _ m₂ h₂ _ => .pure (hv.mono h₂.grows)
  | assignMember target name op value =>
    refine (hk.evaluate m target).bind fun t m₁ _ ht => ?_
    refine (assigned_yields hk op (getMember_yields hk ht name) value).bind fun v m₂ h₂ hv => ?_
    exact (setMember_guards hk (ht.mono h₂.grows) name hv).bind fun _ m₃ h₃ _ =>
      .pure (hv.mono h₃.grows)
  | giveBack value => exact (evaluateOr_yields hk value).map _ fun _ _ hv => hv
  | function name params body =>
    exact (declareFunction_yields hk name params body).bind fun v m₁ _ hv =>
      declareValue_guards name (Or.inl rfl) hv
  | declareClass name superclass members =>
    exact (declareClass_yields hk name superclass members).bind fun v m₁ _ hv =>
      declareValue_guards name (Or.inl rfl) hv
  | declareModule name body =>
    exact (declareModule_yields hk h name body).map _ fun _ _ hv => hv
  | importModule name binding =>
    exact (importModule_guards name binding).bind fun _ m₁ _ _ => hnothing
  | exportNames names => exact (exportNames_guards names).bind fun _ m₁ _ _ => hnothing
  | evaluate value => exact (hk.evaluate m value).map _ fun _ _ hv => hv

theorem runStatements_guards {last : ObjectId} (hlast : m.store.Ordinary last)
    (ss : List Statement) :
    (runStatements k last ss).Guards m fun flow m' => m'.store.Ordinary flow.value := by
  induction ss generalizing last m with
  | nil => exact .pure hlast
  | cons s rest ih =>
    have hstatement : (runStatement k s).Guards m fun flow m' => m'.store.Ordinary flow.value :=
      .bind_touch fun h => (runCommand_guards hk h s.command).leaving s s.text
    refine hstatement.bind fun flow m₁ _ hflow => ?_
    cases flow with
    | next v => exact ih hflow
    | back v => exact .pure hflow

theorem execute_guards (b : Block) :
    (execute k b).Guards m fun flow m' => m'.store.Ordinary flow.value :=
  nothing_yields.bind fun _ _ _ hlast => runStatements_guards hk hlast b

theorem runSource_yields (src : Source) : (runSource k src).Yields m := by
  refine (Guards.note _).bind fun _ m₁ _ _ => ?_
  split
  · next b _ => exact (execute_guards hk b).map _ fun _ _ hflow => hflow
  · exact .failWith id

end Statements

end Eval

/-- The induction is on the depth: each level only hands its work on to the one below. -/
theorem Inner.guarded_ofDepth (d : Nat) : (Inner.ofDepth d).Guarded := by
  induction d with
  | zero => exact ⟨tame_ofDepth 0, fun _ _ _ _ => .outOfFuel, fun _ _ => .outOfFuel,
      fun _ _ => .outOfFuel, fun _ _ => .outOfFuel⟩
  | succ d ih =>
    exact ⟨tame_ofDepth (d + 1), fun hf hr hargs => Eval.invoke_yields ih hargs hf hr,
      Eval.readCell_yields ih, fun _ e => .bind_touch fun _ => Eval.evaluate_yields ih e,
      fun _ b => Eval.execute_guards ih b⟩

end ObjectLang
