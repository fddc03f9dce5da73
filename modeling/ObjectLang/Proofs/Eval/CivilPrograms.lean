import ObjectLang.Proofs.Eval.TameModules
import ObjectLang.Proofs.Syntax.Building

/-!
Objects, calls, modules and programs are civil, to every depth.
What is bound on the way has a name that a program mentions or that the machine gives.
What a program mentions is proper, since it was parsed. A module is registered only after all its
tables are filled, and then they are new to whoever declared it.
-/
namespace ObjectLang

open Machine Routine

variable {R : TableId}

theorem Eval.makeRooted_civil {l : Licence R} (kind : Kind) (hkind : kind.Proper R)
    (type : Roots → ObjectId) : (makeRooted kind type).Civil l := by
  refine ⟨fun m hm _ => ?_⟩
  have hmade : m.store.Leaves R m.roots.root
      (m.store.rooted m.roots.root (type m.roots) kind).2 := by
    have hnew := Store.Leaves.newObject hm.store hkind fun _ => rfl
    have hface := Store.Leaves.of_alike hnew.proper
      (Store.setFace_alike _ m.store.fresh m.store.fresh)
    have htype := Store.Leaves.of_alike hface.proper
      (Store.setType_alike _ m.store.fresh (type m.roots))
    exact hnew.trans (hface.trans htype)
  exact .of_done (makeRooted_silent kind type m) rfl (.of_store hmade)

def Discipline.civil (R : TableId) : Discipline where
  Ground := Licence R
  ρ := .rest
  Keeps l x _ := x.Civil l
  registry := some R
  table _ := .table
  parts l _ := l
  head _ := .head
  called _ := .none
  Sees _ := True
  sees_called _ := trivial
  sees_head := id
  outOfFuel := .outOfFuel
  pure {_ _ _ a _} _ := .pure a
  bind := .bind
  bind_fail h := .bind_fail (h R rfl)
  bind_see {_ _ _ _ _ h _ _ _} _ hf :=
    .bind_see (P := fun a => ∃ s, a = h s) (fun _ s _ => ⟨s, rfl⟩) <| by
    rintro _ ⟨s, rfl⟩
    exact hf s
  bind_kind o _ _ hf := .bind_see (P := (Kind.Proper R)) (fun _ _ hs => hs.kinds o)
    fun kind hkind =>
    hf kind (by rintro _ ⟨⟩; exact hkind)
  read _ _ := .read _
  bind_peek _ hf := .bind_peek _ fun a ha => hf a (by rintro _ ⟨⟩; exact ha)
  touch hd := .touch hd.stays
  bind_identifies hy := (Civil.touch (by simp)).bind fun _ => hy (Shift.move_rest _)
  assign := .assign
  alike h _ := .alike h
  note e _ := .note e
  writeLine := .writeLine
  bind_attempt hx hf _ := .bind_attempt hx fun r hr => hf r fun e he => .failWith (hr e he)
  leaving s hx := hx.leaving s s.text
  doing t hx := hx.doing t
  bind_newTable hf := .bind_newTable fun t _ => hf t
  bind_newObject _ hproper hkind hf := (Civil.newObject (hproper R rfl) hkind).bind hf
  bind_rooted _ _ hproper hf := (Eval.makeRooted_civil _ (hproper R rfl) _).bind hf
  define {_ t _} v hname := .defineConst (Licence.opens_table t) (hname R rfl) v
  definePart {_ o _ _ _} _ hname := (Civil.newCell _).bind fun c => .definePart o (hname R rfl) c
  defineField {_ o _ _} _ hname := (Civil.newCell _).bind fun c => (Civil.touch (by simp)).bind
    fun _ => .definePart o (p := .fields) (hname R rfl) c
  declare _ hname := (Civil.newCell _).bind fun c => .declare (hname R rfl) c
  bind_newActivation hhome hf := .bind_newActivation (hhome R rfl) fun a t rest ha =>
    hf a t rest (by rintro _ ⟨⟩; exact ha)
  bind_capture ha hf := (Civil.touch (by simp)).bind fun _ =>
    .bind_capture (ha R rfl) fun copy hcopy =>
    hf _ copy (by rintro _ ⟨⟩; exact hcopy)
  withActivation ha := .withActivation (ha R rfl)
  withScope {_ _ _ t _ _} := .withScope (Licence.opens_table t)

abbrev Inner.Civil (R : TableId) (k : Inner) : Prop := (Discipline.civil R).Binds k

theorem Discipline.civil_takes {xs : List Mention} (h : Mention.Each Mention.Proper xs) :
    Mention.Each (Discipline.civil R).Takes xs := fun x hx _ _ => h x hx

namespace Eval

variable {t : TableId} {k : Inner} {l : Licence R} {m : Machine} {p : ModuleParts} {body : Block}
  {root : ObjectId} {s : Store} {name n : String} {c : CellId}

section Modules

/-- The tables of the next module are new. -/
theorem nextModule_new (s : Store) (name : String) (ht : (s.nextModule name).Owns t) :
    ¬ s.Holds t := by
  rcases ht with rfl | rfl | rfl
  · exact Nat.lt_irrefl _
  · exact Nat.not_lt.mpr (Nat.le_succ _)
  · rw [(s.nextModule_placed name).body]
    exact Nat.not_lt.mpr (Nat.le_add_right _ 2)

theorem nextModule_plain (hs : s.Proper R root) (name : String) (ht : (s.nextModule name).Owns t) :
    t.Plain R := by
  refine ⟨?_, ?_⟩
  · rcases ht with rfl | rfl | rfl
    · exact ⟨_, rfl⟩
    · exact ⟨_, rfl⟩
    · exact ⟨_, (s.nextModule_placed name).body⟩
  · rintro rfl
    exact nextModule_new s name ht hs.registry.holds

theorem nextModule_proper (hs : s.Proper R root) (name : String) :
    (s.nextModule name).Proper R where
  hidden := nextModule_plain hs name (Or.inl rfl)
  shown := nextModule_plain hs name (Or.inr (Or.inl rfl))
  body := nextModule_plain hs name (Or.inr (Or.inr rfl))

theorem moduleMachine_leaves (hm : m.Proper R) (name : String) :
    m.Leaves R (moduleMachine m name) := by
  have hone := Store.Leaves.newTable hm.store .empty rfl rfl (by simp [Table.empty])
  have htwo := Store.Leaves.newTable hone.proper .empty rfl rfl (by simp [Table.empty])
  have hthree := Store.Leaves.newTable htwo.proper .empty rfl rfl (by simp [Table.empty])
  have hkind : (Kind.ofModule (m.store.nextModule name)).Proper R := nextModule_proper hm.store name
  have hnew := Store.Leaves.newObject hthree.proper hkind fun _ => rfl
  have hface := Store.Leaves.of_alike hnew.proper
    (Store.setFace_alike _ m.store.fresh m.store.fresh)
  have htype := Store.Leaves.of_alike hface.proper
    (Store.setType_alike _ m.store.fresh m.roots.module_)
  exact .of_store (hone.trans (htwo.trans (hthree.trans (hnew.trans (hface.trans htype)))))

/-- The module that is declared next is an object with tables that may be bound in. -/
theorem moduleMachine_opens (hm : m.Proper R) (name : String) :
    (Licence.owned (m.store.nextModule name) : Licence R).gives (moduleMachine m name) ∧
      (moduleMachine m name).store.kind m.store.fresh =
        .ofModule (m.store.nextModule name) := by
  have htables : (moduleMachine m name).store.tables.size = m.store.tables.size + 3 := by
    change (m.store.moduleTables.rooted _ _ _).2.tables.size = _
    simp [Store.moduleTables]
  have hbindings : ∀ t, m.store.Holds t →
      (moduleMachine m name).store.bindings t = m.store.bindings t := by
    intro t ht
    have hne : ∀ i, m.store.tables.size ≤ i → t ≠ .free i := by
      rintro i hi rfl
      exact Nat.not_lt.mpr hi ht
    change (m.store.moduleTables.rooted _ _ _).2.bindings t = _
    have halike : (m.store.moduleTables.newObject (some m.roots.root)
        (.ofModule (m.store.nextModule name))).2.Alike (m.store.moduleTables.rooted m.roots.root
          m.roots.module_ (.ofModule (m.store.nextModule name))).2 :=
      (Store.setFace_alike _ _ _).trans (Store.setType_alike _ _ _)
    rw [halike.bindings_eq, Store.bindings_newObject, Store.moduleTables]
    simp only [Store.bindings_newTable, Store.newTable_tables_size]
    rw [if_neg (hne _ (by omega)), if_neg (hne _ (by omega)), if_neg (hne _ (Nat.le_refl _))]
  refine ⟨fun t ht => ?_, ?_⟩
  · refine (moduleMachine_leaves hm name).opens hm (nextModule_plain hm.store name ht)
      (nextModule_new m.store name ht) ?_ (hbindings R hm.store.registry.holds)
    rcases ht with rfl | rfl | rfl
    · change m.store.tables.size < (moduleMachine m name).store.tables.size
      omega
    · change m.store.tables.size + 1 < (moduleMachine m name).store.tables.size
      omega
    · rw [(m.store.nextModule_placed name).body]
      change m.store.tables.size + 2 < (moduleMachine m name).store.tables.size
      omega
  · change ((m.store.moduleTables.rooted _ _ _).2.object _).kind = _
    have hfresh : m.store.fresh = m.store.moduleTables.fresh := rfl
    rw [Store.object_rooted, if_pos hfresh]
    rfl

/-- The names of a plain table are plain symbols. -/
theorem accepts_of_bound (hs : s.Proper R root) (ht : t.Plain R) (hc : s.Binds t n c) :
    NameRule.symbol.accepts n = true := hs.rules t ht ▸ hs.named t n c hc

theorem showName_civil (hp : p.Proper R) (n : String) :
    (showName p n).Civil (.owned p : Licence R) := by
  refine .bind_see (P := fun c? : Option CellId => c? = none ∨
    NameRule.symbol.accepts n = true) ?_ ?_
  · intro _ s hs
    cases hc : s.lookup p.hidden n with
    | none => exact Or.inl rfl
    | some c =>
      obtain ⟨i, hi⟩ := hp.hidden.1
      exact Or.inr (accepts_of_bound hs hp.hidden (.of_lookup (hi ▸ hs.outer i) hc))
  · rintro c? (rfl | hn)
    · exact .bind_fail trivial
    · refine Civil.bind (Discipline.found (D := .civil R) n c?) fun c =>
        (Civil.newCell _).bind fun v => ?_
      exact (Civil.define (Licence.opens_owned (p := p) (Or.inr (Or.inl rfl))) hn v).doing _

theorem fillModule_civil (hp : p.Proper R) {home : TableId} (hhome : home.Plain R)
    (exports : List String) : (fillModule p home exports).Civil (.owned p : Licence R) := by
  refine .bind_see (P := fun bs : Bindings => ∀ b ∈ bs, NameRule.symbol.accepts b.1 = true) ?_ ?_
  · intro _ s hs b hb
    exact accepts_of_bound hs hhome ((mem_sortBy _).mp hb)
  · intro bs hbs
    have htake : (defineAll p.hidden bs).Civil (.owned p : Licence R) := .forM _ fun b hb =>
      (Civil.define (Licence.opens_owned (p := p) (Or.inl rfl)) (hbs b hb) b.2).doing _
    exact htake.bind fun _ => .forM _ fun n _ => showName_civil hp n

theorem runBodyIn_behaves (hk : k.Civil R) (hm : m.Proper R) (name : String)
    (hbody : Mention.Each Mention.Proper (Statement.mentionsAll body)) :
    (runBodyIn k (moduleActivation m name) body).Behaves R (moduleMachine m name) ∧
      ∀ r m₂, runBodyIn k (moduleActivation m name) body (moduleMachine m name) = .done r m₂ →
        r.1 = (m.store.nextModule name).body := by
  obtain ⟨hopens, -⟩ := moduleMachine_opens hm name
  have hbodyTable := nextModule_plain hm.store name (t := (m.store.nextModule name).body)
    (Or.inr (Or.inr rfl))
  have ha : (moduleActivation m name).Proper R := by
    refine ⟨?_, hbodyTable⟩
    intro t ht
    rcases List.mem_cons.mp ht with rfl | ht
    · exact hbodyTable
    · rw [List.mem_singleton.mp ht]
      exact hm.builtins
  have hm₁ := ((moduleMachine_leaves hm name).proper hm).push ha
  have hexecute : (k.execute body).Behaves R
      ((moduleMachine m name).push (moduleActivation m name)) := by
    refine (hk.executes .none body (Discipline.civil_takes hbody)).behaves _ hm₁ ?_
    rintro a ⟨⟩ t ⟨⟩
    exact hopens _ (Or.inr (Or.inr rfl))
  refine ⟨.withActivation (hexecute.bind fun _ m₂ _ hstep => ?_), fun r m₂ hrun =>
    runBodyIn_home (fun m₁ h => (hexecute.ends m₁ h).tables) hrun⟩
  exact ((Civil.peek 0).bind fun a => .pure (a.home, a.recorded Activation.exportKey)).behaves
    (l := .none) m₂ (hstep.proper hm₁) trivial

theorem prepareModule_behaves (hk : k.Civil R) (hm : m.Proper R) (name : String)
    (hbody : Mention.Each Mention.Proper (Statement.mentionsAll body)) :
    (prepareModule k m name body).Behaves R (moduleMachine m name) := by
  obtain ⟨hrun, hhome⟩ := runBodyIn_behaves hk hm name hbody
  obtain ⟨hopens, -⟩ := moduleMachine_opens hm name
  have hp := nextModule_proper hm.store name
  refine hrun.bind fun r m₂ hdone hstep => ?_
  rw [hhome r m₂ hdone]
  exact (fillModule_civil hp hp.body r.2).behaves m₂
    (hstep.proper ((moduleMachine_leaves hm name).proper hm)) ((Licence.owned _).lasts hstep hopens)

/-- A module is registered unless its name has been taken meanwhile. -/
theorem enrolModule_outcome (hm : m.Proper R) (hname : NameRule.dotted.accepts name = true)
    (p : ModuleParts) (o : ObjectId) :
    (∃ e m', enrolModule name p o m = .failed e m' ∧ e.Proper ∧ m.Leaves R m') ∨
      m.store.local? R name = none ∧ ∃ log, enrolModule name p o m =
        .done o { m with store := m.store.addConst R name o, log := log } := by
  obtain ⟨_, rfl, ⟨-, hrun⟩ | ⟨hlocal, ⟨f, hrefusal, hrun⟩ | ⟨-, hrun⟩⟩⟩ :=
    enrolModule_run m name p o
  · exact Or.inl ⟨_, _, hrun, trivial, .of_same hm _ _ rfl⟩
  · -- The name has the form of a module name and is free.
    have hdotted := (Store.Leaves.newCell hm.store (.const o)).proper.dotted
    rw [hm.modules] at hrefusal hlocal
    have hfree : (m.store.newCell (.const o)).2.local? R name = none := by
      rwa [Store.local?, Store.bindings_newCell]
    simp [Store.refusal?, hdotted, hname, hfree] at hrefusal
  · rw [hm.modules] at hlocal hrun
    exact Or.inr ⟨hlocal, _, hrun⟩

theorem declareModule_civil (hk : k.Civil R) (hname : NameRule.dotted.accepts name = true)
    (hbody : Mention.Each Mention.Proper (Statement.mentionsAll body)) :
    (declareModule k name body).Civil l := by
  refine ⟨fun m hm _ => ?_⟩
  cases hlocal : m.store.local? m.modules name with
  | some c =>
    exact .of_resumes (declareModule_refuses hlocal) (.refl hm)
      (.of_failed (moments_quiet _ m) rfl (.refl hm) trivial)
  | none =>
    have hres := @declareModule_resumes k m name body hlocal
    have hstep := moduleMachine_leaves hm name
    have hprepare := prepareModule_behaves hk hm name hbody
    obtain ⟨hopens, hkind⟩ := moduleMachine_opens hm name
    have hlast : ∀ m₂, (moduleMachine m name).Leaves R m₂ →
        (enrolModule name (m.store.nextModule name) m.store.fresh).Minds R m₂ ∧
        ∀ m', (enrolModule name (m.store.nextModule name) m.store.fresh m₂).machine? =
          some m' → m.Leaves R m' := by
      intro m₂ hstep₂
      have hm₂ := hstep₂.proper (hstep.proper hm)
      have hsilent := enrolModule_silent name (m.store.nextModule name) m.store.fresh m₂
      rcases enrolModule_outcome hm₂ hname (m.store.nextModule name) m.store.fresh with
        ⟨e, m₃, hrun, he, hleaves⟩ | ⟨hfree, log, hrun⟩
      · have hbehaves := Behaves.of_failed hsilent hrun hleaves he
        exact ⟨hbehaves.toMinds, fun m' hend => hstep.trans (hstep₂.trans (hbehaves.ends m' hend))⟩
      · have hheld : ∀ t, (m.store.nextModule name).Owns t → m₂.store.Holds t := fun t ht =>
          (hopens t ht).2.1.mono hstep₂.store.grows.sizes
        obtain ⟨hproper, hseals, hsealed⟩ := hm₂.store.enrol hname hfree
          (hstep₂.store.grows.kind_of_ne hkind (by simp)) hheld
        have hgrown := Store.addConst_grows _ _ _ m.store.fresh hm₂.store.registry.holds hfree
        refine ⟨.of_silent hsilent ?_ ?_, ?_⟩
        · intro m' hend
          rw [hrun] at hend
          cases hend
          exact hseals
        · intro e m' hfailed
          rw [hrun] at hfailed
          cases hfailed
        · intro m' hend
          rw [hrun] at hend
          cases hend
          have hboth := hstep.trans hstep₂
          refine ⟨⟨?_, hboth.store.grows.trans hgrown, hboth.store.seals.trans hseals, ?_⟩,
            hboth.modules, hboth.builtins, hboth.roots, hboth.tables⟩
          · rw [← hboth.roots]
            exact hproper
          · intro t ht hafter
            rcases hsealed t hafter with hbefore | howns
            · exact hboth.store.fresh t ht hbefore
            · exact absurd ht (nextModule_new m.store name howns)
    refine ⟨.of_resumes hres hstep.store.seals (hprepare.toMinds.bind fun _ m₂ hdone =>
      (hlast m₂ (hprepare.ends m₂ (by rw [hdone]; rfl))).1), fun m' hend => ?_⟩
    rw [hres.run] at hend
    rcases machine?_bind hend with hfirst | ⟨_, m₂, hdone, hrest⟩
    · exact hstep.trans (hprepare.ends m' hfirst)
    · exact (hlast m₂ (hprepare.ends m₂ (by rw [hdone]; rfl))).2 m' hrest

theorem exportNames_civil (names : List String) : (exportNames names).Civil l := by
  refine (Civil.peek 0).bind fun a => (Civil.see _).bind fun kind => ?_
  split
  · refine .modifyTop fun a => ?_
    obtain ⟨extra, heq, -⟩ := Activation.foldl_record names a
    rw [heq]
    rfl
  · exact .fail trivial

theorem importModule_civil (hk : k.Civil R) (name : String) {binding : Binding}
    (hbinding : Mention.Each Mention.Proper binding.mentions) :
    (importModule k name binding).Civil (.head : Licence R) := by
  refine Civil.bind (hk.moduleNamed name) fun o => ?_
  refine .bind_see (P := fun kind : Kind => kind.Proper R) (fun _ _ hs => hs.kinds o) ?_
  intro kind hkind
  split
  · next p =>
    have hp : p.Proper R := hkind
    cases binding with
    | everything =>
      refine .bind_see (P := fun bs : Bindings => ∀ b ∈ bs, NameRule.symbol.accepts b.1 = true)
        (fun _ s hs b hb => accepts_of_bound hs hp.shown ((mem_sortBy _).mp hb)) ?_
      exact fun bs hbs => .forM _ fun b hb => .declare (hbs b hb) b.2
    | only names =>
      refine .forM _ fun n hn => (Civil.see _).bind fun c =>
        Civil.bind (Discipline.found (D := .civil R) n c) fun c => ?_
      exact .declare (hbinding _ (List.mem_map_of_mem hn)) c
    | under other =>
      refine (makeRooted_civil (.moduleAlias o p) hp _).bind fun a => ?_
      exact (Civil.newCell _).bind fun c => .declare (hbinding _ (List.mem_singleton.mpr rfl)) c
  · exact .fail trivial

end Modules

end Eval

theorem Discipline.civil_modular (R : TableId) : (Discipline.civil R).Modular where
  begins _ _ := Civil.touch (by simp)
  declares hk _ hname hbody := (Civil.touch (by simp)).bind fun _ =>
    Eval.declareModule_civil hk (hname R rfl) (Discipline.each_proper hbody rfl)
  exports _ := (Civil.touch (by simp)).bind fun _ => Eval.exportNames_civil _
  imports hk hbinding := Eval.importModule_civil hk _ (Discipline.each_proper hbinding rfl)

theorem Inner.civil_ofDepth (R : TableId) (d : Nat) : (Inner.ofDepth d).Civil R :=
  (Discipline.civil_modular R).ofDepth d

/-- A program mentions only what is proper, since it was parsed. -/
theorem Eval.runSource_civil (R : TableId) (d : Nat) (src : Source) :
    (runSource (.ofDepth d) src).Civil (.head : Licence R) := by
  refine (Civil.note _).bind fun _ => ?_
  split
  · next b hb =>
    have hproper : Mention.Each Mention.Proper (Statement.mentionsAll b) :=
      (parse_writes hb).mono fun h => h.proper
    exact Civil.map _ ((Discipline.civil_modular R).execute (Inner.civil_ofDepth R d)
      (Discipline.civil_takes hproper) (g := Licence.none))
  · exact .failWith trivial

end ObjectLang
