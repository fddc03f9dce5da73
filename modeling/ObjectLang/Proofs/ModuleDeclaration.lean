import ObjectLang.Proofs.Permanence
import ObjectLang.Proofs.Standing

/-!
Declarations of modules.
A declaration that succeeds registers one module beside those that its body has declared. The module
takes over what the body has bound, and shows what the body's own activation has exported. A
declaration that fails registers no module of its own and leaves the registered ones as they were.
-/
namespace ObjectLang

open Machine Routine

variable {n : String} {r : TableId × List String} {c : CellId} {o : ObjectId} {s : Store}
  {exports : List String}

theorem Store.Binds.exists_local? {t : TableId} (h : s.Binds t n c) :
    ∃ x, s.local? t n = some x := by
  cases hlocal : s.local? t n with
  | some x => exact ⟨x, rfl⟩
  | none => exact absurd (List.lookup_eq_none_iff.mp hlocal (n, c) h) (by simp)

/-- Where the body of a module has ended, its bindings are found from both tables. -/
theorem Store.Tidy.local?_hidden (h : s.Tidy) {p : ModuleParts} (hp : s.HasModule p)
    (hsame : ∀ x, x ∈ s.bindings p.hidden ↔ x ∈ s.bindings p.body) (n : String) :
    s.local? p.hidden n = s.local? p.body n := by
  have hforth : ∀ c, s.local? p.hidden n = some c → s.local? p.body n = some c := fun c hc =>
    h.body p n c hp ((hsame _).mp (Store.Binds.of_local? hc))
  cases hbody : s.local? p.body n with
  | none =>
    cases hhidden : s.local? p.hidden n with
    | none => rfl
    | some c => exact absurd (hforth c hhidden) (by simp [hbody])
  | some c =>
    have hbinds : s.Binds p.hidden n c := (hsame _).mpr (Store.Binds.of_local? hbody)
    obtain ⟨x, hx⟩ := hbinds.exists_local?
    rw [hx, ← hforth x hx, hbody]

namespace Routine

variable {β : Type} {t : TableId} {f : β → Routine Unit} {m m' : Machine}

/-- Routines that each add a binding to a table add them in order; `g` tells which routine a binding
comes from. -/
theorem forM_binds {g : String × CellId → β}
    (hf : ∀ b m m', m.store.Holds t → f b m = .done () m' → m'.store.Holds t ∧
      ∃ x, g x = b ∧ m'.store.bindings t = x :: m.store.bindings t)
    (l : List β) (ht : m.store.Holds t) (hrun : l.forM f m = .done () m') :
    ∃ new, m'.store.bindings t = new ++ m.store.bindings t ∧ new.map g = l.reverse := by
  induction l generalizing m with
  | nil =>
    cases hrun
    exact ⟨[], rfl, rfl⟩
  | cons b rest ih =>
    obtain ⟨_, m₁, hfirst, hrest⟩ := done_of_bind hrun
    obtain ⟨ht₁, x, hx, hbindings⟩ := hf b m m₁ ht hfirst
    obtain ⟨new, hnew, hmap⟩ := ih ht₁ hrest
    refine ⟨new ++ [x], ?_, ?_⟩
    · rw [hnew, hbindings, List.append_assoc, List.singleton_append]
    · rw [List.map_append, hmap, List.map_singleton, hx, List.reverse_cons]

theorem forM_ne_exhausted (hf : ∀ b m, f b m ≠ .exhausted) (l : List β) (m : Machine) :
    l.forM f m ≠ .exhausted := by
  induction l generalizing m with
  | nil => nofun
  | cons b rest ih =>
    change (f b >>= fun _ => rest.forM f) m ≠ .exhausted
    rw [bind_run]
    cases hfirst : f b m with
    | done u m₁ => exact ih m₁
    | failed e m₁ => nofun
    | exhausted => exact absurd hfirst (hf b m)

theorem define_ne_exhausted (t : TableId) (name : String) (c : CellId) (m : Machine) :
    define t name c m ≠ .exhausted := by
  simp only [define, quiet]
  split <;> simp

/-- What is bound is bound first. -/
theorem define_done {name : String} (ht : m.store.Holds t)
    (hrun : define t name c m = .done () m') :
    m'.store.Holds t ∧ m'.store.bindings t = (name, c) :: m.store.bindings t := by
  simp only [define, quiet] at hrun
  split at hrun
  · cases hrun
    refine ⟨ht.mono ⟨by simp, by simp, by simp⟩, ?_⟩
    rw [Store.bindings_bind _ _ _ _ _ ht, if_pos rfl]
  · cases hrun

end Routine

namespace Eval

variable {k : Inner} {T : TableId → Prop} {m m' : Machine} {p : ModuleParts} {name : String}
  {body : Block} {q : Moment}

theorem showName_ne_exhausted (p : ModuleParts) (n : String) (m : Machine) :
    showName p n m ≠ .exhausted := by
  cases hc : m.store.lookup p.hidden n with
  | none =>
    simp [showName, bind_run, see, quiet, hc, found, fail]
  | some c =>
    simp only [showName, bind_run, see, quiet, hc, found, pure_run, newCell, make]
    exact define_ne_exhausted _ _ _ _

theorem showName_done (ht : m.store.Holds p.shown) (hrun : showName p n m = .done () m') :
    m'.store.Holds p.shown ∧
      ∃ x, x.1 = n ∧ m'.store.bindings p.shown = x :: m.store.bindings p.shown := by
  cases hc : m.store.lookup p.hidden n with
  | none =>
    simp only [showName, bind_run, see, quiet, hc, found, fail] at hrun
    cases hrun
  | some c =>
    simp only [showName, bind_run, see, quiet, hc, found, pure_run, newCell, make] at hrun
    obtain ⟨hholds, hbindings⟩ := define_done (ht.mono (m.store.newCell_grows (.view c)).sizes) hrun
    exact ⟨hholds, _, rfl, by rw [hbindings, Store.bindings_newCell]⟩

theorem fillModule_ne_exhausted (p : ModuleParts) (home : TableId) (exports : List String)
    (m : Machine) : fillModule p home exports m ≠ .exhausted := by
  simp only [fillModule, bind_run, see, quiet]
  cases hfirst : defineAll p.hidden (m.store.bindings home).sorted m with
  | done u m₁ => exact forM_ne_exhausted (showName_ne_exhausted p) exports m₁
  | failed e m₁ => simp
  | exhausted => exact absurd hfirst (forM_ne_exhausted (f := fun b : String × CellId =>
      (define p.hidden b.1 b.2).doing .fillModule) (fun b => define_ne_exhausted _ _ _) _ m)

theorem fillModule_terse (p : ModuleParts) (home : TableId) (exports : List String) :
    (fillModule p home exports).Terse := by
  refine Terse.bind (.of_silent (silent_quiet _)) fun _ => Terse.bind ?_ fun _ => ?_
  · exact .forM (fun b => .doing (silent_quiet _) _) _
  · refine .forM (fun n => Terse.bind (.of_silent (silent_quiet _)) fun c => ?_) exports
    have hfound : (found n c).Silent := by
      cases c with
      | none => exact silent_quiet _
      | some c => exact silent_pure c
    exact (Terse.of_silent hfound).bind fun _ =>
      (Terse.of_silent (silent_quiet _)).bind fun _ => .doing (silent_quiet _) _

/-- A module that is filled binds what its body has bound, and shows the exports. -/
theorem fillModule_done (hm : m.Admits T) (hp : m.store.HasModule p)
    (hhidden : m.store.bindings p.hidden = []) (hshown : m.store.bindings p.shown = [])
    (hrun : fillModule p p.body exports m = .done () m') :
    (∀ x, x ∈ m'.store.bindings p.hidden ↔ x ∈ m.store.bindings p.body) ∧
      (m'.store.bindings p.shown).map Prod.fst = exports.reverse ∧
      m'.store.bindings p.body = m.store.bindings p.body := by
  obtain ⟨hhiddenHeld, hshownHeld, hbodyHeld⟩ := hm.tidy.holds hp
  obtain ⟨hne, hneBody, hneShown⟩ := hm.tidy.tables_ne hp hp
  have hapart := (hm.tables _ hm.registry).2 p hp
  change (defineAll p.hidden (m.store.bindings p.body).sorted >>= fun _ =>
    exports.forM (showName p)) m = .done () m' at hrun
  obtain ⟨_, m₁, htake, hshow⟩ := done_of_bind hrun
  have hstep₁ := (takeOver_tended hm.tidy hp hapart.1.symm).ending m₁ (by rw [htake]; rfl)
  have hp₁ := hp.grows hstep₁.spares.grows
  have hstep₂ := (showAll_tended hstep₁.spares.tidy hp₁ (hstep₁.modules ▸ hapart.2.symm)
    exports).ending m' (by rw [hshow]; rfl)
  have hgrown : ∀ {t}, m.store.Holds t → m₁.store.Holds t := fun ht =>
    ht.mono hstep₁.spares.grows.sizes
  refine ⟨fun x => ?_, ?_, ?_⟩
  · obtain ⟨new, hnew, hmap⟩ := forM_binds (g := id)
      (f := fun b : String × CellId => (define p.hidden b.1 b.2).doing .fillModule)
      (fun b m m' ht hdefine => ⟨(define_done ht hdefine).1, b, rfl, (define_done ht hdefine).2⟩)
      _ hhiddenHeld htake
    rw [List.map_id] at hmap
    rw [hstep₂.spares.kept p.hidden (hgrown hhiddenHeld) hne, hnew, hhidden, List.append_nil, hmap,
      List.mem_reverse]
    exact mem_sortBy _
  · obtain ⟨new, hnew, hmap⟩ := forM_binds (g := Prod.fst)
      (fun n m m' ht hshow => showName_done ht hshow) exports (hgrown hshownHeld) hshow
    rw [hnew, hstep₁.spares.kept p.shown hshownHeld hne.symm, hshown, List.append_nil, hmap]
  · rw [hstep₂.spares.kept p.body (hgrown hbodyHeld) hneShown.symm,
      hstep₁.spares.kept p.body hbodyHeld hneBody.symm]

/-- The moments of a body are those of its statements. -/
theorem runBodyIn_moments (k : Inner) (a : Activation) (body : Block) (m : Machine) :
    (runBodyIn k a body).moments m = (k.execute body).moments (m.push a) := by
  rw [runBodyIn, moments_withActivation]
  exact moments_bind_silent _ (fun _ => (silent_quiet _).bind fun _ => silent_pure _) _

/-- The moments of a declaration are those of the body, unless the module cannot be filled. -/
theorem declareModule_moments (hfree : m.store.local? m.modules name = none) :
    (declareModule k name body).moments m =
        (runBodyIn k (moduleActivation m name) body).moments (moduleMachine m name) ∨
      ∃ t e m', declareModule k name body m = .failed e m' ∧ (declareModule k name body).moments m =
        (runBodyIn k (moduleActivation m name) body).moments (moduleMachine m name) ++
          [⟨.breaks t e, m'⟩] := by
  have hresumes := @declareModule_resumes k m name body hfree
  rw [hresumes.moments, hresumes.run,
    moments_bind_silent _ fun _ => enrolModule_silent name _ _]
  have hrun := bind_run (prepareModule k m name body)
    (fun _ => enrolModule name (m.store.nextModule name) m.store.fresh) (moduleMachine m name)
  rw [hrun, prepareModule, moments_bind, bind_run]
  cases hbody : runBodyIn k (moduleActivation m name) body (moduleMachine m name) with
  | done r m₁ =>
    rcases fillModule_terse (m.store.nextModule name) r.1 r.2 m₁ with hmoments |
        ⟨t, e, m', hfailed, hmoments⟩
    · exact Or.inl (by simp only [hmoments, List.append_nil])
    · refine Or.inr ⟨t, e, m', ?_, ?_⟩
      · simp only [hfailed]
      · simp only [hmoments]
  | failed e m₁ => exact Or.inl (List.append_nil _)
  | exhausted => exact Or.inl (List.append_nil _)

theorem declareModule_moments_done (hfree : m.store.local? m.modules name = none)
    (hrun : declareModule k name body m = .done o m') : (declareModule k name body).moments m =
      (runBodyIn k (moduleActivation m name) body).moments (moduleMachine m name) := by
  refine (declareModule_moments hfree).resolve_right ?_
  rintro ⟨t, e, m₁, hfailed, -⟩
  cases hrun.symm.trans hfailed

theorem enrolModule_value {o' : ObjectId} (hrun : enrolModule name p o m = .done o' m') :
    o' = o := by
  obtain ⟨_, -, ⟨-, hfailed⟩ | ⟨-, ⟨f, -, hfailed⟩ | ⟨-, hdone⟩⟩⟩ := enrolModule_run m name p o
  · cases hfailed.symm.trans hrun
  · cases hfailed.symm.trans hrun
  · cases hdone.symm.trans hrun
    rfl

/-- The three parts of a declaration that succeeds. -/
theorem declareModule_parts (hrun : declareModule k name body m = .done o m') :
    m.store.local? m.modules name = none ∧ ∃ r m₁ m₂,
      runBodyIn k (moduleActivation m name) body (moduleMachine m name) = .done r m₁ ∧
      fillModule (m.store.nextModule name) r.1 r.2 m₁ = .done () m₂ ∧
      enrolModule name (m.store.nextModule name) m.store.fresh m₂ = .done o m' := by
  cases hlocal : m.store.local? m.modules name with
  | some c =>
    rw [(declareModule_refuses hlocal).run] at hrun
    cases hrun
  | none =>
    rw [(declareModule_resumes hlocal).run] at hrun
    obtain ⟨_, m₂, hprepare, henrol⟩ := done_of_bind hrun
    obtain ⟨r, m₁, hbody, hfill⟩ := done_of_bind hprepare
    exact ⟨rfl, r, m₁, m₂, hbody, hfill, henrol⟩

theorem moduleMachine_kind (m : Machine) (name : String) :
    (moduleMachine m name).store.kind m.store.fresh = .ofModule (m.store.nextModule name) := by
  rw [Store.kind, moduleMachine, Store.withModule, Store.object_rooted]
  exact congrArg Object.kind (if_pos rfl)

/-- The tables of a module are empty when its body is entered. -/
theorem moduleMachine_empty (m : Machine) (name : String) {t : TableId}
    (ht : (m.store.nextModule name).Owns t) : (moduleMachine m name).store.bindings t = [] := by
  have hfree : ∀ i, m.store.tables.size ≤ i →
      (moduleMachine m name).store.bindings (.free i) = [] := fun i hi =>
    congrArg Table.bindings (m.store.moduleTables_table hi)
  rcases ht with rfl | rfl | rfl
  · exact hfree _ (Nat.le_refl _)
  · exact hfree _ (Nat.le_succ _)
  · rw [(m.store.nextModule_placed name).body]
    exact hfree _ (Nat.le_add_right _ 2)

variable (hk : k.Tame) (hm : m.Admits T)

include hk hm

/-- A body tells the names that statements have exported in its own activation. -/
theorem mem_exports
    (hrun : runBodyIn k (moduleActivation m name) body (moduleMachine m name) = .done r m')
    (n : String) :
    n ∈ r.2 ↔
      ∃ q ∈ (runBodyIn k (moduleActivation m name) body).moments (moduleMachine m name),
        q.Exports m.stack n := by
  have hexecute := executeBody_tended hk hm name body
  obtain ⟨flow, m₁, b, rest, hbody, hstack, rfl, -⟩ := runBodyIn_done hrun
  have hend : (k.execute body ((moduleMachine m name).push (moduleActivation m name))).machine? =
      some m₁ := by rw [hbody]; rfl
  obtain ⟨up, c, hup, -, hnotes⟩ := (hexecute.account trivial _ m₁ (.ends hend)).frame _ m.stack rfl
  -- The stack is as high as when the body was entered, so its activation is the one on top.
  obtain rfl : up = [] := by
    have hlength := congrArg List.length (hexecute.ending m₁ hend).stack
    simp only [hup, push, Machine.note, List.length_map, List.length_append, List.length_cons,
      moduleMachine] at hlength
    exact List.eq_nil_of_length_eq_zero (by omega)
  obtain ⟨rfl, -⟩ := List.cons.inj (hstack.symm.trans hup)
  have hrecorded : n ∈ b.recorded Activation.exportKey ↔ (Activation.exportKey, n) ∈ b.notes := by
    simp [Activation.recorded, sortNames, mem_sortBy]
  rw [hrecorded, hnotes, runBodyIn_moments]
  exact or_iff_right (by simp [moduleActivation])

/-- A body that has ended has bound nothing in the other two tables of its module. -/
theorem body_done
    (hbody : runBodyIn k (moduleActivation m name) body (moduleMachine m name) = .done r m') :
    r.1 = (m.store.nextModule name).body ∧ m'.store.HasModule (m.store.nextModule name) ∧
      m'.store.bindings (m.store.nextModule name).hidden = [] ∧
      m'.store.bindings (m.store.nextModule name).shown = [] := by
  have hentered := moduleMachine_admits hm name
  obtain ⟨-, hp⟩ := moduleMachine_step hm name
  obtain ⟨hrun, hhome⟩ := runBodyIn_tended hk hm name body
  have hspares := (hrun.ending m' (by rw [hbody]; rfl)).spares
  have hheld := hentered.tidy.holds hp
  refine ⟨hhome r m' hbody, hp.grows hspares.grows, ?_, ?_⟩
  · rw [hspares.kept _ hheld.1 fun ht => ((hentered.tables _ ht).2 _ hp).1 rfl]
    exact moduleMachine_empty m name (Or.inl rfl)
  · rw [hspares.kept _ hheld.2.1 fun ht => ((hentered.tables _ ht).2 _ hp).2 rfl]
    exact moduleMachine_empty m name (Or.inr (Or.inl rfl))

/-- At the moments of a declaration the same tables may be bound in, and the new module is there. -/
theorem declareModule_passing (hfree : m.store.local? m.modules name = none)
    (hq : q ∈ (declareModule k name body).moments m) (hdeed : ∀ t e, q.deed ≠ .breaks t e) :
    q.machine.Admits T ∧ q.machine.modules = m.modules ∧
      q.machine.store.HasObject m.store.fresh := by
  have hspares := (declareModule_confined hk hm name body).passing hq
  replace hq : q ∈ (runBodyIn k (moduleActivation m name) body).moments (moduleMachine m name) := by
    rcases @declareModule_moments k m name body hfree with heq | ⟨t, e, m', -, heq⟩
    · exact heq ▸ hq
    · rw [heq] at hq
      rcases List.mem_append.mp hq with hq | hq
      · exact hq
      · rw [List.mem_singleton.mp hq] at hdeed
        exact absurd rfl (hdeed t e)
  rw [runBodyIn_moments] at hq
  have hexecute := executeBody_tended hk hm name body
  obtain ⟨before, rest, heq⟩ := List.append_of_mem hq
  have hmodules : q.machine.modules = m.modules :=
    (hexecute.account trivial before _ (.passes heq)).modules
  have hnew : (moduleMachine m name).store.HasObject m.store.fresh :=
    Store.has_of_kind (by rw [moduleMachine_kind]; nofun)
  refine ⟨⟨hspares.tidy, fun t ht => ?_, hmodules ▸ hm.registry⟩, hmodules, ?_⟩
  · exact ⟨(hm.holds t ht).mono hspares.grows.sizes,
      hspares.apart (hm.holds t ht) (hm.tables t ht).2⟩
  · exact hnew.mono (hexecute.passing hq).grows.sizes

/-- What a declaration leaves registered was so before, or is the new module, or was declared by a
statement of the body. -/
theorem registry_origin (hend : (declareModule k name body m).machine? = some m')
    (hc : m'.store.Binds m.modules n c) :
    m.store.Binds m.modules n c ∨
      (n = name ∧ ∃ o, declareModule k name body m = .done o m' ∧ m'.store.cell c = .const o) ∨
      ∃ q ∈ (declareModule k name body).moments m, q.Enrols n c m'.store := by
  cases hlocal : m.store.local? m.modules name with
  | some x =>
    rw [(declareModule_refuses hlocal).run] at hend
    cases hend
    exact Or.inl hc
  | none =>
    have hresumes := @declareModule_resumes k m name body hlocal
    have hprepare := prepareModule_tended hk hm name body
    obtain ⟨hstep, -⟩ := moduleMachine_step hm name
    have hbefore : ∀ m₂, (prepareModule k m name body (moduleMachine m name)).machine? = some m₂ →
        m₂.store.Binds m.modules n c → m.store.Binds m.modules n c ∨
          ∃ q ∈ (declareModule k name body).moments m, q.Enrols n c m₂.store := by
      intro m₂ hm₂ hbinds
      have hmoments : (prepareModule k m name body).moments (moduleMachine m name) =
          (declareModule k name body).moments m := by
        rw [hresumes.moments, moments_bind_silent _ fun _ => enrolModule_silent name _ _]
      have hfound := (hprepare.account trivial _ m₂ (.ends hm₂)).registry n c hbinds
      rwa [hmoments, Store.Binds, hstep.modules, hstep.registry trivial] at hfound
    rw [hresumes.run] at hend
    rcases machine?_bind hend with hfailed | ⟨_, m₂, hdone, henrol⟩
    · exact (hbefore m' hfailed hc).imp_right Or.inr
    have hend₂ : (prepareModule k m name body (moduleMachine m name)).machine? = some m₂ := by
      rw [hdone]
      rfl
    have hstep₂ := hstep.toKeepsTo.trans_of (hprepare.ending m₂ hend₂) (nextModule_opened m name T)
    have hm₂ := hstep₂.admits hm
    have hgrows := ((enrolModule_confined hm₂ name _ _).ending m' henrol).spares.grows
    -- Whatever was registered before the last step stays so.
    have hearlier : m₂.store.Binds m.modules n c → m.store.Binds m.modules n c ∨
        ∃ q ∈ (declareModule k name body).moments m, q.Enrols n c m'.store := by
      intro hbinds
      refine (hbefore m₂ hend₂ hbinds).imp_right ?_
      rintro ⟨q, hq, henrols⟩
      exact ⟨q, hq, henrols.grows hgrows⟩
    obtain ⟨-, -, ⟨-, hregistry⟩ | ⟨hmade, -, x, hregistry, hx⟩⟩ :=
      enrolModule_ends (hm₂.holds _ hm₂.registry) henrol
    · rw [Store.Binds, ← hstep₂.modules, hregistry, hstep₂.modules] at hc
      exact (hearlier hc).imp_right Or.inr
    · rw [Store.Binds, ← hstep₂.modules, hregistry, hstep₂.modules] at hc
      rcases List.mem_cons.mp hc with heq | hc
      · cases heq
        refine Or.inr (Or.inl ⟨rfl, _, ?_, hx⟩)
        rw [hresumes.run, bind_run_done hdone, hmade]
      · exact (hearlier hc).imp_right Or.inr

/-- What statements of the body have registered is registered in the end. -/
theorem enrolled_stays (hfree : m.store.local? m.modules name = none)
    (hq : q ∈ (declareModule k name body).moments m) (h : q.Enrols n c s) :
    s.local? m.modules n = some c ∧ ∃ o, s.cell c = .const o ∧ o ≠ m.store.fresh := by
  obtain ⟨st, body', d, o, m₁, hdeed, -, hrun, hlocal, hcell, hgrows⟩ := h
  obtain ⟨hadmits, hmodules, hhas⟩ :=
    declareModule_passing hk hm hfree hq fun t e => by simp [hdeed]
  have hstep := (declareModule_confined (Inner.tame_ofDepth d) hadmits n body').ending m₁
    (by rw [hrun]; rfl)
  rw [hstep.modules, hmodules] at hlocal
  have hcell' := hgrows.const (hstep.spares.tidy.bound _ _ _ (.of_local? hlocal)) hcell
  refine ⟨hgrows.bound _ _ _ hlocal, o, hcell', ?_⟩
  obtain ⟨-, r, m₂, m₃, -, -, henrol⟩ := declareModule_parts hrun
  rw [enrolModule_value henrol]
  intro heq
  have hindex : q.machine.store.objects.size = m.store.objects.size := congrArg ObjectId.index heq
  exact absurd hhas (by simp [Store.HasObject, hindex])

end Eval

namespace Machine

variable {m m₁ m' : Machine} {T : TableId → Prop} {name : String} {body : Block} {k : Inner}

/-- The table of modules may be bound in. -/
theorem Reachable.admits (h : Reachable m) : m.Admits (· = m.modules) := by
  refine ⟨h.tidy, ?_, rfl⟩
  rintro t rfl
  refine ⟨h.sound.modules.holds, ?_⟩
  rintro p ⟨o, ho⟩
  have hproper : p.Proper initial.modules := by
    have hkind := h.proper.store.kinds o
    rwa [ho] at hkind
  rw [h.proper.modules]
  exact ⟨hproper.hidden.2.symm, hproper.shown.2.symm⟩

/-- A module has been declared: its body passed the moments `t` and left `m₁`, where `home` is its
top-level table. -/
structure Declared (name : String) (t : List Moment) (home : TableId) (m m₁ m' : Machine)
    (o : ObjectId) : Prop where
  free : m.store.local? m.modules name = none
  fresh : ¬ m.store.HasObject o
  registry : ∃ x, m'.store.cell x = .const o ∧ ∀ n c, m'.store.local? m'.modules n = some c ↔
    m.store.local? m.modules n = some c ∨ (n = name ∧ c = x) ∨ ∃ q ∈ t, q.Enrols n c m'.store
  frame : ∀ q ∈ t, ∃ up b, q.machine.stack = up ++ b :: m.stack ∧ b.owner = o
  tables : ∃ p, m'.store.kind o = .ofModule p ∧ p.name = name ∧
    (∀ n, m'.store.local? p.hidden n = m'.store.local? home n ∧
      m'.store.local? home n = m₁.store.local? home n) ∧
    (∀ n, (∃ c, m'.store.local? p.shown n = some c) ↔ ∃ q ∈ t, q.Exports m.stack n) ∧
    ∀ n c, m'.store.local? p.shown n = some c →
      ∃ x, m'.store.cell c = .view x ∧ m'.store.local? p.hidden n = some x

section Runs

/-- Names that a table had before are found there, also where bindings are spoken of. -/
theorem local?_of_earlier {t : TableId} (hg : m.store.Grows m'.store) (hold : m.store.Binds t n c)
    (hnow : m'.store.local? t n = some c) :
    m.store.local? t n = some c := by
  obtain ⟨x, hx⟩ := hold.exists_local?
  rw [hx, ← hg.bound t n x hx, hnow]

variable (hk : k.Tame) (hm : m.Admits T)

include hk hm

/-- The tables of a module once it is registered. -/
theorem declared_tables {m₂ : Machine}
    (hbody : Eval.runBodyIn k (Eval.moduleActivation m name) body
      (Eval.moduleMachine m name) = .done r m₁)
    (hfill : Eval.fillModule (m.store.nextModule name) r.1 r.2 m₁ = .done () m₂)
    (henrol : Eval.enrolModule name (m.store.nextModule name) o m₂ = .done o m') :
    let p := m.store.nextModule name
    m'.store.kind m.store.fresh = .ofModule p ∧
      (∃ x, m'.store.local? m'.modules name = some x ∧ m'.store.cell x = .const o) ∧
      r.1 = p.body ∧ m'.store.Tidy ∧
      m'.store.bindings p.body = m₁.store.bindings p.body ∧
      (∀ x, x ∈ m'.store.bindings p.hidden ↔ x ∈ m₁.store.bindings p.body) ∧
      (m'.store.bindings p.shown).map Prod.fst = r.2.reverse := by
  intro p
  have hentered := Eval.moduleMachine_admits hm name
  have hstep₁ := (Eval.runBodyIn_tended hk hm name body).1.ending m₁ (by rw [hbody]; rfl)
  have hm₁ := hstep₁.admits hentered
  obtain ⟨hhome, hp₁, hempty⟩ := Eval.body_done hk hm hbody
  rw [hhome] at hfill
  obtain ⟨hhidden, hshown, hkept⟩ := Eval.fillModule_done hm₁ hp₁ hempty.1 hempty.2 hfill
  have hstep₂ := (Eval.fillModule_tended hm₁ hp₁ r.2).ending m₂ (by rw [hfill]; rfl)
  have hm₂ := hstep₂.admits hm₁
  have hp₂ := hp₁.grows hstep₂.spares.grows
  -- The registration binds a name in the table of modules only, which is none of these.
  have hregistry : m₂.Admits (· = m₂.modules) :=
    ⟨hm₂.tidy, fun t ht => ht ▸ hm₂.tables _ hm₂.registry, rfl⟩
  have hstep₃ := (Eval.enrolModule_confined hregistry name p o).ending m' (by rw [henrol]; rfl)
  have hapart := (hm₂.tables _ hm₂.registry).2 p hp₂
  have hbodyNe : p.body ≠ m₂.modules := by
    rw [hstep₂.modules, hstep₁.modules]
    intro heq
    exact Eval.nextModule_new m.store name (Or.inr (Or.inr rfl)) (heq ▸ hm.holds _ hm.registry)
  obtain ⟨hhiddenHeld, hshownHeld, hbodyHeld⟩ := hm₂.tidy.holds hp₂
  have hgrows := hstep₁.spares.grows.trans (hstep₂.spares.grows.trans hstep₃.spares.grows)
  refine ⟨hgrows.kind_of_ne (Eval.moduleMachine_kind m name) nofun, ?_, hhome,
    hstep₃.spares.tidy, ?_, ?_, ?_⟩
  · have hend : (Eval.enrolModule name p o m₂).machine? = some m' := by rw [henrol]; rfl
    obtain ⟨-, hmodules, ⟨⟨e, hfailed⟩, -⟩ | ⟨-, -, x, hbindings, hx⟩⟩ :=
      Eval.enrolModule_ends (hm₂.holds _ hm₂.registry) hend
    · cases hfailed.symm.trans henrol
    · refine ⟨x, ?_, hx⟩
      rw [hmodules, Store.local?, hbindings, List.lookup_cons_self]
  · rw [hstep₃.spares.kept p.body hbodyHeld hbodyNe, hkept]
  · rw [hstep₃.spares.kept p.hidden hhiddenHeld hapart.1.symm]
    exact hhidden
  · rw [hstep₃.spares.kept p.shown hshownHeld hapart.2.symm, hshown]

theorem declared_of_done (hrun : Eval.declareModule k name body m = .done o m') :
    ∃ home exports m₁,
      Eval.runBodyIn k (Eval.moduleActivation m name) body (Eval.moduleMachine m name) =
        .done (home, exports) m₁ ∧
      Declared name ((Eval.declareModule k name body).moments m) home m m₁ m' o := by
  obtain ⟨hfree, r, m₁, m₂, hbody, hfill, henrol⟩ := Eval.declareModule_parts hrun
  obtain rfl := Eval.enrolModule_value henrol
  obtain ⟨hkind, ⟨x, hx, hcell⟩, hhome, htidy, hkept, hhidden, hshown⟩ :=
    declared_tables hk hm hbody hfill henrol
  have hp : m'.store.HasModule (m.store.nextModule name) := ⟨_, hkind⟩
  have hend : (Eval.declareModule k name body m).machine? = some m' := by rw [hrun]; rfl
  have hstep := (Eval.declareModule_confined hk hm name body).ending m' hend
  have hsame := htidy.local?_hidden hp fun y => by rw [hkept]; exact hhidden y
  refine ⟨r.1, r.2, m₁, hbody, hfree, Nat.lt_irrefl _, ⟨x, hcell, fun n c => ?_⟩, ?_,
    m.store.nextModule name, hkind, rfl, fun n => ?_, fun n => ?_, fun n c hc => ?_⟩
  · rw [hstep.modules] at hx ⊢
    refine ⟨fun hc => ?_, ?_⟩
    · rcases Eval.registry_origin hk hm hend (.of_local? hc) with hold | ⟨rfl, -⟩ | henrols
      · exact Or.inl (local?_of_earlier hstep.spares.grows hold hc)
      · exact Or.inr (Or.inl ⟨rfl, Option.some.inj (hc.symm.trans hx)⟩)
      · exact Or.inr (Or.inr henrols)
    · rintro (hold | ⟨rfl, rfl⟩ | ⟨q, hq, henrols⟩)
      · exact hstep.spares.grows.bound _ n c hold
      · exact hx
      · exact (Eval.enrolled_stays hk hm hfree hq henrols).1
  · intro q hq
    rw [Eval.declareModule_moments_done hfree hrun] at hq
    rw [Eval.runBodyIn_moments] at hq
    obtain ⟨before, rest, heq⟩ := List.append_of_mem hq
    have haccount := (Eval.executeBody_tended hk hm name body).account trivial before _
      (.passes heq)
    obtain ⟨up, b, hup, howner, -⟩ := haccount.frame _ m.stack rfl
    exact ⟨up, b, hup, howner⟩
  · rw [hhome]
    exact ⟨hsame n, by rw [Store.local?, hkept, Store.local?]⟩
  · have hnames : (∃ c, m'.store.local? (m.store.nextModule name).shown n = some c) ↔ n ∈ r.2 := by
      rw [← List.mem_reverse, ← hshown, List.mem_map]
      constructor
      · rintro ⟨c, hc⟩
        exact ⟨(n, c), Store.Binds.of_local? hc, rfl⟩
      · rintro ⟨⟨_, c⟩, hc, rfl⟩
        exact Store.Binds.exists_local? hc
    rw [hnames, Eval.declareModule_moments_done hfree hrun]
    exact Eval.mem_exports hk hm hbody n
  · obtain ⟨y, hview, hbinds⟩ := htidy.shown _ n c hp (.of_local? hc)
    refine ⟨y, hview, ?_⟩
    rw [hsame n]
    exact htidy.body _ n y hp (htidy.hidden _ n y hp hbinds)

/-- A declaration that fails leaves the registered modules, and does not register its own. -/
theorem registry_of_failed {e : Error}
    (hentries : ∀ n c, m.store.Binds m.modules n c → ∃ o, m.store.cell c = .const o ∧
      m.store.HasObject o)
    (hrun : Eval.declareModule k name body m = .failed e m') (n : String) (c : CellId) :
    (m.store.local? m.modules n = some c →
      m'.store.local? m'.modules n = some c ∧ m'.store.cell c = m.store.cell c) ∧
    (m'.store.local? m'.modules n = some c →
      m'.store.cell c ≠ .const m.store.fresh ∧
      (m.store.local? m.modules n = some c ∨
        ∃ q ∈ (Eval.declareModule k name body).moments m, q.Enrols n c m'.store)) := by
  have hend : (Eval.declareModule k name body m).machine? = some m' := by rw [hrun]; rfl
  have hstep := (Eval.declareModule_confined hk hm name body).ending m' hend
  have hgrows := hstep.spares.grows
  -- An entry that was there holds an object that was there.
  have hold : m.store.local? m.modules n = some c → m'.store.cell c = m.store.cell c ∧
      m'.store.cell c ≠ .const m.store.fresh := by
    intro hc
    obtain ⟨o, ho, hhas⟩ := hentries n c (.of_local? hc)
    have hkept := hgrows.const (hm.tidy.bound _ n c (.of_local? hc)) ho
    refine ⟨hkept.trans ho.symm, ?_⟩
    rw [hkept]
    intro heq
    obtain rfl := Cell.const.inj heq
    exact absurd hhas (Nat.lt_irrefl _)
  rw [hstep.modules]
  refine ⟨fun hc => ⟨hgrows.bound _ n c hc, (hold hc).1⟩, fun hc => ?_⟩
  rcases Eval.registry_origin hk hm hend (.of_local? hc) with hbinds | ⟨-, o, hdone, -⟩ | henrols
  · have hearlier := local?_of_earlier hgrows hbinds hc
    exact ⟨(hold hearlier).2, Or.inl hearlier⟩
  · cases hdone.symm.trans hrun
  · obtain ⟨q, hq, henrols⟩ := henrols
    refine ⟨?_, Or.inr ⟨q, hq, henrols⟩⟩
    cases hlocal : m.store.local? m.modules name with
    | some x =>
      rw [(Eval.declareModule_refuses hlocal).moments, fail, moments_quiet] at hq
      cases hq
    | none =>
      obtain ⟨-, o, ho, hne⟩ := Eval.enrolled_stays hk hm hlocal hq henrols
      rw [ho]
      exact fun heq => hne (Cell.const.inj heq)

/-- A body that exports a name without binding it makes the declaration fail. -/
theorem fails_of_unbound {home : TableId}
    (hbody : Eval.runBodyIn k (Eval.moduleActivation m name) body (Eval.moduleMachine m name) =
      .done (home, exports) m₁)
    (hn : n ∈ exports) (hnone : m₁.store.local? home n = none) :
    ∃ e m', Eval.declareModule k name body m = .failed e m' := by
  cases hrun : Eval.declareModule k name body m with
  | failed e m' => exact ⟨e, m', rfl⟩
  | done o m' =>
    obtain ⟨home', exports', m₁', hbody', hdeclared⟩ := declared_of_done hk hm hrun
    cases hbody.symm.trans hbody'
    obtain ⟨p, -, -, hhidden, hshown, hviews⟩ := hdeclared.tables
    rw [Eval.mem_exports hk hm hbody, ← Eval.declareModule_moments_done hdeclared.free hrun,
      ← hshown] at hn
    obtain ⟨c, hc⟩ := hn
    obtain ⟨x, -, hx⟩ := hviews n c hc
    rw [(hhidden n).1, (hhidden n).2, hnone] at hx
    cases hx
  | exhausted =>
    cases hlocal : m.store.local? m.modules name with
    | some x =>
      rw [(Eval.declareModule_refuses hlocal).run] at hrun
      cases hrun
    | none =>
      rw [(Eval.declareModule_resumes hlocal).run, Eval.prepareModule, bind_run,
        bind_run_done hbody] at hrun
      cases hfill : Eval.fillModule (m.store.nextModule name) home exports m₁ with
      | exhausted => exact absurd hfill (Eval.fillModule_ne_exhausted _ _ _ _)
      | failed e m₂ =>
        rw [hfill] at hrun
        cases hrun
      | done u m₂ =>
        rw [hfill] at hrun
        obtain ⟨_, -, ⟨-, hend⟩ | ⟨-, ⟨f, -, hend⟩ | ⟨-, hend⟩⟩⟩ := Eval.enrolModule_run m₂ name
          (m.store.nextModule name) m.store.fresh
        · cases hend.symm.trans hrun
        · cases hend.symm.trans hrun
        · cases hend.symm.trans hrun

end Runs

/-- In every state of a run: a declaration that succeeds finds its name free, adds a new module to
those registered before and to those that statements of its body have registered, gives it the
bindings of its body, and shows those that the body's own activation has exported, as views. If it
fails, every entry is as it was and the module it began is not registered; and it does fail when the
name is taken, when the body fails, and when a name is exported that the body does not bind. -/
theorem declaration_registers (h : Reachable m) (d : Nat) (name : String) (body : Block) :
    (∀ o m', Eval.declareModule (.ofDepth d) name body m = .done o m' →
      ∃ home exports m₁, Eval.runBodyIn (.ofDepth d) (Eval.moduleActivation m name) body
          (Eval.moduleMachine m name) = .done (home, exports) m₁ ∧
        Declared name ((Eval.declareModule (.ofDepth d) name body).moments m) home m m₁ m' o) ∧
    (∀ e m', Eval.declareModule (.ofDepth d) name body m = .failed e m' → ∀ n c,
      (m.store.local? m.modules n = some c →
        m'.store.local? m'.modules n = some c ∧ m'.store.cell c = m.store.cell c) ∧
      (m'.store.local? m'.modules n = some c →
        m'.store.cell c ≠ .const (Eval.moduleActivation m name).owner ∧
        (m.store.local? m.modules n = some c ∨
          ∃ q ∈ (Eval.declareModule (.ofDepth d) name body).moments m,
            q.Enrols n c m'.store))) ∧
    (∀ c, m.store.local? m.modules name = some c →
      (Eval.declareModule (.ofDepth d) name body m).Refuses m .symbol) ∧
    (∀ e m₁, m.store.local? m.modules name = none →
      Eval.runBodyIn (.ofDepth d) (Eval.moduleActivation m name) body
        (Eval.moduleMachine m name) = .failed e m₁ →
      Eval.declareModule (.ofDepth d) name body m = .failed e m₁) ∧
    ∀ home exports m₁ n, Eval.runBodyIn (.ofDepth d) (Eval.moduleActivation m name) body
        (Eval.moduleMachine m name) = .done (home, exports) m₁ →
      n ∈ exports → m₁.store.local? home n = none →
      ∃ e m', Eval.declareModule (.ofDepth d) name body m = .failed e m' := by
  have hk := Inner.tame_ofDepth d
  have hm := h.admits
  refine ⟨fun o m' => declared_of_done hk hm, fun e m' hrun n c => ?_, fun c hc => ?_,
    fun e m₁ hfree hbody => ?_, fun home exports m₁ n => fails_of_unbound hk hm⟩
  · refine registry_of_failed hk hm (fun n c hc => ?_) hrun n c
    rw [h.proper.modules] at hc
    obtain ⟨p, -, ⟨o, ho, hkind⟩, -⟩ := h.proper.store.enrolled n c hc
    exact ⟨o, ho, Store.has_of_kind (by rw [hkind]; nofun)⟩
  · exact Eval.declareModule_taken hc body
  · rw [(Eval.declareModule_resumes hfree).run, Eval.prepareModule, bind_run, bind_run, hbody]

/-- The program declares the module; declared once more, it is refused and stays registered. -/
theorem declaration_registers_exporting : ∃ m d body o m₁ m₂ c e m₃,
    Reachable m ∧ Eval.declareModule (.ofDepth d) "a" body m = .done o m₁ ∧
    m.store.local? m.modules "a" = none ∧ ¬ m.store.HasObject o ∧
    (∃ p, m₁.store.kind o = .ofModule p ∧ p.name = "a") ∧
    Reachable m₂ ∧ m₂.store.local? m₂.modules "a" = some c ∧
    Eval.declareModule (.ofDepth 0) "a" [] m₂ = .failed e m₃ ∧
    m₃.store.local? m₃.modules "a" = some c ∧ m₃.store.cell c = m₂.store.cell c := by
  obtain ⟨m₂, hend, x, hx⟩ := exporting_run
  obtain ⟨c, o, p, hc, -⟩ := shownCell?_eq_some hx
  have hreachable : Reachable m₂ := .between (.next .start 24 exportingSource hend)
  -- Nothing is registered at the start, so a statement of the program has declared the module.
  obtain ⟨q, d, body, o', m₁, hq, hrun⟩ : ∃ q d body o m₁, Reachable q ∧
      Eval.declareModule (.ofDepth d) "a" body q = .done o m₁ := by
    obtain ⟨owner, main, hinitial⟩ := initial_atMain
    have haccount := (After.start.tended hinitial 24 exportingSource).account trivial _
      m₂ (.ends hend)
    have hbinds := Store.Binds.of_local? hc
    rw [haccount.modules] at hbinds
    rcases haccount.registry "a" c hbinds with hearlier | ⟨q, hq, st, body, d, o, m₁, -, -, hrun, -⟩
    · rw [Store.Binds, start_initial.2.registry] at hearlier
      cases hearlier
    · exact ⟨q.machine, d, body, o, m₁, .of_moment .start hq, hrun⟩
  obtain ⟨f, hfailed, -⟩ := (declaration_registers hreachable 0 "a" []).2.2.1 c hc
  obtain ⟨hkept, -⟩ := (declaration_registers hreachable 0 "a" []).2.1 _ m₂ hfailed "a" c
  obtain ⟨home, exports, m₀, -, hdeclared⟩ := (declaration_registers hq d "a" body).1 o' m₁ hrun
  obtain ⟨p', hkind, hname, -⟩ := hdeclared.tables
  exact ⟨q, d, body, o', m₁, m₂, c, _, m₂, hq, hrun, hdeclared.free, hdeclared.fresh,
    ⟨p', hkind, hname⟩, hreachable, hc, hfailed, hkept hc⟩

end Machine

end ObjectLang
