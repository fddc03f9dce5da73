import ObjectLang.Proofs.Eval.Discipline
import ObjectLang.Proofs.Eval.Fill
import ObjectLang.Proofs.Machine.Tame

/-!
Objects, calls, modules and programs are tame, to every depth.
Code declares names in the scope that was opened for it and in nothing older.
A module gets three tables when it is declared: one for all its bindings, one for what it shows, and
one that its body runs on. When the body has ended, the first takes over the cells of the third, and
the second gets views of them. So a program binds names in the main table and in that of the
modules, and in nothing else that it finds.
-/
namespace ObjectLang

open Machine Routine

namespace Eval

theorem makeRooted_tended {T : TableId → Prop} {m : Machine} (hm : m.Admits T) {kind : Kind}
    (hkind : m.store.Regular kind) (type : Roots → ObjectId) :
    (makeRooted kind type).Tended True T m := by
  refine .bind_read hm.tidy (.bind_newObject hm hkind fun o m₁ hm₁ _ => ?_)
  refine Tame.tended (g := .none) ?_ _ m₁ hm₁ trivial
  exact (Tame.alike fun s => s.setFace_alike o o).bind fun _ =>
    (Tame.alike fun s => s.setType_alike o _).bind fun _ => .pure o

end Eval

attribute [local instance] Routine.lawful in
def Discipline.tame : Discipline where
  Ground := Grant
  ρ := .rest
  Keeps g x _ := x.Tame g
  registry := none
  table _ := .table
  parts _ := .parts
  head _ := .head
  called _ := .none
  Sees _ := True
  sees_called _ := trivial
  sees_head := id
  outOfFuel := .outOfFuel
  pure {_ _ _ a _} _ := .pure a
  bind := .bind
  bind_fail _ := .bind_fail _
  bind_see _ hf := ⟨fun T m hm hg => .bind_see hm.tidy ((hf m.store).tended T m hm hg)⟩
  bind_kind _ _ _ hf := (Tame.see _).bind fun kind => hf kind nofun
  read _ _ := .read _
  bind_peek _ hf := (Tame.peek _).bind fun a => hf a nofun
  touch hd := .touch ⟨hd.plain, hd.mute⟩
  bind_identifies hy := Tame.bind (.touch ⟨by trivial, by trivial⟩) fun _ => hy (Shift.move_rest _)
  assign := .assign
  alike h _ := .alike h
  note e _ := .note e
  writeLine := .writeLine
  bind_attempt hx hf _ := hx.attempt.bind fun r => hf r fun e _ => .failWith e
  leaving _ hx := hx.onError fun _ => ⟨trivial, trivial⟩
  doing t hx := hx.doing t
  bind_newTable := .bind_newTable
  bind_newObject hregular _ _ := .bind_newObject hregular
  bind_rooted {_ _ _ _ type _ _} _ hregular _ hf := by
    simp only [Eval.makeRooted, bind_assoc, pure_bind]
    refine (Tame.read _).bind fun roots => .bind_newObject hregular fun o => ?_
    exact (Tame.alike fun s => s.setFace_alike o o).bind fun _ =>
      (Tame.alike fun s => s.setType_alike o (type roots)).bind fun _ => hf o
  define {_ t name} v _ := .defineConst (Grant.opens_table t) name v
  definePart {_ o p name _} hview _ :=
    .newCell_define hview (Grant.opens_part o p) name
  defineField {_ o _ _} hview _ := by
    refine ⟨fun T m hm hparts => .bind_newCell hm.tidy (fun x hx => absurd hx (hview x)) ?_⟩
    intro c m₁ hstep hhas _ hfree
    have hm₁ := hstep.admits hm
    refine .bind hm₁.holds (.touch hm₁.tidy (by trivial) fun _ => by trivial) ?_
    rintro _ _ ⟨⟩ -
    have hopen := (Grant.parts o).lasts hstep hparts .fields
    exact .define hm₁ (hopen.imp_right fun hne _ => hne) hhas fun _ _ => hfree
  declare hview _ := .newCell_declare hview _
  bind_newActivation _ hf := .bind_newActivation fun a t rest => hf a t rest nofun
  bind_capture _ hf := .bind_capture _ fun copy => hf .none copy nofun
  withActivation _ := .withActivation
  withScope {_ _ _ t _ _} := .withScope (Grant.opens_table t)

abbrev Inner.Tame (k : Inner) : Prop := Discipline.tame.Binds k

/-- Nothing is asked of a program. -/
theorem Discipline.tame_takes (xs : List Mention) : Mention.Each Discipline.tame.Takes xs :=
  fun _ _ _ h => nomatch h

theorem Inner.Tame.execute {k : Inner} (hk : k.Tame) (b : Block) : (k.execute b).Tame .head :=
  hk.executes .none b (Discipline.tame_takes _)

namespace Store

variable {s : Store}

theorem Adjoins.newEmpty (h : s.Tidy) : s.Adjoins (s.newTable .empty).2 :=
  .newTable h (by simp [Table.empty]) (by simp [Table.empty]) (by simp [Table.empty])

def moduleTables (s : Store) : Store :=
  (((s.newTable .empty).2.newTable .empty).2.newTable .empty).2

theorem moduleTables_adjoins (h : s.Tidy) : s.Adjoins s.moduleTables := by
  have hfirst := Adjoins.newEmpty h
  have hsecond := Adjoins.newEmpty hfirst.tidy
  exact hfirst.trans (hsecond.trans (.newEmpty hsecond.tidy))

theorem moduleTables_table {i : Nat} (hi : s.tables.size ≤ i) :
    s.moduleTables.table i = .empty := by
  simp only [moduleTables, table_newTable]
  split
  · rfl
  · split
    · rfl
    · split
      · rfl
      · exact table_of_size_le hi

def nextModule (s : Store) (name : String) : ModuleParts :=
  ⟨name, .free s.tables.size, .free (s.tables.size + 1)⟩

theorem nextModule_placed (s : Store) (name : String) :
    (s.nextModule name).Placed s.tables.size := ⟨rfl, rfl⟩

def withModule (s : Store) (root type : ObjectId) (name : String) : Store :=
  (s.moduleTables.rooted root type (.ofModule (s.nextModule name))).2

theorem withModule_spares (h : s.Tidy) (T : TableId → Prop) (root type : ObjectId)
    (name : String) :
    s.Spares T (s.withModule root type name) ∧
      (s.withModule root type name).HasModule (s.nextModule name) := by
  have hadjoins := moduleTables_adjoins h
  have hplaced := s.nextModule_placed name
  have hsize : s.moduleTables.tables.size = s.tables.size + 3 := by simp [moduleTables]
  have hmade : (s.moduleTables.newObject (some root) (.ofModule (s.nextModule name))).2.Tidy := by
    refine hadjoins.tidy.newModule (some root) hplaced (by omega) ?_ ?_ ?_ ?_
    · exact congrArg Table.outer (moduleTables_table (Nat.le_refl _))
    · exact congrArg Table.outer (moduleTables_table (Nat.le_succ _))
    · rintro t (rfl | rfl | rfl)
      · exact congrArg Table.bindings (moduleTables_table (Nat.le_refl _))
      · exact congrArg Table.bindings (moduleTables_table (Nat.le_succ _))
      · exact congrArg Table.bindings (moduleTables_table (Nat.le_add_right _ 2))
    · intro p' j hp' hj
      obtain ⟨o, ho⟩ := hp'
      rw [Store.kind, hadjoins.object_eq] at ho
      obtain ⟨i, hi, hisize, -⟩ := h.placed p' ⟨o, ho⟩
      exact hj.index_eq hi ▸ hisize
  have halike : (s.moduleTables.newObject (some root) (.ofModule (s.nextModule name))).2.Alike
      (s.withModule root type name) := (setFace_alike _ _ _).trans (setType_alike _ _ _)
  have hmodule : ∀ p', (s.withModule root type name).HasModule p' ↔
      s.HasModule p' ∨ p' = s.nextModule name := by
    intro p'
    have hbefore : s.HasModule p' ↔ s.moduleTables.HasModule p' := by
      simp only [HasModule, Store.kind, hadjoins.object_eq]
    rw [hbefore, ← hasModule_newObject (some root) (s.nextModule name) p']
    simp only [HasModule, Store.kind, halike.kind]
  refine ⟨⟨hmade.of_alike halike, ?_, ?_, ?_⟩, (hmodule _).mpr (Or.inr rfl)⟩
  · exact hadjoins.grows.trans (rooted_grows _ root type _)
  · intro t ht _
    rw [halike.bindings_eq, bindings_newObject, hadjoins.bindings_eq ht]
  · intro p' hp'
    exact ((hmodule p').mp hp').imp_right fun heq => ⟨_, heq ▸ hplaced, Nat.le_refl _⟩

end Store

namespace Eval

variable {k : Inner} {g : Grant}

theorem refuseTaken_tame (name : String) : (refuseTaken name).Tame g := by
  refine (Tame.read _).bind fun _ => (Tame.see _).bind fun c => ?_
  split
  · exact .fail _
  · exact .pure ()

theorem refuseTaken_silent (name : String) : (refuseTaken name).Silent := by
  refine (silent_quiet _).bind fun _ => (silent_quiet _).bind fun c => ?_
  split
  · exact silent_quiet _
  · exact silent_pure _

/-- Gives a module what its body has bound on the table `home`, and shows what it exports. -/
def fillModule (p : ModuleParts) (home : TableId) (exports : List String) : Routine Unit := do
  defineAll p.hidden (← see fun s => (s.bindings home).sorted)
  exports.forM (showName p)

def enrolModule (name : String) (p : ModuleParts) (o : ObjectId) : Routine ObjectId := do
  note (.moduleRegistered name (← see fun s => (s.bindings p.shown).length))
  registerModule name o
  return o

variable {T : TableId → Prop} {m m' : Machine} {p : ModuleParts} {name : String} {body : Block}
  {r : TableId × List String} {names : List String} {a : Activation} {s : Statement} {c : CellId}

/-- The names of the body are taken over one after the other; the body binds no more of them. -/
theorem takeOver_tended (hm : m.store.Tidy) (hp : m.store.HasModule p)
    (hne : p.hidden ≠ m.modules) :
    (defineAll p.hidden (m.store.bindings p.body).sorted).Tended True (· = p.hidden) m := by
  have hbody : p.body ≠ p.hidden := (hm.tables_ne hp hp).2.1.symm
  refine .each hm (fun t (ht : t = p.hidden) => ht ▸ (hm.holds hp).1) _ fun b hb m₁ hstep => ?_
  have hbinds : m₁.store.Binds p.body b.1 b.2 := by
    rw [Store.Binds, hstep.spares.kept p.body (hm.holds hp).2.2 hbody]
    exact (mem_sortBy _).mp hb
  have hm₁ := hstep.spares.tidy
  have hp₁ := hp.grows hstep.spares.grows
  have hholds := (hm₁.holds hp₁).1
  have hdefine : (define p.hidden b.1 b.2).Tended True (· = p.hidden) m₁ :=
    .define_of_tidy hm₁ ⟨rfl, fun _ => hstep.modules ▸ hne⟩ hholds (hm₁.bind_hidden hp₁ hbinds)
  exact hdefine.doing _

theorem showName_tended (hm : m.store.Tidy) (hp : m.store.HasModule p) (hne : p.shown ≠ m.modules)
    (n : String) : (showName p n).Tended True (· = p.shown) m := by
  obtain ⟨i, -, -, houter, -⟩ := hm.placed p hp
  refine .bind_see hm ?_
  cases hc : m.store.lookup p.hidden n with
  | none => exact .bind_fail hm _
  | some c =>
    have hbinds : m.store.Binds p.hidden n c := .of_lookup houter hc
    refine .of_resumes hm (.bind rfl (moments_pure c m)) ?_
    refine .bind_newCell hm ?_ fun v m₁ hstep _ hv _ => ?_
    · rintro x ⟨⟩
      exact ⟨p, n, hp, hbinds⟩
    · have hm₁ := hstep.spares.tidy
      have hp₁ := hp.grows hstep.spares.grows
      have hholds := (hm₁.holds hp₁).2.1
      have hbinds₁ : m₁.store.Binds p.hidden n c := by
        rw [Store.Binds, hstep.spares.kept p.hidden (hm.holds hp).1 (hm.tables_ne hp hp).1]
        exact hbinds
      have hdefine : (define p.shown n v).Tended True (· = p.shown) m₁ :=
        .define_of_tidy hm₁ ⟨rfl, fun _ => hstep.modules ▸ hne⟩ hholds
          (hm₁.bind_shown hp₁ hv hbinds₁)
      exact hdefine.doing _

/-- The exports are shown one after the other. -/
theorem showAll_tended (hm : m.store.Tidy) (hp : m.store.HasModule p) (hne : p.shown ≠ m.modules)
    (exports : List String) : (exports.forM (showName p)).Tended True (· = p.shown) m := by
  refine .each hm (fun t (ht : t = p.shown) => ht ▸ (hm.holds hp).2.1) exports
    fun x _ m₁ hstep => ?_
  exact showName_tended hstep.spares.tidy (hp.grows hstep.spares.grows) (hstep.modules ▸ hne) x

/-- The two tables of a module may be bound in beside those that are open. -/
theorem module_holds (hm : m.Admits T) (hp : m.store.HasModule p) :
    ∀ t, opening p.hidden (opening p.shown T) t → m.store.Holds t := by
  rintro t (rfl | rfl | ht)
  · exact (hm.tidy.holds hp).1
  · exact (hm.tidy.holds hp).2.1
  · exact hm.holds t ht

/-- The tables of a module take the names of its body and of its exports. -/
theorem fillModule_tended (hm : m.Admits T) (hp : m.store.HasModule p) (exports : List String) :
    (fillModule p p.body exports).Tended True (opening p.hidden (opening p.shown T)) m := by
  have hapart := (hm.tables _ hm.registry).2 p hp
  refine .bind_see hm.tidy (.bind (module_holds hm hp) ?_ fun _ m₁ _ hstep => ?_)
  · exact (takeOver_tended hm.tidy hp hapart.1.symm).weaken hm.tidy fun t _ ht => Or.inl ht
  · have hshow := showAll_tended hstep.spares.tidy (hp.grows hstep.spares.grows)
      (hstep.modules ▸ hapart.2.symm) exports
    exact hshow.weaken hstep.spares.tidy fun t _ ht => Or.inr (Or.inl ht)

theorem enrolModule_silent (name : String) (p : ModuleParts) (o : ObjectId) :
    (enrolModule name p o).Silent := by
  refine (silent_quiet _).bind fun _ => (silent_quiet _).bind fun _ => ?_
  refine Silent.bind ((refuseTaken_silent name).bind fun _ => ?_) fun _ => silent_pure _
  exact (silent_quiet _).bind fun _ => (silent_quiet _).bind fun _ => silent_quiet _

theorem enrolModule_confined (hm : m.Admits T) (name : String) (p : ModuleParts) (o : ObjectId) :
    (enrolModule name p o).Confined T m := by
  refine .bind_see hm.tidy (.bind hm.holds (.note hm.tidy _) fun _ m₁ _ hstep₁ => ?_)
  have hm₁ := hstep₁.admits hm
  have hregister : (registerModule name o).Confined T m₁ := by
    refine .bind hm₁.holds
      ((refuseTaken_tame name).tended T m₁ hm₁ (g := .none) trivial).confined ?_
    intro _ m₂ _ hstep₂
    have hm₂ := hstep₂.admits hm₁
    exact .bind_read hm₂.tidy (.bind_newCell_define hm₂ (by simp) ⟨hm₂.registry, False.elim⟩ name)
  exact .bind hm₁.holds hregister fun _ m₂ _ hstep₂ => .pure (hstep₂.admits hm₁).tidy o

/-- The three ways in which a registration can go. -/
theorem enrolModule_run (m : Machine) (name : String) (p : ModuleParts) (o : ObjectId) :
    ∃ m₁ : Machine, m₁ = m.note (.moduleRegistered name (m.store.bindings p.shown).length) ∧
      ((m.store.local? m.modules name ≠ none ∧
          enrolModule name p o m = .failed (.fault (.moduleTaken name)) m₁) ∨
        m.store.local? m.modules name = none ∧
          ((∃ f, (m.store.newCell (.const o)).2.refusal? m.modules name = some f ∧
              enrolModule name p o m =
                .failed (.fault f) { m₁ with store := (m.store.newCell (.const o)).2 }) ∨
            (m.store.newCell (.const o)).2.refusal? m.modules name = none ∧
              enrolModule name p o m =
                .done o { m₁ with store := m.store.addConst m.modules name o })) := by
  refine ⟨_, rfl, ?_⟩
  cases hlocal : m.store.local? m.modules name with
  | some c =>
    refine Or.inl ⟨by simp, ?_⟩
    simp [enrolModule, registerModule, refuseTaken, bind_run, see, quiet, Routine.note,
      Routine.modify, Routine.read, Machine.note, hlocal, Routine.fail]
  | none =>
    refine Or.inr ⟨rfl, ?_⟩
    cases hrefusal : (m.store.newCell (.const o)).2.refusal? m.modules name with
    | some f =>
      refine Or.inl ⟨f, rfl, ?_⟩
      simp [enrolModule, registerModule, refuseTaken, bind_run, see, quiet, Routine.note,
        Routine.modify, Routine.read, Machine.note, hlocal, Routine.defineConst, Routine.newCell,
        make, Routine.define, pure_run, hrefusal]
    | none =>
      refine Or.inr ⟨rfl, ?_⟩
      simp [enrolModule, registerModule, refuseTaken, bind_run, see, quiet, Routine.note,
        Routine.modify, Routine.read, Machine.note, hlocal, Routine.defineConst, Routine.newCell,
        make, Routine.define, pure_run, hrefusal, Store.addConst]

/-- A module is registered if it succeeds, and otherwise nothing is. -/
theorem enrolModule_ends (hholds : m.store.Holds m.modules) {o : ObjectId}
    (hend : (enrolModule name p o m).machine? = some m') :
    m'.stack = m.stack ∧ m'.modules = m.modules ∧
      ((∃ e, enrolModule name p o m = .failed e m') ∧
          m'.store.bindings m.modules = m.store.bindings m.modules ∨
        enrolModule name p o m = .done o m' ∧ m.store.local? m.modules name = none ∧
          ∃ c, m'.store.bindings m.modules = (name, c) :: m.store.bindings m.modules ∧
            m'.store.cell c = .const o) := by
  obtain ⟨_, rfl, ⟨-, hrun⟩ | ⟨hlocal, ⟨f, -, hrun⟩ | ⟨-, hrun⟩⟩⟩ := enrolModule_run m name p o
  · rw [hrun] at hend ⊢
    cases hend
    exact ⟨rfl, rfl, Or.inl ⟨⟨_, rfl⟩, rfl⟩⟩
  · rw [hrun] at hend ⊢
    cases hend
    exact ⟨rfl, rfl, Or.inl ⟨⟨_, rfl⟩, by rw [Store.bindings_newCell]⟩⟩
  · have hgrown : (m.store.newCell (.const o)).2.Holds m.modules :=
      hholds.mono (m.store.newCell_grows _).sizes
    rw [hrun] at hend ⊢
    cases hend
    refine ⟨rfl, rfl, Or.inr ⟨rfl, hlocal, ⟨m.store.cells.size⟩, ?_, ?_⟩⟩
    · change ((m.store.newCell (.const o)).2.bind m.modules name _).bindings m.modules = _
      rw [Store.bindings_bind _ _ _ _ _ hgrown, if_pos rfl, Store.bindings_newCell]
    · change ((m.store.newCell (.const o)).2.bind m.modules name _).cell _ = _
      rw [Store.cell_bind, Store.cell_newCell_self]

def moduleActivation (m : Machine) (name : String) : Activation :=
  ⟨m.store.fresh, name, [(m.store.nextModule name).body, m.builtins],
    (m.store.nextModule name).body, []⟩

def runBodyIn (k : Inner) (a : Activation) (body : Block) : Routine (TableId × List String) :=
  withActivation a do
    let _ ← k.execute body
    let a ← peek 0
    return (a.home, a.recorded Activation.exportKey)

/-- A body that ends leaves its activation on top, which tells the table and the exports. -/
theorem runBodyIn_done (hrun : runBodyIn k a body m = .done r m') :
    ∃ flow m₁ b rest, k.execute body (m.push a) = .done flow m₁ ∧ m₁.stack = b :: rest ∧
      r = (b.home, b.recorded Activation.exportKey) ∧ m' = m₁.pop := by
  change ((k.execute body >>= fun _ => peek 0 >>= fun b =>
    pure (b.home, b.recorded Activation.exportKey)).ensuring pop) (m.push a) = .done r m' at hrun
  simp only [Routine.ensuring, ending, bind_run] at hrun
  cases hbody : k.execute body (m.push a) with
  | failed e m₁ => simp [hbody] at hrun
  | exhausted => simp [hbody] at hrun
  | done flow m₁ =>
    cases hstack : m₁.stack with
    | nil => simp [hbody, peek, quiet, hstack] at hrun
    | cons b rest =>
      simp only [hbody, peek, quiet, hstack, List.getElem?_cons_zero, pure_run,
        Outcome.done.injEq] at hrun
      exact ⟨flow, m₁, b, rest, rfl, hstack, hrun.1.symm, hrun.2.symm⟩

/-- The body of a module is left on the table that it was entered on. -/
theorem runBodyIn_home (htables : ∀ m₁, (k.execute body (m.push a)).machine? = some m₁ →
      m₁.stack.map Activation.tables = (m.push a).stack.map Activation.tables)
    (hrun : runBodyIn k a body m = .done r m') : r.1 = a.home := by
  obtain ⟨flow, m₁, b, rest, hbody, hstack, rfl, -⟩ := runBodyIn_done hrun
  have htables := htables m₁ (by rw [hbody]; rfl)
  rw [hstack] at htables
  exact congrArg Prod.snd (List.cons.inj htables).1

theorem newActivation_silent (owner : ObjectId) (name : String) (home : Option TableId) :
    (newActivation owner name home).Silent := by
  refine (silent_quiet _).bind fun _ => (silent_quiet _).bind fun _ => ?_
  cases home with
  | none => exact silent_pure _
  | some home => exact silent_pure _

/-- All that is done for a module up to its registration, from the activation of its body on. -/
def prepareModule (k : Inner) (m : Machine) (name : String) (body : Block) : Routine Unit := do
  let r ← runBodyIn k (moduleActivation m name) body
  fillModule (m.store.nextModule name) r.1 r.2

def moduleMachine (m : Machine) (name : String) : Machine :=
  { m with store := m.store.withModule m.roots.root m.roots.module_ name }

/-- A name that is taken is refused at once. -/
theorem declareModule_refuses (hc : m.store.local? m.modules name = some c) :
    (declareModule k name body).Resumes m (fail (.moduleTaken name)) m := by
  have hrefuse : refuseTaken name m = .failed (.fault (.moduleTaken name)) m := by
    simp [refuseTaken, bind_run, Routine.read, see, quiet, hc, Routine.fail]
  refine ⟨?_, ?_⟩
  · rw [declareModule, bind_run, hrefuse]
    rfl
  · rw [declareModule, moments_bind, hrefuse, refuseTaken_silent name m, Routine.fail,
      moments_quiet]
    rfl

/-- First come the tables of the module, the module itself and the activation of its body. -/
theorem declareModule_resumes (hfree : m.store.local? m.modules name = none) :
    (declareModule k name body).Resumes m
    (prepareModule k m name body >>= fun _ =>
      enrolModule name (m.store.nextModule name) m.store.fresh) (moduleMachine m name) := by
  -- The identities are those that the store gives out next.
  have hshown : newTable m.tabled =
      .done (.free (m.store.tables.size + 1))
        { m with store := ((m.store.newTable .empty).2.newTable .empty).2 } := by
    rw [← m.store.newTable_tables_size .empty]
    rfl
  have hmade : makeRooted (.ofModule (m.store.nextModule name)) (·.module_)
      { m with store := ((m.store.newTable .empty).2.newTable .empty).2 } =
      .done m.store.fresh { m with
        store := (((m.store.newTable .empty).2.newTable .empty).2.rooted m.roots.root
          m.roots.module_ (.ofModule (m.store.nextModule name))).2 } := rfl
  have hactivation : newActivation m.store.fresh name none { m with
        store := (((m.store.newTable .empty).2.newTable .empty).2.rooted m.roots.root
          m.roots.module_ (.ofModule (m.store.nextModule name))).2 } =
      .done (moduleActivation m name) (moduleMachine m name) := by
    have hsize : ((m.store.newTable .empty).2.newTable .empty).2.tables.size =
        m.store.tables.size + 2 := by simp
    have hbody := (m.store.nextModule_placed name).body
    rw [moduleActivation, hbody, ← hsize]
    rfl
  have hrefuse : refuseTaken name m = .done () m := by
    simp [refuseTaken, bind_run, Routine.read, see, quiet, hfree, pure_run]
  refine Resumes.trans (.bind hrefuse (refuseTaken_silent name m)) ?_
  refine Resumes.trans (.bind rfl (moments_quiet _ _)) ?_
  refine Resumes.trans (.bind hshown (moments_quiet _ _)) ?_
  refine Resumes.trans (.bind hmade (makeRooted_silent _ _ _)) ?_
  refine Resumes.trans (.assoc _ _ _ _) ?_
  refine Resumes.trans (.bind hactivation (newActivation_silent _ _ _ _)) ?_
  refine Resumes.trans (.after fun r m₁ _ => ?_) (Resumes.assoc _ _ _ _).symm
  refine Resumes.trans (.after fun bindings m₂ _ => ?_) (Resumes.assoc _ _ _ _).symm
  exact (Resumes.assoc _ _ _ _).symm

theorem moduleMachine_step (hm : m.Admits T) (name : String) :
    m.Step True T (moduleMachine m name) ∧
      (moduleMachine m name).store.HasModule (m.store.nextModule name) := by
  obtain ⟨hspares, hp⟩ := Store.withModule_spares hm.tidy T m.roots.root m.roots.module_ name
  obtain ⟨hclosed, -⟩ :=
    Store.withModule_spares hm.tidy (fun _ => False) m.roots.root m.roots.module_ name
  exact ⟨.of_store hspares fun _ => hclosed.kept _ (hm.holds _ hm.registry) id, hp⟩

/-- The body binds names in its own table and in those that were open before. -/
theorem moduleMachine_admits (hm : m.Admits T) (name : String) :
    (moduleMachine m name).Admits (opening (m.store.nextModule name).body T) := by
  obtain ⟨hstep, hp⟩ := moduleMachine_step hm name
  have hm₁ := hstep.admits hm
  refine ⟨hm₁.tidy, ?_, Or.inr hm₁.registry⟩
  rintro t (rfl | ht)
  · refine ⟨(hm₁.tidy.holds hp).2.2, fun p' hp' => ?_⟩
    obtain ⟨-, hhidden, hshown⟩ := hm₁.tidy.tables_ne hp' hp
    exact ⟨hhidden.symm, hshown.symm⟩
  · exact hm₁.tables t ht

section Bodies

/-- Of the tables that are open while a module is prepared, three are new. -/
theorem nextModule_opened (m : Machine) (name : String) (T : TableId → Prop) :
    ∀ t, m.store.Holds t → opening (m.store.nextModule name).hidden
      (opening (m.store.nextModule name).shown (opening (m.store.nextModule name).body T)) t →
      T t := by
  rintro t ht (rfl | rfl | rfl | hin)
  · exact absurd ht (Nat.lt_irrefl _)
  · exact absurd ht (Nat.not_lt.mpr (Nat.le_succ _))
  · exact absurd ht (Nat.not_lt.mpr (Nat.le_add_right _ 2))
  · exact hin

variable (hk : k.Tame) (hm : m.Admits T) (name : String) (body : Block)

include hk hm

theorem executeBody_tended :
    (k.execute body).Tended True (opening (m.store.nextModule name).body T)
      ((moduleMachine m name).push (moduleActivation m name)) := by
  have hne : (m.store.nextModule name).body ≠ m.modules := by
    intro heq
    have hholds := hm.holds _ hm.registry
    rw [← heq, (m.store.nextModule_placed name).body] at hholds
    exact Nat.not_lt.mpr (Nat.le_add_right _ 2) hholds
  refine (hk.execute body).tended _ _ ((moduleMachine_admits hm name).push _) ?_
  rintro a ⟨⟩ t ⟨⟩
  exact ⟨Or.inl rfl, hne⟩

theorem runBodyIn_tended :
    (runBodyIn k (moduleActivation m name) body).Tended True
        (opening (m.store.nextModule name).body T) (moduleMachine m name) ∧
      ∀ r m₂, runBodyIn k (moduleActivation m name) body (moduleMachine m name) = .done r m₂ →
        r.1 = (m.store.nextModule name).body := by
  have hbody := moduleMachine_admits hm name
  have hexecute := executeBody_tended hk hm name body
  refine ⟨.withActivation (.bind (hbody.push _).holds hexecute fun _ m₂ _ hstep₂ => ?_),
    fun r m₂ hrun => runBodyIn_home (fun m₁ h => (hexecute.ending m₁ h).stack) hrun⟩
  have hm₂ := hstep₂.spares.tidy
  exact .bind_peek hm₂ fun a _ => .pure hm₂ _

theorem prepareModule_tended :
    (prepareModule k m name body).Tended True
      (opening (m.store.nextModule name).hidden (opening (m.store.nextModule name).shown
        (opening (m.store.nextModule name).body T))) (moduleMachine m name) := by
  have hbody := moduleMachine_admits hm name
  obtain ⟨-, hp⟩ := moduleMachine_step hm name
  obtain ⟨hrun, hhome⟩ := runBodyIn_tended hk hm name body
  refine .bind (module_holds hbody hp) (hrun.weaken hbody.tidy fun t _ ht => Or.inr (Or.inr ht)) ?_
  intro r m₂ hdone hstep
  rw [hhome r m₂ hdone]
  exact fillModule_tended (hstep.admits hbody) (hp.grows hstep.spares.grows) r.2

theorem declareModule_confined : (declareModule k name body).Confined T m := by
  cases hlocal : m.store.local? m.modules name with
  | some c => exact .of_resumes hm.tidy (declareModule_refuses hlocal) (.fail hm.tidy _)
  | none =>
    obtain ⟨hstep, hp⟩ := moduleMachine_step hm name
    have hbody := moduleMachine_admits hm name
    refine .of_later ⟨hstep.toKeepsTo, False.elim, False.elim⟩ (nextModule_opened m name T)
      (declareModule_resumes hlocal) ?_
    refine .bind (module_holds hbody hp) (prepareModule_tended hk hm name body).confined ?_
    intro _ m₂ _ hstep₂
    have hm₂ := (hstep.toKeepsTo.trans_of hstep₂ (nextModule_opened m name T)).admits hm
    exact (enrolModule_confined hm₂ name _ _).weaken hm₂.tidy fun t _ ht =>
      Or.inr (Or.inr (Or.inr ht))

end Bodies

/-- A statement that declares a module accounts for it itself. -/
theorem declareStatement_tame (hk : k.Tame) (hs : s.command = .declareModule name body) :
    (touch (.executes s) >>= fun _ => declareModule k name body).Tame g := by
  have hmute : Deed.Mute (.executes s) := fun names => by simp [hs]
  refine ⟨fun T m hm _ => .of_account (.bind hm.holds (.touch hm.tidy (by trivial) False.elim) ?_)
    fun _ t m' h => ?_⟩
  · rintro _ _ ⟨⟩ -
    exact declareModule_confined hk hm name body
  rcases h.after_touch with ⟨rfl, rfl⟩ | ⟨t', rfl, hrest⟩
  · exact .of_same rfl rfl rfl
  have hfirst : m.Account [⟨.executes s, m⟩] m := .still hmute m
  cases hlocal : m.store.local? m.modules name with
  | some c =>
    obtain ⟨rfl, hend⟩ :=
      (hrest.of_resumes (declareModule_refuses hlocal)).of_silent (moments_quiet _ m)
    cases hend
    exact hfirst
  | none =>
    obtain ⟨hstep, -⟩ := moduleMachine_step hm name
    have hprepare := prepareModule_tended hk hm name body
    have hresumes := @declareModule_resumes k m name body hlocal
    -- Up to the registration the account is that of the body.
    have hbefore : ∀ t m₂, (prepareModule k m name body).Comes (moduleMachine m name) t m₂ →
        m.Account (⟨.executes s, m⟩ :: t) m₂ := by
      intro t m₂ hcomes
      have hgrows₂ := hprepare.grows hcomes
      have haccount := (hstep.account trivial).trans (by rw [hstep.frames trivial]) hgrows₂
        (hprepare.account trivial t m₂ hcomes)
      exact hfirst.trans rfl (hstep.spares.grows.trans hgrows₂) haccount
    rcases (hrest.of_resumes hresumes).bind with hcomes | ⟨_, m₂, t'', hdone, rfl, henrol⟩
    · exact hbefore t' m' hcomes
    obtain ⟨rfl, hend⟩ := henrol.of_silent (enrolModule_silent ..)
    rw [List.append_nil]
    have hprepared := hbefore _ m₂ (.ends (by rw [hdone]; rfl))
    have hstep₂ := hprepare.ending m₂ (by rw [hdone]; rfl)
    have hm₂ := (hstep.toKeepsTo.trans_of hstep₂ (nextModule_opened m name T)).admits hm
    have hgrows₂ := ((enrolModule_confined hm₂ name (m.store.nextModule name)
      m.store.fresh).ending m' hend).spares.grows
    obtain ⟨hstack, hmodules, ⟨-, hregistry⟩ | ⟨hmade, -, c, hregistry, hc⟩⟩ :=
      enrolModule_ends (hm₂.holds _ hm₂.registry) hend
    · have hsame := Account.of_same hmodules hstack hregistry
      have haccount := hprepared.trans ?_ hgrows₂ hsame
      · rwa [List.append_nil] at haccount
      · have hlength := congrArg List.length hstep₂.stack
        simpa [hstep.frames trivial] using hlength
    · refine hprepared.enrol hgrows₂ hmodules hstack hregistry
        ⟨⟨.executes s, m⟩, List.mem_cons_self .., ?_⟩
      obtain ⟨d, rfl⟩ := hk.depth
      refine ⟨s, body, d, m.store.fresh, m', rfl, hs, ?_, ?_, hc, .refl _⟩
      · rw [hresumes.run, bind_run_done hdone, hmade]
      · rw [hmodules, Store.local?, hregistry, List.lookup_cons_self]

/-- What an export statement does to the call stack. -/
theorem exportNames_ends (hend : (exportNames names m).machine? = some m') :
    (m' = m ∧ ∀ a rest parts, m.stack = a :: rest → m.store.kind a.owner ≠ .ofModule parts) ∨
      ∃ a rest parts, m.stack = a :: rest ∧ m.store.kind a.owner = .ofModule parts ∧
        m' = { m with stack := names.foldl (·.record Activation.exportKey ·) a :: rest } := by
  cases hstack : m.stack with
  | nil =>
    simp only [exportNames, bind_run, peek, quiet, hstack, List.getElem?_nil] at hend
    cases hend
    exact Or.inl ⟨rfl, by simp⟩
  | cons a rest =>
    simp only [exportNames, bind_run, peek, see, quiet, hstack, List.getElem?_cons_zero] at hend
    split at hend
    · next parts hkind =>
      cases hend
      exact Or.inr ⟨a, rest, parts, rfl, hkind, modifyTop_eq hstack⟩
    · next hkind =>
      cases hend
      refine Or.inl ⟨rfl, ?_⟩
      rintro _ _ parts ⟨⟩ hparts
      exact hkind parts hparts

/-- A statement that exports names accounts for them itself. -/
theorem exportStatement_tame (hs : s.command = .exportNames names) :
    (touch (.executes s) >>= fun _ => exportNames names).Tame g := by
  have hsilent : (exportNames names).Silent := by
    refine (silent_quiet _).bind fun a => (silent_quiet _).bind fun kind => ?_
    split
    · exact silent_quiet _
    · exact silent_quiet _
  have hconfined : ∀ (T : TableId → Prop) (m : Machine), m.Admits T →
      (exportNames names).Confined T m := by
    intro T m hm
    refine .bind_peek hm.tidy fun a _ => .bind_see hm.tidy ?_
    split
    · refine .modifyTop hm.tidy fun a => ?_
      obtain ⟨extra, heq, -⟩ := Activation.foldl_record names a
      rw [heq]
      rfl
    · exact .fail hm.tidy _
  refine ⟨fun T m hm _ => .of_account (.bind hm.holds (.touch hm.tidy (by trivial) False.elim) ?_)
    fun _ t m' h => ?_⟩
  · rintro _ _ ⟨⟩ -
    exact hconfined T m hm
  rcases h.after_touch with ⟨rfl, rfl⟩ | ⟨t', rfl, hrest⟩
  · exact .of_same rfl rfl rfl
  obtain ⟨rfl, hend⟩ := hrest.of_silent (hsilent m)
  rcases exportNames_ends hend with ⟨rfl, hother⟩ | ⟨a, rest, parts, hstack, hkind, rfl⟩
  · refine ⟨rfl, fun n c => Or.inl, fun a rest hstack => ⟨[], a, hstack, rfl, fun n => ?_⟩⟩
    rw [or_iff_left]
    rintro ⟨p, hp, -, -, b, parts, -, -, -, hb, hparts⟩
    cases List.mem_singleton.mp hp
    exact hother b rest parts hb hparts
  · refine ⟨rfl, fun n c => Or.inl, fun a' rest' hstack' => ?_⟩
    obtain ⟨rfl, rfl⟩ := List.cons.inj (hstack.symm.trans hstack')
    refine ⟨[], _, rfl, ?_, fun n => ?_⟩
    · obtain ⟨extra, heq, -⟩ := Activation.foldl_record names a
      rw [heq]
    · rw [Activation.mem_foldl_record]
      refine or_congr_right ⟨fun hn => ?_, ?_⟩
      · exact ⟨_, List.mem_singleton.mpr rfl, s, names, a, parts, rfl, hs, hn, hstack, hkind⟩
      · rintro ⟨p, hp, st, names', -, -, hdeed, hcommand, hn, -⟩
        cases List.mem_singleton.mp hp
        cases hdeed
        cases hs.symm.trans hcommand
        exact hn

/-- What a module shows are views, which may be declared anywhere. -/
theorem declareShown_tended (hm : m.Admits T) (hhead : Grant.head.gives T m)
    (hp : m.store.HasModule p) {n : String} (hc : m.store.Binds p.shown n c) (name : String) :
    (declare name c).Tended True T m := by
  obtain ⟨x, hx, -⟩ := hm.tidy.shown p n c hp hc
  refine .declare hm hhead (hm.tidy.bound _ n c hc) fun v hv => ?_
  rw [hx] at hv
  cases hv

theorem importModule_tame (hk : k.Tame) (name : String) (binding : Binding) :
    (importModule k name binding).Tame .head := by
  refine Tame.bind (hk.moduleNamed name) fun o => ⟨fun T m hm hhead => .bind_see hm.tidy ?_⟩
  split
  · next p hkind =>
    have hp : m.store.HasModule p := ⟨o, hkind⟩
    have hshown : ¬ T p.shown := fun ht => (hm.tables _ ht).2.ne_shown hp rfl
    cases binding with
    | everything =>
      refine .bind_see hm.tidy (.each hm.tidy hm.holds _ fun b hb m₁ hstep => ?_)
      refine declareShown_tended (n := b.1) (hstep.admits hm) (Grant.head.lasts hstep hhead)
        (hp.grows hstep.spares.grows) ?_ b.1
      rw [Store.Binds, hstep.spares.kept _ (hm.tidy.holds hp).2.1 hshown]
      exact (mem_sortBy _).mp hb
    | only names =>
      refine .each hm.tidy hm.holds _ fun n _ m₁ hstep => ?_
      have hm₁ := hstep.admits hm
      have hp₁ := hp.grows hstep.spares.grows
      refine .bind_see hm₁.tidy ?_
      cases hc : m₁.store.lookup p.shown n with
      | none => exact .bind_fail hm₁.tidy _
      | some c =>
        obtain ⟨i, -, -, -, houter⟩ := hm₁.tidy.placed p hp₁
        refine .of_resumes hm₁.tidy (.bind rfl (moments_pure c m₁)) ?_
        exact declareShown_tended hm₁ (Grant.head.lasts hstep hhead) hp₁ (.of_lookup houter hc) n
    | under other =>
      have halias : m.store.Regular (.moduleAlias o p) :=
        ⟨by simp, by simp, by simp, by rintro _ _ ⟨⟩; exact hp⟩
      refine .bind hm.holds (makeRooted_tended hm halias _) fun a m₁ _ hstep => ?_
      exact (Tame.newCell_declare (by simp) other).tended T m₁ (hstep.admits hm)
        (Grant.head.lasts hstep hhead)
  · exact .fail hm.tidy _

end Eval

/-- Modules and exports are accounted for by the moment at which their statements begin. -/
theorem Discipline.tame_modular : Discipline.tame.Modular where
  begins _ hexports := Tame.touch ⟨trivial, hexports⟩
  declares hk hs _ _ := Eval.declareStatement_tame hk hs
  exports hs := Eval.exportStatement_tame hs
  imports hk _ := Eval.importModule_tame hk _ _

theorem Inner.tame_ofDepth (d : Nat) : (Inner.ofDepth d).Tame := Discipline.tame_modular.ofDepth d

theorem Eval.runSource_tame (d : Nat) (src : Source) : (runSource (.ofDepth d) src).Tame .head := by
  refine (Tame.note _).bind fun _ => ?_
  split
  · exact Tame.map _ (Discipline.tame_modular.execute (Inner.tame_ofDepth d)
      (Discipline.tame_takes _) (g := Grant.none))
  · exact .failWith _

end ObjectLang
