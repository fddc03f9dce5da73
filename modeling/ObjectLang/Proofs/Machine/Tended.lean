import ObjectLang.Eval.Depth
import ObjectLang.Proofs.Machine.Confined

/-!
Tended routines: confined routines whose moments account for modules and exports.
Wherever the run of such a routine comes to, every module that was registered on the way was
declared by a statement that was executed on the way. The names that an activation has recorded for
export are those of the export statements that it has executed itself. There is one rule for each
way of putting routines together.
-/
namespace ObjectLang

open Machine

/-- A statement is about to declare the module `n`. It will succeed, and the new module is
registered in the cell `c`, in the store `s` too. -/
def Moment.Enrols (p : Moment) (n : String) (c : CellId) (s : Store) : Prop :=
  ∃ st body d o m, p.deed = .executes st ∧ st.command = .declareModule n body ∧
    Eval.declareModule (.ofDepth d) n body p.machine = .done o m ∧
    m.store.local? m.modules n = some c ∧ m.store.cell c = .const o ∧ m.store.Grows s

/-- A statement is about to export `n` from a module, in the activation right above `below`. -/
def Moment.Exports (p : Moment) (below : List Activation) (n : String) : Prop :=
  ∃ st names a parts, p.deed = .executes st ∧ st.command = .exportNames names ∧ n ∈ names ∧
    p.machine.stack = a :: below ∧ p.machine.store.kind a.owner = .ofModule parts

variable {c : CellId} {p : Moment} {a : Activation} {n : String}

theorem Moment.Enrols.grows {s s' : Store} (h : p.Enrols n c s) (hg : s.Grows s') :
    p.Enrols n c s' := by
  obtain ⟨st, body, d, o, m, hdeed, hcommand, hrun, hc, ho, hgrows⟩ := h
  exact ⟨st, body, d, o, m, hdeed, hcommand, hrun, hc, ho, hgrows.trans hg⟩

def Deed.Mute : Deed → Prop
  | .executes s => ∀ names, s.command ≠ .exportNames names
  | _ => True

namespace Machine

variable {A : Prop} {T : TableId → Prop} {m m₁ m' : Machine} {t t' : List Moment}

/-- What the moments `t` tell of modules and exports when a run has come from `m` to `m'`. -/
structure Account (m : Machine) (t : List Moment) (m' : Machine) : Prop where
  modules : m'.modules = m.modules
  registry : ∀ n c, m'.store.Binds m.modules n c →
    m.store.Binds m.modules n c ∨ ∃ p ∈ t, p.Enrols n c m'.store
  frame : ∀ a rest, m.stack = a :: rest → ∃ up b, m'.stack = up ++ b :: rest ∧ b.owner = a.owner ∧
    ∀ n, (Activation.exportKey, n) ∈ b.notes ↔
      (Activation.exportKey, n) ∈ a.notes ∨ ∃ p ∈ t, p.Exports rest n

/-- A step that passes no moments. If accounts are asked for, it keeps the call stack and registers
nothing. -/
structure Step (A : Prop) (T : TableId → Prop) (m m' : Machine) : Prop extends KeepsTo T m m' where
  frames : A → m'.stack = m.stack
  registry : A → m'.store.bindings m.modules = m.store.bindings m.modules

namespace Step

theorem refl (h : m.store.Tidy) : Step A T m m := ⟨.refl h, fun _ => rfl, fun _ => rfl⟩

theorem of_store {s : Store} (h : m.store.Spares T s)
    (hregistry : A → s.bindings m.modules = m.store.bindings m.modules) :
    Step A T m { m with store := s } := ⟨.of_store h, fun _ => rfl, hregistry⟩

end Step

namespace Account

/-- What neither registers anything nor changes the call stack needs no moments. -/
theorem of_same (hmodules : m'.modules = m.modules) (hstack : m'.stack = m.stack)
    (hregistry : m'.store.bindings m.modules = m.store.bindings m.modules) : Account m [] m' := by
  refine ⟨hmodules, fun n c hc => Or.inl ?_, fun a rest ha => ⟨[], a, ?_, rfl, by simp⟩⟩
  · rwa [Store.Binds, hregistry] at hc
  · rw [hstack, ha]
    rfl

/-- The second part starts on the activations that the first one started on. -/
theorem trans (h : Account m t m₁) (hlength : m₁.stack.length = m.stack.length)
    (hg : m₁.store.Grows m'.store) (h' : Account m₁ t' m') : Account m (t ++ t') m' := by
  refine ⟨h'.modules.trans h.modules, fun n c hc => ?_, fun a rest hstack => ?_⟩
  · rw [← h.modules] at hc
    rcases h'.registry n c hc with hc | ⟨p, hp, henrols⟩
    · rw [h.modules] at hc
      refine (h.registry n c hc).imp_right ?_
      rintro ⟨p, hp, henrols⟩
      exact ⟨p, List.mem_append.mpr (Or.inl hp), henrols.grows hg⟩
    · exact Or.inr ⟨p, List.mem_append.mpr (Or.inr hp), henrols⟩
  · obtain ⟨up, b, hup, howner, hnotes⟩ := h.frame a rest hstack
    obtain rfl : up = [] := by
      rw [hup, hstack, List.length_append, List.length_cons, List.length_cons] at hlength
      exact List.eq_nil_of_length_eq_zero (by omega)
    obtain ⟨up', b', hup', howner', hnotes'⟩ := h'.frame b rest hup
    refine ⟨up', b', hup', howner'.trans howner, fun n => ?_⟩
    rw [hnotes', hnotes, or_assoc]
    simp only [List.mem_append, or_and_right, exists_or]

/-- Moments that export nothing add nothing to the account of one that keeps the machine. -/
theorem still (hp : p.deed.Mute) (m : Machine) : Account m [p] m := by
  refine ⟨rfl, fun n c => Or.inl, fun a rest hstack => ⟨[], a, hstack, rfl, fun n => ?_⟩⟩
  have hnone : ¬ p.Exports rest n := by
    rintro ⟨st, names, -, -, hdeed, hcommand, -⟩
    rw [hdeed] at hp
    exact hp names hcommand
  simp [hnone]

/-- The activations that a run has found below the running one stay there. -/
theorem above (h : Account (m.push a) t m') :
    ∃ up b, m'.stack = up ++ b :: m.stack := by
  obtain ⟨up, b, hup, -⟩ := h.frame a m.stack rfl
  exact ⟨up, b, hup⟩

/-- A module is registered that one of the moments enrols. -/
theorem enrol (h : Account m t m₁) (hg : m₁.store.Grows m'.store)
    (hmodules : m'.modules = m₁.modules) (hstack : m'.stack = m₁.stack)
    (hregistry : m'.store.bindings m₁.modules = (n, c) :: m₁.store.bindings m₁.modules)
    (hp : ∃ p ∈ t, p.Enrols n c m'.store) : Account m t m' := by
  refine ⟨hmodules.trans h.modules, fun n' c' hc => ?_, fun a rest ha => ?_⟩
  · rw [Store.Binds, ← h.modules, hregistry, List.mem_cons, h.modules] at hc
    rcases hc with heq | hc
    · cases heq
      exact Or.inr hp
    · refine (h.registry n' c' hc).imp_right ?_
      rintro ⟨p, hp, henrols⟩
      exact ⟨p, hp, henrols.grows hg⟩
  · rw [hstack]
    exact h.frame a rest ha

end Account

theorem Step.account (h : Step A T m m') (hA : A) : Account m [] m' :=
  .of_same h.modules (h.frames hA) (h.registry hA)

end Machine

namespace Routine

variable {α β : Type} {A : Prop} {T T' : TableId → Prop} {m m' : Machine} {t : List Moment}

/-- The routine binds names in the tables `T` only, and if `A` holds, its moments account for
modules and exports. -/
structure Tended (A : Prop) (T : TableId → Prop) (x : Routine α) (m : Machine) : Prop where
  comes : ∀ t m', x.Comes m t m' → m.store.Spares T m'.store ∧ ∀ p ∈ t, p.Frozen m'.store
  direct : ∀ p ∈ x.moments m, p.Direct
  ending : ∀ m', (x m).machine? = some m' → m.KeepsTo T m'
  account : A → ∀ t m', x.Comes m t m' → m.Account t m'

abbrev Confined (T : TableId → Prop) (x : Routine α) (m : Machine) : Prop := x.Tended False T m

namespace Tended

variable {x y : Routine α} {f : α → Routine β} {name : String}

theorem confined (h : x.Tended A T m) : x.Confined T m := { h with account := False.elim }

theorem of_account (h : x.Confined T m) (haccount : A → ∀ t m', x.Comes m t m' → m.Account t m') :
    x.Tended A T m := { h with account := haccount }

theorem grows (h : x.Tended A T m) (hx : x.Comes m t m') : m.store.Grows m'.store :=
  (h.comes t m' hx).1.grows

theorem passing (h : x.Tended A T m) (hp : p ∈ x.moments m) : m.store.Spares T p.machine.store := by
  obtain ⟨t, ht⟩ := Comes.of_moment hp
  exact (h.comes t _ ht).1

theorem lasting (h : x.Tended A T m) (hp : p ∈ x.moments m) {m' : Machine}
    (hm' : (x m).machine? = some m') : p.Frozen m'.store := (h.comes _ m' (.ends hm')).2 p hp

/-- A routine that passes no moments. -/
theorem of_silent (hmoments : x.moments m = [])
    (h : ∀ m', (x m).machine? = some m' → m.Step A T m') : x.Tended A T m := by
  refine ⟨fun t m' hx => ?_, by simp [hmoments], fun m' hm' => (h m' hm').toKeepsTo, ?_⟩
  · obtain ⟨rfl, hend⟩ := hx.of_silent hmoments
    exact ⟨(h m' hend).spares, by simp⟩
  · intro hA t m' hx
    obtain ⟨rfl, hend⟩ := hx.of_silent hmoments
    exact (h m' hend).account hA

/-- A silent change of the store. -/
theorem of_store {a : α} {s : Store} (hrun : x m = .done a { m with store := s })
    (hmoments : x.moments m = []) (hs : m.store.Spares T s)
    (hregistry : A → s.bindings m.modules = m.store.bindings m.modules) : x.Tended A T m := by
  refine of_silent hmoments fun m' hm' => ?_
  rw [hrun] at hm'
  cases hm'
  exact .of_store hs hregistry

theorem outOfFuel : (Routine.outOfFuel : Routine α).Tended A T m :=
  of_silent (moments_quiet _ m) fun m' h => by cases h

section

variable (hm : m.store.Tidy)
include hm

/-- A routine that leaves the machine as it is, whether it fails or not. -/
theorem of_reader (hmoments : x.moments m = []) (h : ∀ m', (x m).machine? = some m' → m' = m) :
    x.Tended A T m := of_silent hmoments fun m' hm' => (h m' hm').symm ▸ .refl hm

theorem pure (a : α) : (Pure.pure a : Routine α).Tended A T m :=
  of_reader hm (moments_pure a m) fun m' h => by
    cases h
    rfl

theorem fail (fault : Fault) : (Routine.fail fault : Routine α).Tended A T m :=
  of_reader hm (moments_quiet _ m) fun m' h => by
    cases h
    rfl

/-- What would come after a failure does not matter. -/
theorem bind_fail (fault : Fault) : ((Routine.fail fault : Routine α) >>= f).Tended A T m := by
  refine of_reader hm ?_ fun m' h => ?_
  · rw [moments_bind]
    exact List.append_nil _ ▸ moments_quiet _ m
  · cases h
    rfl

theorem failWith (e : Error) : (Routine.failWith e : Routine α).Tended A T m :=
  of_reader hm (moments_quiet _ m) fun m' h => by
    cases h
    rfl

theorem read (g : Machine → α) : (Routine.read g).Tended A T m :=
  of_reader hm (moments_quiet _ m) fun m' h => by
    cases h
    rfl

theorem see (g : Store → α) : (Routine.see g).Tended A T m := read hm _

end

/-- A routine that does as another one does from a little further on, where more tables may be open
that were not there before. -/
theorem of_later {m₁ : Machine} (hstep : m.Step A T m₁) (hT : ∀ t, m.store.Holds t → T' t → T t)
    (hx : x.Resumes m y m₁) (hy : y.Tended A T' m₁) : x.Tended A T m := by
  refine ⟨fun t m' h => ?_, hx.moments ▸ hy.direct, fun m' hm' => ?_, fun hA t m' h => ?_⟩
  · obtain ⟨hspares, hfrozen⟩ := hy.comes t m' (h.of_resumes hx)
    exact ⟨hstep.spares.trans_of hspares hT, hfrozen⟩
  · exact hstep.trans_of (hy.ending m' (hx.run ▸ hm')) hT
  · have hcomes := h.of_resumes hx
    exact (hstep.account hA).trans (by rw [hstep.frames hA]) (hy.grows hcomes)
      (hy.account hA t m' hcomes)

theorem of_resumes (hm : m.store.Tidy) (hx : x.Resumes m y m) (hy : y.Tended A T m) :
    x.Tended A T m := of_later (.refl hm) (fun _ _ => id) hx hy

theorem weaken (h : x.Tended A T' m) (hm : m.store.Tidy)
    (hT : ∀ t, m.store.Holds t → T' t → T t) : x.Tended A T m := of_later (.refl hm) hT ⟨rfl, rfl⟩ h

section

variable (hm : m.store.Tidy)
include hm

theorem bind_see {g : Store → α} (hf : (f (g m.store)).Tended A T m) :
    (Routine.see g >>= f).Tended A T m := of_resumes hm (.bind rfl (moments_quiet _ m)) hf

theorem bind_read {g : Machine → α} (hf : (f (g m)).Tended A T m) :
    (Routine.read g >>= f).Tended A T m := of_resumes hm (.bind rfl (moments_quiet _ m)) hf

omit hm in
theorem bind (hm : ∀ t, T t → m.store.Holds t) (hx : x.Tended A T m)
    (hf : ∀ a m₁, x m = .done a m₁ → m.KeepsTo T m₁ → (f a).Tended A T m₁) :
    (x >>= f).Tended A T m := by
  have hnext : ∀ a m₁, x m = .done a m₁ → m.KeepsTo T m₁ ∧ (f a).Tended A T m₁ := fun a m₁ hrun =>
    have hstep := hx.ending m₁ (by rw [hrun]; rfl)
    ⟨hstep, hf a m₁ hrun hstep⟩
  refine ⟨fun t m' h => ?_, fun p hp => ?_, fun m' hm' => ?_, fun hA t m' h => ?_⟩
  · rcases h.bind with h | ⟨a, m₁, t', hrun, rfl, hafter⟩
    · exact hx.comes t m' h
    · obtain ⟨hstep, hrest⟩ := hnext a m₁ hrun
      obtain ⟨hspares, hfrozen⟩ := hrest.comes t' m' hafter
      refine ⟨hstep.spares.trans_of hspares fun _ _ => id, fun p hp => ?_⟩
      rcases List.mem_append.mp hp with hp | hp
      · -- What was captured in the first part is not open in the second one.
        intro a' ha'
        refine (hx.lasting hp (by rw [hrun]; rfl) a' ha').trans (hspares.weaken fun t _ ht => ?_)
        exact (hm t ht).mono (hx.passing hp).grows.sizes
      · exact hfrozen p hp
  · rcases mem_bind hp with hp | ⟨a, m₁, hrun, hp⟩
    · exact hx.direct p hp
    · exact (hnext a m₁ hrun).2.direct p hp
  · rcases machine?_bind hm' with hm' | ⟨a, m₁, hrun, hm'⟩
    · exact hx.ending m' hm'
    · obtain ⟨hstep, hrest⟩ := hnext a m₁ hrun
      exact hstep.trans_of (hrest.ending m' hm') fun _ _ => id
  · rcases h.bind with hfirst | ⟨a, m₁, t', hrun, rfl, hsecond⟩
    · exact hx.account hA _ m' hfirst
    obtain ⟨hstep, hrest⟩ := hnext a m₁ hrun
    have hfirst := hx.account hA _ m₁ (.ends (by rw [hrun]; rfl))
    exact hfirst.trans (by simpa using congrArg List.length hstep.stack) (hrest.grows hsecond)
      (hrest.account hA t' m' hsecond)

theorem touch {d : Deed} (hd : d.Plain) (hmute : A → d.Mute) : (Routine.touch d).Tended A T m := by
  refine ⟨fun t m' h => ?_, ?_, ?_, fun hA t m' h => ?_⟩
  · obtain ⟨rfl, ht⟩ := h.of_touch
    refine ⟨.refl hm, fun p hp => ?_⟩
    rcases ht with rfl | rfl
    · cases hp
    · rw [List.mem_singleton.mp hp]
      exact .of_plain hd
  · rw [moments_touch]
    exact List.forall_mem_singleton.mpr (.of_plain hd)
  · rintro _ ⟨⟩
    exact .refl hm
  · obtain ⟨rfl, rfl | rfl⟩ := h.of_touch
    · exact .of_same rfl rfl rfl
    · exact .still (hmute hA) _

theorem assign (c : CellId) (v : ObjectId) : (change (·.assign c v)).Tended A T m :=
  of_store rfl (moments_quiet _ m) (.of_same (hm.assign c v) (m.store.assign_grows c v)
    (fun _ _ => by rw [Store.bindings_assign]) fun _ => Or.inl rfl)
    fun _ => by rw [Store.bindings_assign]

/-- A change of faces and types. -/
theorem alike {g : Store → Store} (h : m.store.Alike (g m.store)) : (change g).Tended A T m :=
  of_store rfl (moments_quiet _ m) (.of_same (hm.of_alike h) h.grows
    (fun _ _ => by rw [h.bindings_eq]) fun o => Or.inl (h.kind o)) fun _ => by rw [h.bindings_eq]

theorem note (e : Event) : (Routine.note e).Tended A T m :=
  of_silent (moments_quiet _ m) fun m' h => by
    cases h
    exact ⟨⟨.refl hm, rfl, rfl⟩, fun _ => rfl, fun _ => rfl⟩

theorem writeLine (text : String) : (Routine.writeLine text).Tended A T m := by
  refine of_silent (moments_quiet _ m) fun m' h => ?_
  cases hsink : m.sink <;> simp [Routine.writeLine, quiet, hsink, Outcome.machine?] at h <;>
    exact h ▸ ⟨⟨.refl hm, rfl, rfl⟩, fun _ => rfl, fun _ => rfl⟩

theorem bind_peek {i : Nat} {f : Activation → Routine β}
    (hf : ∀ a, m.stack[i]? = some a → (f a).Tended A T m) :
    (Routine.peek i >>= f).Tended A T m := by
  rcases bind_peek_cases i f m with ⟨a, ha, hres⟩ | ⟨hrun, hmoments⟩
  · exact of_resumes hm hres (hf a ha)
  · refine of_reader hm hmoments fun m' h => ?_
    rw [hrun] at h
    cases h
    rfl

theorem peek (i : Nat) : (Routine.peek i).Tended A T m := by
  refine of_reader hm (moments_quiet _ m) fun m' h => ?_
  cases ha : m.stack[i]? <;> simp [Routine.peek, quiet, ha, Outcome.machine?] at h <;>
    exact h.symm

/-- A change of the running activation that keeps its tables. -/
theorem modifyTop {g : Activation → Activation} (hg : ∀ a, (g a).tables = a.tables) :
    (Routine.modify (·.modifyTop g)).Confined T m := by
  refine of_silent (moments_quiet _ m) fun m' h => ⟨?_, False.elim, False.elim⟩
  obtain rfl : m.modifyTop g = m' := Option.some.inj h
  cases hstack : m.stack with
  | nil =>
    rw [Machine.modifyTop, hstack]
    exact .refl hm
  | cons a rest =>
    rw [modifyTop_eq hstack]
    exact ⟨.refl hm, rfl, by simp [hstack, hg]⟩

/-- A new cell that no table binds yet. -/
theorem bind_newCell {c : Cell} {f : CellId → Routine β}
    (hview : ∀ x, c = .view x → ∃ p n, m.store.HasModule p ∧ m.store.Binds p.hidden n x)
    (hf : ∀ i m₁, m.KeepsTo T m₁ → m₁.store.HasCell i → m₁.store.cell i = c →
      (∀ t n, ¬ m₁.store.Binds t n i) → (f i).Tended A T m₁) :
    (Routine.newCell c >>= f).Tended A T m := by
  have hkeeps := KeepsTo.newCell (T := T) hm hview
  have hstep : m.Step A T { m with store := (m.store.newCell c).2 } :=
    ⟨hkeeps, fun _ => rfl, fun _ => by rw [Store.bindings_newCell]⟩
  have hrun : Routine.newCell c m =
      .done ⟨m.store.cells.size⟩ { m with store := (m.store.newCell c).2 } := rfl
  exact of_later hstep (fun _ _ => id) (.bind hrun (moments_quiet _ m))
    (hf _ _ hkeeps (by simp [Store.HasCell]) (m.store.cell_newCell_self c) (hm.unbound_newCell c))

/-- A new name in a table, if the store is tidy with it. A name of a module has to be accounted
for. -/
theorem define_of_tidy {t : TableId} (ht : T t ∧ (A → t ≠ m.modules)) (hholds : m.store.Holds t)
    (htidy : m.store.refusal? t name = none → (m.store.bind t name c).Tidy) :
    (Routine.define t name c).Tended A T m := by
  rcases define_cases t name c m with ⟨hrefusal, hrun⟩ | ⟨fault, -, hrun⟩
  · refine of_store hrun (moments_quiet _ m) (.bind hholds ht.1 hrefusal (htidy hrefusal)) fun hA =>
      ?_
    rw [Store.bindings_bind m.store t name c m.modules hholds, if_neg (ht.2 hA).symm]
  · refine of_reader hm (moments_quiet _ m) fun m' h => ?_
    rw [hrun] at h
    cases h
    rfl

end

section

variable (hm : m.Admits T)
include hm

/-- A new name in an open table. A variable may be bound that is bound nowhere yet. -/
theorem define {t : TableId} (ht : T t ∧ (A → t ≠ m.modules)) (hc : m.store.HasCell c)
    (hfree : ∀ v, m.store.cell c = .var v → ∀ x n, ¬ m.store.Binds x n c) :
    (Routine.define t name c).Tended A T m := by
  obtain ⟨hholds, hapart⟩ := hm.tables t ht.1
  refine define_of_tidy hm.tidy ht hholds fun hrefusal =>
    hm.tidy.bind hholds hrefusal hc ?_ ?_ ?_
  · exact fun p hp heq => absurd heq (hapart p hp).2
  · exact fun p hp heq => absurd heq (hapart p hp).1
  · exact fun v hv x n hx => absurd hx (hfree v hv x n)

/-- A new name for a new cell in an open table. -/
theorem bind_newCell_define {c : Cell} (hview : ∀ x, c ≠ .view x) {t : TableId}
    (ht : T t ∧ (A → t ≠ m.modules)) (name : String) :
    (Routine.newCell c >>= fun i => Routine.define t name i).Tended A T m :=
  bind_newCell hm.tidy (fun x hx => absurd hx (hview x)) fun _ _ hstep hhas _ hfree =>
    define (hstep.admits hm) (hstep.modules.symm ▸ ht) hhas fun _ _ => hfree

theorem declare (hhead : m.HeadIn fun t => T t ∧ t ≠ m.modules) (hc : m.store.HasCell c)
    (hfree : ∀ v, m.store.cell c = .var v → ∀ x n, ¬ m.store.Binds x n c) :
    (Routine.declare name c).Tended A T m := by
  refine bind_peek hm.tidy fun a ha => ?_
  rw [defineLocal]
  split
  · next t rest hscopes =>
    have hrunning : m.stack.head? = some a := by rw [List.head?_eq_getElem?, ha]
    obtain ⟨ht, hne⟩ := hhead a hrunning t (by rw [hscopes]; rfl)
    exact define hm ⟨ht, fun _ => hne⟩ hc hfree
  · exact fail hm.tidy _

/-- A new table is open to the rest. -/
theorem bind_newTable {f : TableId → Routine β}
    (hf : ∀ t m₁, m₁.Admits (opening t T) → t ≠ m₁.modules → (f t).Tended A (opening t T) m₁) :
    (Routine.newTable >>= f).Tended A T m := by
  have hadjoins : m.store.Adjoins (m.store.newTable .empty).2 :=
    .newTable hm.tidy (by simp [Table.empty]) (by simp [Table.empty]) (by simp [Table.empty])
  have hmodules := hm.holds _ hm.registry
  have hstep : m.Step A T m.tabled :=
    .of_store (hadjoins.spares T) fun _ => hadjoins.bindings_eq hmodules
  have hadmits := hstep.admits hm
  have hrun : Routine.newTable m =
      .done (.free m.store.tables.size) m.tabled := rfl
  refine of_later hstep ?_ (.bind hrun (moments_quiet _ m)) (hf _ _ ⟨hadmits.tidy, ?_, ?_⟩ ?_)
  · rintro t ht (rfl | hin)
    · exact absurd ht (Nat.lt_irrefl _)
    · exact hin
  · rintro t (rfl | hin)
    · refine ⟨by simp [Store.Holds], fun p hp => ?_⟩
      obtain ⟨i, hplaced, hsize, -⟩ := hm.tidy.placed p hp
      rw [hplaced.hidden, hplaced.shown]
      simp only [ne_eq, TableId.free.injEq]
      omega
    · exact hadmits.tables t hin
  · exact Or.inr hadmits.registry
  · intro heq
    rw [show m.modules = .free m.store.tables.size from heq.symm] at hmodules
    exact Nat.lt_irrefl _ hmodules

/-- A new object, whose tables are open to the rest. -/
theorem bind_newObject {base : Option ObjectId} {kind : Kind} (hkind : m.store.Regular kind)
    {f : ObjectId → Routine β}
    (hf : ∀ o m₁, m₁.Admits (openingParts o T) → (∀ p, .part o p ≠ m₁.modules) →
      (f o).Tended A (openingParts o T) m₁) : (Routine.newObject base kind >>= f).Tended A T m := by
  have hmodules := hm.holds _ hm.registry
  have hstep : m.Step A T { m with store := (m.store.newObject base kind).2 } := by
    refine .of_store (.of_same (hm.tidy.newObject base (Or.inl hkind))
      (m.store.newObject_grows base kind) (fun t _ => m.store.bindings_newObject base kind t)
      fun o => ?_) fun _ => m.store.bindings_newObject base kind _
    rw [Store.kind, Store.object_newObject]
    split
    · exact Or.inr hkind
    · exact Or.inl rfl
  have hadmits := hstep.admits hm
  have hrun : Routine.newObject base kind m =
      .done m.store.fresh { m with store := (m.store.newObject base kind).2 } := rfl
  refine of_later hstep ?_ (.bind hrun (moments_quiet _ m)) (hf _ _ ⟨hadmits.tidy, ?_, ?_⟩ ?_)
  · rintro t ht (⟨p, rfl⟩ | hin)
    · exact absurd ht (Nat.lt_irrefl _)
    · exact hin
  · rintro t (⟨p, rfl⟩ | hin)
    · refine ⟨by simp [Store.Holds, Store.HasObject], fun p' hp => ?_⟩
      obtain ⟨i, hplaced, -⟩ := hadmits.tidy.placed p' hp
      simp [hplaced.hidden, hplaced.shown]
    · exact hadmits.tables t hin
  · exact Or.inr hadmits.registry
  · intro p heq
    rw [show m.modules = .part m.store.fresh p from heq.symm] at hmodules
    exact Nat.lt_irrefl _ hmodules

/-- The activation that is captured is copied, and the copy is closed to the rest. -/
theorem bind_capture (a : Activation) {f : Activation → Routine β}
    (hf : ∀ copy m₁, m₁.Admits T → (f copy).Tended A T m₁) :
    (Routine.touch (.captures a) >>= fun _ => make (·.captureActivation a) >>= f).Tended A T m := by
  obtain ⟨hadjoins, -⟩ := Store.captureActivation_copy hm.tidy a
  have hstep : m.Step A T { m with store := (m.store.captureActivation a).2 } :=
    .of_store (hadjoins.spares T) fun _ => hadjoins.bindings_eq (hm.holds _ hm.registry)
  have hmake : (make (·.captureActivation a) >>= f).Resumes m (f (m.store.captureActivation a).1)
      { m with store := (m.store.captureActivation a).2 } := .bind rfl (moments_quiet _ m)
  have hrest := hf (m.store.captureActivation a).1 _ (hstep.admits hm)
  have hlater := of_later hstep (fun _ _ => id) hmake hrest
  refine ⟨fun t m' h => ?_, fun p hp => ?_, fun m' hm' => hlater.ending m' hm', fun hA t m' h => ?_⟩
  · rcases h.after_touch with ⟨rfl, rfl⟩ | ⟨t', rfl, hafter⟩
    · exact ⟨.refl hm.tidy, by simp⟩
    · obtain ⟨hspares, hfrozen⟩ := hlater.comes t' m' hafter
      refine ⟨hspares, List.forall_mem_cons.mpr ⟨?_, hfrozen⟩⟩
      rintro b ⟨⟩
      exact (hrest.comes t' m' (hafter.of_resumes hmake)).1.weaken fun t _ ht => (hm.tables t ht).1
  · rcases mem_bind hp with hp | ⟨_, _, ⟨⟩, hp⟩
    · rw [moments_touch, List.mem_singleton] at hp
      rw [hp]
      exact nofun
    · exact hlater.direct p hp
  · rcases h.after_touch with ⟨rfl, rfl⟩ | ⟨t', rfl, hafter⟩
    · exact .of_same rfl rfl rfl
    · have hmute : Deed.Mute (.captures a) := trivial
      exact (Account.still hmute m).trans rfl (hlater.grows hafter) (hlater.account hA t' m' hafter)

end

/-- A routine that runs a tended one on a machine with the same store and cleans up its stack. -/
theorem of_inner (m₁ : Machine) (g : Machine → Machine) (hstore : m₁.store = m.store)
    (hg : ∀ m', (g m').store = m'.store) (hmoments : y.moments m = x.moments m₁)
    (hend : ∀ m', (y m).machine? = some m' → ∃ m₂, (x m₁).machine? = some m₂ ∧ m' = g m₂)
    (hstack : ∀ m₂, m₁.KeepsTo T m₂ → m.KeepsTo T (g m₂)) (hx : x.Tended A T m₁)
    (hduring : A → ∀ t m₂, x.Comes m₁ t m₂ → m.Account t m₂)
    (hafter : A → ∀ m₂, (x m₁).machine? = some m₂ → m.Account (x.moments m₁) (g m₂)) :
    y.Tended A T m := by
  refine ⟨fun t m' h => ?_, hmoments ▸ hx.direct, fun m' hm' => ?_, fun hA t m' h => ?_⟩
  · rw [← hstore]
    rcases h.of_inner hmoments hend with h | ⟨m₂, hm₂, rfl, rfl⟩
    · exact hx.comes t m' h
    · rw [hg]
      exact hx.comes _ m₂ (.ends hm₂)
  · obtain ⟨m₂, hm₂, rfl⟩ := hend m' hm'
    exact hstack m₂ (hx.ending m₂ hm₂)
  · rcases h.of_inner hmoments hend with h | ⟨m₂, hm₂, rfl, rfl⟩
    · exact hduring hA t m' h
    · exact hafter hA m₂ hm₂

/-- At its end a routine has the activation on top that it was started in. -/
theorem account_ends (hx : x.Tended A T m) (hA : A) {m₂ : Machine}
    (hend : (x m).machine? = some m₂) {rest : List Activation} (hstack : m.stack = a :: rest) :
    ∃ b, m₂.stack = b :: rest ∧ b.owner = a.owner ∧ ∀ n, (Activation.exportKey, n) ∈ b.notes ↔
      (Activation.exportKey, n) ∈ a.notes ∨ ∃ p ∈ x.moments m, p.Exports rest n := by
  obtain ⟨up, b, hup, hframe⟩ := (hx.account hA _ m₂ (.ends hend)).frame a rest hstack
  obtain rfl : up = [] := by
    have hlength := congrArg List.length (hx.ending m₂ hend).stack
    simp only [hup, hstack, List.map_append, List.length_append, List.length_map,
      List.length_cons] at hlength
    exact List.eq_nil_of_length_eq_zero (by omega)
  exact ⟨b, hup, hframe⟩

/-- The activation that is run has others below it, and exports in it are none of theirs. -/
theorem withActivation (hx : x.Tended A T (m.push a)) :
    (Routine.withActivation a x).Tended A T m := by
  -- Whatever was passed, the activations of `m` were below the one that ran.
  have hframe : A → ∀ t m₂, x.Comes (m.push a) t m₂ → ∀ b rest up, m.stack = b :: rest →
      ∃ up' c, up ++ m.stack = up' ++ c :: rest ∧ c.owner = b.owner ∧
        ∀ n, (Activation.exportKey, n) ∈ c.notes ↔
          (Activation.exportKey, n) ∈ b.notes ∨ ∃ p ∈ t, p.Exports rest n := by
    intro hA t m₂ hcomes b rest up hstack
    refine ⟨up, b, by rw [hstack], rfl, fun n => ?_⟩
    rw [or_iff_left]
    rintro ⟨p, hp, -, -, c, -, -, -, -, hexports, -⟩
    obtain ⟨t₁, hp₁⟩ := hcomes.of_mem hp
    obtain ⟨up, b', hup⟩ := (hx.account hA t₁ _ hp₁).above
    have hlengths := congrArg List.length (hexports.symm.trans hup)
    simp only [hstack, List.length_append, List.length_cons] at hlengths
    omega
  refine of_inner (m.push a) Machine.pop rfl ?_ (moments_withActivation a x m)
    (fun m' hm' => machine?_ensuring hm') ?_ hx (fun hA t m₂ hcomes => ?_) fun hA m₂ hend => ?_
  · intro m'
    rw [pop]
    split <;> rfl
  · intro m₂ hkeeps
    obtain ⟨b, rest, -, hpop, hrest⟩ := pop_of_tables hkeeps.stack
    rw [hpop]
    exact hkeeps.withStack m.log _ hrest
  · have haccount := hx.account hA t m₂ hcomes
    obtain ⟨up, c, hup⟩ := haccount.above
    refine ⟨haccount.modules, haccount.registry, fun b rest hstack => ?_⟩
    rw [hup, ← List.singleton_append (x := c), ← List.append_assoc]
    exact hframe hA t m₂ hcomes b rest (up ++ [c]) hstack
  · have haccount := hx.account hA _ m₂ (.ends hend)
    obtain ⟨c, hstack₂, -⟩ := hx.account_ends hA hend (rfl : (m.push a).stack = a :: m.stack)
    rw [pop, hstack₂]
    exact ⟨haccount.modules, haccount.registry, fun b rest => hframe hA _ m₂ (.ends hend) b rest []⟩

theorem withScope (hm : m.store.Tidy) {t : TableId}
    (hx : ∀ a rest, m.stack = a :: rest →
      x.Tended A T { m with stack := a.pushScope t :: rest }) :
    (Routine.withScope t x).Tended A T m := by
  refine bind_peek hm fun a ha => ?_
  obtain ⟨rest, hstack⟩ := List.head?_eq_some_iff.mp (List.head?_eq_getElem? ▸ ha)
  have hscope := inScope_resumes t x hstack
  have hinner := hx a rest hstack
  refine of_inner { m with stack := a.pushScope t :: rest } (·.modifyTop Activation.popScope) rfl
    ?_ ?_ ?_ ?_ hinner (fun hA u m₂ hcomes => ?_) fun hA m₂ hend => ?_
  · intro m'
    simp only [Machine.modifyTop]
    split <;> rfl
  · rw [hscope.moments, Routine.ensuring, moments_ending]
  · exact fun m' hm' => machine?_ensuring (hscope.run ▸ hm')
  · intro m₂ hkeeps
    obtain ⟨b, rest', -, hclosed, -, htables⟩ := closeScope_of_tables hstack hkeeps.stack
    simp only [hclosed]
    exact hkeeps.withStack m.log _ htables
  · have haccount := hinner.account hA u m₂ hcomes
    refine ⟨haccount.modules, haccount.registry, fun b rest' hb => ?_⟩
    obtain ⟨rfl, rfl⟩ := List.cons.inj (hstack.symm.trans hb)
    exact haccount.frame (a.pushScope t) rest rfl
  · have haccount := hinner.account hA _ m₂ (.ends hend)
    obtain ⟨c, hstack₂, howner, hnotes⟩ := hinner.account_ends hA hend rfl
    rw [modifyTop_eq hstack₂]
    refine ⟨haccount.modules, haccount.registry, fun b rest' hb => ?_⟩
    obtain ⟨rfl, rfl⟩ := List.cons.inj (hstack.symm.trans hb)
    exact ⟨[], c.popScope, rfl, howner, hnotes⟩

theorem attempt (hx : x.Tended A T m) : (Routine.attempt x).Tended A T m where
  comes t m' h := hx.comes t m' h.attempt
  direct := by
    rw [Routine.attempt, moments_ending]
    exact hx.direct
  ending m' hm' := hx.ending m' (machine?_attempt x m ▸ hm')
  account hA t m' h := hx.account hA t m' h.attempt

/-- The moment at which an error leaves is neither a capture nor an export. -/
theorem onError (hx : x.Tended A T m) {deed : Error → Deed} {g : Error → Error}
    (hdeed : ∀ e, (deed e).Plain) (hmute : A → ∀ e, (deed e).Mute) :
    (x.onError deed g).Tended A T m := by
  refine ⟨fun t m' h => ?_, fun p hp => ?_, fun m' hm' => hx.ending m' (machine?_onError .. ▸ hm'),
    fun hA t m' h => ?_⟩
  · rcases h.onError with h | ⟨e, hrun, rfl⟩
    · exact hx.comes t m' h
    · obtain ⟨hspares, hfrozen⟩ := hx.comes _ m' (.ends (by rw [hrun]; rfl))
      refine ⟨hspares, List.forall_mem_append.mpr ⟨hfrozen, ?_⟩⟩
      exact List.forall_mem_singleton.mpr (.of_plain (hdeed e))
  · rcases mem_onError hp with hp | ⟨e, m', -, rfl⟩
    · exact hx.direct p hp
    · exact .of_plain (hdeed e)
  · rcases h.onError with hcomes | ⟨e, hrun, rfl⟩
    · exact hx.account hA t m' hcomes
    · have hend : (x m).machine? = some m' := by
        rw [hrun]
        rfl
      have hlength : m'.stack.length = m.stack.length := by
        simpa using congrArg List.length (hx.ending m' hend).stack
      exact (hx.account hA _ m' (.ends hend)).trans hlength (.refl _) (.still (hmute hA e) m')

theorem doing (hx : x.Tended A T m) (t : Task) : (x.doing t).Tended A T m := by
  rw [doing_eq]
  exact hx.onError (fun _ => trivial) fun _ _ => trivial

/-- The step may use that the machine was only changed as the tables `T` allow. -/
theorem each {g : α → Routine Unit} (hm : m.store.Tidy) (hholds : ∀ t, T t → m.store.Holds t)
    (l : List α) (hg : ∀ a ∈ l, ∀ m₁, m.KeepsTo T m₁ → (g a).Tended A T m₁) :
    (l.forM g).Tended A T m := by
  induction l generalizing m with
  | nil => exact pure hm ()
  | cons a rest ih =>
    change (g a >>= fun _ => rest.forM g).Tended A T m
    refine bind hholds (hg a (List.mem_cons_self ..) m (.refl hm)) fun _ m₁ _ hstep => ?_
    refine ih hstep.spares.tidy (fun t ht => (hholds t ht).mono hstep.spares.grows.sizes) ?_
    intro b hb m₂ hstep₂
    exact hg b (List.mem_cons_of_mem _ hb) m₂ (hstep.trans_of hstep₂ fun _ _ => id)

end Tended

end Routine

end ObjectLang
