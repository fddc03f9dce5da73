import ObjectLang.Proofs.Eval.CivilPrograms
import ObjectLang.Proofs.Later
import ObjectLang.Proofs.Store.Resolution

/-!
What stands in all runs.
Faces are in order in every state that a run comes to, what is made stays as it is, stores are
proper, and the tables of registered modules are sealed. The tables that programs find keep their
names, but for those of the modules and of the main activation.
-/
namespace ObjectLang

open Machine Routine

namespace Machine

variable {sources : List Source} {m m' : Machine} {t : List Moment} {p : Moment} {name : String}

/-- A state that a run goes on from is one that it came to. -/
theorem Later.reachable_from (h : Later m t m') : Reachable m := by
  have hended : ∀ {m m' t}, Ended m t m' → Reachable m := by
    intro m m' t h
    induction h with
    | stay h => exact .between h
    | finish h d src hmoments _ => exact .of_moment h (by rw [hmoments]; simp)
    | redirect _ _ ih => exact ih
    | next _ _ _ _ ih => exact ih
  cases h with
  | now h => exact h
  | ended h => exact hended h
  | within h d src hmoments => exact .of_moment h (by rw [hmoments]; simp)
  | during h d src hmoments => exact hended h

/-- What holds at the start and is kept along every path holds in all states that runs come to. -/
theorem Reachable.of_paths {P : Machine → Prop} (hstart : P initial)
    (hsink : ∀ m sink, P m → P { m with sink := sink })
    (hpath : ∀ m t m', m.Sound .any → Path .any 0 m t m' → P m → P m') (h : Reachable m) : P m := by
  have hafter : ∀ {sources m}, After sources m → P m := by
    intro sources m h
    induction h with
    | start => exact hstart
    | redirect _ sink ih => exact hsink _ sink ih
    | next h d src hend ih =>
      exact hpath _ _ _ (h.sound (Stock.any_covers _)) (h.path_end hend) ih
  cases h with
  | between h => exact hafter h
  | during h d src hp =>
    -- The moments up to this one are a path of their own.
    obtain ⟨before, rest, heq⟩ := List.append_of_mem hp
    obtain ⟨m', hrun⟩ := h.path d src
    rw [heq] at hrun
    exact hpath _ _ _ (h.sound (Stock.any_covers _)) hrun.split.1 (hafter h)

section Faces

theorem Passage.abides (h : Passage m t m') (hsound : m.Sound .any)
    (hm : m.store.Faced m.roots.root) : Abides m m' := by
  induction h with
  | stay m => exact .refl hm
  | path h _ ih =>
    have hfirst := h.abides hsound.ready hm
    exact hfirst.trans (ih (h.onward hsound.ready).sound hfirst.faced)
  | @redirect m m' t sink _ ih =>
    have hfirst : Abides m { m with sink := sink } := .of_store hm rfl rfl
    exact hfirst.trans (ih (hsound.withStack hsound.stack sink _) hm)

/-- What is there at the start is made, and abides. -/
theorem Reachable.abides (h : Reachable m) : Abides initial m := by
  refine h.of_paths (P := Abides initial) (.refl start_initial.2.faced) ?_ ?_
  · intro m sink hm
    exact hm.trans (.of_store hm.faced rfl rfl)
  · intro m t m' hsound hpath hm
    exact hm.trans (hpath.abides hsound.ready hm.faced)

theorem Reachable.builtins_eq (h : Reachable m) : m.builtins = initial.builtins := by
  refine h.of_paths (P := fun m => m.builtins = initial.builtins) rfl (fun m sink hm => hm) ?_
  intro m t m' hsound hpath hm
  exact (hpath.onward hsound.ready).builtins.trans hm

theorem Later.abides (h : Later m t m') : Abides m m' :=
  h.passage.2.abides h.passage.1 h.reachable_from.abides.faced

end Faces

section Levels

variable (h : Reachable m)
include h

theorem Reachable.orderly : Orderly m := by
  have hstart := start_initial.2
  refine h.of_paths ⟨hstart.faced, hstart.classed, hstart.distinct⟩ ?_ ?_
  · intro m sink hm
    exact hm.of_store rfl rfl
  · intro m t m' hsound hpath hm
    exact hpath.orderly hsound.ready hm

/-- A builtin that is a constant at the start is one ever after. -/
theorem Reachable.builtin_const {c : CellId} {v : ObjectId}
    (hc : initial.store.local? initial.builtins name = some c)
    (hv : initial.store.cell c = .const v) :
    m.store.local? m.builtins name = some c ∧ m.store.cell c = .const v := by
  have hgrows := h.abides.lasts.toGrows
  have hcell : initial.store.HasCell c :=
    Store.hasCell_of_lookup (start_initial.2.sound .any).store.toWellformed (t := initial.builtins)
      (Store.lookup_of_local? hc)
  rw [h.builtins_eq]
  exact ⟨hgrows.bound _ _ _ hc, hgrows.const hcell hv⟩

theorem Reachable.simple (hname : name ∈ Builtin.valueClasses) :
    ∃ c v, m.store.local? m.builtins name = some c ∧ m.store.cell c = .const v ∧
      m.store.Simple 2 v := by
  obtain ⟨c, v, hc, hv, hsimple⟩ := start_initial.2.simple name hname
  obtain ⟨hc', hv'⟩ := h.builtin_const hc hv
  exact ⟨c, v, hc', hv', hsimple.mono h.abides.lasts.toGrows⟩

theorem Reachable.derived (hname : name ∈ Builtin.valueClasses.tail) : m.Derived name := by
  obtain ⟨c, v, b, c', object, hc, hv, hkind, hbase, hc', hobject, hcall⟩ :=
    start_initial.2.derived name hname
  obtain ⟨hc, hv⟩ := h.builtin_const hc hv
  obtain ⟨hc', hobject⟩ := h.builtin_const hc' hobject
  exact ⟨c, v, b, c', object, hc, hv, h.abides.lasts.toGrows.kind_of_ne hkind (by simp), hbase,
    hc', hobject, hcall⟩

theorem Reachable.constant (hname : name ∈ Builtin.values) :
    ∃ c v, m.store.local? m.builtins name = some c ∧ m.store.cell c = .const v := by
  obtain ⟨c, v, hc, hv⟩ := start_initial.2.constant name hname
  exact ⟨c, v, h.builtin_const hc hv⟩

/-- The root is made, so that it keeps its operators and its type, and so are its operators. -/
theorem Reachable.hooked : m.store.Hooked m.roots.root := by
  obtain ⟨hoperator, hfields, object, b, htype, hkind, hobject⟩ := start_initial.2.hooked
  have hsound := start_initial.2.sound .any
  have hlasts := h.abides.lasts
  have hroot := hlasts.complete _ (start_initial.2.complete _ hsound.roots.root)
  rw [h.abides.roots]
  refine ⟨fun code hcode => ?_, (hroot.2.2 _).trans hfields, object, b, hroot.2.1.trans htype,
    hlasts.toGrows.kind_of_ne hkind (by simp), hobject⟩
  obtain ⟨c, f, hc, hcell, hf, hmembers⟩ := hoperator code hcode
  have hhook := hlasts.complete f (start_initial.2.complete f
    (Store.has_of_kind (by rw [show _ = _ from hf]; nofun)))
  refine ⟨c, f, ?_, hlasts.toGrows.const ?_ hcell, hf.mono hlasts.toGrows,
    (hhook.2.2 _).trans hmembers⟩
  · rw [Store.local?, hroot.2.2, ← Store.local?, hc]
  · exact Store.hasCell_of_lookup hsound.store.toWellformed
      (t := .part initial.roots.root .operators) (Store.lookup_of_local? hc)

/-- The operators of all objects are found, unless the bottom of the object is in the making. -/
theorem Reachable.lookup_operator {code : Code} (hcode : code ∈ Builtin.objectBlueprint.operators)
    {o : ObjectId} (hhas : m.store.HasObject o) (ho : ¬ m.store.Formless o) :
    ∃ c, m.store.lookup (.part o .operators) code.name = some c :=
  h.orderly.classed.lookup_operator h.orderly.faced h.orderly.distinct h.sound.store h.hooked hcode
    hhas ho

/-- The topmost class makes its instances without running any code. -/
theorem Reachable.simple_top {c : ObjectId} {b : Blueprint} (hc : m.store.kind c = .ofClass b)
    (hbase : b.base = none) : b.Simple := by
  obtain ⟨i, v, hi, hv, hsimple⟩ := h.simple (show "Object" ∈ _ by decide)
  obtain ⟨i', v', b', hi', hv', hb', hbase'⟩ := h.sound.object
  cases hi.symm.trans hi'
  cases hv.symm.trans hv'
  obtain rfl := h.sound.store.lone c v b b' hc hb' hbase hbase'
  cases hsimple with
  | top hkind hb | above hkind hb =>
    cases hkind.symm.trans hc
    exact hb

end Levels

section Names

variable {owner : ObjectId} {main : TableId}

/-- Between programs, names are bound in the main table. -/
theorem After.head_gives (hinitial : AtMain owner main initial) (h : After sources m)
    (hopen : m.Open initial.modules main) : (Licence.head : Licence initial.modules).gives m := by
  intro a ha t ht
  rw [(h.atMain hinitial).stack] at ha
  cases ha
  obtain rfl := Option.some.inj ht
  exact hopen

/-- The main table is open between programs, since only tables of modules are sealed. -/
theorem After.civil (hinitial : AtMain owner main initial) (h : After sources m) :
    m.Proper initial.modules ∧ m.Open initial.modules main := by
  induction h with
  | start =>
    have hproper := start_initial.2.proper
    have hmem : ⟨owner, "main", [main, initial.builtins], main, []⟩ ∈ initial.stack := by
      rw [hinitial.stack]
      exact List.mem_singleton.mpr rfl
    refine ⟨hproper, (hproper.stack _ hmem).home, ?_, ?_⟩
    · exact ((start_initial.2.sound .any).stack _ hmem).home.holds
    · rintro ⟨n, c, p, hlocal, -⟩
      rw [Store.local?, start_initial.2.registry] at hlocal
      cases hlocal
  | redirect _ sink ih => exact ⟨⟨ih.1.store, ih.1.modules, ih.1.builtins, ih.1.stack⟩, ih.2⟩
  | @next sources m m' h d src hend ih =>
    have hrun := (Eval.runSource_civil _ d src).behaves m ih.1
      (h.head_gives hinitial ih.2)
    have hstep := hrun.ends m' hend
    exact ⟨hstep.proper ih.1, ih.2.lasts hstep⟩

theorem After.behaves (hinitial : AtMain owner main initial) (h : After sources m) (d : Nat)
    (src : Source) : (Eval.runSource (.ofDepth d) src).Behaves initial.modules m := by
  obtain ⟨hproper, hopen⟩ := h.civil hinitial
  exact (Eval.runSource_civil _ d src).behaves m hproper
    (h.head_gives hinitial hopen)

/-- At a moment of a program, and between two of them, the machine is proper. -/
theorem Reachable.proper (h : Reachable m) : m.Proper initial.modules := by
  obtain ⟨owner, main, hinitial⟩ := initial_atMain
  cases h with
  | between h => exact (h.civil hinitial).1
  | during h d src hp => exact ((h.behaves hinitial d src).moments _ hp).machine

theorem Ended.seals (hinitial : AtMain owner main initial) (h : Ended m t m') :
    Store.Seals initial.modules m.store m'.store := by
  induction h with
  | stay _ => exact .refl _ _
  | finish h d src hmoments hend =>
    exact ((h.behaves hinitial d src).comes _ _ (.ends hend)).2 _ (by simp [hmoments])
  | redirect _ sink ih => exact ih
  | next h d src hend ih =>
    obtain ⟨sources, hafter⟩ := h.after
    exact ih.trans ((hafter.behaves hinitial d src).comes _ _ (.ends hend)).1

/-- What is sealed stays so, and gets no further names. -/
theorem Later.seals (h : Later m t m') : Store.Seals initial.modules m.store m'.store := by
  obtain ⟨owner, main, hinitial⟩ := initial_atMain
  cases h with
  | now _ => exact .refl _ _
  | ended h => exact h.seals hinitial
  | within h d src hmoments =>
    rw [← List.cons_append, ← List.append_assoc] at hmoments
    exact ((h.behaves hinitial d src).comes _ _ (.passes hmoments)).2 _ (by simp)
  | during h d src hmoments =>
    obtain ⟨sources, hafter⟩ := h.after
    exact (h.seals hinitial).trans
      ((hafter.behaves hinitial d src).comes _ _ (.passes hmoments)).1

/-- A table of the start keeps its names, unless programs bind names in it. -/
theorem Reachable.kept (hinitial : AtMain owner main initial) (h : Reachable m) {x : TableId}
    (hx : initial.store.Holds x) (hfree : ¬ programTables main x) :
    m.store.bindings x = initial.store.bindings x := by
  have hafter : ∀ {sources m}, After sources m →
      m.store.bindings x = initial.store.bindings x := by
    intro sources m h
    induction h with
    | start => rfl
    | redirect _ sink ih => exact ih
    | next h d src hend ih =>
      have hholds := hx.mono (Reachable.between h).abides.lasts.sizes
      exact (((h.confined hinitial d src).ending _ hend).spares.kept x hholds hfree).trans ih
  cases h with
  | between h => exact hafter h
  | during h d src hp =>
    have hholds := hx.mono (Reachable.between h).abides.lasts.sizes
    exact (((h.confined hinitial d src).passing hp).kept x hholds hfree).trans (hafter h)

/-- The error that a program ends with, and every one that leaves a statement on the way, is one
that scripts can lead to. -/
theorem After.errors (h : After sources m) (d : Nat) (src : Source) :
    (∀ e m', Eval.runSource (.ofDepth d) src m = .failed e m' → e.Proper) ∧
      ∀ p ∈ (Eval.runSource (.ofDepth d) src).moments m, ∀ s e, p.deed = .leaves s e →
        e.Proper := by
  obtain ⟨owner, main, hinitial⟩ := initial_atMain
  have hrun := h.behaves hinitial d src
  exact ⟨hrun.fails, fun p hp s e hdeed => (hrun.moments p hp).error s e hdeed⟩

/-- What lies behind the errors of a program is no fault that scripts cannot lead to. -/
theorem After.rootCause_ne (h : After sources m) (d : Nat) (src : Source) {f : Fault}
    (hf : ¬ f.Proper) :
    (∀ e m', Eval.runSource (.ofDepth d) src m = .failed e m' → e.rootCause ≠ .fault f) ∧
      ∀ p ∈ (Eval.runSource (.ofDepth d) src).moments m, ∀ s e, p.deed = .leaves s e →
        e.rootCause ≠ .fault f := by
  have hne : ∀ e : Error, e.Proper → e.rootCause ≠ .fault f := by
    intro e he heq
    have hproper := he.rootCause
    rw [heq] at hproper
    exact hf hproper
  obtain ⟨hend, hleaves⟩ := h.errors d src
  exact ⟨fun e m' hrun => hne e (hend e m' hrun),
    fun p hp s e hdeed => hne e (hleaves p hp s e hdeed)⟩

end Names

end Machine

end ObjectLang
