import ObjectLang.Proofs.Eval.TameModules
import ObjectLang.Proofs.Machine.Steady
import ObjectLang.Proofs.StackDiscipline

/-!
Later states of a run, and the moments on the way to them.
A run may be watched from between two programs or from a moment of one, and it may be followed
through any number of programs. All along the way stores are tidy and grow, and an activation that
was captured on the way gets no new names.
-/
namespace ObjectLang

open Machine Routine

namespace Machine

variable {sources : List Source} {m m' m'' : Machine} {t t₁ t₂ : List Moment} {p q : Moment}
  {src : Source} {c : CellId} {d : Nat}

/-- The tables that a program finds and binds names in: those of the modules and of the main
activation. -/
def programTables (main : TableId) : TableId → Prop := fun t => t = initial.modules ∨ t = main

section Programs

variable {owner : ObjectId} {main : TableId}

theorem AtMain.headIn (h : AtMain owner main m) :
    m.HeadIn fun t => programTables main t ∧ t ≠ m.modules := by
  intro a ha t ht
  rw [h.stack] at ha
  cases ha
  obtain rfl := Option.some.inj ht
  exact ⟨Or.inr rfl, h.apart⟩

theorem After.admits (hinitial : AtMain owner main initial) (h : After sources m) :
    m.Admits (programTables main) := by
  induction h with
  | start =>
    have hsound := start_initial.2.sound .any
    refine ⟨start_initial.2.tidy, ?_, Or.inl rfl⟩
    rintro t (rfl | rfl)
    · exact ⟨hsound.modules.holds, fun p hp => absurd hp (start_initial.2.plain p)⟩
    · have hmain := hsound.stack _ (hinitial.stack ▸ List.mem_singleton.mpr rfl)
      exact ⟨hmain.home.holds, fun p hp => absurd hp (start_initial.2.plain p)⟩
  | redirect _ sink ih => exact ⟨ih.tidy, ih.tables, ih.registry⟩
  | next h d src hend ih =>
    have hrun := (Eval.runSource_tame d src).tended _ _ ih
      (h.atMain hinitial).headIn
    exact (hrun.ending _ hend).admits ih

/-- A program is confined to the two tables, and accounts for modules and exports. -/
theorem After.tended (hinitial : AtMain owner main initial) (h : After sources m) (d : Nat)
    (src : Source) : (Eval.runSource (.ofDepth d) src).Tended True (programTables main) m :=
  (Eval.runSource_tame d src).tended _ m (h.admits hinitial)
    (h.atMain hinitial).headIn

theorem After.confined (hinitial : AtMain owner main initial) (h : After sources m) (d : Nat)
    (src : Source) : (Eval.runSource (.ofDepth d) src).Confined (programTables main) m :=
  (h.tended hinitial d src).confined

theorem Reachable.tidy (h : Reachable m) : m.store.Tidy := by
  obtain ⟨owner, main, hinitial⟩ := initial_atMain
  cases h with
  | between h => exact (h.admits hinitial).tidy
  | during h d src hp => exact ((h.confined hinitial d src).passing hp).tidy

end Programs

/-- What was running at `m` has ended, and programs after it too, and left `m'` between two
programs. -/
inductive Ended : Machine → List Moment → Machine → Prop where
  | stay {sources : List Source} {m : Machine} (h : After sources m) : Ended m [] m
  | finish {sources : List Source} {m m' : Machine} (h : After sources m) (d : Nat) (src : Source)
      {before t : List Moment} {p : Moment}
      (hmoments : (Eval.runSource (.ofDepth d) src).moments m = before ++ p :: t)
      (hend : (Eval.runSource (.ofDepth d) src m).machine? = some m') : Ended p.machine (p :: t) m'
  | redirect {m m' : Machine} {t : List Moment} (h : Ended m t m') (sink : Sink) :
      Ended m t { m' with sink := sink }
  | next {m m' m'' : Machine} {t : List Moment} (h : Ended m t m') (d : Nat) (src : Source)
      (hend : (Eval.runSource (.ofDepth d) src m').machine? = some m'') :
      Ended m (t ++ (Eval.runSource (.ofDepth d) src).moments m') m''

/-- The run that came to `m` comes to `m'` later, by the given moments. -/
inductive Later : Machine → List Moment → Machine → Prop where
  | now {m : Machine} (h : Reachable m) : Later m [] m
  | ended {m m' : Machine} {t : List Moment} (h : Ended m t m') : Later m t m'
  | within {sources : List Source} {m : Machine} (h : After sources m) (d : Nat) (src : Source)
      {before t rest : List Moment} {p q : Moment}
      (hmoments : (Eval.runSource (.ofDepth d) src).moments m =
        before ++ p :: (t ++ q :: rest)) : Later p.machine (p :: t) q.machine
  | during {m m' : Machine} {t : List Moment} (h : Ended m t m') (d : Nat) (src : Source)
      {t' rest : List Moment} {q : Moment}
      (hmoments : (Eval.runSource (.ofDepth d) src).moments m' = t' ++ q :: rest) :
      Later m (t ++ t') q.machine

theorem Ended.after (h : Ended m t m') : ∃ sources, After sources m' := by
  induction h with
  | stay h => exact ⟨_, h⟩
  | finish h d src _ hend => exact ⟨_, .next h d src hend⟩
  | redirect _ sink ih =>
    obtain ⟨sources, h⟩ := ih
    exact ⟨sources, .redirect h sink⟩
  | next _ d src hend ih =>
    obtain ⟨sources, h⟩ := ih
    exact ⟨_, .next h d src hend⟩

theorem Reachable.of_moment (h : After sources m)
    (hp : p ∈ (Eval.runSource (.ofDepth d) src).moments m) : Reachable p.machine :=
  .during h d src (show (⟨p.deed, p.machine⟩ : Moment) ∈ _ from hp)

theorem Later.reachable (h : Later m t m') : Reachable m' := by
  cases h with
  | now h => exact h
  | ended h =>
    obtain ⟨sources, h⟩ := h.after
    exact .between h
  | within h d src hmoments => exact .of_moment h (by rw [hmoments]; simp)
  | during h d src hmoments =>
    obtain ⟨sources, h⟩ := h.after
    exact .of_moment h (by rw [hmoments]; simp)

theorem Ended.of_program (h : Ended m t m') (hp : p ∈ t) :
    ∃ sources m₀ d src, After sources m₀ ∧ p ∈ (Eval.runSource (.ofDepth d) src).moments m₀ := by
  induction h with
  | stay _ => cases hp
  | finish h d src hmoments _ =>
    refine ⟨_, _, d, src, h, ?_⟩
    rw [hmoments]
    exact List.mem_append.mpr (Or.inr hp)
  | redirect _ sink ih => exact ih hp
  | next h d src _ ih =>
    rcases List.mem_append.mp hp with hp | hp
    · exact ih hp
    · obtain ⟨sources, hafter⟩ := h.after
      exact ⟨sources, _, d, src, hafter, hp⟩

/-- Every moment on the way is one of some program. -/
theorem Later.of_program (h : Later m t m') (hp : p ∈ t) :
    ∃ sources m₀ d src, After sources m₀ ∧ p ∈ (Eval.runSource (.ofDepth d) src).moments m₀ := by
  cases h with
  | now _ => cases hp
  | ended h => exact h.of_program hp
  | within h d src hmoments =>
    refine ⟨_, _, d, src, h, ?_⟩
    rw [hmoments, ← List.cons_append]
    exact List.mem_append.mpr (Or.inr (List.mem_append.mpr (Or.inl hp)))
  | during h d src hmoments =>
    rcases List.mem_append.mp hp with hp | hp
    · exact h.of_program hp
    · obtain ⟨sources, hafter⟩ := h.after
      refine ⟨sources, _, d, src, hafter, ?_⟩
      rw [hmoments]
      exact List.mem_append.mpr (Or.inl hp)

/-- Code assigns what it finds as a name or as a member. -/
theorem Later.direct (h : Later m t m') (hp : p ∈ t) {via : Route} {v : ObjectId}
    (hdeed : p.deed = .writes via c v) : via.Direct := by
  obtain ⟨owner, main, hinitial⟩ := initial_atMain
  obtain ⟨sources, m₀, d, src, hafter, hmem⟩ := h.of_program hp
  exact (hafter.confined hinitial d src).direct p hmem via c v hdeed

/-- A moment on the way is one of the states that the run comes to. -/
theorem Ended.cut (h : Ended m t m') (ht : t = t₁ ++ q :: t₂) : Later m t₁ q.machine := by
  induction h generalizing t₁ t₂ with
  | stay _ => simp at ht
  | @finish sources m m' h d src before t p hmoments hend =>
    cases t₁ with
    | nil =>
      obtain ⟨rfl, -⟩ := List.cons.inj ht
      exact .now (.of_moment h (by rw [hmoments]; simp))
    | cons p' t₁ =>
      obtain ⟨rfl, rfl⟩ := List.cons.inj ht
      exact .within h d src hmoments
  | redirect _ sink ih => exact ih ht
  | next h d src _ ih =>
    rcases append_eq_split ht with ⟨r, hr, -⟩ | ⟨r, rfl, hr⟩
    · exact ih hr
    · exact .during h d src hr

theorem Later.cut (h : Later m (t₁ ++ q :: t₂) m') : Later m t₁ q.machine := by
  generalize ht : t₁ ++ q :: t₂ = t at h
  cases h with
  | now _ => simp at ht
  | ended h => exact h.cut ht.symm
  | @within sources m h d src before t rest p q' hmoments =>
    cases t₁ with
    | nil =>
      obtain ⟨rfl, -⟩ := List.cons.inj ht
      exact .now (.of_moment h (by rw [hmoments]; simp))
    | cons p' t₁ =>
      rw [List.cons_append] at ht
      obtain ⟨rfl, rfl⟩ := List.cons.inj ht
      rw [List.append_assoc, List.cons_append] at hmoments
      exact .within h d src hmoments
  | @during m m' t h d src t' rest q' hmoments =>
    rcases append_eq_split ht.symm with ⟨r, hr, -⟩ | ⟨r, rfl, hr⟩
    · exact h.cut hr
    · rw [hr, List.append_assoc, List.cons_append] at hmoments
      exact .during h d src hmoments

inductive Passage : Machine → List Moment → Machine → Prop where
  | stay (m : Machine) : Passage m [] m
  | path {m m₁ m' : Machine} {t t' : List Moment} (h : Path .any 0 m t m₁)
      (rest : Passage m₁ t' m') : Passage m (t ++ t') m'
  | redirect {m m' : Machine} {t : List Moment} (sink : Sink)
      (rest : Passage { m with sink := sink } t m') : Passage m t m'

namespace Passage

theorem of_path (h : Path .any 0 m t m') : Passage m t m' := by
  have hpassage := Passage.path h (.stay m')
  rwa [List.append_nil] at hpassage

variable (h : Passage m t m')
include h

theorem trans (h' : Passage m' t₂ m'') : Passage m (t ++ t₂) m'' := by
  induction h with
  | stay m => exact h'
  | path h _ ih =>
    rw [List.append_assoc]
    exact .path h (ih h')
  | redirect sink _ ih => exact .redirect sink (ih h')

theorem onward (hm : m.Sound .any) : Onward .any 0 m m' := by
  induction h with
  | stay m => exact .refl hm
  | path h _ ih =>
    have hon := h.onward hm.ready
    exact hon.trans (ih hon.sound)
  | @redirect m m' t sink _ ih =>
    have hon := Onward.withStack (n := 0) hm hm.stack sink m.log
    exact hon.trans (ih hon.sound)

/-- A moment on the way: there the deed is honest. -/
theorem split (hm : m.Sound .any) (ht : t = t₁ ++ q :: t₂) :
    q.machine.Sound .any ∧ q.Honest .any 0 ∧ Passage q.after t₂ m' := by
  induction h generalizing t₁ with
  | stay m => simp at ht
  | path h rest ih =>
    rcases append_eq_split ht with ⟨r, rfl, rfl⟩ | ⟨r, -, rfl⟩
    · obtain ⟨hbefore, hq, hafter⟩ := h.split
      exact ⟨(hbefore.onward hm.ready).sound, hq, .path hafter rest⟩
    · exact ih (h.onward hm.ready).sound rfl
  | redirect sink _ ih => exact ih (hm.withStack hm.stack sink _) ht

/-- A cell holds what it held unless it is written on the way. -/
theorem cell_eq (hm : m.Sound .any) (hc : m.store.HasCell c)
    (ht : ∀ w ∈ t, ∀ via v, w.deed ≠ .writes via c v) : m'.store.cell c = m.store.cell c := by
  induction h with
  | stay m => rfl
  | path h _ ih =>
    have hon := h.onward hm.ready
    rw [ih hon.sound (hc.mono hon.grows.sizes) fun w hw => ht w (List.mem_append.mpr (Or.inr hw))]
    exact h.cell_eq hm.ready hc fun w hw => ht w (List.mem_append.mpr (Or.inl hw))
  | redirect sink _ ih => exact ih (hm.withStack hm.stack sink _) hc ht

end Passage

theorem After.path (h : After sources m) (d : Nat) (src : Source) :
    ∃ m', Path .any 0 m ((Eval.runSource (.ofDepth d) src).moments m) m' :=
  runSource_path (h.sound (Stock.any_covers _)) (fun b _ => Stock.any_block b) d

theorem After.path_end (h : After sources m)
    (hend : (Eval.runSource (.ofDepth d) src m).machine? = some m') :
    Path .any 0 m ((Eval.runSource (.ofDepth d) src).moments m) m' :=
  (runSource_reached (h.sound (Stock.any_covers _)) (fun b _ => Stock.any_block b) hend).1

theorem Ended.passage (h : Ended m t m') : m.Sound .any ∧ Passage m t m' := by
  induction h with
  | @stay sources m h => exact ⟨h.sound (Stock.any_covers _), .stay m⟩
  | @finish sources m m' h d src before t p hmoments hend =>
    have hpath := h.path_end hend
    rw [hmoments] at hpath
    obtain ⟨hbefore, hp, hafter⟩ := hpath.split
    refine ⟨(hbefore.onward (h.sound (Stock.any_covers _)).ready).sound, .of_path ?_⟩
    exact .pass hp hafter
  | redirect _ sink ih =>
    refine ⟨ih.1, ?_⟩
    have hpassage := ih.2.trans (.redirect sink (.stay _))
    rwa [List.append_nil] at hpassage
  | next h d src hend ih =>
    obtain ⟨sources, hafter⟩ := h.after
    exact ⟨ih.1, ih.2.trans (.of_path (hafter.path_end hend))⟩

theorem Later.passage (h : Later m t m') : m.Sound .any ∧ Passage m t m' := by
  cases h with
  | now h => exact ⟨h.sound, .stay m⟩
  | ended h => exact h.passage
  | @within sources m h d src before t rest p q hmoments =>
    obtain ⟨m', hpath⟩ := h.path d src
    rw [hmoments] at hpath
    obtain ⟨hbefore, hp, hafter⟩ := hpath.split
    refine ⟨(hbefore.onward (h.sound (Stock.any_covers _)).ready).sound, .of_path ?_⟩
    exact .pass hp hafter.split.1
  | during h d src hmoments =>
    obtain ⟨sources, hafter⟩ := h.after
    obtain ⟨m₁, hpath⟩ := hafter.path d src
    rw [hmoments] at hpath
    exact ⟨h.passage.1, h.passage.2.trans (.of_path hpath.split.1)⟩

theorem Later.onward (h : Later m t m') : Onward .any 0 m m' := h.passage.2.onward h.passage.1

section Snapshots

variable {owner : ObjectId} {main : TableId}

/-- What was captured on the way has got no new names, and will not get any from the programs to
come. -/
theorem Ended.frozen (hinitial : AtMain owner main initial) (h : Ended m t m') :
    ∀ p ∈ t, p.Frozen m'.store ∧ ∀ x, programTables main x → p.machine.store.Holds x := by
  induction h with
  | stay _ => simp
  | @finish sources m m' h d src before t p hmoments hend =>
    have hrun := h.confined hinitial d src
    intro q hq
    have hmem : q ∈ (Eval.runSource (.ofDepth d) src).moments m := by
      rw [hmoments]
      exact List.mem_append.mpr (Or.inr hq)
    exact ⟨hrun.lasting hmem hend, fun x hx =>
      ((h.admits hinitial).holds x hx).mono (hrun.passing hmem).grows.sizes⟩
  | redirect _ sink ih => exact ih
  | @next m m' m'' t h d src hend ih =>
    obtain ⟨sources, hafter⟩ := h.after
    have hrun := hafter.confined hinitial d src
    intro q hq
    rcases List.mem_append.mp hq with hq | hq
    · obtain ⟨hfrozen, hholds⟩ := ih q hq
      refine ⟨fun a ha => (hfrozen a ha).trans ?_, hholds⟩
      exact (hrun.ending m'' hend).spares.weaken fun x _ hx => hholds x hx
    · exact ⟨hrun.lasting hq hend, fun x hx =>
        ((hafter.admits hinitial).holds x hx).mono (hrun.passing hq).grows.sizes⟩

theorem Later.frozen (h : Later m t m') (hp : p ∈ t) : p.Frozen m'.store := by
  obtain ⟨owner, main, hinitial⟩ := initial_atMain
  cases h with
  | now _ => cases hp
  | ended h => exact (h.frozen hinitial p hp).1
  | @within sources m h d src before t rest p' q hmoments =>
    rw [← List.cons_append, ← List.append_assoc] at hmoments
    exact ((h.confined hinitial d src).comes _ _ (.passes hmoments)).2 p
      (List.mem_append.mpr (Or.inr hp))
  | @during m m' t h d src t' rest q hmoments =>
    obtain ⟨sources, hafter⟩ := h.after
    have hrun := hafter.confined hinitial d src
    obtain ⟨hspares, hpassed⟩ := hrun.comes _ _ (.passes hmoments)
    rcases List.mem_append.mp hp with hp | hp
    · obtain ⟨hfrozen, hholds⟩ := h.frozen hinitial p hp
      exact fun a ha => (hfrozen a ha).trans (hspares.weaken fun x _ hx => hholds x hx)
    · exact hpassed p hp

end Snapshots

end Machine

end ObjectLang
