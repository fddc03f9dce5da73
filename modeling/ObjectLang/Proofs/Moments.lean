import ObjectLang.Machine.Routine

/-!
The moments of a run as a list.
A routine tells its moments by a relation that holds of exactly one list for each machine; here that
list is named, and the moments of a composed routine are those of its parts, in order.
-/
namespace ObjectLang

def Outcome.machine? {α : Type} : Outcome α → Option Machine
  | .done _ m => some m
  | .failed _ m => some m
  | .exhausted => none

/-- Code of a program is evaluated or executed. -/
def Deed.runsCode : Deed → Bool
  | .evaluates _ | .executes _ => true
  | _ => false

namespace Routine

variable {α β γ : Type} {e : Error}

/-- The moments that the run on a machine passes, in order. -/
noncomputable def moments (x : Routine α) (m : Machine) : List Moment := (x.traced m).choose

theorem trace_iff (x : Routine α) (m : Machine) (t : List Moment) :
    x.trace m t ↔ t = x.moments m := (x.traced m).choose_spec t

theorem trace_moments (x : Routine α) (m : Machine) : x.trace m (x.moments m) :=
  (x.trace_iff m _).2 rfl

theorem moments_eq {x : Routine α} {m : Machine} {t : List Moment} (h : x.trace m t) :
    x.moments m = t := ((x.trace_iff m t).1 h).symm

@[simp] theorem moments_quiet (f : Machine → Outcome α) (m : Machine) : (quiet f).moments m = [] :=
  moments_eq (x := quiet f) rfl

@[simp] theorem moments_pure (a : α) (m : Machine) : (Pure.pure a : Routine α).moments m = [] :=
  moments_quiet _ m

@[simp] theorem moments_touch (d : Deed) (m : Machine) : (touch d).moments m = [⟨d, m⟩] :=
  moments_eq (x := touch d) rfl

@[simp] theorem moments_ending (x : Routine α) (f : Outcome α → Outcome β) (m : Machine) :
    (x.ending f).moments m = x.moments m :=
  moments_eq (x := x.ending f) (x.trace_moments m)

@[simp] theorem moments_on (x : Routine α) (f : Machine → Machine) (m : Machine) :
    (x.on f).moments m = x.moments (f m) :=
  moments_eq (x := x.on f) (x.trace_moments (f m))

theorem moments_bind (x : Routine α) (f : α → Routine β) (m : Machine) :
    (x >>= f).moments m = x.moments m ++ match x m with
      | .done a m' => (f a).moments m'
      | _ => [] := by
  apply moments_eq
  change (Routine.bind x f).trace m _
  simp only [Routine.bind]
  cases x m with
  | done a m' =>
    exact ⟨x.moments m, (f a).moments m', x.trace_moments m, (f a).trace_moments m', rfl⟩
  | failed e m' => simpa using x.trace_moments m
  | exhausted => simpa using x.trace_moments m

section Bind

variable {x : Routine α} {f : α → Routine β} {m m' : Machine} {a : α} {p : Moment}

theorem moments_bind_done (h : x m = .done a m') :
    (x >>= f).moments m = x.moments m ++ (f a).moments m' := by
  rw [moments_bind, h]

theorem bind_run_done (h : x m = .done a m') : (x >>= f) m = f a m' := by
  rw [bind_run, h]

/-- A routine that is made up of two has come to a value by way of both. -/
theorem done_of_bind {b : β} (h : (x >>= f) m = .done b m') :
    ∃ a m₁, x m = .done a m₁ ∧ f a m₁ = .done b m' := by
  rw [bind_run] at h
  cases hrun : x m <;> rw [hrun] at h
  · exact ⟨_, _, rfl, h⟩
  all_goals cases h

/-- A routine that is made up of two fails in the first or in the second. -/
theorem failed_of_bind (h : (x >>= f) m = .failed e m') :
    x m = .failed e m' ∨ ∃ a m₁, x m = .done a m₁ ∧ f a m₁ = .failed e m' := by
  rw [bind_run] at h
  cases hrun : x m <;> rw [hrun] at h
  · exact Or.inr ⟨_, _, rfl, h⟩
  · cases h
    exact Or.inl rfl
  · cases h

/-- How a routine ends that is made up of two. -/
theorem machine?_bind (h : ((x >>= f) m).machine? = some m') :
    (x m).machine? = some m' ∨ ∃ a m₁, x m = .done a m₁ ∧ (f a m₁).machine? = some m' := by
  rw [bind_run] at h
  cases hrun : x m <;> rw [hrun] at h
  · exact Or.inr ⟨_, _, rfl, h⟩
  · exact Or.inl h
  · cases h

/-- A moment of a routine that is made up of two is one of the first or of the second. -/
theorem mem_bind (h : p ∈ (x >>= f).moments m) :
    p ∈ x.moments m ∨ ∃ a m₁, x m = .done a m₁ ∧ p ∈ (f a).moments m₁ := by
  rw [moments_bind] at h
  refine (List.mem_append.mp h).imp_right fun h => ?_
  cases hrun : x m <;> rw [hrun] at h
  · exact ⟨_, _, rfl, h⟩
  all_goals cases h

theorem mem_bind_left (h : p ∈ x.moments m) : p ∈ (x >>= f).moments m := by
  rw [moments_bind]
  exact List.mem_append.mpr (Or.inl h)

theorem mem_bind_right (hx : x m = .done a m') (h : p ∈ (f a).moments m') :
    p ∈ (x >>= f).moments m := by
  rw [moments_bind_done hx]
  exact List.mem_append.mpr (Or.inr h)

end Bind

theorem run_assoc (x : Routine α) (f : α → Routine β) (g : β → Routine γ) (m : Machine) :
    ((x >>= f) >>= g) m = (x >>= fun a => f a >>= g) m := by
  simp only [bind_run]
  cases x m <;> rfl

theorem moments_assoc (x : Routine α) (f : α → Routine β) (g : β → Routine γ) (m : Machine) :
    ((x >>= f) >>= g).moments m = (x >>= fun a => f a >>= g).moments m := by
  rw [moments_bind, moments_bind, moments_bind, bind_run]
  cases x m with
  | done a m' => simp [moments_bind]
  | failed e m' => simp
  | exhausted => simp

/-- A routine is what it does and the moments that it passes. -/
theorem ext {x y : Routine α} (hrun : ∀ m, x m = y m) (hmoments : ∀ m, x.moments m = y.moments m) :
    x = y := by
  have htrace : x.trace = y.trace := by
    funext m t
    rw [eq_iff_iff, trace_iff, trace_iff, hmoments m]
  cases x
  cases y
  cases htrace
  cases funext hrun
  rfl

theorem lawful : LawfulMonad Routine := by
  refine .mk' _ (fun x => ext (fun m => ?_) fun m => ?_) (fun a f => ext (fun _ => rfl) fun m => ?_)
    fun x f g => ext (run_assoc x f g) (moments_assoc x f g)
  · rw [map_run]
    cases x m <;> rfl
  · change (x >>= Pure.pure).moments m = _
    rw [moments_bind]
    cases x m <;> simp
  · rw [moments_bind_done (pure_run a m), moments_pure, List.nil_append]

/-- What `x` does from `m` on is what `y` does from `m'` on. -/
structure Resumes (x : Routine α) (m : Machine) (y : Routine α) (m' : Machine) : Prop where
  run : x m = y m'
  moments : x.moments m = y.moments m'

namespace Resumes

variable {x y z : Routine α} {m m' m'' : Machine}

theorem trans (h : x.Resumes m y m') (h' : y.Resumes m' z m'') : x.Resumes m z m'' :=
  ⟨h.run.trans h'.run, h.moments.trans h'.moments⟩

theorem symm (h : x.Resumes m y m') : y.Resumes m' x m := ⟨h.run.symm, h.moments.symm⟩

/-- The first part of a routine passes no moments. -/
theorem bind {f : α → Routine β} {a : α} (hrun : x m = .done a m') (hx : x.moments m = []) :
    (x >>= f).Resumes m (f a) m' :=
  ⟨bind_run_done hrun, by rw [moments_bind_done hrun, hx, List.nil_append]⟩

/-- The same first part goes on in two ways that come to the same. -/
theorem after {f g : α → Routine β} (h : ∀ a m', x m = .done a m' → (f a).Resumes m' (g a) m') :
    (x >>= f).Resumes m (x >>= g) m := by
  cases hrun : x m with
  | done a m' =>
    refine ⟨?_, ?_⟩
    · rw [bind_run_done hrun, bind_run_done hrun, (h a m' hrun).run]
    · rw [moments_bind_done hrun, moments_bind_done hrun, (h a m' hrun).moments]
  | failed e m' => exact ⟨by rw [bind_run, bind_run, hrun],
      by rw [moments_bind, moments_bind, hrun]⟩
  | exhausted => exact ⟨by rw [bind_run, bind_run, hrun], by rw [moments_bind, moments_bind, hrun]⟩

theorem assoc (x : Routine α) (f : α → Routine β) (g : β → Routine γ) (m : Machine) :
    ((x >>= f) >>= g).Resumes m (x >>= fun a => f a >>= g) m :=
  ⟨run_assoc x f g m, moments_assoc x f g m⟩

end Resumes

def Still (x : Routine α) (m : Machine) : Prop := ∀ p ∈ x.moments m, p.deed.runsCode = false

theorem still_of_silent {x : Routine α} {m : Machine} (h : x.moments m = []) : x.Still m := by
  rw [Still, h]
  simp

theorem Still.bind {x : Routine α} {f : α → Routine β} {m : Machine} (hx : x.Still m)
    (hf : ∀ a m', x m = .done a m' → (f a).Still m') : (x >>= f).Still m := by
  intro p hp
  rcases mem_bind hp with hp | ⟨a, m', hrun, hp⟩
  · exact hx p hp
  · exact hf a m' hrun p hp

/-- The routine comes to a value without running code, and leaves the machine as it is. -/
structure Finds (x : Routine α) (m : Machine) (a : α) : Prop where
  run : x m = .done a m
  still : x.Still m

/-- What `x` does from `m` on is what `y` does from `m'` on, and it runs no code before. -/
structure Reaches (x : Routine α) (m : Machine) (y : Routine α) (m' : Machine) : Prop where
  run : x m = y m'
  moments : ∃ t, x.moments m = t ++ y.moments m' ∧ ∀ p ∈ t, p.deed.runsCode = false

namespace Reaches

variable {x y z : Routine α} {m m' m'' : Machine}

theorem of_resumes (h : x.Resumes m y m') : x.Reaches m y m' :=
  ⟨h.run, [], by rw [h.moments, List.nil_append], by simp⟩

theorem trans (h : x.Reaches m y m') (h' : y.Reaches m' z m'') : x.Reaches m z m'' := by
  obtain ⟨t, ht, hstill⟩ := h.moments
  obtain ⟨t', ht', hstill'⟩ := h'.moments
  refine ⟨h.run.trans h'.run, t ++ t', by rw [ht, ht', List.append_assoc], fun p hp => ?_⟩
  rcases List.mem_append.mp hp with hp | hp
  · exact hstill p hp
  · exact hstill' p hp

/-- The first part of a routine runs no code. -/
theorem bind {f : α → Routine β} {a : α} (hrun : x m = .done a m') (hx : x.Still m) :
    (x >>= f).Reaches m (f a) m' :=
  ⟨bind_run_done hrun, x.moments m, moments_bind_done hrun, hx⟩

theorem touch {deed : Deed} (hdeed : deed.runsCode = false) (f : Unit → Routine β) (m : Machine) :
    (Routine.touch deed >>= f).Reaches m (f ()) m := by
  refine .bind rfl fun p hp => ?_
  rw [moments_touch, List.mem_singleton] at hp
  rw [hp]
  exact hdeed

/-- Once a routine has come to a value, whatever follows goes on from there. -/
theorem bind_pure {a : α} (h : x.Reaches m (Pure.pure a) m') (f : α → Routine β) :
    (x >>= f).Reaches m (f a) m' := by
  refine .bind h.run fun p hp => ?_
  obtain ⟨t, ht, hstill⟩ := h.moments
  rw [ht, moments_pure, List.append_nil] at hp
  exact hstill p hp

theorem still (h : x.Reaches m y m') (hy : y.Still m') : x.Still m := by
  obtain ⟨t, ht, hstill⟩ := h.moments
  intro p hp
  rw [ht] at hp
  rcases List.mem_append.mp hp with hp | hp
  · exact hstill p hp
  · exact hy p hp

end Reaches

section Ending

variable {x : Routine α} {g : Machine → Machine} {m m' : Machine}

theorem done_of_ensuring {a : α} (h : x.ensuring g m = .done a m') :
    ∃ m₁, x m = .done a m₁ ∧ m' = g m₁ := by
  simp only [ensuring, ending] at h
  cases hrun : x m <;> rw [hrun] at h <;> cases h
  exact ⟨_, rfl, rfl⟩

theorem failed_of_ensuring (h : x.ensuring g m = .failed e m') :
    ∃ m₁, x m = .failed e m₁ ∧ m' = g m₁ := by
  simp only [ensuring, ending] at h
  cases hrun : x m <;> rw [hrun] at h <;> cases h
  exact ⟨_, rfl, rfl⟩

/-- A cleaned-up routine leaves what its clean-up leaves. -/
theorem machine?_ensuring (h : (x.ensuring g m).machine? = some m') :
    ∃ m₁, (x m).machine? = some m₁ ∧ m' = g m₁ := by
  simp only [ensuring, ending] at h
  cases hrun : x m <;> rw [hrun] at h <;> cases h <;> exact ⟨_, rfl, rfl⟩

/-- What is attempted gives a value or an error. -/
theorem done_of_attempt {r : Except Error α} (h : x.attempt m = .done r m') :
    (∃ a, r = .ok a ∧ x m = .done a m') ∨ ∃ e, r = .error e ∧ x m = .failed e m' := by
  simp only [attempt, ending] at h
  cases hrun : x m <;> rw [hrun] at h <;> cases h
  · exact Or.inl ⟨_, rfl, rfl⟩
  · exact Or.inr ⟨_, rfl, rfl⟩

theorem attempt_ne_failed (x : Routine α) (m : Machine) (e : Error) (m' : Machine) :
    x.attempt m ≠ .failed e m' := by
  simp only [attempt, ending]
  cases x m <;> simp

theorem machine?_attempt (x : Routine α) (m : Machine) :
    (x.attempt m).machine? = (x m).machine? := by
  simp only [attempt, ending]
  cases x m <;> rfl

end Ending

def Silent (x : Routine α) : Prop := ∀ m, x.moments m = []

theorem silent_quiet (f : Machine → Outcome α) : (quiet f).Silent := moments_quiet f

theorem silent_pure (a : α) : (Pure.pure a : Routine α).Silent := moments_pure a

theorem Silent.bind {x : Routine α} {f : α → Routine β} (hx : x.Silent) (hf : ∀ a, (f a).Silent) :
    (x >>= f).Silent := by
  intro m
  rw [moments_bind, hx m, List.nil_append]
  cases x m with
  | done a m' => exact hf a m'
  | failed e m' => rfl
  | exhausted => rfl

theorem Silent.forM {f : α → Routine Unit} {l : List α} (hf : ∀ a ∈ l, (f a).Silent) :
    (l.forM f).Silent := by
  induction l with
  | nil => exact silent_pure ()
  | cons a rest ih =>
    exact (hf a (List.mem_cons_self ..)).bind fun _ =>
      ih fun b hb => hf b (List.mem_cons_of_mem _ hb)

/-- What goes on silently adds no moments. -/
theorem moments_bind_silent (x : Routine α) {f : α → Routine β} (hf : ∀ a, (f a).Silent)
    (m : Machine) : (x >>= f).moments m = x.moments m := by
  rw [moments_bind]
  cases x m with
  | done a m' => exact (congrArg _ (hf a m')).trans (List.append_nil _)
  | failed e m' => exact List.append_nil _
  | exhausted => exact List.append_nil _

theorem moments_onError (x : Routine α) (deed : Error → Deed) (f : Error → Error) (m : Machine) :
    (x.onError deed f).moments m = x.moments m ++ match x m with
      | .failed e m' => [⟨deed e, m'⟩]
      | _ => [] := by
  apply moments_eq
  simp only [onError]
  cases x m with
  | failed e m' => exact ⟨x.moments m, x.trace_moments m, rfl⟩
  | done a m' => simpa using x.trace_moments m
  | exhausted => simpa using x.trace_moments m

section OnError

variable {x : Routine α} {deed : Error → Deed} {g : Error → Error} {m m' : Machine} {p : Moment}

theorem done_of_onError {a : α} (h : x.onError deed g m = .done a m') : x m = .done a m' := by
  simp only [onError] at h
  cases hrun : x m <;> rw [hrun] at h <;> cases h
  rfl

theorem failed_of_onError (h : x.onError deed g m = .failed e m') :
    ∃ e', x m = .failed e' m' ∧ e = g e' := by
  simp only [onError] at h
  cases hrun : x m <;> rw [hrun] at h <;> cases h
  exact ⟨_, rfl, rfl⟩

theorem machine?_onError (x : Routine α) (deed : Error → Deed) (g : Error → Error) (m : Machine) :
    (x.onError deed g m).machine? = (x m).machine? := by
  simp only [onError]
  cases x m <;> rfl

/-- An error that leaves is told at a moment of its own. -/
theorem mem_onError (h : p ∈ (x.onError deed g).moments m) :
    p ∈ x.moments m ∨ ∃ e m', x m = .failed e m' ∧ p = ⟨deed e, m'⟩ := by
  rw [moments_onError] at h
  refine (List.mem_append.mp h).imp_right fun h => ?_
  cases hrun : x m <;> rw [hrun] at h
  · cases h
  · exact ⟨_, _, rfl, List.mem_singleton.mp h⟩
  · cases h

theorem mem_onError_left (h : p ∈ x.moments m) : p ∈ (x.onError deed g).moments m := by
  rw [moments_onError]
  exact List.mem_append.mpr (Or.inl h)

end OnError

def Bare (x : Routine α) : Prop := ∀ m e m', x m = .failed e m' → ∃ f, e = .fault f

theorem bare_define (t : TableId) (name : String) (c : CellId) : (define t name c).Bare := by
  intro m e m' h
  simp only [define, quiet] at h
  split at h
  · cases h
  · cases h
    exact ⟨_, rfl⟩

theorem bare_fail (f : Fault) : (fail f : Routine α).Bare := by
  rintro m e m' ⟨⟩
  exact ⟨f, rfl⟩

theorem bare_defineLocal (a : Activation) (name : String) (c : CellId) :
    (defineLocal a name c).Bare := by
  rw [defineLocal]
  split
  · exact bare_define _ _ _
  · exact bare_fail _

theorem doing_run (x : Routine α) (t : Task) (m : Machine) : x.doing t m = x m := rfl

/-- A task that fails is a moment of its own; otherwise it is not told. -/
theorem doing_eq (x : Routine α) (t : Task) : x.doing t = x.onError (.breaks t) id := by
  have hrun : x.run = (x.onError (.breaks t) id).run := by
    funext m
    simp only [onError]
    cases x.run m <;> rfl
  rw [doing, hrun]

theorem moments_doing (x : Routine α) (t : Task) (m : Machine) :
    (x.doing t).moments m = x.moments m ++ match x m with
      | .failed e m' => [⟨.breaks t e, m'⟩]
      | _ => [] := by
  rw [doing_eq, moments_onError]

/-- A task that is done passes the moments of its routine. -/
theorem moments_doing_done {x : Routine α} {m m' : Machine} {a : α} (h : x m = .done a m')
    (t : Task) : (x.doing t).moments m = x.moments m := by
  rw [moments_doing, h, List.append_nil]

/-- What comes before a task and cannot fail may count as part of it. -/
theorem Resumes.doing {x : Routine α} {f : α → Routine β} {m m' : Machine} {a : α}
    (h : x m = .done a m') (t : Task) :
    (x >>= fun a => (f a).doing t).Resumes m ((x >>= f).doing t) m := by
  refine ⟨?_, ?_⟩
  · rw [bind_run_done h, doing_run, doing_run, bind_run_done h]
  · rw [moments_bind_done h, moments_doing, moments_doing, moments_bind_done h, bind_run_done h,
      List.append_assoc]

/-- The routine passes no moment but that of a task that breaks it off. -/
def Terse (x : Routine α) : Prop := ∀ m, x.moments m = [] ∨
  ∃ t e m', x m = .failed e m' ∧ x.moments m = [⟨.breaks t e, m'⟩]

namespace Terse

variable {x : Routine α}

theorem of_silent (hx : x.Silent) : x.Terse := fun m => Or.inl (hx m)

theorem moments_of_done (hx : x.Terse) {m m' : Machine} {a : α} (h : x m = .done a m') :
    x.moments m = [] := by
  rcases hx m with hmoments | ⟨t, e, m₁, hfailed, -⟩
  · exact hmoments
  · cases hfailed.symm.trans h

theorem doing (hx : x.Silent) (t : Task) : (x.doing t).Terse := by
  intro m
  rw [moments_doing, hx m]
  cases hrun : x m with
  | done a m' => exact Or.inl rfl
  | failed e m' => exact Or.inr ⟨t, e, m', hrun, rfl⟩
  | exhausted => exact Or.inl rfl

theorem bind {f : α → Routine β} (hx : x.Terse) (hf : ∀ a, (f a).Terse) : (x >>= f).Terse := by
  intro m
  rw [moments_bind, bind_run]
  cases hrun : x m with
  | done a m' =>
    rw [hx.moments_of_done hrun]
    exact hf a m'
  | failed e m' =>
    rw [List.append_nil]
    exact (hx m).imp_right fun ⟨t, e', m₁, hfailed, hmoments⟩ =>
      ⟨t, e', m₁, by cases hrun.symm.trans hfailed; rfl, hmoments⟩
  | exhausted =>
    rw [List.append_nil]
    refine Or.inl ((hx m).resolve_right ?_)
    rintro ⟨t, e, m₁, hfailed, -⟩
    cases hrun.symm.trans hfailed

theorem forM {f : α → Routine Unit} (hf : ∀ a, (f a).Terse) (l : List α) : (l.forM f).Terse := by
  induction l with
  | nil => exact of_silent (silent_pure ())
  | cons a rest ih => exact (hf a).bind fun _ => ih

end Terse

/-- Where an element stands in a list that is put together of two. -/
theorem append_eq_split {l l' l₁ l₂ : List α} {a : α} (h : l ++ l' = l₁ ++ a :: l₂) :
    (∃ r, l = l₁ ++ a :: r ∧ l₂ = r ++ l') ∨ ∃ r, l₁ = l ++ r ∧ l' = r ++ a :: l₂ := by
  rcases List.append_eq_append_iff.mp h with ⟨r, hl₁, hl'⟩ | ⟨r, hl, hr⟩
  · exact Or.inr ⟨r, hl₁, hl'⟩
  · cases r with
    | nil => exact Or.inr ⟨[], by simpa using hl.symm, by simpa using hr.symm⟩
    | cons b r =>
      obtain ⟨rfl, rfl⟩ := List.cons.inj hr
      exact Or.inl ⟨r, hl, rfl⟩

/-- The run on `m` comes to `m'` when it has passed the moments `t`, at its end or at a moment. -/
inductive Comes (x : Routine α) (m : Machine) : List Moment → Machine → Prop where
  | ends {m' : Machine} (h : (x m).machine? = some m') : Comes x m (x.moments m) m'
  | passes {t rest : List Moment} {p : Moment} (h : x.moments m = t ++ p :: rest) :
      Comes x m t p.machine

namespace Comes

variable {x : Routine α} {f : α → Routine β} {m m' m₁ : Machine} {t : List Moment} {p : Moment}
  {d : Deed}

/-- The run comes by each of its moments. -/
theorem of_moment (h : p ∈ x.moments m) : ∃ t, x.Comes m t p.machine := by
  obtain ⟨t, rest, heq⟩ := List.append_of_mem h
  exact ⟨t, .passes heq⟩

/-- The run came by each of the moments that it has passed. -/
theorem of_mem (h : x.Comes m t m') (hp : p ∈ t) : ∃ t₁, x.Comes m t₁ p.machine := by
  cases h with
  | ends h => exact of_moment hp
  | passes h => exact of_moment (h ▸ List.mem_append.mpr (Or.inl hp))

theorem of_silent (h : x.Comes m t m') (hx : x.moments m = []) :
    t = [] ∧ (x m).machine? = some m' := by
  cases h with
  | ends h => exact ⟨hx, h⟩
  | passes h => simp [hx] at h

theorem of_resumes {y : Routine α} (h : x.Comes m t m') (hx : x.Resumes m y m₁) :
    y.Comes m₁ t m' := by
  cases h with
  | ends h =>
    rw [hx.moments]
    exact .ends (hx.run ▸ h)
  | passes h => exact .passes (hx.moments ▸ h)

theorem bind (h : (x >>= f).Comes m t m') :
    x.Comes m t m' ∨ ∃ a m₁ t', x m = .done a m₁ ∧ t = x.moments m ++ t' ∧
      (f a).Comes m₁ t' m' := by
  by_cases hdone : ∃ a m₁, x m = .done a m₁
  · obtain ⟨a, m₁, hrun⟩ := hdone
    have hmoments : (x >>= f).moments m = x.moments m ++ (f a).moments m₁ := moments_bind_done hrun
    cases h with
    | ends h =>
      rw [bind_run_done hrun] at h
      exact Or.inr ⟨a, m₁, _, hrun, hmoments, .ends h⟩
    | passes h =>
      rw [hmoments] at h
      rcases append_eq_split h with ⟨r, hr, -⟩ | ⟨r, rfl, hr⟩
      · exact Or.inl (.passes hr)
      · exact Or.inr ⟨a, m₁, r, hrun, rfl, .passes hr⟩
  · have hmoments : (x >>= f).moments m = x.moments m := by
      rw [moments_bind]
      cases hrun : x m <;> simp_all
    refine Or.inl ?_
    cases h with
    | ends h =>
      rw [hmoments]
      rcases machine?_bind h with h | ⟨a, m₁, hrun, -⟩
      · exact .ends h
      · exact absurd ⟨a, m₁, hrun⟩ hdone
    | passes h => exact .passes (hmoments ▸ h)

/-- Whether a deed is about to be done or was done, the machine is the same. -/
theorem of_touch (h : (touch d).Comes m t m') : m' = m ∧ (t = [] ∨ t = [⟨d, m⟩]) := by
  cases h with
  | ends h =>
    cases h
    exact ⟨rfl, Or.inr (moments_touch d m)⟩
  | passes h =>
    rw [moments_touch, eq_comm, List.append_eq_singleton_iff] at h
    rcases h with ⟨rfl, hp⟩ | ⟨-, hp⟩
    · obtain ⟨rfl, -⟩ := List.cons.inj hp
      exact ⟨rfl, Or.inl rfl⟩
    · cases hp

/-- After a deed there is nothing to come by before the routine that follows it. -/
theorem after_touch (h : (touch d >>= fun _ => x).Comes m t m') :
    (t = [] ∧ m' = m) ∨ ∃ t', t = ⟨d, m⟩ :: t' ∧ x.Comes m t' m' := by
  have hmoments : (touch d >>= fun _ => x).moments m = ⟨d, m⟩ :: x.moments m := by
    rw [moments_bind_done (x := touch d) rfl, moments_touch]
    rfl
  cases h with
  | ends h => exact Or.inr ⟨_, hmoments, .ends h⟩
  | @passes _ rest p h =>
    rw [hmoments] at h
    cases t with
    | nil =>
      obtain ⟨rfl, -⟩ := List.cons.inj h
      exact Or.inl ⟨rfl, rfl⟩
    | cons q t =>
      obtain ⟨rfl, hrest⟩ := List.cons.inj h
      exact Or.inr ⟨t, rfl, .passes hrest⟩

/-- An error leaves at a moment of its own. -/
theorem onError {deed : Error → Deed} {g : Error → Error} (h : (x.onError deed g).Comes m t m') :
    x.Comes m t m' ∨ ∃ e, x m = .failed e m' ∧ t = x.moments m ++ [⟨deed e, m'⟩] := by
  have hmoments := moments_onError x deed g m
  cases h with
  | ends h =>
    rw [machine?_onError] at h
    cases hrun : x m <;> rw [hrun] at h hmoments <;> cases h
    · rw [hmoments, List.append_nil]
      exact Or.inl (.ends (by rw [hrun]; rfl))
    · exact Or.inr ⟨_, rfl, hmoments⟩
  | passes h =>
    rw [hmoments] at h
    rcases append_eq_split h with ⟨r, hr, -⟩ | ⟨r, rfl, hr⟩
    · exact Or.inl (.passes hr)
    · cases hrun : x m <;> rw [hrun] at hr
      case failed e m₁ =>
        rw [eq_comm, List.append_eq_singleton_iff] at hr
        rcases hr with ⟨rfl, hp⟩ | ⟨-, hp⟩
        · obtain ⟨rfl, -⟩ := List.cons.inj hp
          rw [List.append_nil]
          exact Or.inl (.ends (by rw [hrun]; rfl))
        · cases hp
      all_goals simp at hr

/-- A routine that runs another one and cleans up. -/
theorem of_inner {y : Routine β} {g : Machine → Machine} (hmoments : y.moments m = x.moments m₁)
    (hend : ∀ m', (y m).machine? = some m' → ∃ m₂, (x m₁).machine? = some m₂ ∧ m' = g m₂)
    (h : y.Comes m t m') :
    x.Comes m₁ t m' ∨ ∃ m₂, (x m₁).machine? = some m₂ ∧ t = x.moments m₁ ∧ m' = g m₂ := by
  cases h with
  | ends h =>
    obtain ⟨m₂, hm₂, heq⟩ := hend m' h
    exact Or.inr ⟨m₂, hm₂, hmoments, heq⟩
  | passes h => exact Or.inl (.passes (hmoments ▸ h))

/-- What is attempted comes by where the attempt comes by. -/
theorem attempt (h : x.attempt.Comes m t m') : x.Comes m t m' := by
  have hmoments : x.attempt.moments m = x.moments m := moments_ending ..
  cases h with
  | ends h =>
    rw [hmoments]
    exact .ends (machine?_attempt x m ▸ h)
  | passes h => exact .passes (hmoments ▸ h)

end Comes

end Routine

end ObjectLang
