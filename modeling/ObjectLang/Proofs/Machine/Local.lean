import ObjectLang.Proofs.Moments

/-!
Local routines: those that see the top of the call stack only.
A routine is local to `n` activations if whatever lies below the first `n` makes no difference to
it: run on a machine with more activations below, it does what it did without them and leaves them
as they are. The log is only ever added to, so earlier events make no difference either. There is
one rule for each way of putting routines together.
-/
namespace ObjectLang

def Machine.onto (m : Machine) (below : List Activation) (earlier : List Event) : Machine :=
  { m with stack := m.stack ++ below, log := m.log ++ earlier }

def Outcome.onto {α : Type} (below : List Activation) (earlier : List Event) :
    Outcome α → Outcome α
  | .done a m => .done a (m.onto below earlier)
  | .failed e m => .failed e (m.onto below earlier)
  | .exhausted => .exhausted

namespace Machine

variable {m : Machine} (below : List Activation) (earlier : List Event)

@[simp] theorem onto_store : (m.onto below earlier).store = m.store := rfl

@[simp] theorem onto_builtins : (m.onto below earlier).builtins = m.builtins := rfl

@[simp] theorem onto_modules : (m.onto below earlier).modules = m.modules := rfl

@[simp] theorem onto_roots : (m.onto below earlier).roots = m.roots := rfl

@[simp] theorem onto_sink : (m.onto below earlier).sink = m.sink := rfl

@[simp] theorem onto_stack : (m.onto below earlier).stack = m.stack ++ below := rfl

theorem onto_pop (h : 1 ≤ m.stack.length) :
    m.pop.onto below earlier = (m.onto below earlier).pop := by
  cases hstack : m.stack with
  | nil => simp [hstack] at h
  | cons a rest => simp [pop, onto, note, hstack]

theorem onto_modifyTop (f : Activation → Activation) (h : 1 ≤ m.stack.length) :
    (m.modifyTop f).onto below earlier = (m.onto below earlier).modifyTop f := by
  cases hstack : m.stack with
  | nil => simp [hstack] at h
  | cons a rest => simp [modifyTop, onto, hstack]

theorem runningName_onto (h : 1 ≤ m.stack.length) :
    (m.onto below earlier).runningName = m.runningName := by
  cases hstack : m.stack with
  | nil => simp [hstack] at h
  | cons a rest => simp [runningName, hstack]

theorem lookup_onto (h : 1 ≤ m.stack.length) (name : String) :
    (m.onto below earlier).lookup name = m.lookup name := by
  cases hstack : m.stack with
  | nil => simp [hstack] at h
  | cons a rest => simp [lookup, hstack]

@[simp] theorem length_modifyTop (f : Activation → Activation) :
    (m.modifyTop f).stack.length = m.stack.length := by
  rw [modifyTop]
  split
  · next hstack => simp [hstack]
  · rfl

theorem length_pop : m.pop.stack.length = m.stack.length - 1 := by
  rw [pop]
  split
  · next hstack => simp [note, hstack]
  · next hstack => simp [hstack]

end Machine

namespace Routine

variable {α β : Type} {n : Nat}

/-- The routine sees the first `n` activations only, and ends with as many as it began with. -/
structure Local (n : Nat) (x : Routine α) : Prop where
  onto : ∀ (m : Machine) (below : List Activation) (earlier : List Event),
    n ≤ m.stack.length → x (m.onto below earlier) = (x m).onto below earlier
  height : ∀ m m' : Machine, n ≤ m.stack.length → (x m).machine? = some m' →
    m'.stack.length = m.stack.length

namespace Local

variable {x : Routine α} {f : α → Routine β}

theorem failWith (e : Error) : (Routine.failWith e : Routine α).Local n := by
  refine ⟨fun _ _ _ _ => rfl, ?_⟩
  rintro m m' - h
  cases h
  rfl

theorem fail (fault : Fault) : (Routine.fail fault : Routine α).Local n := failWith _

theorem outOfFuel : (Routine.outOfFuel : Routine α).Local n := by
  refine ⟨fun _ _ _ _ => rfl, ?_⟩
  rintro m m' - h
  cases h

theorem bind (hx : x.Local n) (hf : ∀ a, (f a).Local n) : (x >>= f).Local n := by
  constructor
  · intro m below earlier hm
    rw [bind_run, bind_run, hx.onto m below earlier hm]
    cases hrun : x m with
    | done a m' =>
      have hheight := hx.height m m' hm (by rw [hrun]; rfl)
      exact (hf a).onto m' below earlier (hheight ▸ hm)
    | failed e m' => rfl
    | exhausted => rfl
  · intro m m' hm h
    rw [bind_run] at h
    cases hrun : x m with
    | done a m₁ =>
      rw [hrun] at h
      have hheight := hx.height m m₁ hm (by rw [hrun]; rfl)
      exact ((hf a).height m₁ m' (hheight ▸ hm) h).trans hheight
    | failed e m₁ =>
      rw [hrun] at h
      exact hx.height m m' hm (by rw [hrun]; exact h)
    | exhausted =>
      rw [hrun] at h
      cases h

theorem read {g : Machine → α}
    (h : ∀ (m : Machine) below earlier, n ≤ m.stack.length → g (m.onto below earlier) = g m) :
    (Routine.read g).Local n := by
  constructor
  · intro m below earlier hm
    simp only [Routine.read, quiet, Outcome.onto, h m below earlier hm]
  · rintro m m' - h
    cases h
    rfl

theorem pure (a : α) : (Pure.pure a : Routine α).Local n := read fun _ _ _ _ => rfl

theorem see (g : Store → α) : (Routine.see g).Local n := read fun _ _ _ _ => rfl

theorem touch (d : Deed) : (Routine.touch d).Local n := ⟨(pure ()).onto, (pure ()).height⟩

theorem make (g : Store → α × Store) : (Routine.make g).Local n := by
  refine ⟨fun _ _ _ _ => rfl, ?_⟩
  rintro m m' - h
  cases h
  rfl

theorem change (g : Store → Store) : (Routine.change g).Local n := make fun s => ((), g s)

theorem note (e : Event) : (Routine.note e).Local n := by
  refine ⟨fun _ _ _ _ => rfl, ?_⟩
  rintro m m' - h
  cases h
  rfl

theorem writeLine (text : String) : (Routine.writeLine text).Local n := by
  constructor
  · intro m below earlier _
    cases hsink : m.sink with
    | collecting lines => simp [Routine.writeLine, quiet, hsink, Outcome.onto, Machine.onto]
    | broken reason => simp [Routine.writeLine, quiet, hsink, Outcome.onto]
  · intro m m' _ h
    cases hsink : m.sink <;> simp [Routine.writeLine, quiet, hsink, Outcome.machine?] at h <;>
      simp [← h]

theorem define (t : TableId) (name : String) (c : CellId) :
    (Routine.define t name c).Local n := by
  constructor
  · intro m below earlier _
    cases hrefusal : m.store.refusal? t name with
    | none => simp [Routine.define, quiet, hrefusal, Outcome.onto, Machine.onto]
    | some fault => simp [Routine.define, quiet, hrefusal, Outcome.onto]
  · intro m m' _ h
    cases hrefusal : m.store.refusal? t name <;>
      simp [Routine.define, quiet, hrefusal, Outcome.machine?] at h <;> simp [← h]

theorem newCell (c : Cell) : (Routine.newCell c).Local n := make _

theorem newTable : (Routine.newTable).Local n := make _

theorem newObject (base : Option ObjectId) (kind : Kind) :
    (Routine.newObject base kind).Local n := make _

theorem defineConst (t : TableId) (name : String) (v : ObjectId) :
    (Routine.defineConst t name v).Local n := (newCell _).bind fun c => define t name c

theorem defineLocal (a : Activation) (name : String) (c : CellId) :
    (Routine.defineLocal a name c).Local n := by
  rw [Routine.defineLocal]
  split
  · exact define ..
  · exact fail _

/-- An activation that is counted is found whatever lies below. -/
theorem peek {i : Nat} (hi : i < n) : (Routine.peek i).Local n := by
  constructor
  · intro m below earlier hm
    have hlt : i < m.stack.length := Nat.lt_of_lt_of_le hi hm
    simp [Routine.peek, quiet, List.getElem?_append_left hlt, List.getElem?_eq_getElem hlt,
      Outcome.onto]
  · intro m m' hm h
    have hlt : i < m.stack.length := Nat.lt_of_lt_of_le hi hm
    simp [Routine.peek, quiet, List.getElem?_eq_getElem hlt, Outcome.machine?] at h
    rw [h]

theorem declare (hn : 0 < n) (name : String) (c : CellId) : (Routine.declare name c).Local n :=
  (peek hn).bind fun a => defineLocal a name c

theorem modifyTop (hn : 0 < n) (g : Activation → Activation) :
    (Routine.modify (·.modifyTop g)).Local n := by
  constructor
  · intro m below earlier hm
    simp only [Routine.modify, quiet, Outcome.onto,
      Machine.onto_modifyTop below earlier g (Nat.le_trans hn hm)]
  · rintro m m' - h
    cases h
    exact Machine.length_modifyTop g

theorem newActivation (owner : ObjectId) (name : String) (home : Option TableId) :
    (Routine.newActivation owner name home).Local n := by
  refine newTable.bind fun locals => (read fun _ _ _ _ => rfl).bind fun builtins => ?_
  cases home with
  | none => exact .pure _
  | some home => exact .pure _

/-- Cleaning up is local where it commutes with what lies below. -/
theorem ensuring {g : Machine → Machine} (hx : x.Local n)
    (hg : ∀ (m : Machine) below earlier, n ≤ m.stack.length →
      (g m).onto below earlier = g (m.onto below earlier))
    {m : Machine} (hm : n ≤ m.stack.length) (below : List Activation) (earlier : List Event) :
    x.ensuring g (m.onto below earlier) = (x.ensuring g m).onto below earlier := by
  simp only [Routine.ensuring, ending]
  rw [hx.onto m below earlier hm]
  cases hrun : x m with
  | done a m' =>
    have hheight := hx.height m m' hm (by rw [hrun]; rfl)
    simp only [Outcome.onto, hg m' below earlier (hheight ▸ hm)]
  | failed e m' =>
    have hheight := hx.height m m' hm (by rw [hrun]; rfl)
    simp only [Outcome.onto, hg m' below earlier (hheight ▸ hm)]
  | exhausted => rfl

/-- Inside an activation of its own a routine sees one activation less of its caller's. -/
theorem withActivation (a : Activation) (hx : x.Local (n + 1)) :
    (Routine.withActivation a x).Local n := by
  have hpop : ∀ (m : Machine) below earlier, n + 1 ≤ m.stack.length →
      m.pop.onto below earlier = (m.onto below earlier).pop := fun m below earlier hm =>
    Machine.onto_pop below earlier (Nat.le_trans (Nat.le_add_left 1 n) hm)
  constructor
  · intro m below earlier hm
    exact ensuring hx hpop (m := m.push a) (Nat.succ_le_succ hm) below earlier
  · intro m m' hm h
    obtain ⟨m₁, hm₁, rfl⟩ := machine?_ensuring (x := x) (m := m.push a) h
    have hheight := hx.height (m.push a) m₁ (Nat.succ_le_succ hm) hm₁
    rw [Machine.length_pop, hheight]
    rfl

theorem withScope (t : TableId) (hn : 0 < n) (hx : x.Local n) :
    (Routine.withScope t x).Local n := by
  have hpopScope : ∀ (m : Machine) below earlier, n ≤ m.stack.length →
      (m.modifyTop Activation.popScope).onto below earlier =
        (m.onto below earlier).modifyTop Activation.popScope := fun m below earlier hm =>
    Machine.onto_modifyTop below earlier _ (Nat.le_trans hn hm)
  refine (peek hn).bind fun _ => (modifyTop hn _).bind fun _ => ⟨?_, ?_⟩
  · intro m below earlier hm
    exact ensuring hx hpopScope hm below earlier
  · intro m m' hm h
    obtain ⟨m₁, hm₁, rfl⟩ := machine?_ensuring h
    rw [Machine.length_modifyTop]
    exact hx.height m m₁ hm hm₁

theorem attempt (hx : x.Local n) : x.attempt.Local n := by
  constructor
  · intro m below earlier hm
    simp only [Routine.attempt, ending]
    rw [hx.onto m below earlier hm]
    cases x m <;> rfl
  · intro m m' hm h
    simp only [Routine.attempt, ending] at h
    refine hx.height m m' hm ?_
    cases hrun : x m <;> rw [hrun] at h <;> exact h

theorem onError (deed : Error → Deed) (g : Error → Error) (hx : x.Local n) :
    (x.onError deed g).Local n := by
  constructor
  · intro m below earlier hm
    simp only [Routine.onError]
    rw [hx.onto m below earlier hm]
    cases x m <;> rfl
  · intro m m' hm h
    simp only [Routine.onError] at h
    refine hx.height m m' hm ?_
    cases hrun : x m <;> rw [hrun] at h <;> exact h

theorem doing (t : Task) (hx : x.Local n) : (x.doing t).Local n := ⟨hx.onto, hx.height⟩

theorem forM {γ : Type} {g : γ → Routine Unit} {l : List γ} (h : ∀ a ∈ l, (g a).Local n) :
    (l.forM g).Local n := by
  induction l with
  | nil => exact .pure ()
  | cons a rest ih =>
    obtain ⟨hfirst, hrest⟩ := List.forall_mem_cons.mp h
    exact hfirst.bind fun _ => ih hrest

end Local

end Routine

end ObjectLang
