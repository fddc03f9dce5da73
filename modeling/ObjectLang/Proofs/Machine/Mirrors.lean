import ObjectLang.Eval.Inner
import ObjectLang.Proofs.Moments
import ObjectLang.Proofs.Store.Shift

/-!
Routines that do not depend on which identities are given out.
On machines that are the same up to a move of identities, two such routines end alike: with values
that are moved, or with the same error, or both without fuel, and the machines are then the same up
to the move again. Only a routine that tells an identity could tell the machines apart, so the
identities that are told on the way have to be ones that are not moved. There is one rule for each
way of putting routines together.
-/
namespace ObjectLang

instance : Movable Flow where
  move ρ
    | .next v => .next (move ρ v)
    | .back v => .back (move ρ v)

/-- The machines are the same up to the move, but for their logs. -/
structure Machine.Shifted (ρ : Shift) (m m' : Machine) : Prop where
  store : m.store.Shifted ρ m'.store
  stack : m'.stack = move ρ m.stack
  builtins : m'.builtins = move ρ m.builtins
  modules : m'.modules = move ρ m.modules
  roots : m'.roots = move ρ m.roots
  sink : m'.sink = m.sink

namespace Machine.Shifted

variable {ρ : Shift} {m m' : Machine} (h : m.Shifted ρ m')

include h

theorem withStore {s s' : Store} (hs : s.Shifted ρ s') :
    ({ m with store := s } : Machine).Shifted ρ { m' with store := s' } :=
  ⟨hs, h.stack, h.builtins, h.modules, h.roots, h.sink⟩

theorem withStack {stack stack' : List Activation} (hstack : stack' = move ρ stack) :
    ({ m with stack := stack } : Machine).Shifted ρ { m' with stack := stack' } :=
  ⟨h.store, hstack, h.builtins, h.modules, h.roots, h.sink⟩

theorem note (e e' : Event) : (m.note e).Shifted ρ (m'.note e') :=
  ⟨h.store, h.stack, h.builtins, h.modules, h.roots, h.sink⟩

theorem push (a : Activation) : (m.push a).Shifted ρ (m'.push (move ρ a)) :=
  (h.withStack (congrArg (move ρ a :: ·) h.stack)).note _ _

theorem pop : m.pop.Shifted ρ m'.pop := by
  have hstack := h.stack
  rw [Machine.pop, Machine.pop, hstack]
  cases m.stack with
  | nil => exact h
  | cons a rest => exact (h.withStack rfl).note _ _

theorem modifyTop {f f' : Activation → Activation} (hf : ∀ a, f' (move ρ a) = move ρ (f a)) :
    (m.modifyTop f).Shifted ρ (m'.modifyTop f') := by
  have hstack := h.stack
  rw [Machine.modifyTop, Machine.modifyTop, hstack]
  cases m.stack with
  | nil => exact h
  | cons a rest => exact h.withStack (congrArg (· :: move ρ rest) (hf a))

theorem runningName : m'.runningName = m.runningName := by
  rw [Machine.runningName, h.stack, Machine.runningName]
  cases m.stack <;> rfl

theorem lookup (name : String) : m'.lookup name = move ρ (m.lookup name) := by
  rw [Machine.lookup, h.stack, Machine.lookup]
  cases m.stack with
  | nil => rfl
  | cons a rest => exact h.store.lookupIn a.scopes name

end Machine.Shifted

/-- The outcomes are the same up to the move. -/
inductive Outcome.Alike {α : Type} [Movable α] (ρ : Shift) : Outcome α → Outcome α → Prop where
  | done (a : α) {m m' : Machine} (h : m.Shifted ρ m') : Alike ρ (.done a m) (.done (move ρ a) m')
  | failed (e : Error) {m m' : Machine} (h : m.Shifted ρ m') : Alike ρ (.failed e m) (.failed e m')
  | exhausted : Alike ρ .exhausted .exhausted

namespace Routine

variable {α β : Type} [Movable α] [Movable β] {ρ : Shift} {m : Machine}

def Discreet {α : Type} (ρ : Shift) (x : Routine α) (m : Machine) : Prop :=
  ∀ p ∈ x.moments m, ∀ o, p.deed = .identifies o → move ρ o = o

/-- The judgement. -/
structure Mirrors (ρ : Shift) (x x' : Routine α) : Prop where
  alike : ∀ m m', m.Shifted ρ m' → x.Discreet ρ m → (x m).Alike ρ (x' m')

namespace Mirrors

variable {x x' : Routine α} {f f' : α → Routine β}

section Steps

theorem quiet {f f' : Machine → Outcome α}
    (h : ∀ m m', m.Shifted ρ m' → (f m).Alike ρ (f' m')) :
    Mirrors ρ (Routine.quiet f) (Routine.quiet f') :=
  ⟨fun m m' hm _ => h m m' hm⟩

theorem pure {a a' : α} (h : a' = move ρ a) :
    Mirrors ρ (Pure.pure a : Routine α) (Pure.pure a') :=
  quiet fun _ _ hm => h ▸ .done a hm

theorem fail (fault : Fault) : Mirrors ρ (Routine.fail fault : Routine α) (Routine.fail fault) :=
  quiet fun _ _ hm => .failed _ hm

theorem failWith (e : Error) : Mirrors ρ (Routine.failWith e : Routine α) (Routine.failWith e) :=
  quiet fun _ _ hm => .failed _ hm

theorem outOfFuel : Mirrors ρ (Routine.outOfFuel : Routine α) Routine.outOfFuel :=
  quiet fun _ _ _ => .exhausted

theorem touch (d d' : Deed) : Mirrors ρ (Routine.touch d) (Routine.touch d') :=
  ⟨fun _ _ hm _ => .done () hm⟩

theorem read {f f' : Machine → α} (h : ∀ m m', m.Shifted ρ m' → f' m' = move ρ (f m)) :
    Mirrors ρ (Routine.read f) (Routine.read f') :=
  quiet fun m m' hm => by
    rw [h m m' hm]
    exact .done _ hm

theorem see {f f' : Store → α} (h : ∀ s s', s.Shifted ρ s' → f' s' = move ρ (f s)) :
    Mirrors ρ (Routine.see f) (Routine.see f') := read fun _ _ hm => h _ _ hm.store

theorem modify {f f' : Machine → Machine} (h : ∀ m m', m.Shifted ρ m' → (f m).Shifted ρ (f' m')) :
    Mirrors ρ (Routine.modify f) (Routine.modify f') := quiet fun m m' hm => .done () (h m m' hm)

theorem change {f f' : Store → Store} (h : ∀ s s', s.Shifted ρ s' → (f s).Shifted ρ (f' s')) :
    Mirrors ρ (Routine.change f) (Routine.change f') :=
  modify fun _ _ hm => hm.withStore (h _ _ hm.store)

theorem make {f f' : Store → α × Store}
    (h : ∀ s s', s.Shifted ρ s' → Store.MadeAlike ρ (f s) (f' s')) :
    Mirrors ρ (Routine.make f) (Routine.make f') := by
  refine quiet fun m m' hm => ?_
  obtain ⟨hvalue, hstore⟩ := h _ _ hm.store
  change Outcome.Alike ρ (.done (f m.store).1 { m with store := (f m.store).2 })
    (.done (f' m'.store).1 { m' with store := (f' m'.store).2 })
  rw [hvalue]
  exact .done _ (hm.withStore hstore)

theorem note (e e' : Event) : Mirrors ρ (Routine.note e) (Routine.note e') :=
  modify fun _ _ hm => hm.note e e'

theorem newObject (base : Option ObjectId) (kind : Kind) :
    Mirrors ρ (Routine.newObject base kind) (Routine.newObject (move ρ base) (move ρ kind)) :=
  make fun _ _ hs => hs.newObject base kind

theorem newCell (c : Cell) : Mirrors ρ (Routine.newCell c) (Routine.newCell (move ρ c)) :=
  make fun _ _ hs => hs.newCell c

theorem newTable : Mirrors ρ Routine.newTable Routine.newTable :=
  make fun _ _ hs => hs.newTable rfl

theorem define (t : TableId) (name : String) (c : CellId) :
    Mirrors ρ (Routine.define t name c) (Routine.define (move ρ t) name (move ρ c)) := by
  refine quiet fun m m' hm => ?_
  rw [hm.store.refusal?]
  cases m.store.refusal? t name with
  | none => exact .done () (hm.withStore (hm.store.bind t name c))
  | some fault => exact .failed _ hm

theorem peek (n : Nat) : Mirrors ρ (Routine.peek n) (Routine.peek n) := by
  refine quiet fun m m' hm => ?_
  have hget : m'.stack[n]? = move ρ m.stack[n]? := by
    rw [hm.stack]
    exact List.getElem?_map
  rw [hget]
  cases m.stack[n]? with
  | none => exact .failed _ hm
  | some a => exact .done a hm

theorem writeLine (text : String) :
    Mirrors ρ (Routine.writeLine text) (Routine.writeLine text) := by
  refine quiet fun m m' hm => ?_
  rw [hm.sink]
  cases m.sink with
  | collecting lines =>
    exact .done () ⟨hm.store, hm.stack, hm.builtins, hm.modules, hm.roots, rfl⟩
  | broken reason => exact .failed _ hm

end Steps

section Compound

theorem bind (hx : x.Mirrors ρ x') (hf : ∀ a, (f a).Mirrors ρ (f' (move ρ a))) :
    (x >>= f).Mirrors ρ (x' >>= f') := by
  refine ⟨fun m m' hm hdiscreet => ?_⟩
  have hmoments := moments_bind x f m
  have hfirst := hx.alike m m' hm fun p hp =>
    hdiscreet p (by rw [hmoments]; exact List.mem_append.mpr (Or.inl hp))
  generalize hrun : x m = r, hrun' : x' m' = r' at hfirst
  simp only [bind_run, hrun, hrun']
  cases hfirst with
  | done a hm₁ =>
    simp only [hrun] at hmoments
    exact (hf a).alike _ _ hm₁ fun p hp =>
      hdiscreet p (by rw [hmoments]; exact List.mem_append.mpr (Or.inr hp))
  | failed e hm₁ => exact .failed e hm₁
  | exhausted => exact .exhausted

/-- An identity that is told is not moved. -/
theorem bind_identifies {o o' : ObjectId} {y y' : Routine β}
    (h : move ρ o = o → y.Mirrors ρ y') :
    (Routine.touch (.identifies o) >>= fun _ => y).Mirrors ρ
      (Routine.touch (.identifies o') >>= fun _ => y') := by
  refine ⟨fun m m' hm hdiscreet => ?_⟩
  have hmoments : (Routine.touch (.identifies o) >>= fun _ => y).moments m =
      [⟨.identifies o, m⟩] ++ y.moments m := by
    rw [moments_bind, moments_touch]
    rfl
  have hfixed := hdiscreet ⟨.identifies o, m⟩ (by rw [hmoments]; simp) o rfl
  exact (h hfixed).alike m m' hm fun p hp =>
    hdiscreet p (by rw [hmoments]; exact List.mem_append.mpr (Or.inr hp))

section

variable (hx : x.Mirrors ρ x')
include hx

theorem onError (d d' : Error → Deed) (f : Error → Error) :
    (x.onError d f).Mirrors ρ (x'.onError d' f) := by
  refine ⟨fun m m' hm hdiscreet => ?_⟩
  have hmoments := moments_onError x d f m
  have hfirst := hx.alike m m' hm fun p hp =>
    hdiscreet p (by rw [hmoments]; exact List.mem_append.mpr (Or.inl hp))
  simp only [Routine.onError]
  generalize x m = r, x' m' = r' at hfirst
  cases hfirst with
  | done a hm₁ => exact .done a hm₁
  | failed e hm₁ => exact .failed (f e) hm₁
  | exhausted => exact .exhausted

theorem doing (t : Task) : (x.doing t).Mirrors ρ (x'.doing t) := by
  rw [doing_eq, doing_eq]
  exact hx.onError _ _ _

/-- What comes of an outcome is alike where it is made of like outcomes. -/
theorem ending {g g' : Outcome α → Outcome β} (hg : ∀ r r', r.Alike ρ r' → (g r).Alike ρ (g' r')) :
    (x.ending g).Mirrors ρ (x'.ending g') :=
  ⟨fun m m' hm hdiscreet =>
    hg _ _ (hx.alike m m' hm (by rwa [Discreet, moments_ending] at hdiscreet))⟩

theorem ensuring {g g' : Machine → Machine}
    (hg : ∀ m m', m.Shifted ρ m' → (g m).Shifted ρ (g' m')) :
    (x.ensuring g).Mirrors ρ (x'.ensuring g') := by
  refine hx.ending fun r r' hr => ?_
  cases hr with
  | done a hm => exact .done a (hg _ _ hm)
  | failed e hm => exact .failed e (hg _ _ hm)
  | exhausted => exact .exhausted

theorem attempt : x.attempt.Mirrors ρ x'.attempt := by
  refine hx.ending fun r r' hr => ?_
  cases hr with
  | done a hm => exact .done (Except.ok a) hm
  | failed e hm => exact .done (Except.error e) hm
  | exhausted => exact .exhausted

end

theorem withActivation (a : Activation) (hx : x.Mirrors ρ x') :
    (Routine.withActivation a x).Mirrors ρ (Routine.withActivation (move ρ a) x') := by
  have hbody : (x.ensuring Machine.pop).Mirrors ρ (x'.ensuring Machine.pop) :=
    hx.ensuring fun _ _ hm => hm.pop
  exact ⟨fun m m' hm hdiscreet => hbody.alike _ _ (hm.push a) hdiscreet⟩

theorem withScope (t : TableId) (hx : x.Mirrors ρ x') :
    (Routine.withScope t x).Mirrors ρ (Routine.withScope (move ρ t) x') := by
  have hopen : Mirrors ρ (Routine.modify (·.modifyTop (·.pushScope t)))
      (Routine.modify (·.modifyTop (·.pushScope (move ρ t)))) :=
    modify fun _ _ hm => hm.modifyTop fun _ => rfl
  refine (peek 0).bind fun _ => hopen.bind fun _ => hx.ensuring fun _ _ hm =>
    hm.modifyTop fun a => ?_
  obtain ⟨owner, name, scopes, home, notes⟩ := a
  cases scopes <;> rfl

end Compound

section Bindings

theorem defineConst (t : TableId) (name : String) (v : ObjectId) :
    Mirrors ρ (Routine.defineConst t name v) (Routine.defineConst (move ρ t) name (move ρ v)) :=
  (newCell (.const v)).bind fun c => define t name c

theorem defineLocal (a : Activation) (name : String) (c : CellId) :
    Mirrors ρ (Routine.defineLocal a name c) (Routine.defineLocal (move ρ a) name (move ρ c)) := by
  obtain ⟨owner, title, scopes, home, notes⟩ := a
  cases scopes with
  | nil => exact fail _
  | cons t rest => exact define t name c

theorem declare (name : String) (c : CellId) :
    Mirrors ρ (Routine.declare name c) (Routine.declare name (move ρ c)) :=
  (peek 0).bind fun a => defineLocal a name c

end Bindings

end Mirrors

end Routine

end ObjectLang
