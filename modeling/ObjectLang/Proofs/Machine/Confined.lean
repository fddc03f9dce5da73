import ObjectLang.Proofs.Machine.Path
import ObjectLang.Proofs.Moments
import ObjectLang.Proofs.Store.Snapshot

/-!
Machines on which names are bound in given tables only.
A machine may be left with more names in these tables than before, and in no others that it had; a
table that was made by capturing an activation never gets another name.
-/
namespace ObjectLang

def Activation.tables (a : Activation) : List TableId × TableId := (a.scopes, a.home)

def opening (t : TableId) (T : TableId → Prop) : TableId → Prop := fun x => x = t ∨ T x

def openingParts (o : ObjectId) (T : TableId → Prop) : TableId → Prop :=
  fun x => (∃ p, x = .part o p) ∨ T x

variable {t : TableId} {a : Activation} {rest : List Activation} {s : Store} {c : Cell}

namespace Machine

variable {T T' : TableId → Prop} {m m' m'' : Machine}

/-- The machine is tidy, and names may be bound in the tables `T`: they exist, they belong to no
module, and the table of modules is among them. -/
structure Admits (T : TableId → Prop) (m : Machine) : Prop where
  tidy : m.store.Tidy
  tables : ∀ t, T t → m.store.Holds t ∧ m.store.Apart t
  registry : T m.modules

/-- Where a routine confined to the tables `T` leaves the machine. -/
structure KeepsTo (T : TableId → Prop) (m m' : Machine) : Prop where
  spares : m.store.Spares T m'.store
  modules : m'.modules = m.modules
  stack : m'.stack.map Activation.tables = m.stack.map Activation.tables

theorem head_of_tables {l l' : List Activation}
    (h : l'.map Activation.tables = l.map Activation.tables) {a' : Activation}
    (ha' : l'.head? = some a') : ∃ a, l.head? = some a ∧ a'.tables = a.tables := by
  have hhead : (l.map Activation.tables).head? = some a'.tables := by
    rw [← h, List.head?_map, ha']
    rfl
  rw [List.head?_map] at hhead
  obtain ⟨a, ha, htables⟩ := Option.map_eq_some_iff.mp hhead
  exact ⟨a, ha, htables.symm⟩

def HeadIn (T : TableId → Prop) (m : Machine) : Prop :=
  ∀ a, m.stack.head? = some a → ∀ t, a.scopes.head? = some t → T t

namespace KeepsTo

theorem refl (h : m.store.Tidy) : KeepsTo T m m := ⟨.refl h, rfl, rfl⟩

theorem trans_of (h : KeepsTo T m m') (h' : KeepsTo T' m' m'')
    (hT : ∀ t, m.store.Holds t → T' t → T t) : KeepsTo T m m'' :=
  ⟨h.spares.trans_of h'.spares hT, h'.modules.trans h.modules, h'.stack.trans h.stack⟩

/-- A change of the store. -/
theorem of_store (h : m.store.Spares T s) : KeepsTo T m { m with store := s } :=
  ⟨h, rfl, rfl⟩

theorem newCell (hm : m.store.Tidy)
    (hview : ∀ x, c = .view x → ∃ p n, m.store.HasModule p ∧ m.store.Binds p.hidden n x) :
    KeepsTo T m { m with store := (m.store.newCell c).2 } :=
  of_store (.of_same (hm.newCell hview) (m.store.newCell_grows c)
    (fun _ _ => by rw [Store.bindings_newCell]) fun _ => Or.inl rfl)

/-- The tables that may be bound in need not be those that the routine was confined to. -/
theorem admits (h : KeepsTo T' m m') (hm : m.Admits T) : m'.Admits T where
  tidy := h.spares.tidy
  tables t ht :=
    ⟨(hm.tables t ht).1.mono h.spares.grows.sizes, h.spares.apart (hm.tables t ht).1
      (hm.tables t ht).2⟩
  registry := h.modules ▸ hm.registry

/-- The running activation runs on the tables that it ran on before. -/
theorem running (h : KeepsTo T m m') {a' : Activation} (ha' : m'.stack.head? = some a') :
    ∃ a, m.stack.head? = some a ∧ a'.tables = a.tables := head_of_tables h.stack ha'

theorem headIn (h : KeepsTo T' m m') (hm : m.HeadIn T) : m'.HeadIn T := by
  intro a' ha' t ht
  obtain ⟨a, ha, htables⟩ := h.running ha'
  have hscopes : a'.scopes = a.scopes := congrArg Prod.fst htables
  exact hm a ha t (hscopes ▸ ht)

/-- The same with other activations on the stack. -/
theorem withStack (h : KeepsTo T m m') {l l' : List Activation} (log log' : List Event)
    (hl : l'.map Activation.tables = l.map Activation.tables) :
    KeepsTo T { m with stack := l, log := log } { m' with stack := l', log := log' } :=
  ⟨h.spares, h.modules, hl⟩

end KeepsTo

theorem Admits.holds (h : m.Admits T) : ∀ t, T t → m.store.Holds t := fun t ht => (h.tables t ht).1

theorem Admits.push (h : m.Admits T) (a : Activation) : (m.push a).Admits T :=
  ⟨h.tidy, h.tables, h.registry⟩

/-- An activation is taken off a stack that has kept its tables. -/
theorem pop_of_tables
    (h : m'.stack.map Activation.tables = (m.push a).stack.map Activation.tables) :
    ∃ b rest, m'.stack = b :: rest ∧
      m'.pop = { m' with stack := rest, log := .popped b.name :: m'.log } ∧
      rest.map Activation.tables = m.stack.map Activation.tables := by
  cases hstack : m'.stack with
  | nil =>
    rw [hstack] at h
    cases h
  | cons b rest =>
    rw [hstack] at h
    exact ⟨b, rest, rfl, by simp [Machine.pop, hstack, Machine.note], (List.cons.inj h).2⟩

/-- A scope is closed on a stack that has kept its tables. -/
theorem closeScope_of_tables (hstack : m.stack = a :: rest)
    (h : m'.stack.map Activation.tables = (a.pushScope t :: rest).map Activation.tables) :
    ∃ b rest', m'.stack = b :: rest' ∧
      m'.modifyTop Activation.popScope = { m' with stack := b.popScope :: rest' } ∧
      b.popScope.tables = a.tables ∧
      (b.popScope :: rest').map Activation.tables = m.stack.map Activation.tables := by
  cases hstack' : m'.stack with
  | nil =>
    rw [hstack'] at h
    cases h
  | cons b rest' =>
    rw [hstack'] at h
    obtain ⟨htop, hrest⟩ := List.cons.inj h
    obtain ⟨hscopes, hhome⟩ := Prod.mk.inj htop
    have htables : b.popScope.tables = a.tables := by
      simp [Activation.tables, Activation.popScope, hscopes, hhome, Activation.pushScope]
    refine ⟨b, rest', rfl, modifyTop_eq hstack', htables, ?_⟩
    rw [hstack, List.map_cons, List.map_cons, htables]
    exact congrArg (a.tables :: ·) hrest

end Machine

/-- Code finds what it assigns as a name or as a member. -/
def Route.Direct : Route → Prop
  | .name _ | .member .. => True
  | _ => False

def Deed.Plain : Deed → Prop
  | .captures _ => False
  | .writes via _ _ => via.Direct
  | _ => True

def Moment.Direct (p : Moment) : Prop := ∀ via c v, p.deed = .writes via c v → via.Direct

variable {p : Moment}

theorem Moment.Direct.of_plain (hp : p.deed.Plain) : p.Direct := by
  intro via c v hdeed
  rw [hdeed] at hp
  exact hp

/-- After an activation is captured, its copy gets no new names. -/
def Moment.Frozen (p : Moment) (s : Store) : Prop :=
  ∀ a, p.deed = .captures a → p.after.store.Spares p.machine.store.Holds s

theorem Moment.Frozen.of_plain (h : p.deed.Plain) : p.Frozen s := by
  intro a ha
  rw [ha] at h
  exact h.elim

namespace Routine

open Machine

variable {α β : Type} {T T' : TableId → Prop} {m : Machine}

theorem moments_withActivation (a : Activation) (x : Routine α) (m : Machine) :
    (withActivation a x).moments m = x.moments (m.push a) := by
  rw [withActivation, moments_on, ensuring, moments_ending]

/-- The scope is opened first, and closed again at the end. -/
theorem inScope_resumes (t : TableId) (x : Routine α) (hstack : m.stack = a :: rest) :
    (modify (·.modifyTop (·.pushScope t)) >>= fun _ =>
      x.ensuring (·.modifyTop Activation.popScope)).Resumes m
    (x.ensuring (·.modifyTop Activation.popScope))
    { m with stack := a.pushScope t :: rest } :=
  .bind (congrArg (Outcome.done ()) (modifyTop_eq hstack)) (moments_quiet _ m)

/-- An activation that is looked for is there, or that is a fault of the machine. -/
theorem bind_peek_cases (i : Nat) (f : Activation → Routine β) (m : Machine) :
    (∃ a, m.stack[i]? = some a ∧ (peek i >>= f).Resumes m (f a) m) ∨
      (peek i >>= f) m = .failed (.fault (.noActivation i)) m ∧ (peek i >>= f).moments m = [] := by
  cases ha : m.stack[i]? with
  | some a =>
    have hrun : peek i m = .done a m := by simp [peek, quiet, ha]
    exact Or.inl ⟨a, rfl, .bind hrun (moments_quiet _ m)⟩
  | none =>
    have hrun : peek i m = .failed (.fault (.noActivation i)) m := by simp [peek, quiet, ha]
    exact Or.inr ⟨by rw [bind_run, hrun],
      by rw [moments_bind, hrun, List.append_nil, peek, moments_quiet]⟩

/-- A name is bound, or the table refuses it. -/
theorem define_cases (t : TableId) (name : String) (c : CellId) (m : Machine) :
    (m.store.refusal? t name = none ∧
      define t name c m = .done () { m with store := m.store.bind t name c }) ∨
    ∃ fault, m.store.refusal? t name = some fault ∧
    define t name c m = .failed (.fault fault) m := by
  cases hrefusal : m.store.refusal? t name with
  | none => exact Or.inl ⟨rfl, by simp [define, quiet, hrefusal]⟩
  | some fault => exact Or.inr ⟨fault, rfl, by simp [define, quiet, hrefusal]⟩

end Routine

end ObjectLang
