import ObjectLang.Proofs.Eval.Statements
import ObjectLang.Proofs.Start

/-!
Whole runs: programs executed one after the other on a new machine.
Each program may go to any depth, and between two of them the output may be sent elsewhere. Every
machine that such a run comes by is sound for the statements of the programs so far.
-/
namespace ObjectLang

open Machine Routine

namespace Machine

/-- The machine that is left when the given sources have been executed in order, each to its end. -/
inductive After : List Source → Machine → Prop where
  | start : After [] initial
  | redirect {sources : List Source} {m : Machine} (h : After sources m) (sink : Sink) :
      After sources { m with sink := sink }
  | next {sources : List Source} {m m' : Machine} (h : After sources m) (d : Nat) (src : Source)
      (hend : (Eval.runSource (.ofDepth d) src m).machine? = some m') :
      After (sources ++ [src]) m'

/-- A machine that running programs comes by: between two programs, or at a moment of one. -/
inductive Reachable (m : Machine) : Prop where
  | between {sources : List Source} (h : After sources m)
  | during {sources : List Source} {m₀ : Machine} (h : After sources m₀) (d : Nat) (src : Source)
      {deed : Deed} (hp : ⟨deed, m⟩ ∈ (Eval.runSource (.ofDepth d) src).moments m₀)

end Machine

namespace Stock

def any : Stock := ⟨fun _ => True, fun _ => True, fun _ _ => trivial⟩

theorem any_block (b : Block) : any.block b := fun _ _ => trivial

/-- Every program among the sources that parses is made of this stock. -/
def Covers (W : Stock) (sources : List Source) : Prop :=
  ∀ src ∈ sources, ∀ b, parse src = .ok b → W.block b

theorem any_covers (sources : List Source) : any.Covers sources := fun _ _ b _ => any_block b

theorem Covers.left {W : Stock} {sources more : List Source} (h : W.Covers (sources ++ more)) :
    W.Covers sources := fun src hsrc => h src (List.mem_append.mpr (Or.inl hsrc))

theorem Covers.last {W : Stock} {sources : List Source} {src : Source}
    (h : W.Covers (sources ++ [src])) {b : Block} (hb : parse src = .ok b) : W.block b :=
  h src (by simp) b hb

end Stock

section Programs

variable {W : Stock} {m m' : Machine} {src : Source} {d : Nat}

/-- A program takes a path, whether it parses or not. -/
theorem runSource_path (hm : m.Sound W) (hsrc : ∀ b, parse src = .ok b → W.block b) (d : Nat) :
    ∃ m', Path W 0 m ((Eval.runSource (.ofDepth d) src).moments m) m' := by
  cases hparse : parse src with
  | ok b => exact (Eval.runSource_goes hm.ready d hparse (hsrc b hparse)).path
  | error e =>
    refine ⟨m, ?_⟩
    rw [Eval.runSource_malformed_silent _ hparse]
    exact .stay m

/-- A program that ends leaves the call stack as it was. -/
theorem runSource_reached (hm : m.Sound W) (hsrc : ∀ b, parse src = .ok b → W.block b)
    (hend : (Eval.runSource (.ofDepth d) src m).machine? = some m') :
    Path W 0 m ((Eval.runSource (.ofDepth d) src).moments m) m' ∧
      KeptStack m'.store m.stack m'.stack := by
  cases hparse : parse src with
  | ok b => exact (Eval.runSource_goes hm.ready d hparse (hsrc b hparse)).ended hend
  | error e =>
    rw [Eval.runSource_malformed _ hparse] at hend
    cases hend
    rw [Eval.runSource_malformed_silent _ hparse]
    exact ⟨.single (.note _), .refl _ _⟩

end Programs

namespace Machine

variable {W : Stock} {m : Machine} {sources : List Source}

theorem After.sound (h : After sources m) (hW : W.Covers sources) : m.Sound W := by
  induction h with
  | start => exact start_initial.2.sound W
  | redirect _ sink ih => exact (ih hW).withStack (ih hW).stack sink _
  | next _ d src hend ih =>
    have hm := ih hW.left
    obtain ⟨hpath, -⟩ := runSource_reached hm (fun b hb => hW.last hb) hend
    exact (hpath.onward hm.ready).sound

/-- At every moment of a program the machine is sound and the deed is granted. -/
theorem After.honest (h : After sources m) {d : Nat} {src : Source} {p : Moment}
    (hp : p ∈ (Eval.runSource (.ofDepth d) src).moments m) :
    p.Honest .any 0 ∧ p.machine.Sound .any := by
  have hm := h.sound (Stock.any_covers _)
  obtain ⟨m', hpath⟩ := runSource_path hm (fun b _ => Stock.any_block b) d
  obtain ⟨t₁, t₂, heq⟩ := List.append_of_mem hp
  rw [heq] at hpath
  obtain ⟨hbefore, hhonest, -⟩ := hpath.split
  exact ⟨hhonest, (hbefore.onward hm.ready).sound⟩

theorem Reachable.sound (h : Reachable m) : m.Sound .any := by
  cases h with
  | between h => exact h.sound (Stock.any_covers _)
  | during h d src hp => exact (h.honest hp).2

theorem Reachable.ready (h : Reachable m) : Ready .any 0 m := h.sound.ready

end Machine

/-- A class with a field that its method counts, a subclass whose initialiser calls the method, an
instance, and a function that asks for the field from outside. -/
def counterSource : Source := .ofText
  ("class A \x7b var x = 1 method up() \x7b self.x = self.x + 1 return self.x \x7d \x7d" ++
    "class B : A \x7b val y = super.up() \x7d val b = B() function f() \x7b b.up() return b.x \x7d")

def pryingSource : Source := .ofText "f()"

-- Each of these computations runs the start anew: all in one would hold too much at once.
set_option synthInstance.maxSize 512 in
/-- The second program counts the field, and then fails where it asks for it from outside. -/
theorem counter_pried :
    ∃ m, (Eval.runSource (.ofDepth 16) counterSource initial).machine? = some m ∧
    ∃ a, m.stack.head? = some a ∧ ∃ i, m.store.local? a.home "b" = some i ∧
    ∃ b, m.store.cell i = .const b ∧ ∃ l, m.store.base b = some l ∧
    ∃ x, m.store.local? (.part l .fields) "x" = some x ∧
    (∃ v, m.store.cell x = .var v ∧ m.store.kind v = .integer 2) ∧ a.owner ≠ l ∧
    m.store.kind b = .plain ∧ (∀ o ∈ m.store.levels b,
      m.store.local? (.part o .members) "x" = none ∧
      (o ≠ l → m.store.local? (.part o .fields) "x" = none)) ∧
    ∃ e m', Eval.runSource (.ofDepth 16) pryingSource m = .failed e m' ∧
      e = .fatal (.fault (.unknownName "x")) "return b.x" ∧
      ∃ v, m'.store.cell x = .var v ∧ m'.store.kind v = .integer 3 := by decide +kernel

theorem prying_fails : ∃ m m', After [counterSource] m ∧
    Eval.runSource (.ofDepth 16) pryingSource m =
      .failed (.fatal (.fault (.unknownName "x")) "return b.x") m' := by
  obtain ⟨m, hend, -, -, -, -, -, -, -, -, -, -, -, -, -, -, e, m', hrun, rfl, -⟩ := counter_pried
  exact ⟨m, m', .next .start 16 counterSource hend, hrun⟩

/-- The subclass can be instantiated, and the instance cannot be added to. -/
theorem counter_classes :
    ∃ m, (Eval.runSource (.ofDepth 16) counterSource initial).machine? = some m ∧
    ∃ a, m.constant? "A" = some a ∧ ∃ c, m.constant? "B" = some c ∧
    (∃ b, m.store.kind c = .ofClass b ∧ b.base = some a ∧ ∃ f, b.vals = [f] ∧ f.name = "y") ∧
    (∃ b, m.constant? "b" = some b ∧ m.store.kind b = .plain ∧
      ∀ l ∈ m.store.levels b, m.store.base l ≠ none →
        m.store.local? (.part l .operators) "+" = none) ∧
    ∃ o m', Eval.instantiate (.ofDepth 16) c .plain m = .done o m' ∧
      (m'.store.levels o).length = 3 ∧ ∃ i, m'.store.local? (.part o .fields) "y" = some i ∧
      ∃ v, m'.store.cell i = .const v ∧ m'.store.kind v = .integer 2 := by decide +kernel

def exportingSource : Source := .ofText "module a\x7bvar x export x\x7d"

def Machine.module? (m : Machine) (name : String) : Option ModuleParts := do
  match m.store.cell (← m.store.local? m.modules name) with
  | .const o =>
    match m.store.kind o with
    | .ofModule p => some p
    | _ => none
  | _ => none

theorem Machine.module?_eq_some {m : Machine} {name : String} {p : ModuleParts}
    (h : m.module? name = some p) : ∃ e o, m.store.local? m.modules name = some e ∧
      m.store.cell e = .const o ∧ m.store.kind o = .ofModule p := by
  obtain ⟨e, he, h⟩ := Option.bind_eq_some_iff.mp h
  split at h
  · next o ho =>
    split at h
    · next p' hp =>
      cases h
      exact ⟨e, o, he, ho, hp⟩
    · cases h
  · cases h

def Machine.shownCell? (m : Machine) (name x : String) : Option CellId := do
  m.store.local? (← m.module? name).shown x

theorem Machine.shownCell?_eq_some {m : Machine} {name x : String} {c : CellId}
    (h : m.shownCell? name x = some c) :
    ∃ e o p, m.store.local? m.modules name = some e ∧ m.store.cell e = .const o ∧
      m.store.kind o = .ofModule p ∧ m.store.local? p.shown x = some c := by
  obtain ⟨p, hp, h⟩ := Option.bind_eq_some_iff.mp h
  obtain ⟨e, o, he, ho, hkind⟩ := module?_eq_some hp
  exact ⟨e, o, p, he, ho, hkind, h⟩

/-- The module is registered, and shows the variable. -/
theorem exporting_run :
    ∃ m, (Eval.runSource (.ofDepth 24) exportingSource initial).machine? = some m ∧
    ∃ c, m.shownCell? "a" "x" = some c := by decide +kernel

/-- A program with a variable `n`, a function `f` that assigns it, and an object `a` with a property
`p` that reads it. -/
def sampleSource : Source := .ofText ("var n = 1; function f(x) \x7b n = x \x7d;" ++
  "class A \x7b property p \x7b get \x7b return n \x7d \x7d \x7d; val a = A()")

def closureSource : Source := .ofText "val g = closure() \x7b n = n + 1 return n \x7d"

def callingSource : Source := .ofText "n = 5 val i = g() val j = g()"

/-- The property reads as the variable, also once the object itself is assigned to that. -/
theorem sample_reads : ∃ m, (Eval.runSource (.ofDepth 24) sampleSource initial).machine? = some m ∧
    ∃ n, m.lookup "n" = some n ∧ ∃ old, m.store.cell n = .var old ∧ ∃ a, m.lookup "a" = some a ∧
    ∃ o, m.store.cell a = .const o ∧ ∃ p, m.store.local? (.part o .members) "p" = some p ∧
    (∃ getter, m.store.cell p = .computed getter none) ∧ old ≠ o ∧
    (∃ m', Eval.readCell (.ofDepth 24) p (some o) m = .done old m') ∧
    ∃ m', Eval.readCell (.ofDepth 24) p (some o) { m with store := m.store.assign n o } =
      .done o m' := by decide +kernel

theorem sample_function :
    ∃ m, (Eval.runSource (.ofDepth 24) sampleSource initial).machine? = some m ∧
    ∃ f, m.lookup "f" = some f ∧ ∃ o, m.store.cell f = .const o ∧
      ∃ code, m.store.kind o = .function code ∧ ∃ x, code.params = .fixed [x] := by decide +kernel

/-- The closure has a copy of the activation, and counts on from there. -/
theorem sample_sequel : ∃ m, (Eval.runSource (.ofDepth 24) sampleSource initial).machine? = some m ∧
    ∃ F, m.stack.head? = some F ∧ ∃ n, m.store.lookupIn F.scopes "n" = some n ∧
    (∃ v, m.store.cell n = .var v) ∧
    ∃ m₁, (Eval.runSource (.ofDepth 24) closureSource m).machine? = some m₁ ∧
    ∃ m₂, (Eval.runSource (.ofDepth 24) callingSource m₁).machine? = some m₂ ∧
    ∃ o, m₂.constant? "g" = some o ∧
    (∃ code K, m₂.store.kind o = .closure code K ∧ K = (m.store.captureActivation F).1) ∧
    (∃ i, m₂.constant? "i" = some i ∧ m₂.store.kind i = .integer 2) ∧
    (∃ j, m₂.constant? "j" = some j ∧ m₂.store.kind j = .integer 3) ∧
    m₂.store.lookupIn F.scopes "n" = some n ∧
    ∃ v, m₂.store.cell n = .var v ∧ m₂.store.kind v = .integer 5 := by decide +kernel

end ObjectLang
