import ObjectLang.Proofs.Arity
import ObjectLang.Proofs.InstanceChain

/-!
The operators of all objects.
Whenever code runs, every object answers each operator that all objects have, be it made or still in
the making: one of its levels binds the operator to a method, unless the object is code and answers
a call by itself. So the search for an operator never breaks off, a call of what is no code comes to
a method at once, and what no class has given a meaning to is refused with the names of type and
operator.
-/
namespace ObjectLang

def Code.refusal (op : String) : Code := .variadic op (.unsupported op)

/-- The name of a type is there to stay. -/
theorem Store.Retains.typeName_eq {s s' : Store} {root o : ObjectId}
    (h : s.Retains s.objects.size s') (hs : s.Guarded) (hf : s.Faced root) (ho : s.HasObject o) :
    s'.typeName o = s.typeName o := by
  have hface : s.HasObject (s.face o) := (hf.bounded o ho).1
  have htype : s'.type (s.face o) = s.type (s.face o) := by rw [type, h.objects _ hface, type]
  rw [typeName, typeName, h.face ho, htype]
  cases hcase : s.type (s.face o) with
  | none => rfl
  | some t => rw [Option.bind_some, Option.bind_some, h.kind (hs.type _ t hcase).1]

open Routine

namespace Machine

variable {m : Machine} {o : ObjectId} {op : String}

section

variable (h : Reachable m) (ho : m.store.HasObject o)
include h ho

/-- An operator is a method of one of the levels. Only a call is answered by an object itself. -/
theorem Reachable.operator (hop : op ∈ Builtin.objectBlueprint.operators.map Code.name) :
    ∃ c f, m.store.lookup (.part o .operators) op = some c ∧ m.store.cell c = .const f ∧
      ((∃ owner code, m.store.kind f = .method owner code) ∨
        op = "()" ∧ f = o ∧ (m.store.kind o).Callable) := by
  obtain ⟨code, hcode, rfl⟩ := List.mem_map.mp hop
  obtain ⟨c, hc⟩ := h.lookup_operator hcode ho (h.formed o)
  obtain ⟨f, hf, ⟨l, hl, hperforms⟩, -⟩ := h.guarded.store.operator hc
  refine ⟨c, f, hc, hf, ?_⟩
  rcases hperforms with ⟨owner, code, hkind, -⟩ | ⟨hcall, rfl, hkind⟩
  · exact Or.inl ⟨owner, code, hkind⟩
  · rcases List.mem_cons.mp hl with rfl | hbelow
    · exact Or.inr ⟨hcall, rfl, hkind⟩
    · exact absurd hkind (h.orderly.faced.supported o l hbelow).2

/-- What is no code by itself comes to a method when it is called. -/
theorem Reachable.call_object (hcode : ¬ (m.store.kind o).Callable) (receiver : Option ObjectId)
    (args : List ObjectId) (d : Nat) : ∃ f owner code, m.store.kind f = .method owner code ∧
      (Eval.invoke (.ofDepth (d + 1)) o receiver args).Reaches m
        (Eval.callMethod (.ofDepth d) owner code (some o) args) m := by
  have hmem : "()" ∈ Builtin.objectBlueprint.operators.map Code.name := by decide
  obtain ⟨c, f, hc, hf, ⟨owner, code, hkind⟩ | ⟨-, -, hcallable⟩⟩ := h.operator ho hmem
  · have hne : f ≠ o := by
      rintro rfl
      rw [hkind] at hcode
      exact hcode trivial
    have hdispatch := Eval.dispatch_const hc hf (.ofDepth (d + 1)) args
    rw [if_neg hne] at hdispatch
    have hsee : see (·.kind f) m = .done (.method owner code) m := by
      rw [← hkind]
      rfl
    refine ⟨f, owner, code, hkind, ?_⟩
    refine .trans (.of_resumes (Eval.invoke_object (Store.code?_eq_none hcode) _ receiver args)) ?_
    exact hdispatch.trans (.of_resumes (.bind hsee (moments_quiet _ m)))
  · exact absurd hcallable hcode

/-- An operator that no class gives a meaning to is refused. -/
theorem Reachable.refuses (hop : op ∈ Builtin.refused)
    (hnone : ∀ l ∈ m.store.levels o, m.store.base l ≠ none →
      m.store.local? (.part l .operators) op = none)
    (hself : ∀ owner, m.store.kind o ≠ .method owner (.refusal op))
    (args : List ObjectId) (d : Nat) : ∃ m', Eval.dispatch (.ofDepth (d + 1)) o op args m =
      .failed (.fault (.unsupported (m.store.typeName o) op)) m' := by
  have horderly := h.orderly
  obtain ⟨l, c, f, hc, hf, hmethod⟩ :=
    horderly.classed.lookup_bottom horderly.faced horderly.distinct h.sound.store h.hooked
      (List.mem_append.mpr (Or.inr (List.mem_map.mpr ⟨op, hop, rfl⟩))) ho
    (h.formed o) hnone
  have hkind : m.store.kind f = .method l (.refusal op) := hmethod
  have hne : f ≠ o := by
    rintro rfl
    exact hself l hkind
  have hdispatch := Eval.dispatch_const hc hf (.ofDepth (d + 1)) args
  rw [if_neg hne] at hdispatch
  obtain ⟨v, hnothing⟩ := (Eval.Backed.refl m).nothing h.sound (.ofDepth d)
  -- A refusal names the type of its receiver.
  obtain ⟨a, m₁, hrun, hretains, -⟩ :=
    Eval.callMethod_run (Eval.superOf_finds hnothing l) (.refusal op) (some o) args
  have hcall : Eval.callMethod (.ofDepth d) l (.refusal op) (some o) args m =
      .failed (.fault (.unsupported (m₁.store.typeName o) op)) _ := hrun.run
  rw [hretains.store.typeName_eq h.guarded.store horderly.faced ho] at hcall
  have hsee : see (·.kind f) m = .done (.method l (.refusal op)) m := by
    rw [← hkind]
    rfl
  exact ⟨_, hdispatch.run.trans ((bind_run_done hsee).trans hcall)⟩

end

/-- Whatever state a run has come to, and whatever object there is in it: each operator of all
objects is found on its levels, in a cell that is a constant. The constant is a method, or else the
object itself where code is called. A call of an object that is no code comes to a method by one
operator. An operator that only the bottom of the object has is refused with the type of the object
and the operator, unless the object is the very method that refuses. In no run does the search for
an operator break off, and no run asks such a method for an operator. -/
theorem operators_grounded :
    (∀ m, Reachable m → ∀ o, m.store.HasObject o →
      (∀ op ∈ Builtin.objectBlueprint.operators.map Code.name, ∃ c f,
        m.store.lookup (.part o .operators) op = some c ∧ m.store.cell c = .const f ∧
          ((∃ owner code, m.store.kind f = .method owner code) ∨
            op = "()" ∧ f = o ∧ (m.store.kind o).Callable)) ∧
      (¬ (m.store.kind o).Callable → ∀ receiver args d, ∃ f owner code,
        m.store.kind f = .method owner code ∧
          (Eval.invoke (.ofDepth (d + 1)) o receiver args).Reaches m
            (Eval.callMethod (.ofDepth d) owner code (some o) args) m) ∧
      ∀ op ∈ Builtin.refused, (∀ l ∈ m.store.levels o, m.store.base l ≠ none →
          m.store.local? (.part l .operators) op = none) →
        (∀ owner, m.store.kind o ≠ .method owner (.refusal op)) → ∀ args d, ∃ m',
          Eval.dispatch (.ofDepth (d + 1)) o op args m =
            .failed (.fault (.unsupported (m.store.typeName o) op)) m') ∧
    ∀ sources m, After sources m → ∀ d src, ∀ p ∈ (Eval.runSource (.ofDepth d) src).moments m,
      (∀ op e, p.deed ≠ .breaks (.operator op) e) ∧
      ∀ o op c, p.deed = .reads (.operator o op) c →
        p.machine.store.HasObject o ∧
          ∀ owner x, p.machine.store.kind o ≠ .method owner (.refusal x) := by
  refine ⟨fun m h o ho => ⟨fun op hop => h.operator ho hop, fun hcode receiver args d =>
    h.call_object ho hcode receiver args d, fun op hop hnone hself args d =>
    h.refuses ho hop hnone hself args d⟩, fun sources m h d src p hp => ?_⟩
  have hguarded := (h.secures d src).passes p hp
  refine ⟨fun op e hdeed => ?_, fun o op c hdeed => ?_⟩
  · obtain ⟨o, ho⟩ := hguarded.whole _ e hdeed
    exact h.guarded.2 o (hguarded.formed o ho)
  · have hordinary := hguarded.target o op c hdeed
    exact ⟨hordinary.1, fun owner x hkind => hordinary.2 ⟨owner, _, hkind, rfl⟩⟩

/-- A class can be called, and its instance is refused where it is added to something. -/
theorem operators_grounded_counter : ∃ m c cls b, Reachable m ∧ m.store.kind c = .ofClass cls ∧
    (∃ f owner code, m.store.kind f = .method owner code ∧
      (Eval.invoke (.ofDepth 3) c none []).Reaches m
        (Eval.callMethod (.ofDepth 2) owner code (some c) []) m) ∧
    m.constant? "b" = some b ∧ (∃ m', Eval.dispatch (.ofDepth 3) b "+" [b] m =
      .failed (.fault (.unsupported (m.store.typeName b) "+")) m') ∧
    ∀ p ∈ (Eval.runSource (.ofDepth 16) pryingSource).moments m, ∀ op e,
      p.deed ≠ .breaks (.operator op) e := by
  obtain ⟨m, hend, -, -, c, -, ⟨cls, hc, -⟩, ⟨b, hb, hplain, hnone⟩, -⟩ := counter_classes
  have hafter : After [counterSource] m := .next .start 16 counterSource hend
  obtain ⟨hobjects, hruns⟩ := operators_grounded
  obtain ⟨-, hcall, -⟩ := hobjects m (.between hafter) c (Store.has_of_kind (by simp [hc]))
  obtain ⟨i, hi, hcell⟩ := constant?_eq_some hb
  have hsound := (Reachable.between hafter).sound
  have hhas : m.store.HasObject b := by
    have hfits := hsound.store.cells i (Eval.hasCell_of_name hsound hi)
    rwa [hcell] at hfits
  obtain ⟨-, -, hrefuses⟩ := hobjects m (.between hafter) b hhas
  exact ⟨m, c, cls, b, .between hafter, hc, hcall (by rw [hc]; exact id) none [] 2, hb,
    hrefuses "+" (by decide) hnone (fun owner hkind => by cases hplain.symm.trans hkind) [b] 2,
    fun p hp => (hruns _ m hafter 16 pryingSource p hp).1⟩

end Machine

end ObjectLang
