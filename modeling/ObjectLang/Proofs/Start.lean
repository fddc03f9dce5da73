import ObjectLang.Proofs.Machine.Civil
import ObjectLang.Proofs.Machine.Orderly
import ObjectLang.Proofs.Store.Native

/-!
The machine that programs start on is sound.
Its store is one that the machine itself has furnished, so that soundness comes down to a
computation over its finitely many objects, cells and tables. It is done once, on that machine.
-/
namespace ObjectLang

def Builtin.valueClasses : List String :=
  ["Object", "Function", "Closure", "Integer", "Float", "String"]

def Builtin.values : List String := ["nothing", "true", "false"]

namespace Machine

def Derived (m : Machine) (name : String) : Prop :=
  ∃ c v b c' object, m.store.local? m.builtins name = some c ∧ m.store.cell c = .const v ∧
    m.store.kind v = .ofClass b ∧ b.base = some object ∧
    m.store.local? m.builtins "Object" = some c' ∧ m.store.cell c' = .const object ∧
    ∀ code ∈ b.operators, code.name ≠ "()"

/-- What is known of the machine that programs start on. -/
structure Fresh (m : Machine) : Prop where
  sound : ∀ W, m.Sound W
  stack : ∃ owner home, m.stack = [⟨owner, "main", [home, m.builtins], home, []⟩] ∧
    m.store.kind owner = .plain ∧ home ≠ m.modules
  sink : m.sink = .collecting []
  tidy : m.store.Tidy
  plain : ∀ p, ¬ m.store.HasModule p
  registry : m.store.bindings m.modules = []
  faced : m.store.Faced m.roots.root
  complete : ∀ o, m.store.HasObject o → m.store.Complete o
  proper : m.Proper m.modules
  apart : ∀ a ∈ m.stack, a.home ≠ m.builtins
  classed : m.store.Classed m.roots.root
  distinct : m.store.Distinct
  hooked : m.store.Hooked m.roots.root
  simple : ∀ name ∈ Builtin.valueClasses, ∃ c v, m.store.local? m.builtins name = some c ∧
    m.store.cell c = .const v ∧ m.store.Simple 2 v
  constant : ∀ name ∈ Builtin.values, ∃ c v, m.store.local? m.builtins name = some c ∧
    m.store.cell c = .const v
  derived : ∀ name ∈ Builtin.valueClasses.tail, m.Derived name
  guarded : m.store.Guarded
  owners : ∀ a ∈ m.stack, m.store.Ordinary a.owner
  rooted : m.roots.Ordinary m.store

/-- The machine is as it may be at the start. -/
@[mk_iff] structure Furnished (m : Machine) : Prop where
  object : ∃ c, m.store.local? m.builtins "Object" = some c ∧ ∃ o, m.store.cell c = .const o ∧
    (∃ b, m.store.kind o = .ofClass b ∧ b.base = none) ∧ m.store.Native m.modules m.roots.root o
  roots : ∀ o ∈ [m.roots.root, m.roots.type, m.roots.method, m.roots.class_, m.roots.module_],
    m.store.Ordinary o
  builtins : m.store.HasTable m.builtins ∧ m.builtins ≠ m.modules
  main : ∃ a, m.stack = [a] ∧ a.name = "main" ∧ a.scopes = [a.home, m.builtins] ∧ a.notes = [] ∧
    m.store.Ordinary a.owner ∧ m.store.kind a.owner = .plain ∧ m.store.HasTable a.home ∧
    a.home ≠ m.modules ∧ a.home ≠ m.builtins
  sink : m.sink = .collecting []
  hooks : ∀ code ∈ Builtin.objectBlueprint.operators,
    ∃ c, m.store.local? (.part m.roots.root .operators) code.name = some c ∧
      ∃ f, m.store.cell c = .const f ∧ m.store.Implements m.roots.root code f ∧
        m.store.bindings (.part f .members) = []
  base : ∃ c, m.store.type m.roots.root = some c ∧ ∃ b, m.store.kind c = .ofClass b ∧
    b.base = none ∧ ∀ code ∈ Builtin.objectBlueprint.operators,
      ∃ own ∈ b.operators, own.same code = true
  simple : ∀ name ∈ Builtin.valueClasses, ∃ c, m.store.local? m.builtins name = some c ∧
    ∃ v, m.store.cell c = .const v ∧ m.store.Simple 2 v
  constant : ∀ name ∈ Builtin.values, ∃ c, m.store.local? m.builtins name = some c ∧
    ∃ v, m.store.cell c = .const v
  derived : ∀ name ∈ Builtin.valueClasses.tail, ∃ c, m.store.local? m.builtins name = some c ∧
    ∃ v, m.store.cell c = .const v ∧ ∃ b, m.store.kind v = .ofClass b ∧
    ∃ c', m.store.local? m.builtins "Object" = some c' ∧ ∃ o, m.store.cell c' = .const o ∧
      b.base = some o ∧ ∀ code ∈ b.operators, code.name ≠ "()"

set_option synthInstance.maxSize 1024 in
set_option synthInstance.maxHeartbeats 200000 in
instance {m : Machine} : Decidable m.Furnished := decidable_of_iff' _ (furnished_iff m)

theorem Furnished.hooked {m : Machine} (h : m.Furnished) : m.store.Hooked m.roots.root := by
  obtain ⟨-, -, o, -, -, hnative⟩ := h.object
  obtain ⟨c', hc', b, hb, hbase, hall⟩ := h.base
  refine ⟨fun code hcode => ?_, (hnative.built m.roots.root).fields, c', b, hc', hb, hbase,
    fun code hcode => ?_⟩
  · obtain ⟨c, hc, f, hf, hmethod, hmembers⟩ := h.hooks code hcode
    exact ⟨c, f, hc, hf, hmethod.methodOf, hmembers⟩
  · obtain ⟨own, hown, hsame⟩ := hall code hcode
    exact Code.eq_of_same hsame ▸ hown

theorem Furnished.fresh {m : Machine} (h : m.Furnished) : m.Fresh := by
  obtain ⟨c, hc, o, ho, ⟨b, hb, hbase⟩, hnative⟩ := h.object
  obtain ⟨⟨owner, name, scopes, home, notes⟩, hstack, hmain⟩ := h.main
  dsimp only at hmain
  obtain ⟨rfl, rfl, rfl, howner, hplain, hhome, hmodules, hbuiltins⟩ := hmain
  have hroots : m.roots.Ordinary m.store := by
    constructor <;> exact h.roots _ (by simp)
  have hfree : ∀ t, m.store.HasTable t → t ≠ m.modules → t.Plain m.modules := by
    rintro t ⟨i, rfl, -⟩ hne
    exact ⟨⟨i, rfl⟩, hne⟩
  have hscope := hfree _ h.builtins.1 h.builtins.2
  have hopen := hfree home hhome hmodules
  have hconstant : ∀ name ∈ Builtin.values, ∃ c v, m.store.local? m.builtins name = some c ∧
      m.store.cell c = .const v := by
    intro name hname
    obtain ⟨c, hc, v, hv⟩ := h.constant name hname
    exact ⟨c, v, hc, hv⟩
  refine ⟨fun W => ⟨hnative.sound, ?_, ⟨hroots.root.1, hroots.type.1, hroots.method.1,
      hroots.class_.1, hroots.module_.1⟩, h.builtins.1, hnative.registry.1,
      hconstant "nothing" (by decide), c, o, b, hc, ho, hb, hbase⟩,
    ⟨owner, home, hstack, hplain, hmodules⟩, h.sink, hnative.tidy, hnative.no_module,
    hnative.registry.2.2, hnative.faced, hnative.complete, ⟨hnative.proper, rfl, hscope, ?_⟩, ?_,
    hnative.classed, hnative.distinct, h.hooked, ?_, hconstant, ?_, hnative.guarded, ?_, hroots⟩
  · rw [hstack, List.forall_mem_singleton]
    exact ⟨howner.1, by simpa using ⟨hhome, h.builtins.1⟩, hhome⟩
  · rw [hstack, List.forall_mem_singleton]
    exact ⟨by simpa using ⟨hopen, hscope⟩, hopen⟩
  · rw [hstack, List.forall_mem_singleton]
    exact hbuiltins
  · intro name hname
    obtain ⟨c, hc, v, hv, hsimple⟩ := h.simple name hname
    exact ⟨c, v, hc, hv, hsimple⟩
  · intro name hname
    obtain ⟨c, hc, v, hv, b, hb, c', hc', o, ho, hbase, hcall⟩ := h.derived name hname
    exact ⟨c, v, b, c', o, hc, hv, hb, hbase, hc', ho, hcall⟩
  · rw [hstack, List.forall_mem_singleton]
    exact howner

/-- The machine that programs start on. -/
@[irreducible] def initial : Machine := start.machine?.getD blank

/-- The one computation that the start rests on. -/
theorem start_furnished : ∃ m, start = .done () m ∧ m.Furnished := by decide +kernel

theorem start_initial : start = .done () initial ∧ initial.Fresh := by
  obtain ⟨m, hstart, hm⟩ := start_furnished
  have hinitial : initial = m := by
    delta initial
    rw [hstart]
    rfl
  rw [hinitial]
  exact ⟨hstart, hm.fresh⟩

end Machine

end ObjectLang
