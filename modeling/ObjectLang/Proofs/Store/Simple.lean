import Mathlib.Tactic.MkIffOfInductiveProp
import ObjectLang.Machine.Start
import ObjectLang.Proofs.Inspection
import ObjectLang.Proofs.Store.Distinct
import ObjectLang.Proofs.Store.Proper

/-!
Levels that are filled without running any code, and the operator that reads members.
-/
namespace ObjectLang

def Code.same : Code → Code → Bool
  | ⟨name, params, .primitive p, none⟩, ⟨name', params', .primitive p', none⟩ =>
    name = name' && (params = params' && p = p')
  | _, _ => false

theorem Code.eq_of_same {c c' : Code} (h : c.same c' = true) : c = c' := by
  unfold Code.same at h
  split at h
  · simp only [Bool.and_eq_true, decide_eq_true_eq] at h
    rw [h.1, h.2.1, h.2.2]
  · cases h

def Code.memberRead : Code := .primitive "." ["name"] .member

theorem Code.memberRead_mem : .memberRead ∈ Builtin.objectBlueprint.operators :=
  List.mem_cons_self ..

/-- A level of this blueprint is filled without running any code. -/
@[mk_iff] structure Blueprint.Simple (b : Blueprint) : Prop where
  vals : b.vals = []
  vars : b.vars = []
  names : ∀ p, ((b.entries p).map Entry.name).Nodup
  accepted : ∀ p, ∀ e ∈ b.entries p, p.rule.accepts e.name = true
  getters : ∀ p ∈ b.properties, p.getter ≠ none

namespace Store

variable {s s' : Store} {c : ObjectId} {n : Nat}

/-- A class whose instances are made without running any code: it has at most `n` levels, all of
them simple. -/
inductive Simple (s : Store) : Nat → ObjectId → Prop where
  | top {n : Nat} {c : ObjectId} {b : Blueprint} (hc : s.kind c = .ofClass b) (hb : b.Simple)
      (hbase : b.base = none) : Simple s (n + 1) c
  | above {n : Nat} {c base : ObjectId} {b : Blueprint} (hc : s.kind c = .ofClass b)
      (hb : b.Simple) (hbase : b.base = some base) (h : Simple s n base) : Simple s (n + 1) c

theorem Simple.mono (h : s.Simple n c) (hg : s.Grows s') :
    s'.Simple n c := by
  induction h with
  | top hc hb hbase => exact .top (hg.kind_of_ne hc (by simp)) hb hbase
  | above hc hb hbase _ ih => exact .above (hg.kind_of_ne hc (by simp)) hb hbase ih

/-- Members of the object are read by the machine's own operator. -/
def Transparent (s : Store) (o : ObjectId) : Prop :=
  ∃ c f l, s.lookup (.part o .operators) "." = some c ∧ s.cell c = .const f ∧
    s.MethodOf l .memberRead f

/-- The root has the operators of all objects, which have no members, and its class gives them to
every object. -/
structure Hooked (s : Store) (root : ObjectId) : Prop where
  operator : ∀ code ∈ Builtin.objectBlueprint.operators, ∃ c f,
    s.local? (.part root .operators) code.name = some c ∧ s.cell c = .const f ∧
      s.MethodOf root code f ∧ s.bindings (.part f .members) = []
  fields : s.bindings (.part root .fields) = []
  class_ : ∃ c b, s.type root = some c ∧ s.kind c = .ofClass b ∧ b.base = none ∧
    ∀ code ∈ Builtin.objectBlueprint.operators, code ∈ b.operators

theorem Hooked.memberRead {root : ObjectId} (h : s.Hooked root) :
    ∃ c f, s.local? (.part root .operators) "." = some c ∧ s.cell c = .const f ∧
      s.MethodOf root .memberRead f ∧ s.bindings (.part f .members) = [] :=
  h.operator .memberRead Code.memberRead_mem

end Store

end ObjectLang
