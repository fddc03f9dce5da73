import ObjectLang.Proofs.Eval.Instances
import ObjectLang.Proofs.Faces

/-!
Being of a type.
The levels of an instance have the class of the instance and its superclasses as their types, one
each. So an instance is of just those types that its class derives from, itself among them. What
lies right on the root is of its own type, and of that of the root, which is `Object`.
-/
namespace ObjectLang

open Machine Routine

namespace Store

variable {root x c c' k : ObjectId} {cs : List ObjectId} {s s' : Store}

inductive Derives (s : Store) : ObjectId → ObjectId → Prop where
  | refl (c : ObjectId) : Derives s c c
  | up {c base k : ObjectId} {b : Blueprint} (hc : s.kind c = .ofClass b) (hb : b.base = some base)
      (h : Derives s base k) : Derives s c k

theorem Derives.trans (h : s.Derives c c') (h' : s.Derives c' k) : s.Derives c k := by
  induction h with
  | refl _ => exact h'
  | up hc hb _ ih => exact .up hc hb (ih h')

/-- A lineage lists what its class derives from. -/
theorem Lineage.mem_iff (h : s.Lineage c cs) : k ∈ cs ↔ s.Derives c k := by
  induction h with
  | @last c b hc hb =>
    rw [List.mem_singleton]
    constructor
    · rintro rfl
      exact .refl k
    · intro hk
      cases hk with
      | refl _ => rfl
      | up hc' hb' _ =>
        cases hc.symm.trans hc'
        cases hb.symm.trans hb'
  | @derived c base b cs hc hb _ ih =>
    rw [List.mem_cons, ih]
    constructor
    · rintro (rfl | hk)
      · exact .refl k
      · exact .up hc hb hk
    · intro hk
      cases hk with
      | refl _ => exact Or.inl rfl
      | up hc' hb' hk =>
        cases hc.symm.trans hc'
        cases hb.symm.trans hb'
        exact Or.inr hk

/-- Asked about a type, an object answers by the types of the levels of its face. -/
theorem isa_eq (hk : (s.kind k).isType = true) :
    s.isa x k = .ok (decide (some k ∈ (s.levels (s.face x)).map s.type)) := by
  rw [isa, if_pos hk]
  congr 1
  rw [Bool.eq_iff_iff]
  simp

end Store

/-- The truth value of what the store answers, or its fault. -/
theorem Eval.isa_run (inner : Inner) (x k : ObjectId) (m : Machine) :
    Eval.isa inner x [k] m = match m.store.isa x k with
      | .ok r => Eval.boolean inner r m
      | .error f => .failed (.fault f) m := by
  change (ofExcept (m.store.isa x k) >>= Eval.boolean inner) m = _
  cases m.store.isa x k <;> rfl

namespace Machine

variable {W : Stock} {m m' : Machine} {x c k o : ObjectId} {kind : Kind} {d : Nat}

/-- An instance has the class of its face and what that derives from as its types. -/
theorem Orderly.isa_instance (ho : Orderly m) (hm : m.Sound W)
    (hx : m.store.Finished m.roots.root (m.store.face x))
    (hc : m.store.type (m.store.face x) = some c) (hk : (m.store.kind k).isType = true) :
    ∃ r, m.store.isa x k = .ok r ∧ (r = true ↔ m.store.Derives c k) := by
  obtain ⟨c', b, htype, hkind, -⟩ := ho.classed.level _ hx
  obtain rfl := Option.some.inj (hc.symm.trans htype)
  obtain ⟨cs, hcs⟩ := hm.store.lineage hkind
  refine ⟨_, Store.isa_eq hk, ?_⟩
  rw [decide_eq_true_iff, hcs.types ho.classed ho.faced hx hc, ← hcs.mem_iff]
  simp

def IsBuiltin (m : Machine) (name : String) (v : ObjectId) : Prop :=
  ∃ i, m.store.local? m.builtins name = some i ∧ m.store.cell i = .const v

theorem IsBuiltin.unique {name : String} {v w : ObjectId} (h : m.IsBuiltin name v)
    (h' : m.IsBuiltin name w) : v = w := by
  obtain ⟨i, hi, hcell⟩ := h
  obtain ⟨i', hi', hcell'⟩ := h'
  cases hi.symm.trans hi'
  cases hcell.symm.trans hcell'
  rfl

/-- The type of the root is the one class that has no superclass. -/
theorem Reachable.type_root (h : Reachable m) :
    ∃ object, m.IsBuiltin "Object" object ∧ m.store.type m.roots.root = some object := by
  obtain ⟨c, b, htype, hkind, hbase, -⟩ := h.hooked.class_
  obtain ⟨i, object, b', hi, hcell, hkind', hbase'⟩ := h.sound.object
  obtain rfl : c = object := h.sound.store.lone c object b b' hkind hkind' hbase hbase'
  exact ⟨c, ⟨i, hi, hcell⟩, htype⟩

theorem Reachable.levels_definition (h : Reachable m) (hx : (m.store.kind x).Definition) :
    m.store.levels x = [x, m.roots.root] := h.proper.store.levels_definition hx

/-- Asked whether `x` is of the type `k`, the machine gives a truth value, and nothing else
happens. -/
structure Tells (m : Machine) (x k : ObjectId) (r : Bool) : Prop where
  isa : m.store.isa x k = .ok r
  run : ∀ inner, ∃ v, m.IsBuiltin (if r then "true" else "false") v ∧
    Eval.isa inner x [k] m = .done v m

theorem Reachable.tells (h : Reachable m) {r : Bool} (hr : m.store.isa x k = .ok r) :
    m.Tells x k r := by
  refine ⟨hr, fun inner => ?_⟩
  have hname : (if r then "true" else "false") ∈ Builtin.values := by cases r <;> decide
  obtain ⟨i, v, hi, hcell⟩ := h.constant hname
  refine ⟨v, ⟨i, hi, hcell⟩, ?_⟩
  rw [Eval.isa_run, hr]
  exact Eval.builtin_run hi hcell inner

/-- A completed instantiation leaves levels in order. -/
theorem Reachable.orderly_made (h : Reachable m) (hkind : m.store.Payload .any kind)
    (hrun : Eval.instantiate (.ofDepth d) c kind m = .done o m') : Orderly m' := by
  have hgoes := Eval.instantiate_goes (good_ofDepth .any d) h.ready (c := c) hkind
  exact (hgoes.done hrun).1.orderly h.sound.ready h.orderly

/-- A completed instantiation gives an instance of the class and of what the class derives from. -/
theorem Reachable.isa_made (h : Reachable m) (hkind : m.store.Payload .any kind)
    (hrun : Eval.instantiate (.ofDepth d) c kind m = .done o m') :
    (m'.store.face o = o ∧ m'.store.Finished m'.roots.root o ∧ m'.store.type o = some c) ∧
      ∀ k, (m'.store.kind k).isType = true →
        ∃ r, m'.store.isa o k = .ok r ∧ (r = true ↔ m'.store.Derives c k) := by
  have hgoes := Eval.instantiate_goes (good_ofDepth .any d) h.ready (c := c) hkind
  obtain ⟨hpath, -, hbuilt⟩ := hgoes.done hrun
  have hon := hpath.onward h.sound.ready
  have horderly := h.orderly_made hkind hrun
  obtain ⟨hfinished, hfaces⟩ := h.face_instance hkind hrun
  have hface := hfaces o (m'.store.mem_levels_self o)
  refine ⟨⟨hface, hfinished, hbuilt.type_eq⟩, fun k hk => ?_⟩
  refine horderly.isa_instance hon.sound ?_ ?_ hk
  · rwa [hface]
  · rw [hface]
    exact hbuilt.type_eq

/-- In every state that a run comes to, an object whose face is a finished instance is of just those
types that the class of its face derives from, and what an instantiation gives is such an object. A
type, class, method, module or alias is of its own type and of `Object`. About what is no type there
is no answer. So an instance is of its own class, and of the superclass of every class that it is
of.
-/
theorem isa_ancestry (h : Reachable m) :
    (∀ x c k, m.store.Finished m.roots.root (m.store.face x) →
      m.store.type (m.store.face x) = some c → (m.store.kind k).isType = true →
        ∃ r, m.Tells x k r ∧ (r = true ↔ m.store.Derives c k)) ∧
    (∀ d c kind, m.store.Payload .any kind → ∀ o m',
      Eval.instantiate (.ofDepth d) c kind m = .done o m' →
        (m'.store.face o = o ∧ m'.store.Finished m'.roots.root o ∧ m'.store.type o = some c) ∧
        m'.store.isa o c = .ok true ∧
        ∀ k, (m'.store.kind k).isType = true →
          ∃ r, m'.store.isa o k = .ok r ∧ (r = true ↔ m'.store.Derives c k)) ∧
    (∃ object, m.IsBuiltin "Object" object ∧
      ∀ x k, (m.store.kind x).Definition → (m.store.kind k).isType = true →
        ∃ r, m.Tells x k r ∧ (r = true ↔ m.store.type x = some k ∨ k = object)) ∧
    (∀ x k, (m.store.kind k).isType = false →
      m.store.isa x k = .error (.notType (m.store.describe k)) ∧
      (∀ inner, Eval.isa inner x [k] m = .failed (.fault (.notType (m.store.describe k))) m) ∧
      (Fault.notType (m.store.describe k)).group = .invalidType) ∧
    ∀ x k b base, m.store.Finished m.roots.root (m.store.face x) → m.Tells x k true →
      m.store.kind k = .ofClass b → b.base = some base → m.Tells x base true := by
  have hinstance : ∀ x c k, m.store.Finished m.roots.root (m.store.face x) →
      m.store.type (m.store.face x) = some c → (m.store.kind k).isType = true →
        ∃ r, m.Tells x k r ∧ (r = true ↔ m.store.Derives c k) := by
    intro x c k hx hc hk
    obtain ⟨r, hr, hiff⟩ := h.orderly.isa_instance h.sound hx hc hk
    exact ⟨r, h.tells hr, hiff⟩
  refine ⟨hinstance, ?_, ?_, ?_, ?_⟩
  · intro d c kind hkind o m' hrun
    obtain ⟨hmade, hisa⟩ := h.isa_made hkind hrun
    refine ⟨hmade, ?_, hisa⟩
    have hgoes := Eval.instantiate_goes (good_ofDepth .any d) h.ready (c := c) hkind
    have hon := (hgoes.done hrun).1.onward h.sound.ready
    obtain ⟨b, hb⟩ := instantiate_class hrun
    obtain ⟨r, hr, hiff⟩ := hisa c (by rw [hon.grows.kind_of_ne hb (by simp)]; rfl)
    rw [hr, hiff.mpr (.refl c)]
  · obtain ⟨object, hobject, htype⟩ := h.type_root
    refine ⟨object, hobject, fun x k hx hk => ⟨_, h.tells (Store.isa_eq hk), ?_⟩⟩
    rw [h.face_definition hx, h.levels_definition hx, decide_eq_true_iff]
    simp [htype, eq_comm]
  · intro x k hk
    have hrefused : m.store.isa x k = .error (.notType (m.store.describe k)) := by
      rw [Store.isa, if_neg (by simp [hk])]
    refine ⟨hrefused, fun inner => ?_, rfl⟩
    rw [Eval.isa_run, hrefused]
  · intro x k b base hx htells hk hb
    obtain ⟨c, -, hc, -, -⟩ := h.orderly.classed.level _ hx
    obtain ⟨-, b', hbase⟩ := h.sound.store.bases k b hk base hb
    obtain ⟨r, hr, hiff⟩ := hinstance x c k hx hc (by rw [hk]; rfl)
    cases hr.isa.symm.trans htells.isa
    obtain ⟨r, hr, hiff'⟩ := hinstance x c base hx hc (by rw [hbase]; rfl)
    obtain rfl := hiff'.mpr ((hiff.mp rfl).trans (.up hk hb (.refl base)))
    exact hr

/-- An instance of a class that is declared over another one, and the class itself. -/
theorem isa_ancestry_counter : ∃ m a c o m' object, Reachable m ∧ m.constant? "A" = some a ∧
    m.constant? "B" = some c ∧ Eval.instantiate (.ofDepth 16) c .plain m = .done o m' ∧
    m'.store.isa o c = .ok true ∧ m'.store.isa o a = .ok true ∧
    m.IsBuiltin "Object" object ∧ m.Tells c object true := by
  obtain ⟨m, hend, a, ha, c, hc, ⟨b, hb, hbase, -⟩, -, o, m', hmade, -⟩ := counter_classes
  have hreachable : Reachable m := .between (.next .start 16 counterSource hend)
  obtain ⟨-, hinstance, ⟨object, hobject, hdefinition⟩, -⟩ := isa_ancestry hreachable
  obtain ⟨-, hown, hall⟩ := hinstance 16 c .plain (Store.payload_plain _ _) o m' hmade
  obtain ⟨i, top, b', hi, hcell, hkind, -⟩ := hreachable.sound.object
  obtain rfl := hobject.unique ⟨i, hi, hcell⟩
  obtain ⟨r, hr, hiff⟩ := hdefinition c object (by rw [hb]; trivial) (by rw [hkind]; rfl)
  obtain rfl := hiff.mpr (Or.inr rfl)
  have hgoes := Eval.instantiate_goes (good_ofDepth .any 16) hreachable.ready (c := c)
    (Store.payload_plain _ _)
  have hgrows := ((hgoes.done hmade).1.onward hreachable.sound.ready).grows
  have hb' := hgrows.kind_of_ne hb (by simp)
  obtain ⟨-, ba, hba⟩ := hreachable.sound.store.bases c b hb a hbase
  have hba' := hgrows.kind_of_ne hba (by simp)
  obtain ⟨r, hisa, hiff⟩ := hall a (by rw [hba']; rfl)
  obtain rfl := hiff.mpr (.up hb' hbase (.refl a))
  exact ⟨m, a, c, o, m', object, hreachable, ha, hc, hmade, hown, hisa, hobject, hr⟩

end Machine

end ObjectLang
