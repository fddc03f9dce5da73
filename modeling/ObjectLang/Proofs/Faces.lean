import ObjectLang.Proofs.InstanceChain
import ObjectLang.Proofs.Standing

/-!
Faces in every state of a run.
An object in the making wears its own face, a finished instance gives its face to its whole chain,
and definitions keep theirs for ever. So it is at every moment of a program, also while the first
values of fields are found and after a construction has failed.
-/
namespace ObjectLang

namespace Machine

open Routine

variable {m m' : Machine} {t : List Moment} {o : ObjectId}

/-- Definitions lie on the root. -/
theorem Reachable.face_definition (h : Reachable m) {x : ObjectId}
    (hx : (m.store.kind x).Definition) : m.store.face x = x := by
  apply h.abides.faced.rooted x
  rw [h.proper.store.levels_definition hx, h.abides.roots]
  simp

/-- A completed instantiation gives a finished instance that its whole chain has as its face. -/
theorem Reachable.face_instance (h : Reachable m) {d : Nat} {c : ObjectId} {kind : Kind}
    (hkind : m.store.Payload .any kind)
    (hrun : Eval.instantiate (.ofDepth d) c kind m = .done o m') :
    m'.store.Finished m'.roots.root o ∧ ∀ l ∈ m'.store.levels o, m'.store.face l = o := by
  have hgoes := Eval.instantiate_goes (good_ofDepth .any d) h.ready (c := c) hkind
  obtain ⟨hpath, -, hbuilt⟩ := hgoes.done hrun
  have hon := hpath.onward h.sound.ready
  obtain ⟨cs, -, hchain⟩ := hbuilt.chain
  refine ⟨⟨hbuilt.typed, ?_⟩, ?_⟩
  · intro hroot
    have hnew := hbuilt.new _ hroot
    rw [hon.roots] at hnew
    exact Nat.not_lt.mpr hnew h.sound.roots.root
  · intro l hl
    rw [Store.face, hchain.faces l hl]
    rfl

/-- In every state that a run comes by, the face of an object is its own face, and the object lies
on the chain of its face. The chain of a finished instance wears one face, that of a finished
instance, and its own unless it is a level of another one. An instantiation that completes gives
such an instance, which stays finished from then on. The root and all types, classes, methods,
modules and aliases wear their own faces. -/
theorem faces_in_order (h : Reachable m) :
    (∀ x, m.store.face (m.store.face x) = m.store.face x ∧
      x ∈ m.store.levels (m.store.face x)) ∧
    (∀ o, m.store.Finished m.roots.root o →
      m.store.Finished m.roots.root (m.store.face o) ∧
      (∀ l ∈ m.store.levels o, m.store.face l = m.store.face o) ∧
      ((∀ o', m.store.Finished m.roots.root o' → o ∉ (m.store.object o').below) →
        ∀ l ∈ m.store.levels o, m.store.face l = o) ∧
      ∀ t m', Later m t m' → m'.store.Finished m'.roots.root o) ∧
    (∀ d c kind, m.store.Payload .any kind → ∀ o m',
      Eval.instantiate (.ofDepth d) c kind m = .done o m' →
        m'.store.Finished m'.roots.root o ∧ ∀ l ∈ m'.store.levels o, m'.store.face l = o) ∧
    m.store.face m.roots.root = m.roots.root ∧
    ∀ x, (m.store.kind x).Definition → m.store.face x = x := by
  have hfaced := h.abides.faced
  refine ⟨fun x => ⟨hfaced.fixed x, hfaced.worn x⟩, fun o ho => ?_, ?_,
    hfaced.rooted _ (m.store.mem_levels_self _), fun x hx => h.face_definition hx⟩
  · obtain ⟨hface, hall⟩ := hfaced.face_of_finished ho
    refine ⟨hface, hall, fun htop l hl => ?_, fun t m' hlater => ?_⟩
    · -- A face that is no level of another instance can only be worn by itself.
      rw [hall l hl]
      rcases List.mem_cons.mp (hfaced.worn o) with heq | hbelow
      · exact heq.symm
      · exact absurd hbelow (htop _ hface)
    rw [hlater.abides.roots]
    exact hlater.abides.lasts.finished o ho
  · intro d c kind hkind o m' hrun
    exact h.face_instance hkind hrun

/-- An instance of a class that is declared over another one. -/
theorem faces_in_order_counter : ∃ m c o m', Reachable m ∧
    Eval.instantiate (.ofDepth 16) c .plain m = .done o m' ∧ (m'.store.levels o).length = 3 ∧
    (∀ l ∈ m'.store.levels o, m'.store.face l = o) ∧ m.store.face c = c := by
  obtain ⟨m, hend, -, -, c, -, ⟨b, hb, -⟩, -, o, m', hmade, hthree, -⟩ := counter_classes
  have hreachable : Reachable m := .between (.next .start 16 counterSource hend)
  obtain ⟨-, -, hinstance, -, hdefinition⟩ := faces_in_order hreachable
  refine ⟨m, c, o, m', hreachable, hmade, hthree, ?_, hdefinition c ?_⟩
  · exact (hinstance 16 c .plain (Store.payload_plain _ _) o m' hmade).2
  · rw [hb]
    trivial

end Machine

end ObjectLang
