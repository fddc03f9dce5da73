import ObjectLang.Proofs.Store.Wellformed

/-!
Sound stores: wellformed ones in which every class can be instantiated.
A class is its own face and answers a call by its constructor, its superclass is an older class, and
at most one class has no superclass.
No operation breaks this for a class that is there, and a new class is made in one go.
-/
namespace ObjectLang.Store

/-- A call of the class runs its constructor. -/
structure Answers (s : Store) (c : ObjectId) : Prop where
  face : (s.object c).face = some c
  construct : ∃ i f, s.local? (.part c .operators) "()" = some i ∧ s.cell i = .const f ∧
    s.kind f = .method c .constructor

structure Sound (W : Stock) (s : Store) : Prop extends s.Wellformed W where
  answers : ∀ c b, s.kind c = .ofClass b → s.Answers c
  bases : ∀ c b, s.kind c = .ofClass b →
    ∀ base ∈ b.base, base.index < c.index ∧ ∃ b', s.kind base = .ofClass b'
  lone : ∀ c c' b b', s.kind c = .ofClass b → s.kind c' = .ofClass b' → b.base = none →
    b'.base = none → c = c'

def NoClass (k : Kind) : Prop := ∀ b, k ≠ .ofClass b

/-- What an instance may hold on its top level: anything that fits, but no class. -/
structure Payload (W : Stock) (s : Store) (k : Kind) : Prop where
  fits : k.Fits W s
  noClass : NoClass k

theorem Payload.mono {W : Stock} {s s' : Store} {k : Kind} (h : s.Payload W k)
    (hle : s.SizeLe s') : s'.Payload W k := ⟨h.fits.mono hle, h.noClass⟩

theorem payload_plain (W : Stock) (s : Store) : s.Payload W .plain :=
  ⟨trivial, by simp [NoClass]⟩

variable {W : Stock} {s s' : Store} {c : CellId} {name : String} {b : Blueprint} {kind : Kind}
  {t : TableId}

theorem Answers.mono (h : s.Wellformed W) (hg : s.Grows s') {c : ObjectId} (hc : s.Answers c)
    (hface : (s'.object c).face = (s.object c).face) : s'.Answers c where
  face := hface.trans hc.face
  construct := by
    obtain ⟨i, f, hi, hf, hkind⟩ := hc.construct
    exact ⟨i, f, hg.bound _ _ _ hi, hg.const (h.hasCell_of_local? hi) hf,
      hg.kind_of_ne hkind (by simp)⟩

namespace Sound

theorem hasObject_of_class (c : ObjectId) (hc : s.kind c = .ofClass b) :
    s.HasObject c := has_of_kind (by simp [hc])

variable (h : s.Sound W)
include h

/-- A store that grows without new classes, and without new faces for its classes, stays sound. -/
theorem of_grows (hw : s'.Wellformed W) (hg : s.Grows s')
    (hface : ∀ c b, s.kind c = .ofClass b → (s'.object c).face = (s.object c).face)
    (hnew : ∀ c b, s'.kind c = .ofClass b → s.kind c = .ofClass b) : s'.Sound W where
  toWellformed := hw
  answers c b hc :=
    (h.answers c b (hnew c b hc)).mono h.toWellformed hg (hface c b (hnew c b hc))
  bases c b hc base hbase := by
    obtain ⟨hlt, b', hb'⟩ := h.bases c b (hnew c b hc) base hbase
    exact ⟨hlt, b', hg.kind_of_ne hb' (by simp)⟩
  lone c c' b b' hc hc' := h.lone c c' b b' (hnew c b hc) (hnew c' b' hc')

theorem newCell {c : Cell} (hfits : c.Fits s) (hview : ∀ x, c = .view x → ¬ s.IsField x) :
    (s.newCell c).2.Sound W :=
  h.of_grows (h.toWellformed.newCell hfits hview) (newCell_grows s c) (fun _ _ _ => rfl)
    fun _ _ hc => hc

theorem assign {v : ObjectId} (hv : s.HasObject v) : (s.assign c v).Sound W :=
  h.of_grows (h.toWellformed.assign hv) (assign_grows s c v) (fun _ _ _ => rfl) fun _ _ hc => hc

theorem newTable {t : Table} (hfits : t.Fits s) (hfield : ∀ b ∈ t.bindings, ¬ s.IsField b.2)
    (hquiet : ∀ b ∈ t.bindings, (s.cell b.2).Still) : (s.newTable t).2.Sound W :=
  h.of_grows (h.toWellformed.newTable hfits hfield hquiet) (newTable_grows s t) (fun _ _ _ => rfl)
    fun _ _ hc => hc

theorem newObject {base : Option ObjectId} (hbase : ∀ b ∈ base, s.HasObject b)
    (hkind : kind.Fits W s) (hclass : NoClass kind) : (s.newObject base kind).2.Sound W := by
  refine h.of_grows (h.toWellformed.newObject hbase hkind) (newObject_grows s base kind) ?_ ?_
  · intro c b hc
    rw [object_newObject_of_has s base kind (hasObject_of_class c hc)]
  · intro c b hc
    rw [Store.kind, object_newObject] at hc
    split at hc
    · exact absurd hc (hclass b)
    · exact hc

theorem of_bind (hw : (s.bind t name c).Wellformed W) (ht : s.Holds t)
    (hfree : s.local? t name = none) : (s.bind t name c).Sound W := by
  refine h.of_grows hw (bind_grows s c ht hfree) ?_ ?_
  · intro o b _
    exact face_bind s t name c o
  · intro o b ho
    rw [← ho]
    exact (kind_bind s t name c o).symm

theorem bind_shared (ht : s.Holds t) (hfield : ∀ o, t ≠ .part o .fields)
    (hfree : s.local? t name = none) (hc : s.HasCell c) (hnot : ¬ s.IsField c)
    (hstill : ∀ i, t = .free i → (s.cell c).Still) : (s.bind t name c).Sound W :=
  h.of_bind (h.toWellformed.bind_shared ht hfield hfree hc hnot hstill) ht hfree

theorem bind_field {o : ObjectId} (ho : s.HasObject o)
    (hfree : s.local? (.part o .fields) name = none) (hc : s.HasCell c) (hunused : s.Unused c) :
    (s.bind (.part o .fields) name c).Sound W :=
  h.of_bind (h.toWellformed.bind_field ho hfree hc hunused) ho hfree

theorem rooted {root type : ObjectId} (hroot : s.HasObject root) (htype : s.HasObject type)
    (hkind : kind.Fits W s) (hclass : NoClass kind) : (s.rooted root type kind).2.Sound W := by
  refine h.of_grows (h.toWellformed.rooted hroot htype hkind) (rooted_grows s _ _ _) ?_ ?_
  · intro c b hc
    rw [s.object_rooted_of_has _ _ _ (hasObject_of_class _ hc)]
  · intro c b hc
    rw [Store.kind, object_rooted] at hc
    split at hc
    · exact absurd hc (hclass b)
    · exact hc

/-- A chain without classes may take a new face. -/
theorem settle {o type : ObjectId} (ho : s.HasObject o) (htype : s.HasObject type)
    (hclass : ∀ l ∈ s.levels o, NoClass (s.kind l)) : (s.settle o type).Sound W := by
  have halike := wearFace_alike s o
  refine h.of_grows (h.toWellformed.settle ho htype)
    (halike.grows.trans (setType_alike _ o type).grows) ?_ ?_
  · intro c b hc
    have hnot : c ∉ s.levels o := fun hmem => hclass c hmem b hc
    have hkeep : ((s.wearFace o).object c).face = (s.object c).face := by
      rw [object_wearFace, if_neg (fun hx => hnot hx.1)]
    rw [← hkeep, Store.settle, object_setType]
    split <;> rfl
  · intro c b hc
    rw [← hc]
    exact ((setType_alike _ o type).kind c |>.trans (halike.kind c)).symm

theorem addClass {roots : Roots} (hroots : roots.Fits s) (hb : b.Fits W s)
    (hbase : ∀ base ∈ b.base, ∃ b', s.kind base = .ofClass b') (hsome : b.base ≠ none) :
    (s.addClass roots b).2.Sound W := by
  have hgrows := s.addClass_grows roots b
  have hw : (s.addClass roots b).2.Wellformed W := by
    have hmade := h.toWellformed.classMaking hroots hb
    have hle := ((s.classParts_grows roots b).trans
      ((s.classAnswering_grows roots b).trans (s.classMaking_grows roots b))).sizes
    rw [addClass_snd]
    exact hmade.addName (hroots.mono hle) (s.classMaking_has roots b) (s.classMaking_free roots b)
  have hself : (s.addClass roots b).2.kind s.fresh = .ofClass b := by
    have hparts : (s.classParts roots b).kind s.fresh = .ofClass b := by
      rw [Store.kind, object_classParts_self]
      rfl
    exact (((s.classAnswering_grows roots b).trans ((s.classMaking_grows roots b).trans
      (s.classMaking_addName_grows roots b))).kind_of_ne hparts (by simp))
  -- A class of the new store is an old one or the new one.
  have hcases : ∀ c b', (s.addClass roots b).2.kind c = .ofClass b' →
      s.kind c = .ofClass b' ∨ (c = s.fresh ∧ b' = b) := by
    intro c b' hc
    by_cases hhas : s.HasObject c
    · exact Or.inl ((hgrows.kind c hhas).symm.trans hc)
    · by_cases hne : c = s.fresh
      · subst hne
        rw [hself] at hc
        cases hc
        exact Or.inr ⟨rfl, rfl⟩
      · rcases s.kind_addClass_of_new roots b hhas hne with hk | ⟨owner, code, hk⟩
        · rw [hk] at hc
          cases hc
        · rw [hk] at hc
          cases hc
  refine ⟨hw, ?_, ?_, ?_⟩
  · intro c b' hc
    rcases hcases c b' hc with hold | ⟨rfl, rfl⟩
    · refine (h.answers c b' hold).mono h.toWellformed hgrows ?_
      rw [object_addClass_of_has s roots b (hasObject_of_class c hold)]
    · exact ⟨s.face_addClass roots _, s.addClass_construct roots _⟩
  · intro c b' hc base hmem
    rcases hcases c b' hc with hold | ⟨rfl, rfl⟩
    · obtain ⟨hlt, b'', hb''⟩ := h.bases c b' hold base hmem
      exact ⟨hlt, b'', hgrows.kind_of_ne hb'' (by simp)⟩
    · obtain ⟨b'', hb''⟩ := hbase base hmem
      exact ⟨hb.base base hmem, b'', hgrows.kind_of_ne hb'' (by simp)⟩
  · intro c c' b₁ b₂ hc hc' hnone hnone'
    rcases hcases c b₁ hc with hold | ⟨-, rfl⟩
    · rcases hcases c' b₂ hc' with hold' | ⟨-, rfl⟩
      · exact h.lone c c' b₁ b₂ hold hold' hnone hnone'
      · exact absurd hnone' hsome
    · exact absurd hnone hsome

end Sound

end ObjectLang.Store
