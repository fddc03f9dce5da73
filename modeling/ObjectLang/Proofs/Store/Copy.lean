import ObjectLang.Proofs.Store.Sound

/-!
What capturing tables adds to a store: new cells and new tables, and nothing else.
No object changes and every cell keeps its content, so that the copies are all that is new.
-/
namespace ObjectLang.Store

/-- Only cells and tables are new. -/
structure Adds (W : Stock) (s s' : Store) : Prop where
  sound : s'.Sound W
  grows : s.Grows s'
  objects : s'.objects = s.objects
  content : ∀ c, s.HasCell c → s'.cell c = s.cell c

variable {W : Stock} {s s' s'' : Store} {c : CellId} {t : TableId}

def Shareable (s : Store) (c : CellId) : Prop := s.HasCell c ∧ ¬ s.IsField c

/-- A cell that a table that belongs to no object may share. -/
structure Common (s : Store) (c : CellId) : Prop where
  shared : s.Shareable c
  still : (s.cell c).Still

namespace Adds

theorem refl (h : s.Sound W) : s.Adds W s := ⟨h, .refl s, rfl, fun _ _ => rfl⟩

theorem trans (h : s.Adds W s') (h' : s'.Adds W s'') : s.Adds W s'' where
  sound := h'.sound
  grows := h.grows.trans h'.grows
  objects := h'.objects.trans h.objects
  content c hc := (h'.content c (hc.mono h.grows.sizes)).trans (h.content c hc)

theorem conveys : Conveys (Sound W) (Adds W) := ⟨refl, trans, sound⟩

theorem object_eq (h : s.Adds W s') : s'.object = s.object := by
  funext o
  rw [object, object, h.objects]

theorem common (h : s.Adds W s') (hc : s.Common c) : s'.Common c := by
  refine ⟨⟨hc.shared.1.mono h.grows.sizes, ?_⟩, h.grows.still hc.shared.1 hc.still⟩
  rintro ⟨o, x, hx⟩
  rw [bindings_part, h.object_eq] at hx
  exact hc.shared.2 ⟨o, x, hx⟩

theorem newCell (h : s.Sound W) {c : Cell} (hfits : c.Fits s)
    (hview : ∀ x, c = .view x → ¬ s.IsField x) : s.Adds W (s.newCell c).2 where
  sound := h.newCell hfits hview
  grows := newCell_grows s c
  objects := rfl
  content _ hx := cell_newCell_of_has s c hx

theorem newTable (h : s.Sound W) {t : Table} (hfits : t.Fits s)
    (hcommon : ∀ b ∈ t.bindings, s.Common b.2) : s.Adds W (s.newTable t).2 where
  sound := h.newTable hfits (fun b hb => (hcommon b hb).shared.2) fun b hb => (hcommon b hb).still
  grows := newTable_grows s t
  objects := rfl
  content _ _ := rfl

end Adds

theorem Unused.shareable (h : s.Unused c) (hc : s.HasCell c) : s.Shareable c := by
  refine ⟨hc, ?_⟩
  rintro ⟨o, x, hx⟩
  exact h.1 _ x hx

theorem shareable_newCell (h : s.Wellformed W) {c : Cell} (hc : c ≠ .view ⟨s.cells.size⟩) :
    (s.newCell c).2.Shareable ⟨s.cells.size⟩ :=
  (h.unused_new c hc).shareable (by simp [HasCell])

theorem common_newCell (h : s.Wellformed W) {c : Cell} (hc : c ≠ .view ⟨s.cells.size⟩)
    (hstill : c.Still) : (s.newCell c).2.Common ⟨s.cells.size⟩ :=
  ⟨shareable_newCell h hc, by rwa [cell_newCell_self]⟩

theorem common_of_mem (h : s.Wellformed W) (ht : s.HasTable t) {b : String × CellId}
    (hb : b ∈ s.bindings t) : s.Common b.2 := by
  refine ⟨⟨h.hasCell_of_mem hb, h.not_isField (fun o => ht.ne_part o .fields) hb⟩, ?_⟩
  obtain ⟨i, rfl, -⟩ := ht
  exact h.quiet i b hb

variable (h : s.Sound W)
include h

theorem captureCell_adds (hc : s.Common c) :
    s.Adds W (s.captureCell c).2 ∧ (s.captureCell c).2.Common (s.captureCell c).1 := by
  rw [captureCell]
  cases hcell : s.cell c with
  | var v =>
    have hfits : (Cell.var v).Fits s := hcell ▸ h.cells c hc.shared.1
    exact ⟨.newCell h hfits (by simp), common_newCell h.toWellformed (by simp) trivial⟩
  | _ => exact ⟨.refl h, hc⟩

/-- The tables that code runs on have no outer tables, so that a copy is a single table. -/
theorem captureTable_adds (ht : s.HasTable t) :
    s.Adds W (s.captureTable t).2 ∧ (s.captureTable t).2.HasTable (s.captureTable t).1 := by
  have houter : s.outer t = [] := by
    obtain ⟨i, rfl, -⟩ := ht
    exact (h.tables i).outer
  obtain ⟨hadds, hcopies⟩ := Adds.conveys.captureBindings (C := Common)
    (fun _ hadds => hadds.common) captureCell_adds h (s.bindings t) fun b hb =>
      common_of_mem h.toWellformed ht hb
  rw [captureTable, houter]
  have htable := Adds.newTable hadds.sound
    (t := ⟨(s.captureBindings (s.bindings t)).1, [], (s.captureBindings (s.bindings t)).2.rule t⟩)
    ⟨fun b hb => (hcopies b hb).shared.1, rfl⟩ hcopies
  exact ⟨hadds.trans htable, ⟨_, rfl, by simp [captureLine]⟩⟩

theorem captureActivation_adds {a : Activation} (ha : a.Fits s) :
    s.Adds W (s.captureActivation a).2 ∧
      (s.captureActivation a).1.Fits (s.captureActivation a).2 := by
  obtain ⟨hadds, hscopes, hhome⟩ := Adds.conveys.captureActivation (T := HasTable)
    (fun _ hadds ht => ht.mono hadds.grows.sizes) captureTable_adds h ha.scopes ha.home
  refine ⟨hadds, ?_, hscopes, hhome⟩
  obtain ⟨home, heq⟩ := s.captureActivation_eq a
  rw [heq]
  exact ha.owner.mono hadds.grows.sizes

end ObjectLang.Store
