import ObjectLang.Proofs.Store.Rooted

/-!
Wellformed stores.
Everything in a wellformed store fits into it. The tables that belong to no object bind no cells
that run code. The cell of a field is bound nowhere but in its field table and no cell is a view of
it. A face is worn by levels of its own chain only. Each operation of the store keeps this, given
what its callers grant.
-/
namespace ObjectLang.Store

/-- Some field table binds the cell. -/
def IsField (s : Store) (c : CellId) : Prop := ∃ o x, (x, c) ∈ s.bindings (.part o .fields)

/-- No table binds the cell and no cell is a view of it. -/
def Unused (s : Store) (c : CellId) : Prop :=
  (∀ t x, (x, c) ∉ s.bindings t) ∧ ∀ v, s.cell v ≠ .view c

structure Wellformed (W : Stock) (s : Store) : Prop where
  objects : ∀ o, (s.object o).Fits W s
  cells : ∀ c, s.HasCell c → (s.cell c).Fits s
  tables : ∀ i, (s.table i).Fits s
  fieldOnly : ∀ o x c, (x, c) ∈ s.bindings (.part o .fields) →
    ∀ t y, (y, c) ∈ s.bindings t → t = .part o .fields ∧ y = x
  unviewed : ∀ v c, s.cell v = .view c → ¬ s.IsField c
  faces : ∀ o f, (s.object o).face = some f → o ∈ s.levels f
  quiet : ∀ i, ∀ b ∈ (s.table i).bindings, (s.cell b.2).Still

namespace Wellformed

variable {W : Stock} {s s' : Store} {t : TableId} {name : String} {c : CellId} {o v : ObjectId}
  {kind : Kind}

section

variable (h : s.Wellformed W)
include h

theorem hasCell_of_mem {b : String × CellId} (hb : b ∈ s.bindings t) : s.HasCell b.2 := by
  cases t with
  | free i => exact (h.tables i).bound b hb
  | part o p => exact (h.objects o).bound p b hb

theorem has_face (ho : s.HasObject o) : s.HasObject (s.face o) := by
  rw [face]
  cases hface : (s.object o).face with
  | none => exact ho
  | some f => exact (h.objects o).face f hface

theorem has_level {l : ObjectId} (ho : s.HasObject o) (hl : l ∈ s.levels o) : s.HasObject l := by
  rcases List.mem_cons.mp hl with rfl | hl
  · exact ho
  · exact (h.objects o).below l hl

omit h in
theorem local?_mem (h : s.local? t name = some c) :
    (name, c) ∈ s.bindings t := by
  rw [local?] at h
  obtain ⟨l₁, l₂, heq, -⟩ := List.lookup_eq_some_iff.mp h
  rw [heq]
  simp

theorem hasCell_of_local? (hc : s.local? t name = some c) : s.HasCell c :=
  h.hasCell_of_mem (local?_mem hc)

/-- A cell bound in a table of its own, or as an operator or member, is the cell of no field. -/
theorem not_isField (ht : ∀ o, t ≠ .part o .fields) {x : String} (hx : (x, c) ∈ s.bindings t) :
    ¬ s.IsField c := by
  rintro ⟨o, y, hy⟩
  exact ht o (h.fieldOnly o y c hy t x hx).1

theorem quiet_mono (hg : s.Grows s') (htables : s'.tables = s.tables) (i : Nat) :
    ∀ b ∈ (s'.table i).bindings, (s'.cell b.2).Still := by
  rw [table, htables]
  exact fun b hb => hg.still ((h.tables i).bound b hb) (h.quiet i b hb)

theorem unused_new (c : Cell) (hc : c ≠ .view ⟨s.cells.size⟩) :
    (s.newCell c).2.Unused ⟨s.cells.size⟩ := by
  constructor
  · intro t x hx
    rw [bindings_newCell] at hx
    exact Nat.lt_irrefl _ (h.hasCell_of_mem hx)
  · intro v hv
    rw [cell_newCell] at hv
    split at hv
    · exact hc hv
    · next hne =>
      by_cases hhas : s.HasCell v
      · have hfits := h.cells v hhas
        rw [hv] at hfits
        exact Nat.lt_irrefl _ hfits
      · have hdefault : s.cell v = .const ⟨0⟩ :=
          Heap.getD_of_size_le _ _ (Nat.not_lt.mp hhas)
        rw [hdefault] at hv
        cases hv

theorem newCell {c : Cell} (hfits : c.Fits s) (hview : ∀ x, c = .view x → ¬ s.IsField x) :
    (s.newCell c).2.Wellformed W where
  objects o := (h.objects o).mono (newCell_grows s c).sizes
  cells x hx := by
    rw [cell_newCell]
    split
    · exact hfits.mono (newCell_grows s c).sizes
    · next hne =>
      have hold : s.HasCell x := by
        have hlt : x.index < (s.newCell c).2.cells.size := hx
        rw [newCell_cells_size] at hlt
        exact Nat.lt_of_le_of_ne (Nat.le_of_lt_succ hlt) hne
      exact (h.cells x hold).mono (newCell_grows s c).sizes
  tables i := (h.tables i).mono (newCell_grows s c).sizes
  fieldOnly o x i hi t y hy := by
    rw [bindings_newCell] at hi hy
    exact h.fieldOnly o x i hi t y hy
  unviewed v i hv := by
    rw [cell_newCell] at hv
    rw [IsField, bindings_newCell]
    split at hv
    · exact hview i hv
    · exact h.unviewed v i hv
  faces := h.faces
  quiet := h.quiet_mono (newCell_grows s c) rfl

theorem assign (hv : s.HasObject v) :
    (s.assign c v).Wellformed W where
  objects o := (h.objects o).mono (assign_grows s c v).sizes
  cells x hx := by
    have hold : s.HasCell x := by simpa [HasCell] using hx
    have hfits := (h.cells x hold).mono (assign_grows s c v).sizes
    rw [cell_assign]
    split
    · split
      · exact hv.mono (assign_grows s c v).sizes
      · exact hfits
    · exact hfits
  tables i := (h.tables i).mono (assign_grows s c v).sizes
  fieldOnly o x i hi t y hy := by
    rw [bindings_assign] at hi hy
    exact h.fieldOnly o x i hi t y hy
  unviewed w i hw := by
    rw [IsField, bindings_assign]
    apply h.unviewed w i
    rw [cell_assign] at hw
    split at hw
    · split at hw
      · cases hw
      · exact hw
    · exact hw
  faces := h.faces
  quiet := h.quiet_mono (assign_grows s c v) rfl

theorem newTable {t : Table} (hfits : t.Fits s) (hfield : ∀ b ∈ t.bindings, ¬ s.IsField b.2)
    (hquiet : ∀ b ∈ t.bindings, (s.cell b.2).Still) : (s.newTable t).2.Wellformed W where
  objects o := (h.objects o).mono (newTable_grows s t).sizes
  cells c hc := (h.cells c hc).mono (newTable_grows s t).sizes
  tables i := by
    rw [table_newTable]
    split
    · exact hfits.mono (newTable_grows s t).sizes
    · exact (h.tables i).mono (newTable_grows s t).sizes
  fieldOnly o x c hc t' y hy := by
    rw [bindings_newTable, if_neg (by simp)] at hc
    rw [bindings_newTable] at hy
    split at hy
    · exact absurd ⟨o, x, hc⟩ (hfield (y, c) hy)
    · exact h.fieldOnly o x c hc t' y hy
  unviewed v c hv := by
    rintro ⟨o, x, hx⟩
    rw [bindings_newTable, if_neg (by simp)] at hx
    exact h.unviewed v c hv ⟨o, x, hx⟩
  faces := h.faces
  quiet i b hb := by
    rw [table_newTable] at hb
    split at hb
    · exact hquiet b hb
    · exact h.quiet i b hb

theorem newObject {base : Option ObjectId} (hbase : ∀ b ∈ base, s.HasObject b)
    (hkind : kind.Fits W s) :
    (s.newObject base kind).2.Wellformed W where
  objects o := by
    have hle := (newObject_grows s base kind).sizes
    rw [object_newObject]
    split
    · refine ⟨hkind.mono hle, ?_, ?_, ?_, ?_⟩
      · intro x hx
        cases base with
        | none => simp [Object.make, levelsOf] at hx
        | some b =>
          rcases List.mem_cons.mp (show x ∈ b :: (s.object b).below from hx) with rfl | hx
          · exact (hbase x rfl).mono hle
          · exact ((h.objects b).below x hx).mono hle
      · intro x hx
        simp [Object.make] at hx
      · intro x hx
        simp [Object.make] at hx
      · intro p b hb
        cases p <;> simp [Object.make, Object.bindings] at hb
    · exact (h.objects o).mono hle
  cells c hc := (h.cells c hc).mono (newObject_grows s base kind).sizes
  tables i := (h.tables i).mono (newObject_grows s base kind).sizes
  fieldOnly o x c hc t y hy := by
    rw [bindings_newObject] at hc hy
    exact h.fieldOnly o x c hc t y hy
  unviewed v c hv := by
    rintro ⟨o, x, hx⟩
    rw [bindings_newObject] at hx
    exact h.unviewed v c hv ⟨o, x, hx⟩
  faces o f hf := by
    rw [object_newObject] at hf
    split at hf
    · simp [Object.make] at hf
    · rw [(newObject_grows s base kind).levels ((h.objects o).face f hf)]
      exact h.faces o f hf
  quiet := h.quiet

/-- What a new binding keeps, whichever table takes it. -/
theorem bind (ht : s.Holds t) (hfree : s.local? t name = none) (hc : s.HasCell c)
    (honly : ∀ o x i, (x, i) ∈ (s.bind t name c).bindings (.part o .fields) →
      ∀ t' y, (y, i) ∈ (s.bind t name c).bindings t' → t' = .part o .fields ∧ y = x)
    (hview : ∀ v i, s.cell v = .view i → ¬ (s.bind t name c).IsField i)
    (hstill : ∀ i, t = .free i → (s.cell c).Still) : (s.bind t name c).Wellformed W where
  objects o := by
    have hle := (bind_grows s c ht hfree).sizes
    have hold := (h.objects o).mono hle
    refine ⟨?_, ?_, ?_, ?_, ?_⟩
    · rw [kind_bind s t name c o]
      exact hold.kind
    · rw [below_bind s t name c o]
      exact hold.below
    · rw [face_bind s t name c o]
      exact hold.face
    · rw [type_bind s t name c o]
      exact hold.type
    · intro p b hb
      rw [← bindings_part, bindings_bind s t name c _ ht] at hb
      split at hb
      · rcases List.mem_cons.mp hb with rfl | hb
        · exact hc.mono hle
        · exact hold.bound p b hb
      · exact hold.bound p b hb
  cells i hi := by
    rw [cell_bind]
    have hold : s.HasCell i := by simpa [HasCell] using hi
    exact (h.cells i hold).mono (bind_grows s c ht hfree).sizes
  tables i := by
    have hold := (h.tables i).mono (bind_grows s c ht hfree).sizes
    rw [table_bind]
    split
    · refine ⟨?_, hold.outer⟩
      intro b hb
      rcases List.mem_cons.mp hb with rfl | hb
      · exact hc.mono (bind_grows s c ht hfree).sizes
      · exact hold.bound b hb
    · exact hold
  fieldOnly := honly
  unviewed v i hv := by
    rw [cell_bind] at hv
    exact hview v i hv
  faces o f hf := by
    rw [face_bind s t name c o] at hf
    rw [(bind_grows s c ht hfree).levels ((h.objects o).face f hf)]
    exact h.faces o f hf
  quiet i b hb := by
    rw [table_bind] at hb
    rw [cell_bind]
    split at hb
    · next hi =>
      rcases List.mem_cons.mp hb with rfl | hb
      · exact hstill i hi.1
      · exact h.quiet i b hb
    · exact h.quiet i b hb

/-- A table other than a field table takes any cell that is not the cell of a field, unless it
belongs to no object and the cell runs code. -/
theorem bind_shared (ht : s.Holds t) (hfield : ∀ o, t ≠ .part o .fields)
    (hfree : s.local? t name = none) (hc : s.HasCell c) (hnot : ¬ s.IsField c)
    (hstill : ∀ i, t = .free i → (s.cell c).Still) : (s.bind t name c).Wellformed W := by
  have hsame : ∀ o,
      (s.bind t name c).bindings (.part o .fields) = s.bindings (.part o .fields) := by
    intro o
    rw [bindings_bind s t name c _ ht, if_neg (fun heq => hfield o heq.symm)]
  refine h.bind ht hfree hc ?_ ?_ hstill
  · intro o x i hi t' y hy
    rw [hsame] at hi
    rw [bindings_bind s t name c _ ht] at hy
    split at hy
    · rcases List.mem_cons.mp hy with heq | hy
      · cases heq
        exact absurd ⟨o, x, hi⟩ hnot
      · exact h.fieldOnly o x i hi t' y hy
    · exact h.fieldOnly o x i hi t' y hy
  · rintro v i hv ⟨o, x, hx⟩
    rw [hsame] at hx
    exact h.unviewed v i hv ⟨o, x, hx⟩

/-- A field table takes a cell that nothing else uses. -/
theorem bind_field (ho : s.HasObject o) (hfree : s.local? (.part o .fields) name = none)
    (hc : s.HasCell c) (hunused : s.Unused c) : (s.bind (.part o .fields) name c).Wellformed W := by
  have hmem : ∀ t x i, (x, i) ∈ (s.bind (.part o .fields) name c).bindings t →
      (t = .part o .fields ∧ x = name ∧ i = c) ∨ (x, i) ∈ s.bindings t := by
    intro t x i hx
    rw [bindings_bind s (.part o .fields) name c t ho] at hx
    split at hx
    · next ht =>
      rcases List.mem_cons.mp hx with heq | hx
      · cases heq
        exact Or.inl ⟨ht, rfl, rfl⟩
      · exact Or.inr hx
    · exact Or.inr hx
  refine h.bind ho hfree hc ?_ ?_ nofun
  · intro o' x i hi t' y hy
    rcases hmem _ x i hi with ⟨hp, rfl, rfl⟩ | hold
    · rcases hmem t' y i hy with ⟨rfl, rfl, -⟩ | hyold
      · exact ⟨hp.symm, rfl⟩
      · exact absurd hyold (hunused.1 t' y)
    · rcases hmem t' y i hy with ⟨-, -, rfl⟩ | hyold
      · exact absurd hold (hunused.1 _ x)
      · exact h.fieldOnly o' x i hold t' y hyold
  · rintro v i hv ⟨o', x, hx⟩
    rcases hmem _ x i hx with ⟨-, -, rfl⟩ | hx
    · exact hunused.2 v hv
    · exact h.unviewed v i hv ⟨o', x, hx⟩

/-- Faces and types may change as long as they fit. -/
theorem of_alike (heq : s.Alike s')
    (hface : ∀ o f, (s'.object o).face = some f → s.HasObject f ∧ o ∈ s.levels f)
    (htype : ∀ o t, (s'.object o).type = some t → s.HasObject t) : s'.Wellformed W where
  objects o := by
    have hle := heq.grows.sizes
    refine ⟨?_, ?_, ?_, ?_, ?_⟩
    · rw [heq.kind]
      exact (h.objects o).kind.mono hle
    · intro x hx
      rw [heq.below] at hx
      exact ((h.objects o).below x hx).mono hle
    · intro f hf
      exact (hface o f hf).1.mono hle
    · intro t ht
      exact (htype o t ht).mono hle
    · intro p b hb
      rw [heq.bindings] at hb
      exact ((h.objects o).bound p b hb).mono hle
  cells c hc := by
    rw [HasCell, heq.cells] at hc
    rw [heq.cell_eq]
    exact (h.cells c hc).mono heq.grows.sizes
  tables i := by
    rw [heq.table_eq]
    exact (h.tables i).mono heq.grows.sizes
  fieldOnly := by
    rw [heq.bindings_eq]
    exact h.fieldOnly
  unviewed v c hv := by
    rw [heq.cell_eq] at hv
    rw [IsField, heq.bindings_eq]
    exact h.unviewed v c hv
  faces o f hf := by
    rw [levels, heq.below]
    exact (hface o f hf).2
  quiet i := by
    rw [heq.table_eq, heq.cell_eq]
    exact h.quiet i

theorem wearFace (ho : s.HasObject o) : (s.wearFace o).Wellformed W := by
  refine h.of_alike (wearFace_alike s o) ?_ ?_
  · intro x f hf
    rw [object_wearFace] at hf
    split at hf
    · next hx =>
      cases hf
      exact ⟨ho, hx.1⟩
    · exact ⟨(h.objects x).face f hf, h.faces x f hf⟩
  · intro x t ht
    rw [object_wearFace] at ht
    split at ht
    · exact (h.objects x).type t ht
    · exact (h.objects x).type t ht

theorem setFace (ho : s.HasObject o) : (s.setFace o o).Wellformed W := by
  refine h.of_alike (setFace_alike s o o) ?_ ?_
  · intro x f hf
    rw [object_setFace] at hf
    split at hf
    · next hx =>
      cases hf
      exact ⟨ho, by rw [hx.1]; exact List.mem_cons_self ..⟩
    · exact ⟨(h.objects x).face f hf, h.faces x f hf⟩
  · intro x t ht
    rw [object_setFace] at ht
    split at ht
    · exact (h.objects x).type t ht
    · exact (h.objects x).type t ht

theorem setType {t : ObjectId} (ht : s.HasObject t) : (s.setType o t).Wellformed W := by
  refine h.of_alike (setType_alike s o t) ?_ ?_
  · intro x f hf
    rw [object_setType] at hf
    split at hf
    · exact ⟨(h.objects x).face f hf, h.faces x f hf⟩
    · exact ⟨(h.objects x).face f hf, h.faces x f hf⟩
  · intro x u hu
    rw [object_setType] at hu
    split at hu
    · cases hu
      exact ht
    · exact (h.objects x).type u hu

theorem settle {type : ObjectId} (ho : s.HasObject o) (htype : s.HasObject type) :
    (s.settle o type).Wellformed W :=
  (h.wearFace ho).setType (htype.mono (wearFace_alike s o).grows.sizes)

theorem rooted {root type : ObjectId} (hroot : s.HasObject root) (htype : s.HasObject type)
    (hkind : kind.Fits W s) : (s.rooted root type kind).2.Wellformed W := by
  have hbase : ∀ b ∈ some root, s.HasObject b := by
    intro b hb
    rw [← Option.some.inj hb]
    exact hroot
  have hnew := h.newObject hbase hkind
  have hself : (s.newObject (some root) kind).2.HasObject s.fresh := by simp [HasObject]
  have htype' := htype.mono (newObject_grows s (some root) kind).sizes
  exact (hnew.setFace hself).setType (htype'.mono (setFace_alike _ _ _).grows.sizes)

theorem addConst (ht : s.Holds t) (hfield : ∀ o, t ≠ .part o .fields)
    (hfree : s.local? t name = none) (hv : s.HasObject v) : (s.addConst t name v).Wellformed W := by
  have hnew : (s.newCell (.const v)).2.Wellformed W := h.newCell hv (by simp)
  have hunused := h.unused_new (.const v) (by simp)
  refine hnew.bind_shared (ht.mono (newCell_grows s _).sizes) hfield ?_ (by simp [HasCell]) ?_ ?_
  · rw [local?, bindings_newCell]
    exact hfree
  · rintro ⟨o, x, hx⟩
    exact hunused.1 _ x hx
  · intro _ _
    rw [cell_newCell, if_pos rfl]
    trivial

end

section Roots

variable {roots : Roots}

theorem addMethod (h : s.Wellformed W) (hroots : roots.Fits s) {owner : ObjectId} {code : Code}
    (howner : s.HasObject owner) (hcode : code.Fits W s) :
    (s.addMethod roots owner code).2.Wellformed W := by
  have hrooted : (s.rooted roots.root roots.method (.method owner code)).2.Wellformed W :=
    h.rooted hroots.root hroots.method ⟨howner, hcode⟩
  have hself : (s.rooted roots.root roots.method (.method owner code)).2.HasObject
      s.fresh := by simp [HasObject]
  exact hrooted.addConst (hself.holds _) (by simp) (free_rooted s _ _ _ _ _) hself

theorem addName (h : s.Wellformed W) (hroots : roots.Fits s) (ho : s.HasObject o)
    (hfree : s.local? (.part o .members) "name" = none) : (s.addName roots o).Wellformed W := by
  have hgrows := s.addMethod_grows roots o .nameGetter
  have hmethod : (s.addMethod roots o .nameGetter).2.Wellformed W :=
    h.addMethod hroots ho ⟨by simp [Code.nameGetter, Code.primitive, Stock.body, Stock.primitive],
      by simp [Code.nameGetter, Code.primitive]⟩
  have hgetter : (Cell.computed s.fresh none).Fits (s.addMethod roots o .nameGetter).2 :=
    ⟨by simp [HasObject], by simp⟩
  have hunused := hmethod.unused_new (.computed s.fresh none) (by simp)
  have hcell := hmethod.newCell hgetter (by simp)
  rw [addName_eq]
  refine hcell.bind_shared ?_ (by simp) (s.free_addMethod roots o ho hfree _) (by simp [HasCell]) ?_
    (by simp)
  · exact ((ho.mono hgrows.sizes).mono (newCell_grows _ _).sizes).holds _
  · rintro ⟨x, y, hx⟩
    rw [addMethod_cells_size] at hunused
    exact hunused.1 _ y hx

theorem classMaking (h : s.Wellformed W) (hroots : roots.Fits s) {b : Blueprint}
    (hb : b.Fits W s) : (s.classMaking roots b).Wellformed W := by
  have hrooted : (s.rooted roots.root roots.class_ (.ofClass b)).2.Wellformed W :=
    h.rooted hroots.root hroots.class_ hb
  have hparts : (s.classParts roots b).Wellformed W :=
    hrooted.addMethod (hroots.mono (rooted_grows s _ _ _).sizes) (by simp [HasObject])
      ⟨by simp [Code.constructor, Code.primitive, Stock.body, Stock.primitive],
        by simp [Code.constructor, Code.primitive]⟩
  have hself := s.classParts_has roots b
  have hmethod : (s.classParts roots b).HasObject ⟨s.objects.size + 1⟩ := by
    simp [HasObject, classParts_objects_size]
  have hanswering : (s.classAnswering roots b).Wellformed W :=
    hparts.addConst (hself.holds _) (by simp) (s.classParts_free roots b _ _) hmethod
  have hle := (s.classAnswering_grows roots b).sizes
  exact hanswering.addConst ((hself.mono hle).holds _) (by simp) (s.classAnswering_free roots b _)
    (hmethod.mono hle)

end Roots

end Wellformed

end ObjectLang.Store
