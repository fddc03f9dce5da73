import ObjectLang.Proofs.Store.Fit

/-!
How a store changes over time: identities stay given out, an object keeps its kind and the levels
below it, a table keeps its bindings, and a cell keeps what it holds unless it is a variable.
-/
namespace ObjectLang

/-- Reading the cell runs no code. -/
def Cell.Still : Cell → Prop
  | .computed .. => False
  | _ => True

instance : DecidablePred Cell.Still
  | .computed .. => .isFalse id
  | .var _ | .const _ | .view _ => .isTrue trivial

namespace Store

structure Grows (s s' : Store) : Prop where
  sizes : s.SizeLe s'
  kind : ∀ o, s.HasObject o → s'.kind o = s.kind o
  below : ∀ o, s.HasObject o → (s'.object o).below = (s.object o).below
  bound : ∀ t name c, s.local? t name = some c → s'.local? t name = some c
  content : ∀ c, s.HasCell c →
    s'.cell c = s.cell c ∨ ∃ v v', s.cell c = .var v ∧ s'.cell c = .var v'

variable {c : CellId}

namespace Grows

variable {s s' s'' : Store} {v o : ObjectId}

theorem refl (s : Store) : s.Grows s where
  sizes := .refl s
  kind _ _ := rfl
  below _ _ := rfl
  bound _ _ _ h := h
  content _ _ := Or.inl rfl

variable (h : s.Grows s')
include h

theorem trans (h' : s'.Grows s'') : s.Grows s'' where
  sizes := h.sizes.trans h'.sizes
  kind o ho := (h'.kind o (ho.mono h.sizes)).trans (h.kind o ho)
  below o ho := (h'.below o (ho.mono h.sizes)).trans (h.below o ho)
  bound t name c hc := h'.bound t name c (h.bound t name c hc)
  content c hc := by
    rcases h.content c hc with heq | ⟨v, v', hv, hv'⟩
    · rcases h'.content c (hc.mono h.sizes) with heq' | ⟨w, w', hw, hw'⟩
      · exact Or.inl (heq'.trans heq)
      · exact Or.inr ⟨w, w', heq ▸ hw, hw'⟩
    · rcases h'.content c (hc.mono h.sizes) with heq' | ⟨w, w', hw, hw'⟩
      · exact Or.inr ⟨v, v', hv, heq'.trans hv'⟩
      · exact Or.inr ⟨v, w', hv, hw'⟩

theorem const (hc : s.HasCell c) (hv : s.cell c = .const v) : s'.cell c = .const v := by
  rcases h.content c hc with heq | ⟨w, w', hw, -⟩
  · rw [heq, hv]
  · rw [hv] at hw
    cases hw

theorem var (hc : s.HasCell c) (hv : s.cell c = .var v) : ∃ v', s'.cell c = .var v' := by
  rcases h.content c hc with heq | ⟨_, v', -, hv'⟩
  · exact ⟨v, heq.trans hv⟩
  · exact ⟨v', hv'⟩

/-- Whether a cell runs code is settled when it is made. -/
theorem still (hc : s.HasCell c) (hstill : (s.cell c).Still) : (s'.cell c).Still := by
  rcases h.content c hc with heq | ⟨-, w, -, hw⟩
  · rw [heq]
    exact hstill
  · rw [hw]
    trivial

theorem levels (ho : s.HasObject o) : s'.levels o = s.levels o := by
  rw [Store.levels, Store.levels, h.below o ho]

theorem kind_of_ne {k : Kind} (hk : s.kind o = k) (hne : k ≠ .plain) : s'.kind o = k := by
  rw [h.kind o (has_of_kind (hk ▸ hne)), hk]

end Grows

section Refusal

variable {s : Store} {t : TableId} {name : String}

theorem accepts_of_refusal? (h : s.refusal? t name = none) :
    (s.rule t).accepts name = true := by
  rw [refusal?] at h
  split at h
  · cases h
  · next hrule => simpa using hrule

theorem free_of_refusal? (h : s.refusal? t name = none) :
    s.local? t name = none := by
  rw [refusal?] at h
  split at h
  · cases h
  · split at h
    · cases h
    · next hfree => simpa using hfree

theorem fault_of_refusal? {f : Fault} (h : s.refusal? t name = some f) :
    (s.rule t).accepts name = false ∧ f = .invalidName (s.rule t) name ∨ f = .nameTaken name := by
  rw [refusal?] at h
  split at h
  · next hrule => exact Or.inl ⟨by simpa using hrule, (Option.some.inj h).symm⟩
  · split at h
    · exact Or.inr (Option.some.inj h).symm
    · cases h

end Refusal

variable (s : Store)

theorem local?_bind {t : TableId} {name : String} (ht : s.Holds t) (x : TableId) (n : String) :
    (s.bind t name c).local? x n = if x = t ∧ n = name then some c else s.local? x n := by
  rw [local?, bindings_bind s t name c x ht]
  by_cases hx : x = t
  · subst hx
    rw [if_pos rfl, List.lookup_cons]
    by_cases hn : n = name
    · subst hn
      simp
    · have hbeq : (n == name) = false := by simpa using hn
      simp [hn, hbeq, local?]
  · simp [hx, local?]

theorem newCell_grows (c : Cell) : s.Grows (s.newCell c).2 where
  sizes := ⟨Nat.le_refl _, by simp, Nat.le_refl _⟩
  kind _ _ := rfl
  below _ _ := rfl
  bound t name x h := by simpa [local?] using h
  content x hx := Or.inl (cell_newCell_of_has s c hx)

theorem assign_grows (c : CellId) (v : ObjectId) : s.Grows (s.assign c v) where
  sizes := ⟨Nat.le_refl _, by simp, Nat.le_refl _⟩
  kind _ _ := rfl
  below _ _ := rfl
  bound t name x h := by simpa [local?] using h
  content x _ := by
    rw [cell_assign]
    split
    · cases hx : s.cell x with
      | var old => exact Or.inr ⟨old, v, rfl, rfl⟩
      | _ => exact Or.inl rfl
    · exact Or.inl rfl

theorem newTable_grows (t : Table) : s.Grows (s.newTable t).2 where
  sizes := ⟨Nat.le_refl _, Nat.le_refl _, by simp⟩
  kind _ _ := rfl
  below _ _ := rfl
  bound x name c h := by
    have hne : x ≠ .free s.tables.size := by
      rintro rfl
      rw [local?, bindings_free, table_of_size_le (Nat.le_refl _)] at h
      simp [Table.empty] at h
    rw [local?, bindings_newTable, if_neg hne]
    exact h
  content _ _ := Or.inl rfl

theorem newObject_grows (base : Option ObjectId) (kind : Kind) :
    s.Grows (s.newObject base kind).2 where
  sizes := ⟨by simp, Nat.le_refl _, Nat.le_refl _⟩
  kind o ho := congrArg Object.kind (object_newObject_of_has s base kind ho)
  below o ho := congrArg Object.below (object_newObject_of_has s base kind ho)
  bound t name c h := by
    rw [local?, bindings_newObject]
    exact h
  content _ _ := Or.inl rfl

/-- A name is bound only where it was free before, so that no binding is lost. -/
theorem bind_grows {t : TableId} {name : String} (c : CellId) (ht : s.Holds t)
    (hfree : s.local? t name = none) : s.Grows (s.bind t name c) where
  sizes := ⟨by simp, by simp, by simp⟩
  kind o _ := kind_bind s t name c o
  below o _ := below_bind s t name c o
  bound x n i h := by
    rw [local?_bind s ht]
    split
    · next hx =>
      rw [hx.1, hx.2, hfree] at h
      cases h
    · exact h
  content _ _ := Or.inl (by simp)

/-- Nothing but the faces and the types of objects differs. -/
structure Alike (s s' : Store) : Prop where
  size : s'.objects.size = s.objects.size
  cells : s'.cells = s.cells
  tables : s'.tables = s.tables
  kind : ∀ o, (s'.object o).kind = (s.object o).kind
  below : ∀ o, (s'.object o).below = (s.object o).below
  bindings : ∀ o p, (s'.object o).bindings p = (s.object o).bindings p

namespace Alike

variable {s s' s'' : Store}

variable (h : s.Alike s')
include h

theorem trans (h' : s'.Alike s'') : s.Alike s'' where
  size := h'.size.trans h.size
  cells := h'.cells.trans h.cells
  tables := h'.tables.trans h.tables
  kind o := (h'.kind o).trans (h.kind o)
  below o := (h'.below o).trans (h.below o)
  bindings o p := (h'.bindings o p).trans (h.bindings o p)

theorem bindings_eq : s'.bindings = s.bindings := by
  funext t
  cases t with
  | free i => simp only [Store.bindings, h.tables]
  | part o p => exact h.bindings o p

theorem cell_eq : s'.cell = s.cell := by
  funext c
  rw [cell, cell, h.cells]

theorem table_eq : s'.table = s.table := by
  funext i
  rw [table, table, h.tables]

theorem grows : s.Grows s' where
  sizes := ⟨Nat.le_of_eq h.size.symm, Nat.le_of_eq (by rw [h.cells]),
    Nat.le_of_eq (by rw [h.tables])⟩
  kind o _ := h.kind o
  below o _ := h.below o
  bound t name c hc := by rwa [local?, h.bindings_eq]
  content c _ := Or.inl (by rw [h.cell_eq])

end Alike

theorem setFace_alike (o f : ObjectId) : s.Alike (s.setFace o f) where
  size := modifyObject_objects_size s o _
  cells := rfl
  tables := rfl
  kind x := by rw [object_setFace]; split <;> rfl
  below x := by rw [object_setFace]; split <;> rfl
  bindings x p := by rw [object_setFace]; split <;> cases p <;> rfl

theorem setType_alike (o t : ObjectId) : s.Alike (s.setType o t) where
  size := modifyObject_objects_size s o _
  cells := rfl
  tables := rfl
  kind x := by rw [object_setType]; split <;> rfl
  below x := by rw [object_setType]; split <;> rfl
  bindings x p := by rw [object_setType]; split <;> cases p <;> rfl

theorem wearFace_alike (o : ObjectId) : s.Alike (s.wearFace o) where
  size := wearFace_objects_size s o
  cells := wearFace_cells s o
  tables := wearFace_tables s o
  kind x := by rw [object_wearFace]; split <;> rfl
  below x := by rw [object_wearFace]; split <;> rfl
  bindings x p := by rw [object_wearFace]; split <;> cases p <;> rfl

end Store

end ObjectLang
