import ObjectLang.Proofs.Store.Level

/-!
Tables bind every name once.
A name is only bound where it is free, and a copy of a table binds the names of the original. So
what is listed among the bindings of a table is what its lookup finds.
-/
namespace ObjectLang

variable {n : String} {bs : Bindings} {c : CellId}

theorem lookup_of_mem (h : (bs.map Prod.fst).Nodup) (hmem : (n, c) ∈ bs) :
    bs.lookup n = some c := by
  induction bs with
  | nil => cases hmem
  | cons b rest ih =>
    obtain ⟨n', c'⟩ := b
    obtain ⟨hnot, hrest⟩ := List.nodup_cons.mp h
    rcases List.mem_cons.mp hmem with heq | hlater
    · cases heq
      exact List.lookup_cons_self
    · have hne : n ≠ n' := by
        rintro rfl
        exact hnot (List.mem_map.mpr ⟨(n, c), hlater, rfl⟩)
      rw [List.lookup_cons, beq_false_of_ne hne]
      exact ih hrest hlater

theorem not_mem_names_of_lookup (h : bs.lookup n = none) :
    n ∉ bs.map Prod.fst := by
  intro hmem
  obtain ⟨⟨n', c⟩, hb, rfl⟩ := List.mem_map.mp hmem
  have hne := List.lookup_eq_none_iff.mp h (n', c) hb
  simp at hne

namespace Store

variable {root : ObjectId} {s s' : Store} {t : TableId} {name : String}

def Distinct (s : Store) : Prop := ∀ t, ((s.bindings t).map Prod.fst).Nodup

namespace Distinct

section

variable (h : s.Distinct)
include h

theorem local?_of_mem (hmem : (n, c) ∈ s.bindings t) :
    s.local? t n = some c := lookup_of_mem (h t) hmem

theorem of_bindings (heq : ∀ t, s'.bindings t = s.bindings t) : s'.Distinct :=
  fun t => (heq t).symm ▸ h t

theorem newCell (c : Cell) : (s.newCell c).2.Distinct :=
  h.of_bindings fun _ => by rw [bindings_newCell]

theorem newObject (base : Option ObjectId) (kind : Kind) :
    (s.newObject base kind).2.Distinct := h.of_bindings (s.bindings_newObject base kind)

theorem newTable {t : Table} (ht : (t.bindings.map Prod.fst).Nodup) :
    (s.newTable t).2.Distinct := by
  intro x
  rw [bindings_newTable]
  split
  · exact ht
  · exact h x

theorem bind (c : CellId) (ht : s.Holds t) (hfree : s.local? t name = none) :
    (s.bind t name c).Distinct := by
  intro x
  rw [s.bindings_bind t name c x ht]
  split
  · next heq =>
    subst heq
    exact List.nodup_cons.mpr ⟨not_mem_names_of_lookup hfree, h x⟩
  · exact h x

theorem settle (o c : ObjectId) : (s.settle o c).Distinct := by
  have halike := (wearFace_alike s o).trans (setType_alike _ o c)
  exact h.of_bindings fun t => by rw [Store.settle, halike.bindings_eq]

theorem assign (c : CellId) (v : ObjectId) : (s.assign c v).Distinct :=
  h.of_bindings fun t => by rw [bindings_assign]

theorem rooted (root type : ObjectId) (kind : Kind) : (s.rooted root type kind).2.Distinct := by
  refine h.of_bindings fun t => ?_
  cases t with
  | free i => rfl
  | part o p =>
    rw [bindings_part, object_rooted, bindings_part]
    split
    · next heq =>
      subst heq
      rw [object_of_not_has (Nat.lt_irrefl _)]
      cases p <;> rfl
    · rfl

end

section Copies

variable (h : s.Distinct)
include h

theorem captureCell (c : CellId) : (s.captureCell c).2.Distinct := by
  rw [Store.captureCell]
  split
  · exact h.newCell _
  · exact h

theorem captureBindings (bs : Bindings) : (s.captureBindings bs).2.Distinct := by
  induction bs generalizing s with
  | nil => exact h
  | cons b rest ih => exact ih (h.captureCell b.2)

theorem captureLine (ts : List TableId) : (s.captureLine ts).2.Distinct := by
  induction ts with
  | nil => exact h
  | cons t outer ih =>
    refine (ih.captureBindings _).newTable ?_
    rw [captureBindings_names]
    exact ih t

theorem captureTable (t : TableId) : (s.captureTable t).2.Distinct :=
  h.captureLine (t :: s.outer t)

theorem captureTables (ts : List TableId) : (s.captureTables ts).2.Distinct := by
  induction ts generalizing s with
  | nil => exact h
  | cons t rest ih => exact ih (h.captureTable t)

theorem captureActivation (a : Activation) : (s.captureActivation a).2.Distinct := by
  have hscopes := h.captureTables a.scopes
  simp only [Store.captureActivation]
  split
  · exact hscopes
  · exact hscopes.captureTable _

end Copies

section NewClass

variable (h : s.Distinct)
include h

theorem addConst (ht : s.Holds t) (hfree : s.local? t name = none) (v : ObjectId) :
    (s.addConst t name v).Distinct := by
  refine (h.newCell _).bind _ (ht.mono (s.newCell_grows _).sizes) ?_
  rw [local?, bindings_newCell]
  exact hfree

theorem addMethod (roots : Roots) (owner : ObjectId) (code : Code) :
    (s.addMethod roots owner code).2.Distinct := by
  refine (h.rooted roots.root roots.method (.method owner code)).addConst ?_ ?_ _
  · exact HasObject.holds (by simp [HasObject]) _
  · exact s.free_rooted _ _ _ _ _

theorem addName {o : ObjectId} (ho : s.HasObject o)
    (hfree : s.local? (.part o .members) "name" = none) (roots : Roots) :
    (s.addName roots o).Distinct := by
  have hold := s.addMethod_grows roots o .nameGetter
  rw [addName_eq]
  refine ((h.addMethod roots o .nameGetter).newCell _).bind _ ?_ ?_
  · exact ((ho.mono hold.sizes).mono (newCell_grows _ _).sizes).holds _
  · exact s.free_addMethod roots o ho hfree _

theorem addClass (roots : Roots) (b : Blueprint) : (s.addClass roots b).2.Distinct := by
  have hself := s.classParts_has roots b
  have hparts : (s.classParts roots b).Distinct :=
    (h.rooted roots.root roots.class_ (.ofClass b)).addMethod roots _ _
  have hanswering : (s.classAnswering roots b).Distinct :=
    hparts.addConst (hself.holds _) (s.classParts_free roots b _ _) _
  have hmaking : (s.classMaking roots b).Distinct :=
    hanswering.addConst ((hself.mono (s.classAnswering_grows roots b).sizes).holds _)
      (s.classAnswering_free roots b _) _
  rw [addClass_snd]
  exact hmaking.addName (s.classMaking_has roots b) (s.classMaking_free roots b) roots

end NewClass

end Distinct

end Store

end ObjectLang
