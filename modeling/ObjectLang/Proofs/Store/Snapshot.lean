import ObjectLang.Proofs.Store.Tidy

/-!
What a captured activation is a copy of.
Each of its tables is new and binds the names of the table that it was copied from, in the same
order. A variable has a new cell that holds the same value, and every other cell is shared.
-/
namespace ObjectLang.Store

/-- Cells and tables are new, and all else is as it was. -/
structure Adjoins (s s' : Store) : Prop where
  tidy : s'.Tidy
  sizes : s.SizeLe s'
  objects : s'.objects = s.objects
  content : ∀ c, s.HasCell c → s'.cell c = s.cell c
  tables : ∀ i < s.tables.size, s'.table i = s.table i

variable {s s' s'' : Store}

namespace Adjoins

theorem refl (h : s.Tidy) : s.Adjoins s := ⟨h, .refl s, rfl, fun _ _ => rfl, fun _ _ => rfl⟩

section

variable (h : s.Adjoins s')
include h

theorem trans (h' : s'.Adjoins s'') : s.Adjoins s'' where
  tidy := h'.tidy
  sizes := h.sizes.trans h'.sizes
  objects := h'.objects.trans h.objects
  content c hc := (h'.content c (hc.mono h.sizes)).trans (h.content c hc)
  tables i hi :=
    (h'.tables i (Nat.lt_of_lt_of_le hi h.sizes.tables)).trans (h.tables i hi)

theorem object_eq (o : ObjectId) : s'.object o = s.object o := by
  rw [object, object, h.objects]

theorem bindings_eq {t : TableId} (ht : s.Holds t) : s'.bindings t = s.bindings t := by
  cases t with
  | free i => rw [bindings_free, bindings_free, h.tables i ht]
  | part o p => rw [bindings_part, bindings_part, h.object_eq]

theorem grows : s.Grows s' where
  sizes := h.sizes
  kind o _ := congrArg Object.kind (h.object_eq o)
  below o _ := congrArg Object.below (h.object_eq o)
  bound t n c hc := by
    rw [local?, h.bindings_eq (holds_of_binds (.of_local? hc))]
    exact hc
  content c hc := Or.inl (h.content c hc)

theorem spares (T : TableId → Prop) : s.Spares T s' :=
  .of_same h.tidy h.grows (fun _ ht => h.bindings_eq ht)
    fun o => Or.inl (congrArg Object.kind (h.object_eq o))

end

theorem newCell (h : s.Tidy) (v : ObjectId) : s.Adjoins (s.newCell (.var v)).2 where
  tidy := h.newCell (by simp)
  sizes := (s.newCell_grows _).sizes
  objects := rfl
  content _ hc := cell_newCell_of_has s _ hc
  tables _ _ := rfl

/-- A new table may bind cells that exist to names that its rule accepts. A variable among them is
bound nowhere else. -/
theorem newTable (h : s.Tidy) {t : Table} (hbound : ∀ b ∈ t.bindings, s.HasCell b.2)
    (hnamed : ∀ b ∈ t.bindings, t.rule.accepts b.1 = true)
    (hsingle : ∀ b ∈ t.bindings, ∀ v, s.cell b.2 = .var v →
      (∀ x n, ¬ s.Binds x n b.2) ∧ ∀ b' ∈ t.bindings, b'.2 = b.2 → b' = b) :
    s.Adjoins (s.newTable t).2 := by
  have hsizes : s.SizeLe (s.newTable t).2 := (s.newTable_grows t).sizes
  have hbinds : ∀ {x n c}, (s.newTable t).2.Binds x n c →
      (x = .free s.tables.size ∧ (n, c) ∈ t.bindings) ∨ s.Binds x n c := by
    intro x n c hc
    rw [Binds, bindings_newTable] at hc
    split at hc
    · next hx => exact Or.inl ⟨hx, hc⟩
    · exact Or.inr hc
  have hold : ∀ {x n c}, s.Binds x n c → (s.newTable t).2.Binds x n c := by
    intro x n c hc
    rw [Binds, bindings_newTable, if_neg]
    · exact hc
    · rintro rfl
      exact Nat.lt_irrefl _ (holds_of_binds hc)
  have htable : ∀ i < s.tables.size, (s.newTable t).2.table i = s.table i := by
    intro i hi
    rw [table_newTable, if_neg (Nat.ne_of_lt hi)]
  refine ⟨?_, hsizes, rfl, fun _ _ => rfl, htable⟩
  refine h.of_step (s.newTable_grows t) hold (fun {x n c} hc => ?_) (fun x hx => ?_)
    (fun i hi => congrArg Table.outer (htable i hi)) (fun _ => Or.inl rfl) fun _ _ => Or.inl
  · rcases hbinds hc with ⟨rfl, hnew⟩ | hbefore
    · -- A module has its tables already, so that the new one is none of them.
      have hnot : ¬ s.Holds (.free s.tables.size) := Nat.lt_irrefl _
      refine Or.inr ⟨hbound (n, c) hnew, ?_, fun p hp heq => absurd (heq ▸ (h.holds hp).2.1) hnot,
        fun p hp heq => absurd (heq ▸ (h.holds hp).1) hnot,
        fun p hp heq => absurd (heq ▸ (h.holds hp).2.2) hnot, ?_⟩
      · change ((s.newTable t).2.table s.tables.size).rule.accepts n = true
        rw [table_newTable, if_pos rfl]
        exact hnamed (n, c) hnew
      · intro v hv x' n' hc'
        rcases hbinds hc' with ⟨rfl, hnew'⟩ | hbefore'
        · exact ⟨congrArg Prod.fst ((hsingle (n', c) hnew' v hv).2 (n, c) hnew rfl), Or.inl rfl⟩
        · exact absurd hbefore' ((hsingle (n, c) hnew v hv).1 x' n')
    · exact Or.inl hbefore
  · cases x with
    | free i => exact congrArg Table.rule (htable i hx)
    | part o p => cases p <;> rfl

end Adjoins

/-- The cell that stands for another one in a copy. -/
structure CellCopy (s s' : Store) (c c' : CellId) : Prop where
  content : s'.cell c' = s.cell c
  fresh : ∀ v, s.cell c = .var v → ¬ s.HasCell c'
  shared : (∀ v, s.cell c ≠ .var v) → c' = c

def BindingsCopy (s s' : Store) : Bindings → Bindings → Prop :=
  List.Forall₂ fun b b' => b'.1 = b.1 ∧ s.CellCopy s' b.2 b'.2

theorem CellCopy.back (h : s.Adjoins s') {c c' : CellId} (hc : s.HasCell c)
    (hcopy : s'.CellCopy s'' c c') : s.CellCopy s'' c c' where
  content := hcopy.content.trans (h.content c hc)
  fresh v hv hhas := hcopy.fresh v ((h.content c hc).trans hv) (hhas.mono h.sizes)
  shared hv := hcopy.shared fun v hv' => hv v ((h.content c hc).symm.trans hv')

theorem captureCell_copy (h : s.Tidy) {c : CellId} (hc : s.HasCell c) :
    s.Adjoins (s.captureCell c).2 ∧ (s.captureCell c).2.tables = s.tables ∧
      (s.captureCell c).2.HasCell (s.captureCell c).1 ∧
      s.CellCopy (s.captureCell c).2 c (s.captureCell c).1 := by
  rw [captureCell]
  cases hcell : s.cell c with
  | var v =>
    refine ⟨.newCell h v, rfl, by simp [HasCell], ?_, ?_, ?_⟩
    · rw [hcell]
      exact s.cell_newCell_self _
    · intro w _
      exact Nat.lt_irrefl _
    · intro hnot
      exact absurd hcell (hnot v)
  | _ =>
    refine ⟨.refl h, rfl, hc, ⟨rfl, ?_, fun _ => rfl⟩⟩
    intro w hw
    rw [hcell] at hw
    cases hw

/-- What a copied binding was copied from. -/
theorem BindingsCopy.source {bs bs' : Bindings} (h : s.BindingsCopy s' bs bs')
    {b' : String × CellId} (hb' : b' ∈ bs') :
    ∃ b ∈ bs, b'.1 = b.1 ∧ s.CellCopy s' b.2 b'.2 := exists_of_forall₂ h.flip hb'

/-- A copy made a little later is a copy of what was there before. -/
theorem BindingsCopy.back (h : s.Adjoins s') {bs bs' : Bindings} (hbs : ∀ b ∈ bs, s.HasCell b.2)
    (hcopy : s'.BindingsCopy s'' bs bs') : s.BindingsCopy s'' bs bs' :=
  ((List.forall₂_and_left bs bs').mpr ⟨hbs, hcopy⟩).imp fun _ _ hb => ⟨hb.2.1, hb.2.2.back h hb.1⟩

/-- A copy stays one as long as its cells keep what they hold. -/
theorem BindingsCopy.forth (h : s'.Adjoins s'') {bs bs' : Bindings}
    (hbs' : ∀ b ∈ bs', s'.HasCell b.2) (hcopy : s.BindingsCopy s' bs bs') :
    s.BindingsCopy s'' bs bs' := by
  induction hcopy with
  | nil => exact .nil
  | @cons b b' _ _ hfirst _ ih =>
    have hcell := h.content b'.2 (hbs' b' (List.mem_cons_self ..))
    refine .cons ⟨hfirst.1, hcell.trans hfirst.2.content, hfirst.2.fresh, hfirst.2.shared⟩ ?_
    exact ih fun b hb => hbs' b (List.mem_cons_of_mem _ hb)

/-- The copies of a list of bindings: no two of them share a new cell. -/
theorem captureBindings_copy (h : s.Tidy) (bs : Bindings) (hbs : ∀ b ∈ bs, s.HasCell b.2) :
    s.Adjoins (s.captureBindings bs).2 ∧ (s.captureBindings bs).2.tables = s.tables ∧
      (∀ b ∈ (s.captureBindings bs).1, (s.captureBindings bs).2.HasCell b.2) ∧
      s.BindingsCopy (s.captureBindings bs).2 bs (s.captureBindings bs).1 ∧
      ∀ b ∈ (s.captureBindings bs).1, ¬ s.HasCell b.2 →
        ∀ b' ∈ (s.captureBindings bs).1, b'.2 = b.2 → b' = b := by
  induction bs generalizing s with
  | nil => exact ⟨.refl h, rfl, by simp [captureBindings], .nil, by simp [captureBindings]⟩
  | cons b rest ih =>
    obtain ⟨name, c⟩ := b
    have hc : s.HasCell c := hbs (name, c) (List.mem_cons_self ..)
    have hrestHas : ∀ b ∈ rest, s.HasCell b.2 := fun b hb => hbs b (List.mem_cons_of_mem _ hb)
    obtain ⟨hfirst, htables, hhas, hcopy⟩ := captureCell_copy h hc
    obtain ⟨hrest, htables', hhas', hcopies, hdistinct⟩ := ih hfirst.tidy fun b hb =>
      (hrestHas b hb).mono hfirst.sizes
    -- A new cell of the rest is newer than the copy of the first cell.
    have hnewer : ∀ b ∈ ((s.captureCell c).2.captureBindings rest).1, ¬ s.HasCell b.2 →
        ¬ (s.captureCell c).2.HasCell b.2 := by
      intro b hb hnot
      obtain ⟨b₀, hb₀, -, hcopy₀⟩ := hcopies.source hb
      by_cases hvar : ∃ v, (s.captureCell c).2.cell b₀.2 = .var v
      · obtain ⟨v, hv⟩ := hvar
        exact hcopy₀.fresh v hv
      · have hshared := hcopy₀.shared fun v hv => hvar ⟨v, hv⟩
        exact absurd (hshared ▸ hrestHas b₀ hb₀) hnot
    simp only [captureBindings]
    refine ⟨hfirst.trans hrest, htables'.trans htables, ?_, ?_, ?_⟩
    · intro b hb
      rcases List.mem_cons.mp hb with rfl | hb
      · exact hhas.mono hrest.sizes
      · exact hhas' b hb
    · refine .cons ⟨rfl, ?_⟩ (hcopies.back hfirst hrestHas)
      exact ⟨(hrest.content _ hhas).trans hcopy.content, hcopy.fresh, hcopy.shared⟩
    · intro b hb hnot b' hb' heq
      rcases List.mem_cons.mp hb with rfl | hb
      · rcases List.mem_cons.mp hb' with rfl | hb'
        · rfl
        · exact absurd (heq ▸ hhas) (hnewer b' hb' (heq ▸ hnot))
      · rcases List.mem_cons.mp hb' with rfl | hb'
        · exact absurd (heq ▸ hhas) (hnewer b hb hnot)
        · exact hdistinct b hb (hnewer b hb hnot) b' hb' heq

/-- A table that stands for another one in a copy. -/
structure TableCopy (s s' : Store) (t t' : TableId) : Prop where
  fresh : ¬ s.Holds t'
  has : s'.HasTable t'
  bindings : s.Holds t → s.BindingsCopy s' (s.bindings t) (s'.bindings t')

theorem TableCopy.back (h : s.Adjoins s') (htidy : s.Tidy) {t t' : TableId}
    (hcopy : s'.TableCopy s'' t t') : s.TableCopy s'' t t' where
  fresh ht := hcopy.fresh (ht.mono h.sizes)
  has := hcopy.has
  bindings ht := by
    have hbs := hcopy.bindings (ht.mono h.sizes)
    rw [h.bindings_eq ht] at hbs
    exact hbs.back h fun b hb => htidy.bound t b.1 b.2 hb

theorem TableCopy.forth (h : s'.Adjoins s'') (htidy : s'.Tidy) {t t' : TableId}
    (hcopy : s.TableCopy s' t t') : s.TableCopy s'' t t' where
  fresh := hcopy.fresh
  has := hcopy.has.mono h.sizes
  bindings ht := by
    rw [h.bindings_eq hcopy.has.holds]
    exact (hcopy.bindings ht).forth h fun b hb => htidy.bound t' b.1 b.2 hb

/-- A new table with the copies of the bindings of another one. -/
theorem newTable_copy (h : s.Tidy) (t : TableId) (outer : List TableId) {copies : Bindings}
    (hcapture : s.captureBindings (s.bindings t) = (copies, s')) :
    s.Adjoins (s'.newTable ⟨copies, outer, s'.rule t⟩).2 ∧
      s.TableCopy (s'.newTable ⟨copies, outer, s'.rule t⟩).2 t (.free s'.tables.size) := by
  have hcopied := captureBindings_copy h (s.bindings t) fun b hb => h.bound t b.1 b.2 hb
  rw [hcapture] at hcopied
  obtain ⟨hcells, htables, hhas, hcopy, hdistinct⟩ := hcopied
  have hrule : s'.rule t = s.rule t := by
    cases t with
    | free i => rw [rule, rule, htables]
    | part o p => cases p <;> rfl
  have hbindings : s'.bindings = s.bindings := by
    funext x
    cases x with
    | free i => rw [bindings, bindings, htables]
    | part o p => rw [bindings_part, bindings_part, hcells.object_eq]
  have hnew : s'.Adjoins (s'.newTable ⟨copies, outer, s'.rule t⟩).2 := by
    refine .newTable hcells.tidy hhas ?_ ?_
    · intro b hb
      obtain ⟨b₀, hb₀, hname, -⟩ := hcopy.source hb
      rw [hname, hrule]
      exact h.named t b₀.1 b₀.2 hb₀
    · intro b hb v hv
      obtain ⟨b₀, -, -, hcell⟩ := hcopy.source hb
      have hfresh := hcell.fresh v (hcell.content.symm.trans hv)
      refine ⟨?_, hdistinct b hb hfresh⟩
      intro x n hx
      rw [Binds, hbindings] at hx
      exact hfresh (h.bound x n b.2 hx)
  refine ⟨hcells.trans hnew, ?_, ⟨_, rfl, by simp⟩, ?_⟩
  · rw [htables]
    exact Nat.lt_irrefl _
  · intro _
    rw [bindings_newTable, if_pos rfl]
    exact hcopy.forth hnew hhas

/-- Along a line of tables the last one is copied first. -/
theorem captureLine_copy (h : s.Tidy) (ts : List TableId) :
    s.Adjoins (s.captureLine ts).2 ∧
      List.Forall₂ (s.TableCopy (s.captureLine ts).2) ts (s.captureLine ts).1 := by
  induction ts with
  | nil => exact ⟨.refl h, .nil⟩
  | cons t outer ih =>
    obtain ⟨houter, hcopies⟩ := ih
    obtain ⟨hnew, hcopy⟩ := newTable_copy houter.tidy t (s.captureLine outer).1 rfl
    exact ⟨houter.trans hnew, .cons (hcopy.back houter h)
      (hcopies.imp fun _ _ hc => hc.forth hnew houter.tidy)⟩

theorem captureTable_copy (h : s.Tidy) (t : TableId) :
    s.Adjoins (s.captureTable t).2 ∧ s.TableCopy (s.captureTable t).2 t (s.captureTable t).1 := by
  obtain ⟨hadjoins, hcopies⟩ := captureLine_copy h (t :: s.outer t)
  rw [captureTable]
  cases hcopies with
  | cons hcopy _ => exact ⟨hadjoins, hcopy⟩

theorem captureTables_copy (h : s.Tidy) (ts : List TableId) :
    s.Adjoins (s.captureTables ts).2 ∧
      List.Forall₂ (s.TableCopy (s.captureTables ts).2) ts (s.captureTables ts).1 := by
  induction ts generalizing s with
  | nil => exact ⟨.refl h, .nil⟩
  | cons t rest ih =>
    obtain ⟨hfirst, hcopy⟩ := captureTable_copy h t
    obtain ⟨hrest, hcopies⟩ := ih hfirst.tidy
    exact ⟨hfirst.trans hrest, .cons (hcopy.forth hrest hfirst.tidy)
      (hcopies.imp fun _ _ hc => hc.back hfirst h)⟩

/-- The home table of the copy is the copy of the home table, whether that is a scope or not. -/
theorem captureActivation_copy (h : s.Tidy) (a : Activation) :
    s.Adjoins (s.captureActivation a).2 ∧
      List.Forall₂ (s.TableCopy (s.captureActivation a).2) a.scopes
        (s.captureActivation a).1.scopes ∧
      s.TableCopy (s.captureActivation a).2 a.home (s.captureActivation a).1.home := by
  obtain ⟨hscopes, hcopies⟩ := captureTables_copy h a.scopes
  rw [captureActivation]
  cases hhome : copyOf? a.home a.scopes (s.captureTables a.scopes).1 with
  | some home =>
    simp only [hhome]
    exact ⟨hscopes, hcopies, (List.forall₂_iff_zip.mp hcopies).2 (mem_zip_of_copyOf? hhome)⟩
  | none =>
    simp only [hhome]
    obtain ⟨hadjoins, hcopy⟩ := captureTable_copy hscopes.tidy a.home
    exact ⟨hscopes.trans hadjoins, hcopies.imp fun _ _ hc => hc.forth hadjoins hscopes.tidy,
      hcopy.back hscopes h⟩

section Lookups

theorem BindingsCopy.lookup {bs bs' : Bindings} (h : s.BindingsCopy s' bs bs') (n : String) :
    Option.Rel (s.CellCopy s') (bs.lookup n) (bs'.lookup n) := by
  induction h with
  | nil => exact .none
  | @cons b b' _ _ hfirst _ ih =>
    obtain ⟨hname, hcell⟩ := hfirst
    rw [List.lookup_cons, List.lookup_cons, hname]
    cases n == b.1 with
    | true => exact .some hcell
    | false => exact ih

/-- A name is found in the copies of tables if it is found in the tables, and then as the copy of
the cell that is found there. -/
theorem lookupIn_copy {ts ts' : List TableId} (h : List.Forall₂ (s.TableCopy s') ts ts')
    (hts : ∀ t ∈ ts, s.Holds t ∧ s.outer t = []) (hts' : ∀ t ∈ ts', s'.outer t = [])
    (n : String) : Option.Rel (s.CellCopy s') (s.lookupIn ts n) (s'.lookupIn ts' n) := by
  induction h with
  | nil => exact .none
  | @cons t t' ts ts' hfirst _ ih =>
    obtain ⟨hholds, houter⟩ := hts t (List.mem_cons_self ..)
    have hcopy := (hfirst.bindings hholds).lookup n
    have hlookup : s.lookup t n = (s.bindings t).lookup n := by
      rw [Store.lookup, houter, List.findSome?_singleton, local?]
    have hlookup' : s'.lookup t' n = (s'.bindings t').lookup n := by
      rw [Store.lookup, hts' t' (List.mem_cons_self ..), List.findSome?_singleton, local?]
    rw [← hlookup, ← hlookup'] at hcopy
    rw [lookupIn, lookupIn, List.findSome?_cons, List.findSome?_cons]
    generalize s.lookup t n = x at hcopy
    generalize s'.lookup t' n = y at hcopy
    cases hcopy with
    | some hcell => exact .some hcell
    | none =>
      exact ih (fun t ht => hts t (List.mem_cons_of_mem _ ht)) fun t ht =>
        hts' t (List.mem_cons_of_mem _ ht)

end Lookups

end ObjectLang.Store
