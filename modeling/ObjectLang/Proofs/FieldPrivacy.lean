import ObjectLang.Proofs.Machine.Steady
import ObjectLang.Proofs.Runs

/-!
Fields are private to the level that they belong to.
The cell of a field is bound in one field table only, and a field table is opened only to code that
runs as its own level. So whoever reads or writes the cell runs as that level, and for all others
the name is as good as unknown.
-/
namespace ObjectLang

open Machine Routine

namespace Store

variable {W : Stock} {s : Store} {l accessor target : ObjectId} {c : CellId} {name : String}

def FieldOf (s : Store) (l : ObjectId) (c : CellId) : Prop :=
  ∃ x, (x, c) ∈ s.bindings (.part l .fields)

/-- Among all that code may see of `target`, only the fields of the level `l` may bind the name. -/
structure OnlyField (s : Store) (l target : ObjectId) (name : String) : Prop where
  members : ∀ o ∈ s.levels target, s.local? (.part o .members) name = none
  fields : ∀ o ∈ s.levels target, o ≠ l → s.local? (.part o .fields) name = none
  ofModule : ∀ parts, s.kind target = .ofModule parts →
    s.lookup parts.hidden name = none ∧ s.lookup parts.shown name = none
  ofAlias : ∀ o parts, s.kind target = .moduleAlias o parts → s.lookup parts.shown name = none

/-- The cell of a field is found in its field table and nowhere else. -/
theorem FieldOf.table_eq (hc : s.FieldOf l c) (hw : s.Wellformed W) {t : TableId}
    (ht : s.lookup t name = some c) : t = .part l .fields := by
  obtain ⟨x, hx⟩ := hc
  obtain ⟨t', ht', hlocal⟩ := local?_of_lookup ht
  have heq := (hw.fieldOnly l x c hx t' name (Wellformed.local?_mem hlocal)).1
  subst heq
  rcases List.mem_cons.mp ht' with heq | houter
  · exact heq.symm
  · -- Tables on their own have no outer tables, and operators and members go on to their like.
    cases t with
    | free i =>
      have hnone : s.outer (.free i) = [] := (hw.tables i).outer
      rw [hnone] at houter
      cases houter
    | part o p =>
      cases p with
      | fields => cases houter
      | operators => simp [outer] at houter
      | members => simp [outer] at houter

theorem FieldOf.mem_of_lookupIn (hc : s.FieldOf l c) (hw : s.Wellformed W) {ts : List TableId}
    (h : s.lookupIn ts name = some c) : .part l .fields ∈ ts := by
  obtain ⟨t, ht, hlookup⟩ := List.exists_of_findSome?_eq_some h
  rwa [hc.table_eq hw hlookup] at ht

/-- A field table is opened only to code that runs as its own level. -/
theorem accessor_of_fields_mem (hw : s.Wellformed W)
    (h : .part l .fields ∈ s.memberScope accessor target) : accessor = l := by
  have hfits : (s.kind target).Fits W s := (hw.objects target).kind
  generalize ht : TableId.part l .fields = t at h
  cases shows_of_mem h with
  | members => cases ht
  | fields =>
    cases ht
    rfl
  | hidden hkind =>
    rw [hkind] at hfits
    exact absurd ht.symm (hfits.hidden.ne_part l .fields)
  | shown hkind =>
    rcases hkind with hkind | ⟨o, hkind⟩ <;> rw [hkind] at hfits
    · exact absurd ht.symm (hfits.shown.ne_part l .fields)
    · exact absurd ht.symm (hfits.2.shown.ne_part l .fields)

end Store

/-- The route is that of a member, taken for the activation at a depth, which runs as `l`. -/
def Route.IssuedBy (m : Machine) (depth : Nat) (l : ObjectId) (via : Route) : Prop :=
  ∃ target x a, via = .member l target x ∧ m.stack[depth]? = some a ∧ a.owner = l

/-- Only a member route of the level itself leads to a field. -/
theorem Route.Leads.issuedBy {W : Stock} {m : Machine} (hm : m.Sound W) {via : Route} {depth : Nat}
    {c : CellId} (h : via.Leads m depth c) {l : ObjectId} (hc : m.store.FieldOf l c) :
    via.IssuedBy m depth l := by
  have hw := hm.store.toWellformed
  cases via with
  | name x =>
    have hlookup : m.lookup x = some c := h
    rw [Machine.lookup, Option.bind_eq_some_iff] at hlookup
    obtain ⟨a, ha, hin⟩ := hlookup
    have hscope := (hm.head ha).scopes _ (hc.mem_of_lookupIn hw hin)
    exact absurd rfl (hscope.ne_part l .fields)
  | table t x =>
    have heq := hc.table_eq hw h.2
    exact absurd heq (h.1.ne_part l .fields)
  | operator target op =>
    have heq := hc.table_eq hw h
    cases heq
  | member accessor target x =>
    obtain ⟨⟨a, ha, howner⟩, hin⟩ := h
    obtain rfl := Store.accessor_of_fields_mem hw (hc.mem_of_lookupIn hw hin)
    exact ⟨target, x, a, rfl, ha, howner⟩
  | view v =>
    obtain ⟨x, hx⟩ := hc
    exact absurd ⟨l, x, hx⟩ (hw.unviewed v c h)

section Runs

variable {W : Stock} {n : Nat} {m m' : Machine} {t : List Moment} {l : ObjectId} {c : CellId}
  {p : Moment}

theorem Moment.fieldOf_after (hm : p.machine.Sound W) (h : p.Honest W n)
    (hc : p.machine.store.FieldOf l c) : p.after.store.FieldOf l c := by
  obtain ⟨x, hx⟩ := hc
  by_cases hfills : ∃ name c', p.deed = .fills l name c'
  · obtain ⟨deed, m⟩ := p
    obtain ⟨name, c', rfl⟩ := hfills
    obtain ⟨-, ho, -⟩ := h
    refine ⟨x, ?_⟩
    simp only [after]
    split
    · rw [Store.bindings_bind _ _ _ _ _ (ho.holds .fields), if_pos rfl]
      exact List.mem_cons_of_mem _ hx
    · exact hx
  · have hkeep := fields_after hm h fun name c' heq => hfills ⟨name, c', heq⟩
    exact ⟨x, hkeep ▸ hx⟩

/-- A field stays a field. -/
theorem Path.fieldOf (h : Path W n m t m') (hm : Ready W n m) (hc : m.store.FieldOf l c) :
    m'.store.FieldOf l c := by
  induction h with
  | stay m => exact hc
  | move h _ ih =>
    obtain ⟨x, hx⟩ := hc
    exact ih ((h.onward hm).ready hm) ⟨x, h.steady.fields l ▸ hx⟩
  | pass h _ ih =>
    exact ih ((Moment.onward h hm.sound).ready hm) (Moment.fieldOf_after hm.sound h hc)

/-- A field that holds something else was written by code of its level. -/
theorem Path.field_written (h : Path W 0 m t m') (hm : m.Sound W) (hc : m.store.FieldOf l c)
    (hne : m'.store.cell c ≠ m.store.cell c) :
    ∃ w ∈ t, ∃ via v, w.deed = .writes via c v ∧ via.IssuedBy w.machine 0 l := by
  have hcell : m.store.HasCell c := by
    obtain ⟨x, hx⟩ := hc
    exact hm.store.hasCell_of_mem hx
  have hwrite : ∃ w ∈ t, ∃ via v, w.deed = .writes via c v := by
    apply Classical.byContradiction
    intro hnone
    refine hne (h.cell_eq hm.ready hcell fun w hw via v heq => ?_)
    exact hnone ⟨w, hw, via, v, heq⟩
  obtain ⟨w, hw, via, v, hdeed⟩ := hwrite
  obtain ⟨t₁, t₂, rfl⟩ := List.append_of_mem hw
  obtain ⟨hbefore, hhonest, -⟩ := h.split
  have hsound := (hbefore.onward hm.ready).sound
  rw [Moment.Honest, hdeed] at hhonest
  exact ⟨w, hw, via, v, hdeed,
    hhonest.1.issuedBy hsound (hbefore.fieldOf hm.ready hc)⟩

/-- What a moment may do with a field. -/
theorem Moment.Honest.field (h : p.Honest W n) (hm : p.machine.Sound W)
    (hc : p.machine.store.FieldOf l c) :
    (∀ via, p.deed = .reads via c → via.IssuedBy p.machine 1 l) ∧
      (∀ via v, p.deed = .writes via c v → via.IssuedBy p.machine 0 l) ∧
      ∀ a, p.deed = .captures a → ∀ u ∈ a.home :: a.scopes,
        ∀ x, (x, c) ∉ p.machine.store.bindings u := by
  obtain ⟨deed, m⟩ := p
  refine ⟨?_, ?_, ?_⟩
  · rintro via rfl
    exact Route.Leads.issuedBy hm h hc
  · rintro via v rfl
    exact Route.Leads.issuedBy hm h.1 hc
  · rintro a rfl u hu x hx
    have hfits := hm.head h
    have htable : m.store.HasTable u := by
      rcases List.mem_cons.mp hu with rfl | hu
      · exact hfits.home
      · exact hfits.scopes u hu
    obtain ⟨y, hy⟩ := hc
    exact (Store.common_of_mem hm.store.toWellformed htable hx).shared.2 ⟨l, y, hy⟩

end Runs

section Refusals

variable {W : Stock} {s : Store} {l accessor target : ObjectId} {name : String}

theorem Store.lookup_none {t : TableId}
    (h : ∀ t' ∈ t :: s.outer t, s.local? t' name = none) : s.lookup t name = none :=
  List.findSome?_eq_none_iff.mpr h

section

variable (h : s.OnlyField l target name)
include h

theorem Store.OnlyField.lookup_members : s.lookup (.part target .members) name = none := by
  refine lookup_none fun t ht => ?_
  have hmap : t ∈ (s.levels target).map (.part · .members) := ht
  obtain ⟨o, ho, rfl⟩ := List.mem_map.mp hmap
  exact h.members o ho

theorem Store.OnlyField.lookup_fields {o : ObjectId} (ho : o ∈ s.levels target) (hne : o ≠ l) :
    s.lookup (.part o .fields) name = none := by
  refine lookup_none fun t ht => ?_
  rw [List.mem_singleton.mp ht]
  exact h.fields o ho hne

/-- Code that runs as another level does not find the field. A level that wears the face of the
target is one of its levels. -/
theorem Store.OnlyField.hidden (hw : s.Wellformed W) (hne : accessor ≠ l) :
    s.lookupIn (s.memberScope accessor target) name = none := by
  refine List.findSome?_eq_none_iff.mpr fun t ht => ?_
  cases shows_of_mem ht with
  | members => exact h.lookup_members
  | hidden hkind => exact (h.ofModule _ hkind).1
  | shown hkind =>
    rcases hkind with hkind | ⟨o, hkind⟩
    · exact (h.ofModule _ hkind).2
    · exact h.ofAlias o _ hkind
  | fields hown =>
    refine h.lookup_fields ?_ hne
    rcases hown with rfl | hworn
    · exact List.mem_cons_self ..
    · rw [face] at hworn
      cases hface : (s.object accessor).face with
      | none =>
        rw [hface] at hworn
        exact hworn ▸ List.mem_cons_self ..
      | some f =>
        rw [hface] at hworn
        exact hw.faces accessor target (hworn ▸ hface)

end

end Refusals

namespace Machine

variable {sources : List Source} {m : Machine}

/-- Every stretch of a program is a path. -/
theorem After.stretch (h : After sources m) {d : Nat} {src : Source} {m₁ m₂ : Machine}
    {t : List Moment} (hstretch : (Eval.runSource (.ofDepth d) src).Stretch m m₁ t m₂) :
    Path .any 0 m₁ t m₂ ∧ m₁.Sound .any := by
  have hm := h.sound (Stock.any_covers _)
  have hsrc : ∀ b, parse src = .ok b → Stock.any.block b := fun b _ => Stock.any_block b
  exact hstretch.path hm (runSource_path hm hsrc d) fun _ hend => (runSource_reached hm hsrc hend).1

/-- Over every run and for every level `l`: whoever reads a field of `l` does so by a member lookup
for an activation that runs as `l`, right below that of the lookup; whoever writes one does so by a
member assignment of an activation that runs as `l`; and no closure captures one. A field of `l`
comes to be by the filling of `l` and holds something else only once it was written. To code that
does not run as `l`, a name that only the fields of `l` bind is unknown, and asking for it changes
nothing. -/
theorem fields_private (h : After sources m) (d : Nat) (src : Source) :
    (∀ p ∈ (Eval.runSource (.ofDepth d) src).moments m, ∀ l c, p.machine.store.FieldOf l c →
      (∀ via, p.deed = .reads via c → via.IssuedBy p.machine 1 l) ∧
      (∀ via v, p.deed = .writes via c v → via.IssuedBy p.machine 0 l) ∧
      ∀ a, p.deed = .captures a → ∀ u ∈ a.home :: a.scopes,
        ∀ x, (x, c) ∉ p.machine.store.bindings u) ∧
    (∀ m₁ t m₂, (Eval.runSource (.ofDepth d) src).Stretch m m₁ t m₂ → ∀ l,
      (m₂.store.bindings (.part l .fields) ≠ m₁.store.bindings (.part l .fields) →
        ∃ w ∈ t, ∃ x c, w.deed = .fills l x c) ∧
      ∀ c, m₁.store.FieldOf l c → m₂.store.cell c ≠ m₁.store.cell c →
        ∃ w ∈ t, ∃ via v, w.deed = .writes via c v ∧ via.IssuedBy w.machine 0 l) ∧
    ∀ m', Reachable m' → ∀ l target name, m'.store.OnlyField l target name →
      (∀ a v, m'.stack[0]? = some a → a.owner ≠ l →
        Eval.setMember (.ofDepth d) target name v m' = .failed (.fault (.unknownName name)) m') ∧
      ∀ a args arg, m'.stack[1]? = some a → a.owner ≠ l → args[0]? = some arg →
        m'.store.asString arg = some name →
        Eval.memberOf (.ofDepth d) target args m' = .failed (.fault (.unknownName name)) m' := by
  refine ⟨fun p hp l c hc => ?_, fun m₁ t m₂ hstretch l => ⟨fun hne => ?_, fun c hc hne => ?_⟩,
    fun m' hm' l target name honly => ⟨fun a v ha howner => ?_, ?_⟩⟩
  · obtain ⟨hhonest, hsound⟩ := h.honest hp
    exact hhonest.field hsound hc
  · obtain ⟨hpath, hm₁⟩ := h.stretch hstretch
    apply Classical.byContradiction
    intro hnone
    refine hne (hpath.fields_eq hm₁.ready fun w hw x c heq => ?_)
    exact hnone ⟨w, hw, x, c, heq⟩
  · obtain ⟨hpath, hm₁⟩ := h.stretch hstretch
    exact hpath.field_written hm₁ hc hne
  · have hnone := honly.hidden hm'.sound.store.toWellformed howner
    simp [Eval.setMember, Eval.memberCell, Eval.found, bind_run, peek, see, fail, quiet, ha, hnone]
  · intro a args arg ha howner harg htext
    have hnone := honly.hidden hm'.sound.store.toWellformed howner
    simp [Eval.memberOf, Eval.argument, Eval.expectString, Eval.memberCell, Eval.found,
      bind_run, pure_run, peek, see, fail, quiet, harg, htext, ha, hnone]

/-- The field of an instance, which a method counts and which code outside asks for: only the level
of the field has read and written it, what it holds has been written by the method, and the main
program cannot assign it. -/
theorem fields_private_prying : ∃ m m' b l x v v', After [counterSource] m ∧
    Eval.runSource (.ofDepth 16) pryingSource m =
      .failed (.fatal (.fault (.unknownName "x")) "return b.x") m' ∧
    m.store.FieldOf l x ∧ (m.store.cell x = .var v ∧ m.store.kind v = .integer 2) ∧
    (m'.store.cell x = .var v' ∧ m'.store.kind v' = .integer 3) ∧
    (∀ p ∈ (Eval.runSource (.ofDepth 16) pryingSource).moments m,
      (∀ via, p.deed = .reads via x → via.IssuedBy p.machine 1 l) ∧
      ∀ via w, p.deed = .writes via x w → via.IssuedBy p.machine 0 l) ∧
    (∃ p ∈ (Eval.runSource (.ofDepth 16) pryingSource).moments m, ∃ via w,
      p.deed = .writes via x w ∧ via.IssuedBy p.machine 0 l) ∧
    m.store.OnlyField l b "x" ∧
    ∀ w, Eval.setMember (.ofDepth 16) b "x" w m = .failed (.fault (.unknownName "x")) m := by
  obtain ⟨m, hend, a, ha, -, -, b, -, l, hl, x, hx, ⟨v, hv, htwo⟩, howner, hplain, honly, e, m',
    hrun, rfl, v', hv', hthree⟩ := counter_pried
  have hafter : After [counterSource] m := .next .start 16 counterSource hend
  obtain ⟨huses, hchanges, hrefuses⟩ := fields_private hafter 16 pryingSource
  have hfield : ∀ {s : Store}, m.store.Grows s → s.FieldOf l x := fun hgrows =>
    ⟨"x", Store.Wellformed.local?_mem (hgrows.bound _ _ _ hx)⟩
  have hwhole : (Eval.runSource (.ofDepth 16) pryingSource).Stretch m m _ m' :=
    .whole (by rw [hrun]; rfl)
  obtain ⟨hpath, hsound⟩ := hafter.stretch hwhole
  have honlyField : m.store.OnlyField l b "x" :=
    ⟨fun o ho => (honly o ho).1, fun o ho => (honly o ho).2, by simp [hplain], by simp [hplain]⟩
  refine ⟨m, m', b, l, x, v, v', hafter, hrun, hfield (.refl _), ⟨hv, htwo⟩, ⟨hv', hthree⟩,
    fun p hp => ?_, ?_, honlyField, fun w => ?_⟩
  · obtain ⟨t₁, t₂, heq⟩ := List.append_of_mem hp
    have hbefore := (heq ▸ hpath).split.1.onward hsound.ready
    obtain ⟨hreads, hwrites, -⟩ := huses p hp l x (hfield hbefore.grows)
    exact ⟨hreads, hwrites⟩
  · refine (hchanges m _ m' hwhole l).2 x (hfield (.refl _)) fun heq => ?_
    rw [hv, hv'] at heq
    cases heq
    have hgrows := (hpath.onward hsound.ready).grows
    cases (hgrows.kind_of_ne htwo (by simp)).symm.trans hthree
  · refine (hrefuses m (.between hafter) l b "x" honlyField).1 a w ?_ howner
    rwa [← List.head?_eq_getElem?]

end Machine

end ObjectLang
