import ObjectLang.Proofs.Store.Faced
import ObjectLang.Proofs.Store.Wellformed

/-!
Levels and the classes that give them.
What the blueprint of a class lists is what a level of that class binds, in the same order; a level
lies on a level of the superclass. This holds of every instance that is finished, and what lies on
the root has no operators of its own but the call.
-/
namespace ObjectLang

inductive Entry where
  | method (code : Code)
  | property (p : PropertyPlan)
  | val (f : FieldPlan)
  | var (f : FieldPlan)

def Entry.name : Entry → String
  | method code => code.name
  | property p => p.name
  | val f => f.name
  | var f => f.name

/-- What a blueprint puts into each table of a level, in order. -/
def Blueprint.entries (b : Blueprint) : Part → List Entry
  | .operators => b.operators.map .method
  | .members => b.methods.map .method ++ b.properties.map .property
  | .fields => b.vals.map .val ++ b.vars.map .var

namespace Store

variable {s s' : Store}

def MethodOf (s : Store) (l : ObjectId) (code : Code) (f : ObjectId) : Prop :=
  s.kind f = .method l code

end Store

open Store in
/-- The cell holds what the entry asks for. -/
def Entry.Bound (s : Store) (l : ObjectId) : Entry → CellId → Prop
  | method code, c => ∃ f, s.cell c = .const f ∧ s.MethodOf l code f
  | property ⟨_, none, none⟩, c => ∃ v, s.cell c = .var v
  | property ⟨_, some getter, none⟩, c =>
    ∃ g, s.cell c = .computed g none ∧ s.MethodOf l getter g
  | property ⟨_, some getter, some setter⟩, c =>
    ∃ g f, s.cell c = .computed g (some f) ∧ s.MethodOf l getter g ∧ s.MethodOf l setter f
  | property ⟨_, none, some _⟩, _ => False
  | val _, c => ∃ v, s.cell c = .const v
  | var _, c => ∃ v, s.cell c = .var v

variable {c : CellId} {l : ObjectId} {p : Part} {e : Entry}

namespace Store

variable {s s' : Store}

theorem MethodOf.mono {f : ObjectId} {code : Code} (h : s.MethodOf l code f) (hg : s.Grows s') :
    s'.MethodOf l code f := hg.kind_of_ne h (by simp)

theorem Grows.computed {g : ObjectId} {f : Option ObjectId} (h : s.Grows s') (hc : s.HasCell c)
    (hv : s.cell c = .computed g f) : s'.cell c = .computed g f := by
  rcases h.content c hc with heq | ⟨_, _, hw, -⟩
  · exact heq.trans hv
  · rw [hv] at hw
    cases hw

end Store

theorem Entry.Bound.mono {s s' : Store} (hg : s.Grows s') (h : e.Bound s l c) (hc : s.HasCell c) :
    e.Bound s' l c := by
  match e, h with
  | .method code, ⟨f, hcell, hf⟩ => exact ⟨f, hg.const hc hcell, hf.mono hg⟩
  | .property ⟨_, none, none⟩, ⟨v, hcell⟩ => exact hg.var hc hcell
  | .property ⟨_, some getter, none⟩, ⟨g, hcell, hgetter⟩ =>
    exact ⟨g, hg.computed hc hcell, hgetter.mono hg⟩
  | .property ⟨_, some getter, some setter⟩, ⟨g, f, hcell, hgetter, hsetter⟩ =>
    exact ⟨g, f, hg.computed hc hcell, hgetter.mono hg, hsetter.mono hg⟩
  | .val f, ⟨v, hcell⟩ => exact ⟨v, hg.const hc hcell⟩
  | .var f, ⟨v, hcell⟩ => exact hg.var hc hcell

namespace Store

variable {W : Stock} {s s' : Store} {es : List Entry}

/-- A table of a level binds the given entries and nothing else. -/
def Lists (s : Store) (l : ObjectId) (p : Part) (es : List Entry) : Prop :=
  List.Forall₂ (fun e b => b.1 = e.name ∧ e.Bound s l b.2) es (s.bindings (.part l p)).reverse

theorem lists_mono (hg : s.Grows s') {bs : Bindings}
    (h : List.Forall₂ (fun e b => b.1 = e.name ∧ e.Bound s l b.2) es bs)
    (hcells : ∀ b ∈ bs, s.HasCell b.2) :
    List.Forall₂ (fun e b => b.1 = e.name ∧ e.Bound s' l b.2) es bs := by
  induction h with
  | nil => exact .nil
  | cons hb _ ih =>
    refine .cons ⟨hb.1, hb.2.mono hg (hcells _ (List.mem_cons_self ..))⟩ (ih ?_)
    exact fun b hb => hcells b (List.mem_cons_of_mem _ hb)

theorem Lists.mono (h : s.Lists l p es) (hw : s.Wellformed W) (hg : s.Grows s')
    (heq : (s'.object l).bindings p = (s.object l).bindings p) :
    s'.Lists l p es := by
  rw [Lists, bindings_part, heq, ← bindings_part]
  exact lists_mono hg h fun b hb => hw.hasCell_of_mem (List.mem_reverse.mp hb)

/-- One more entry at the end. -/
theorem Lists.snoc (h : s.Lists l p es) (hw : s.Wellformed W) (hg : s.Grows s')
    (heq : (s'.object l).bindings p = (e.name, c) :: (s.object l).bindings p)
    (hc : e.Bound s' l c) : s'.Lists l p (es ++ [e]) := by
  have hold := lists_mono hg h fun b hb => hw.hasCell_of_mem (List.mem_reverse.mp hb)
  rw [Lists, bindings_part, heq, List.reverse_cons]
  exact List.rel_append hold (.cons ⟨rfl, hc⟩ .nil)

/-- A class and its superclasses, up to the one that has none. -/
inductive Lineage (s : Store) : ObjectId → List ObjectId → Prop where
  | last {c : ObjectId} {b : Blueprint} (hc : s.kind c = .ofClass b) (hb : b.base = none) :
      Lineage s c [c]
  | derived {c base : ObjectId} {b : Blueprint} {cs : List ObjectId} (hc : s.kind c = .ofClass b)
      (hb : b.base = some base) (h : Lineage s base cs) : Lineage s c (c :: cs)

theorem Lineage.mono {c : ObjectId} {cs : List ObjectId} (h : s.Lineage c cs) (hg : s.Grows s') :
    s'.Lineage c cs := by
  induction h with
  | last hc hb => exact .last (hg.kind_of_ne hc (by simp)) hb
  | derived hc hb _ ih => exact .derived (hg.kind_of_ne hc (by simp)) hb ih

end Store

def Cell.Stores : Cell → Prop
  | .var _ | .const _ => True
  | _ => False

namespace Store

variable {W : Stock} {root o : ObjectId} {s s' : Store} {name : String} {roots : Roots}
  {t : TableId} {b : Blueprint}

theorem Grows.stores (h : s.Grows s') (hc : s.HasCell c) (hs : (s.cell c).Stores) :
    (s'.cell c).Stores := by
  rcases h.content c hc with heq | ⟨v, v', -, hv'⟩
  · rw [heq]
    exact hs
  · rw [hv']
    trivial

/-- The table takes the name as long as its object is in the making; later on a callable takes its
call operator. -/
def Takes (s : Store) (t : TableId) (name : String) : Prop :=
  ∀ o p, t = .part o p → s.type o = none ∨ p = .operators ∧ name = "()" ∧ (s.kind o).Callable

theorem HasTable.takes (h : s.HasTable t) (name : String) : s.Takes t name :=
  fun o p hp => absurd hp (h.ne_part o p)

theorem Takes.not_complete (h : s.Takes t name) (hfree : s.refusal? t name = none) :
    ∀ o p, t = .part o p → ¬ s.Complete o := by
  rintro o p rfl
  rcases h o p rfl with htype | ⟨rfl, rfl, hkind⟩
  · exact not_complete_of_type htype
  · exact fun hc => hc.2 hkind (free_of_refusal? hfree)

/-- A level is as a blueprint asks for it: it binds what is listed there, and lies on a level of the
superclass. It may answer a call by itself. -/
structure Level (s : Store) (o : ObjectId) (b : Blueprint) : Prop where
  lists : ∀ p, ∃ own given, s.bindings (.part o p) = own ++ given ∧
    (∀ x ∈ own, p = .operators ∧ x.1 = "()") ∧
    List.Forall₂ (fun e x => x.1 = e.name ∧ e.Bound s o x.2) (b.entries p) given.reverse
  base : (s.base o).map s.type = b.base.map some

theorem Level.mono (h : s.Level o b) (hw : s.Wellformed W) (hg : s.Grows s') (ho : s.HasObject o)
    (hbind : ∀ p, ∃ more, s'.bindings (.part o p) = more ++ s.bindings (.part o p) ∧
      ∀ x ∈ more, p = .operators ∧ x.1 = "()")
    (htype : ∀ l, s.base o = some l → s'.type l = s.type l) : s'.Level o b := by
  refine ⟨fun p => ?_, ?_⟩
  · obtain ⟨own, given, heq, hown, hgiven⟩ := h.lists p
    obtain ⟨more, hmore, hcall⟩ := hbind p
    refine ⟨more ++ own, given, by rw [hmore, heq, List.append_assoc], ?_, ?_⟩
    · intro x hx
      rcases List.mem_append.mp hx with hx | hx
      · exact hcall x hx
      · exact hown x hx
    · refine lists_mono hg hgiven fun x hx => hw.hasCell_of_mem (t := .part o p) ?_
      rw [heq]
      exact List.mem_append.mpr (Or.inr (List.mem_reverse.mp hx))
  · have hbase : s'.base o = s.base o := by rw [Store.base, hg.below o ho, Store.base]
    rw [hbase, ← h.base]
    cases hl : s.base o with
    | none => rfl
    | some l => rw [Option.map_some, Option.map_some, htype l hl]

/-- How levels go in a store. A chain goes on as the chain of the level below does, every finished
instance is a level as its class asks for it, what lies on the root has no operators of its own but
the call, and fields keep their values. -/
structure Classed (s : Store) (root : ObjectId) : Prop where
  stacked : ∀ o l, s.base o = some l → (s.object o).below = s.levels l
  level : ∀ o, s.Finished root o →
    ∃ c b, s.type o = some c ∧ s.kind c = .ofClass b ∧ s.Level o b
  rooted : ∀ o, s.type o ≠ none → root ∈ (s.object o).below →
    ∀ x ∈ s.bindings (.part o .operators), x.1 = "()"
  stored : ∀ o x c, (x, c) ∈ s.bindings (.part o .fields) → (s.cell c).Stores

namespace Classed

variable (h : s.Classed root)
include h

variable (hf : s.Faced root)
include hf

variable (hw : s.Wellformed W)
include hw

/-- Objects are added, and tables gain names. What is made gains nothing but a call, unless it lies
on the root; what is new and lies on the root has no other operator. -/
theorem of_extends (hg : s.Grows s') (he : s.Extends root s')
    (hbind : ∀ o, s.type o ≠ none → ∀ p, ∃ more,
      s'.bindings (.part o p) = more ++ s.bindings (.part o p) ∧
        ∀ x ∈ more, p = .operators ∧ x.1 = "()" ∨ p = .members ∧ root ∈ s.levels o)
    (hnew : ∀ o, ¬ s.HasObject o → ∀ x ∈ s'.bindings (.part o .operators), x.1 = "()")
    (hstored : ∀ o x c, (x, c) ∈ s'.bindings (.part o .fields) → (s'.cell c).Stores) :
    s'.Classed root where
  stacked o l hl := by
    by_cases ho : s.HasObject o
    · have hbase : s.base o = some l := by rw [base, ← he.below o ho, ← base, hl]
      have hlevel := (hf.bounded o ho).2 l (mem_levels_of_below (mem_below_of_base hbase))
      rw [he.below o ho, h.stacked o l hbase, hg.levels hlevel]
    · obtain ⟨base, hbelow, hbase, -⟩ := he.newBelow o ho
      rw [Store.base, hbelow] at hl
      cases base with
      | none => cases hl
      | some b =>
        obtain rfl : b = l := Option.some.inj hl
        rw [hbelow, hg.levels (has_of_type (hbase b rfl).1)]
        rfl
  level o ho := by
    by_cases hold : s.HasObject o
    · have hbefore : s.Finished root o := by
        rw [Finished, he.type o hold, hg.levels hold] at ho
        exact ho
      obtain ⟨c, b, htype, hkind, hlevel⟩ := h.level o hbefore
      refine ⟨c, b, (he.type o hold).trans htype, hg.kind_of_ne hkind (by simp), ?_⟩
      refine hlevel.mono hw hg hold (fun p => ?_) fun l hl => he.type l ?_
      · obtain ⟨more, heq, hmore⟩ := hbind o hbefore.1 p
        exact ⟨more, heq, fun x hx => (hmore x hx).resolve_right fun hroot => hbefore.2 hroot.2⟩
      · exact (hf.bounded o hold).2 l (mem_levels_of_below (mem_below_of_base hl))
    · exact absurd ho (he.not_finished hold)
  rooted o htype hroot x hx := by
    by_cases hold : s.HasObject o
    · rw [he.type o hold] at htype
      rw [he.below o hold] at hroot
      obtain ⟨more, heq, hmore⟩ := hbind o htype .operators
      rw [heq] at hx
      rcases List.mem_append.mp hx with hx | hx
      · rcases hmore x hx with ⟨-, hname⟩ | ⟨hpart, -⟩
        · exact hname
        · cases hpart
      · exact h.rooted o htype hroot x hx
    · exact hnew o hold x hx
  stored := hstored

theorem of_bears (hg : s.Grows s') (hb : s.Bears root s') : s'.Classed root := by
  have hbound : ∀ o, s.HasObject o → ∀ p, s'.bindings (.part o p) = s.bindings (.part o p) := by
    intro o ho p
    rw [bindings_part, hb.old o ho, bindings_part]
  refine h.of_extends hf hw hg hb.extension ?_ (fun o ho => (hb.new o ho).operators) ?_
  · exact fun o ho p => ⟨[], hbound o (has_of_type ho) p, by simp⟩
  · intro o x c hx
    by_cases ho : s.HasObject o
    · rw [hbound o ho] at hx
      exact hg.stores (hw.hasCell_of_mem hx) (h.stored o x c hx)
    · rw [bindings_part, Object.bindings, (hb.new o ho).fields] at hx
      cases hx

/-- A name other than that of a field is bound. -/
theorem bind (ht : s.Holds t) (hfree : s.local? t name = none) (hfield : ∀ o, t ≠ .part o .fields)
    (hmaking : ∀ o p, t = .part o p →
      s.type o = none ∨ p = .operators ∧ name = "()" ∨ p = .members ∧ root ∈ s.levels o) :
    (s.bind t name c).Classed root := by
  have hg := s.bind_grows c ht hfree
  have hbound := fun x => s.bindings_bind t name c x ht
  refine h.of_extends hf hw hg (.bind s t name c) ?_ ?_ ?_
  · intro o ho p
    by_cases heq : TableId.part o p = t
    · refine ⟨[(name, c)], by rw [hbound, if_pos heq]; rfl, ?_⟩
      intro x hx
      rw [List.mem_singleton.mp hx]
      exact (hmaking o p heq.symm).resolve_left ho
    · exact ⟨[], by rw [hbound, if_neg heq]; rfl, by simp⟩
  · intro o ho x hx
    rw [hbound, if_neg] at hx
    · rw [bindings_part, object_of_not_has ho] at hx
      cases hx
    · rintro rfl
      exact ho ht
  · intro o x c' hx
    rw [hbound, if_neg fun heq => hfield o heq.symm] at hx
    exact hg.stores (hw.hasCell_of_mem hx) (h.stored o x c' hx)

/-- A field is filled on a level in the making. -/
theorem bindField (ho : s.HasObject o) (hfree : s.local? (.part o .fields) name = none)
    (htype : s.type o = none) (hc : (s.cell c).Stores) :
    (s.bind (.part o .fields) name c).Classed root := by
  have hg := s.bind_grows c (ho.holds .fields) hfree
  have hbound := fun x => s.bindings_bind (.part o .fields) name c x (ho.holds .fields)
  refine h.of_extends hf hw hg (.bind s _ name c) ?_ ?_ ?_
  · intro x hx p
    refine ⟨[], ?_, by simp⟩
    rw [hbound, if_neg]
    · rfl
    · rintro ⟨⟩
      exact hx htype
  · intro x hx b hb
    rw [hbound, if_neg (by simp), bindings_part, object_of_not_has hx] at hb
    cases hb
  · intro x n i hi
    rw [cell_bind]
    rw [hbound] at hi
    split at hi
    · rcases List.mem_cons.mp hi with heq | hi
      · cases heq
        exact hc
      · exact h.stored x n i hi
    · exact h.stored x n i hi

/-- An instance is finished once its level is as its class asks for it. -/
theorem settle {c : ObjectId} (ho : s.HasObject o) (hmaking : s.Unsettled root o)
    (hc : s.kind c = .ofClass b) (hlevel : s.Level o b) : (s.settle o c).Classed root := by
  have hg := s.settle_grows o c
  have halike := (wearFace_alike s o).trans (setType_alike _ o c)
  have hbound : (s.settle o c).bindings = s.bindings := halike.bindings_eq
  have htype := s.type_settle c ho
  -- No level lies on one that is in the making.
  have hbase : ∀ x l, s.base x = some l → (s.settle o c).type l = s.type l := by
    intro x l hl
    rw [htype, if_neg]
    rintro rfl
    exact (hf.supported x l (mem_below_of_base hl)).1 hmaking.type
  refine ⟨?_, ?_, ?_, ?_⟩
  · intro x l hl
    have hsame : s.base x = some l := by rw [base, ← s.below_settle o c, ← base, hl]
    rw [below_settle, levels_settle, h.stacked x l hsame]
  · intro x hx
    by_cases hxo : x = o
    · subst hxo
      refine ⟨c, b, by rw [htype, if_pos rfl], hg.kind_of_ne hc (by simp), ?_⟩
      exact hlevel.mono hw hg ho (fun p => ⟨[], by rw [hbound]; rfl, by simp⟩) (hbase x)
    · have hbefore : s.Finished root x := by
        rw [Finished, htype, if_neg hxo, levels_settle] at hx
        exact hx
      obtain ⟨c', b', htype', hkind, hlevel'⟩ := h.level x hbefore
      refine ⟨c', b', by rw [htype, if_neg hxo, htype'], hg.kind_of_ne hkind (by simp), ?_⟩
      exact hlevel'.mono hw hg hbefore.has (fun p => ⟨[], by rw [hbound]; rfl, by simp⟩) (hbase x)
  · intro x hx hroot b' hb'
    rw [below_settle] at hroot
    rw [hbound] at hb'
    refine h.rooted x ?_ hroot b' hb'
    rw [htype] at hx
    split at hx
    · next heq =>
      subst heq
      exact absurd (mem_levels_of_below hroot) hmaking.apart
    · exact hx
  · intro x n i hi
    rw [hbound] at hi
    exact hg.stores (hw.hasCell_of_mem hi) (h.stored x n i hi)

end Classed

end Store

end ObjectLang
