import ObjectLang.Proofs.Machine.Path
import ObjectLang.Proofs.Store.Distinct

/-!
What is made abides, and objects stay as their classes ask for.
Every move and every deed of a machine keeps faces and levels in order and names distinct, and
leaves what is made as it is; so does every path.
-/
namespace ObjectLang

namespace Machine

/-- On the way from `m` to `m'` faces stay in order, and what was made at `m` stays as it was. -/
structure Abides (m m' : Machine) : Prop where
  faced : m'.store.Faced m'.roots.root
  lasts : m.store.Lasts m.roots.root m'.store
  roots : m'.roots = m.roots

namespace Abides

variable {m m' m'' : Machine} {s : Store}

variable (h : m.store.Faced m.roots.root)
include h

theorem of_store (hstore : m'.store = m.store) (hroots : m'.roots = m.roots) : Abides m m' := by
  refine ⟨?_, ?_, hroots⟩
  · rw [hstore, hroots]
    exact h
  · rw [hstore]
    exact .refl _

theorem refl : Abides m m := of_store h rfl rfl

omit h in
theorem trans (h : Abides m m') (h' : Abides m' m'') : Abides m m'' := by
  refine ⟨h'.faced, h.lasts.trans ?_, h'.roots.trans h.roots⟩
  rw [← h.roots]
  exact h'.lasts

/-- The objects that were there are the same. -/
theorem of_bears (hg : m.store.Grows s) (hb : m.store.Bears m.roots.root s) :
    Abides m { m with store := s } := ⟨h.of_extends hb.extension, .of_old hg hb.old, rfl⟩

theorem bind {t : TableId} {name : String} {c : CellId} (ht : m.store.Holds t)
    (hfree : m.store.refusal? t name = none)
    (hmaking : ∀ o p, t = .part o p → ¬ m.store.Complete o) :
    Abides m { m with store := m.store.bind t name c } :=
  ⟨h.of_extends (.bind m.store t name c), .bind c ht (Store.free_of_refusal? hfree) hmaking, rfl⟩

theorem pop : Abides m m.pop := by
  rw [Machine.pop]
  split <;> exact of_store h rfl rfl

theorem modifyTop (f : Activation → Activation) : Abides m (m.modifyTop f) := by
  rw [Machine.modifyTop]
  split <;> exact of_store h rfl rfl

end Abides

structure Orderly (m : Machine) : Prop where
  faced : m.store.Faced m.roots.root
  classed : m.store.Classed m.roots.root
  distinct : m.store.Distinct

namespace Orderly

variable {W : Stock} {m m' : Machine}

variable (h : Orderly m)
include h

theorem of_store (hstore : m'.store = m.store) (hroots : m'.roots = m.roots) : Orderly m' := by
  refine ⟨?_, ?_, ?_⟩
  · rw [hstore, hroots]
    exact h.faced
  · rw [hstore, hroots]
    exact h.classed
  · rw [hstore]
    exact h.distinct

theorem pop : Orderly m.pop := by
  rw [Machine.pop]
  split <;> exact h.of_store rfl rfl

theorem modifyTop (f : Activation → Activation) : Orderly (m.modifyTop f) := by
  rw [Machine.modifyTop]
  split <;> exact h.of_store rfl rfl

theorem of_bears (hm : m.Sound W) {s : Store} (hg : m.store.Grows s)
    (hb : m.store.Bears m.roots.root s) (hdistinct : s.Distinct) :
    Orderly { m with store := s } :=
  ⟨h.faced.of_extends hb.extension, h.classed.of_bears h.faced hm.store.toWellformed hg hb,
    hdistinct⟩

end Orderly

end Machine

open Machine

variable {W : Stock} {n : Nat} {m m' : Machine} {t : List Moment}

theorem Move.abides (h : Move W n m m') (hm : m.store.Faced m.roots.root) : Abides m m' := by
  cases h with
  | cell _ _ => exact .of_bears hm (m.store.newCell_grows _) (.of_objects rfl fun _ => rfl)
  | table => exact .of_bears hm (m.store.newTable_grows _) (.of_objects rfl fun _ => rfl)
  | object _ _ _ hlies => exact .of_bears hm (m.store.newObject_grows _ _) (.newObject hlies _)
  | rooted _ _ _ =>
    exact .of_bears hm (m.store.rooted_grows _ _ _) (.addRooted hm.based _ _)
  | newClass _ _ _ => exact .of_bears hm (m.store.addClass_grows _ _) (.addClass hm.based _)
  | bind ht _ _ hfree _ htakes _ => exact .bind hm ht hfree (htakes.not_complete hfree)
  | settle ho _ _ hmaking _ =>
    exact ⟨hm.settle ho hmaking _, .settle (hm.bounded _ ho).2 hmaking, rfl⟩
  | pop => exact .pop hm
  | openScope _ => exact .modifyTop hm _
  | closeScope => exact .modifyTop hm _
  | record names _ _ => exact .modifyTop hm _
  | _ => exact .of_store hm rfl rfl

/-- A field is filled on a level in the making only. -/
theorem Moment.abides {p : Moment} (h : p.Honest W n) (hsound : p.machine.Sound W)
    (hm : p.machine.store.Faced p.machine.roots.root) : Abides p.machine p.after := by
  obtain ⟨deed, m⟩ := p
  cases deed with
  | writes via c v => exact .of_bears hm (m.store.assign_grows c v) (.of_objects rfl fun _ => rfl)
  | captures a =>
    obtain ⟨hadds, -⟩ := Store.captureActivation_adds hsound.store (hsound.head h)
    exact .of_bears hm hadds.grows (.of_objects (congrArg Heap.size hadds.objects)
      fun o => congrFun hadds.object_eq o)
  | fills o name c =>
    obtain ⟨-, ho, -, -, htype, -⟩ := h
    simp only [after]
    split
    · next hrefusal =>
      refine .bind hm (ho.holds _) hrefusal ?_
      rintro _ _ ⟨⟩
      exact Store.not_complete_of_type htype
    · exact .refl hm
  | _ => exact .refl hm

theorem Path.abides (h : Path W n m t m') (hready : Ready W n m)
    (hm : m.store.Faced m.roots.root) : Abides m m' := by
  induction h with
  | stay m => exact .refl hm
  | move h _ ih =>
    have hfirst := h.abides hm
    exact hfirst.trans (ih ((h.onward hready).ready hready) hfirst.faced)
  | pass h _ ih =>
    have hfirst := Moment.abides h hready.sound hm
    exact hfirst.trans (ih ((Moment.onward h hready.sound).ready hready) hfirst.faced)

theorem Move.orderly (h : Move W n m m') (hm : m.Sound W) (ho : Orderly m) : Orderly m' := by
  have habides := h.abides ho.faced
  have hw := hm.store.toWellformed
  have hf := ho.faced
  have hc := ho.classed
  have hd := ho.distinct
  cases h with
  | cell _ _ =>
    exact ho.of_bears hm (m.store.newCell_grows _) (.of_objects rfl fun _ => rfl) (hd.newCell _)
  | table =>
    exact ho.of_bears hm (m.store.newTable_grows _) (.of_objects rfl fun _ => rfl)
      (hd.newTable .nil)
  | object _ _ _ hlies =>
    exact ho.of_bears hm (m.store.newObject_grows _ _) (.newObject hlies _) (hd.newObject _ _)
  | rooted _ _ _ =>
    exact ho.of_bears hm (m.store.rooted_grows _ _ _) (.addRooted hf.based _ _) (hd.rooted _ _ _)
  | newClass _ _ _ =>
    exact ho.of_bears hm (m.store.addClass_grows _ _) (.addClass hf.based _) (hd.addClass _ _)
  | bind ht hfield _ hfree _ htakes _ =>
    have hunbound := Store.free_of_refusal? hfree
    refine ⟨habides.faced, hc.bind hf hw ht hunbound hfield ?_, hd.bind _ ht hunbound⟩
    intro o p hp
    exact (htakes o p hp).imp_right fun ⟨hpart, hname, _⟩ => Or.inl ⟨hpart, hname⟩
  | settle hhas htype _ hmaking hlevel =>
    exact ⟨habides.faced, hc.settle hf hw hhas hmaking htype hlevel, hd.settle _ _⟩
  | pop => exact ho.pop
  | openScope _ => exact ho.modifyTop _
  | closeScope => exact ho.modifyTop _
  | record names _ _ => exact ho.modifyTop _
  | _ => exact ho.of_store rfl rfl

theorem Moment.orderly {p : Moment} (h : p.Honest W n) (hm : p.machine.Sound W)
    (ho : Orderly p.machine) : Orderly p.after := by
  have habides := Moment.abides h hm ho.faced
  obtain ⟨deed, m⟩ := p
  cases deed with
  | writes via c v =>
    exact ho.of_bears hm (m.store.assign_grows c v) (.of_objects rfl fun _ => rfl)
      (ho.distinct.assign c v)
  | captures a =>
    obtain ⟨hadds, -⟩ := Store.captureActivation_adds hm.store (hm.head h)
    exact ho.of_bears hm hadds.grows (.of_objects (congrArg Heap.size hadds.objects)
      fun o => congrFun hadds.object_eq o) (ho.distinct.captureActivation a)
  | fills o name c =>
    obtain ⟨-, hhas, -, -, htype, hstores⟩ := h
    simp only [after] at habides ⊢
    split
    · next hrefusal =>
      rw [hrefusal] at habides
      have hfree := Store.free_of_refusal? hrefusal
      exact ⟨habides.faced,
        ho.classed.bindField ho.faced hm.store.toWellformed hhas hfree htype hstores,
        ho.distinct.bind c (hhas.holds _) hfree⟩
    · exact ho
  | _ => exact ho

theorem Path.orderly (h : Path W n m t m') (hm : Ready W n m) (ho : Orderly m) : Orderly m' := by
  induction h with
  | stay m => exact ho
  | move h _ ih => exact ih ((h.onward hm).ready hm) (h.orderly hm.sound ho)
  | pass h _ ih =>
    exact ih ((Moment.onward h hm.sound).ready hm) (Moment.orderly h hm.sound ho)

end ObjectLang
