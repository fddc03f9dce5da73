import ObjectLang.Proofs.Machine.Steady
import ObjectLang.Proofs.Runs

/-!
What an instance is made of.
A class has a lineage that ends in `Object`, since every superclass is older. An instance has one
new level for each class of that lineage, filled with exactly what the class lists, whatever code
the initialisers ran in between.
-/
namespace ObjectLang

open Machine Routine

namespace Store

variable {W : Stock} {s : Store} {c : ObjectId} {cs cs' : List ObjectId}

/-- The induction is on the age of the class. -/
theorem Sound.lineage (h : s.Sound W) {b : Blueprint} (hc : s.kind c = .ofClass b) :
    ∃ cs, s.Lineage c cs := by
  induction hage : c.index using Nat.strongRecOn generalizing c b with
  | ind age ih =>
    cases hbase : b.base with
    | none => exact ⟨[c], .last hc hbase⟩
    | some base =>
      obtain ⟨hlt, b', hb'⟩ := h.bases c b hc base hbase
      obtain ⟨cs, hcs⟩ := ih base.index (hage ▸ hlt) hb' rfl
      exact ⟨c :: cs, .derived hc hbase hcs⟩

theorem Lineage.unique (h : s.Lineage c cs) (h' : s.Lineage c cs') : cs = cs' := by
  induction h generalizing cs' with
  | last hc hb =>
    cases h' with
    | last _ _ => rfl
    | derived hc' hb' _ =>
      cases hc.symm.trans hc'
      cases hb.symm.trans hb'
  | derived hc hb _ ih =>
    cases h' with
    | last hc' hb' =>
      cases hc.symm.trans hc'
      cases hb.symm.trans hb'
    | derived hc' hb' h' =>
      cases hc.symm.trans hc'
      cases hb.symm.trans hb'
      rw [ih h']

/-- A lineage ends in a class that has no superclass. -/
theorem Lineage.last_top (h : s.Lineage c cs) :
    ∃ top b, cs.getLast? = some top ∧ s.kind top = .ofClass b ∧ b.base = none := by
  induction h with
  | @last c b hc hb => exact ⟨c, b, rfl, hc, hb⟩
  | @derived c base b cs hc hb hrest ih =>
    obtain ⟨top, b', hlast, hkind, hbase⟩ := ih
    refine ⟨top, b', ?_, hkind, hbase⟩
    rw [List.getLast?_cons, hlast]
    rfl

end Store

/-- The operators and members of each level go on to those of the next one. -/
theorem Chain.outer_eq {s : Store} {n : Nat} {face : ObjectId} {t : List Moment}
    {cs ls : List ObjectId} (h : Chain s n face t cs ls) {l : ObjectId} (hl : l ∈ ls) {p : Part}
    (hp : p ≠ .fields) :
    s.outer (.part l p) =
      ((s.base l).map fun b => .part b p :: s.outer (.part b p)).getD [] := by
  have houter (o : ObjectId) : s.outer (.part o p) = (s.object o).below.map (.part · p) := by
    cases p with
    | fields => exact absurd rfl hp
    | operators => rfl
    | members => rfl
  induction h with
  | nil => cases hl
  | @cons c l' cs ls h rest ih =>
    rcases List.mem_cons.mp hl with rfl | hl
    · rw [houter, Store.base, h.below]
      cases rest with
      | nil => rfl
      | cons hnext _ =>
        rw [List.head?_cons, Option.map_some, Option.getD_some, houter, hnext.below]
        rfl
    · exact ih hl

namespace Machine

/-- All that a run ever instantiates is a payload. -/
theorem After.payload {sources : List Source} {m : Machine} (h : After sources m) {d : Nat}
    {src : Source} {p : Moment} (hp : p ∈ (Eval.runSource (.ofDepth d) src).moments m)
    {c : ObjectId} {kind : Kind} (hdeed : p.deed = .instantiates c kind) :
    p.machine.store.Payload .any kind := by
  have hhonest := (h.honest hp).1
  rwa [Moment.Honest, hdeed] at hhonest

/-- What is instantiated is a class. -/
theorem instantiate_class {k : Inner} {c o : ObjectId} {kind : Kind} {m m' : Machine}
    (h : Eval.instantiate k c kind m = .done o m') : ∃ b, m.store.kind c = .ofClass b := by
  cases hc : m.store.kind c with
  | ofClass b => exact ⟨b, rfl⟩
  | _ =>
    have hfails : Eval.instantiate k c kind m =
        .failed (.fault (.notClass (m.store.describe c))) m := by
      simp [Eval.instantiate, Eval.blueprint, bind_run, touch, see, fail, quiet, hc]
    rw [hfails] at h
    cases h

/-- Whatever a run instantiates is a payload. An instance of a class with a payload, made in any
state that a run comes by, has one new level for each class of the lineage, which ends in `Object`.
A level has the type of its class and the instance as its face; the top one holds the payload and
the others are plain. It binds what the class lists and nothing else, and its operators and members
go on to those of the next level. Its fields are filled in order: each is initialised once, and
until it is bound the level has exactly the fields before it. In between the initialiser is
evaluated once, in an activation of its own, and the field is bound to what it gives. -/
theorem instance_chain :
    (∀ sources m, After sources m → ∀ d src,
      ∀ p ∈ (Eval.runSource (.ofDepth d) src).moments m,
        ∀ c kind, p.deed = .instantiates c kind → p.machine.store.Payload .any kind) ∧
    ∀ m, Reachable m → ∀ d c kind, m.store.Payload .any kind →
      ∀ o m', Eval.instantiate (.ofDepth d) c kind m = .done o m' →
      ∃ cs i object, m.store.Lineage c cs ∧ cs.getLast? = some object ∧
        m.store.local? m.builtins "Object" = some i ∧ m.store.cell i = .const object ∧
        ¬ m.store.HasObject o ∧
        Chain m'.store m.store.objects.size o ((Eval.instantiate (.ofDepth d) c kind).moments m)
          cs (m'.store.levels o) ∧
        m'.store.kind o = kind ∧ (∀ l ∈ (m'.store.object o).below, m'.store.kind l = .plain) ∧
        (∀ l ∈ m'.store.levels o, ∀ p, p ≠ .fields → m'.store.outer (.part l p) =
          ((m'.store.base l).map fun b => .part b p :: m'.store.outer (.part b p)).getD []) ∧
        ∀ m₁ t m₂, (Eval.instantiate (.ofDepth d) c kind).Stretch m m₁ t m₂ →
          ∀ l, (∀ w ∈ t, ∀ name i, w.deed ≠ .fills l name i) →
            m₂.store.fieldNames l = m₁.store.fieldNames l := by
  refine ⟨fun _ _ h d src p hp c kind hdeed => h.payload hp hdeed, ?_⟩
  intro m hm d c kind hkind o m' hrun
  have hgoes := Eval.instantiate_goes (good_ofDepth .any d) hm.ready (c := c) hkind
  obtain ⟨hpath, -, hbuilt⟩ := hgoes.done hrun
  have hon := hpath.onward hm.ready
  obtain ⟨cs', hlineage', hchain⟩ := hbuilt.chain
  obtain ⟨b, hb⟩ := instantiate_class hrun
  obtain ⟨cs, hlineage⟩ := hm.sound.store.lineage hb
  obtain rfl := (hlineage.mono hon.grows).unique hlineage'
  obtain ⟨i, object, b₀, hi, hcell, hkind₀, hbase₀⟩ := hm.sound.object
  obtain ⟨top, b₁, hlast, hkind₁, hbase₁⟩ := hlineage.last_top
  obtain rfl := hm.sound.store.lone object top b₀ b₁ hkind₀ hkind₁ hbase₀ hbase₁
  refine ⟨cs, i, object, hlineage, hlast, hi, hcell, ?_, hchain, hbuilt.kind, hbuilt.plain,
    fun l hl p hp => hchain.outer_eq hl hp, ?_⟩
  · exact Nat.not_lt.mpr (hbuilt.new o (List.mem_cons_self ..))
  · intro m₁ t m₂ hstretch l hfills
    obtain ⟨hpath', hm₁⟩ := hstretch.path hm.sound hgoes.path fun _ hend => (hgoes.ended hend).1
    rw [Store.fieldNames, Store.fieldNames, hpath'.fields_eq hm₁.ready hfills]

/-- The one field of a class that is declared over another one: its initialiser calls a method of
the level below, and what that gives is the value of the field. -/
theorem instance_chain_counter : ∃ m c o m' cs b f u i v, After [counterSource] m ∧
    Eval.instantiate (.ofDepth 16) c .plain m = .done o m' ∧ m.store.Lineage c cs ∧
    Chain m'.store m.store.objects.size o ((Eval.instantiate (.ofDepth 16) c .plain).moments m)
      cs (m'.store.levels o) ∧
    m'.store.kind c = .ofClass b ∧ b.vals = [f] ∧
    u <:+: (Eval.instantiate (.ofDepth 16) c .plain).moments m ∧ FieldRun b o .const f u i v ∧
    m'.store.local? (.part o .fields) "y" = some i ∧ m'.store.cell i = .const v ∧
    m'.store.kind v = .integer 2 := by
  obtain ⟨m, hend, a, -, c, -, ⟨b, hb, -, f, hf, hname⟩, -, o, m', hmade, -, i, hi, v, hv, htwo⟩ :=
    counter_classes
  have hafter : After [counterSource] m := .next .start 16 counterSource hend
  have hm : Reachable m := .between hafter
  obtain ⟨cs, -, -, hlineage, -, -, -, -, hchain, -⟩ :=
    instance_chain.2 m hm 16 c .plain (Store.payload_plain _ _) o m' hmade
  have hgoes := Eval.instantiate_goes (good_ofDepth .any 16) hm.ready (c := c)
    (Store.payload_plain _ _)
  have hgrows := ((hgoes.done hmade).1.onward hm.ready).grows
  obtain ⟨b', hb', -, hfilled⟩ := (hchain.top hlineage).filled
  cases (hgrows.kind_of_ne hb (by simp)).symm.trans hb'
  obtain ⟨u, i', v', hinfix, hrun, hi', hv'⟩ := hfilled.vals f (by simp [hf])
  rw [hname] at hi'
  cases hi.symm.trans hi'
  cases hv.symm.trans (hv' rfl)
  exact ⟨m, c, o, m', cs, b, f, u, i, v, hafter, hmade, hlineage, hchain, hb', hf, hinfix, hrun, hi,
    hv, htwo⟩

end Machine

end ObjectLang
