import ObjectLang.Proofs.MethodResolution

/-!
The fields of a level, seen from its own code.
Code of a level reaches the fields of the level through the object that it works for. It does so as
soon as the object is finished, whatever lies above the level; the level on top sees its own fields
from the start. But while a level further up is still in the making, the levels below wear another
face, and to their code the fields are unknown.
-/
namespace ObjectLang

open Machine Routine

namespace Store

variable {W : Stock} {R : TableId} {root o l : ObjectId} {s : Store} {name : String} {c : CellId}

/-- Code of the level `l` is taken for code of the object `o`. -/
def Trusted (s : Store) (l o : ObjectId) : Prop := l = o ∨ s.face l = o

instance (s : Store) (l o : ObjectId) : Decidable (s.Trusted l o) :=
  inferInstanceAs (Decidable (_ ∨ _))

/-- A name that is no member of an instance leads to the field of the level, or nowhere. -/
theorem lookupIn_own_field (hs : s.Proper R root) (ho : root ∉ s.levels o)
    (hfield : s.local? (.part l .fields) name = some c)
    (hmember : s.lookup (.part o .members) name = none) :
    s.lookupIn (s.memberScope l o) name = if s.Trusted l o then some c else none := by
  rw [memberScope_of_not_definition (hs.not_definition ho), lookupIn, List.findSome?_cons, hmember]
  by_cases htrusted : l = o ∨ s.face l = o
  · rw [if_pos htrusted, if_pos (show s.Trusted l o from htrusted)]
    simp only [List.findSome?_singleton, lookup_of_local? hfield]
  · rw [if_neg htrusted, if_neg (show ¬ s.Trusted l o from htrusted)]
    rfl

/-- What is in the making is trusted by itself alone. -/
theorem Faced.trusted_of_making (h : s.Faced root) (htype : s.type o = none) :
    s.Trusted l o ↔ l = o := by
  refine ⟨fun htrusted => htrusted.elim id fun hface => ?_, Or.inl⟩
  apply Classical.byContradiction
  intro hne
  apply h.made l
  · rw [hface]
    exact Ne.symm hne
  · rw [hface, htype]

end Store

namespace Eval

variable {m : Machine} {o : ObjectId} {c : CellId} {name : String} {d : Nat}

/-- As the member `name` of an object, the cell is read for what it holds, and assigned if it is a
variable. Nothing else happens. -/
structure Reaches (d : Nat) (m : Machine) (o : ObjectId) (name : String) (c : CellId) : Prop where
  read : ∃ v m', getMember (.ofDepth (d + 1)) o name m = .done v m' ∧
    (m.store.cell c = .const v ∨ m.store.cell c = .var v) ∧ m.Retains m.store.objects.size m'
  write : ∀ old v, m.store.cell c = .var old →
    setMember (.ofDepth d) o name v m = .done () { m with store := m.store.assign c v } ∧
      (m.store.assign c v).cell c = .var v

/-- An object has no member of the name. -/
structure Misses (d : Nat) (m : Machine) (o : ObjectId) (name : String) : Prop where
  read : ∃ m', getMember (.ofDepth (d + 1)) o name m = .failed (.fault (.unknownName name)) m' ∧
    m.Retains m.store.objects.size m'
  write : ∀ v, setMember (.ofDepth d) o name v m = .failed (.fault (.unknownName name)) m

section Outcomes

variable {W : Stock} {a : Activation} (hm : m.Literate W) (ha : m.stack.head? = some a)
  (ho : m.store.HasObject o) (hkind : ∀ l, m.store.kind o ≠ .method l .memberRead)
  (hplain : m.store.Transparent o)

include hm ha ho hkind hplain

theorem reaches_of_lookup
    (hc : m.store.lookupIn (m.store.memberScope a.owner o) name = some c)
    (hstores : (m.store.cell c).Stores) : Reaches d m o name c := by
  obtain ⟨b, m₁, hwithin, hget⟩ := getMember_run hm ha ho hkind hplain d name
  have hcell := Store.hasCell_of_lookupIn hm.store.toWellformed hc
  have hleave : m.Retains m.store.objects.size m₁.leave := hwithin.leave (.refl _ _)
  refine ⟨?_, fun old v hold => ⟨?_, ?_⟩⟩
  · -- What is found holds a value by itself, so that no code runs.
    obtain ⟨v, hv, hread⟩ : ∃ v, (m.store.cell c = .const v ∨ m.store.cell c = .var v) ∧
        readCell (.ofDepth d) c (some o) m₁ = .done v m₁ := by
      have hsame := hwithin.store.cells c hcell
      cases hvalue : m.store.cell c with
      | const v =>
        exact ⟨v, Or.inl rfl, by simp [readCell, bind_run, see, quiet, hsame, hvalue, pure_run]⟩
      | var v =>
        exact ⟨v, Or.inr rfl, by simp [readCell, bind_run, see, quiet, hsame, hvalue, pure_run]⟩
      | computed g s =>
        rw [hvalue] at hstores
        cases hstores
      | view x =>
        rw [hvalue] at hstores
        cases hstores
    refine ⟨v, m₁.leave, ?_, hv, hleave⟩
    rw [hget, hc]
    simp only [ensuring, ending, hread]
  · rw [setMember_run (by rw [← List.head?_eq_getElem?, ha]), hc]
    simp [writeCell, bind_run, see, quiet, hold, change]
  · rw [Store.cell_assign, if_pos rfl, hold]

theorem misses_of_lookup (hc : m.store.lookupIn (m.store.memberScope a.owner o) name = none) :
    Misses d m o name := by
  obtain ⟨b, m₁, hwithin, hget⟩ := getMember_run hm ha ho hkind hplain d name
  refine ⟨⟨m₁.leave, by rw [hget, hc], hwithin.leave (.refl _ _)⟩, fun v => ?_⟩
  rw [setMember_run (by rw [← List.head?_eq_getElem?, ha]), hc]

end Outcomes

/-- `self` is a name like others. -/
theorem evaluate_self_member {a : Activation} (ha : m.stack.head? = some a) {i : CellId}
    (hi : m.store.lookupIn a.scopes "self" = some i) (ho : m.store.cell i = .const o) :
    evaluate (.ofDepth (d + 1)) (.member (.name "self") name) m =
      getMember (.ofDepth (d + 1)) o name m := by
  have hlookup : m.lookup "self" = some i := by rw [Machine.lookup, ha, Option.bind_some, hi]
  have hself : (Inner.ofDepth (d + 1)).evaluate (.name "self") m = .done o m := by
    simp only [Inner.ofDepth, evaluate, getName, readVia, readCell, bind_run, touch, Routine.read,
      see, quiet, hlookup, found, pure_run, ho]
  rw [evaluate, bind_run_done hself]

end Eval

namespace Machine

variable {m : Machine} {o : ObjectId} {c : CellId} {name : String}

/-- In every store that a run comes to, for an activation of any level of an instance whose members
are read in the ordinary way, and for a field of the level that is there and no member of the
instance: provided that the level is trusted, the field is read and written through the instance.
Otherwise it is unknown. Trusted are all levels of a finished instance, and of one in the making
only the topmost. -/
theorem own_fields_through_self (h : Reachable m) {a : Activation} {rest : List Activation}
    (hstack : ∀ b ∈ a :: rest, b.Fits m.store) (hinstance : m.roots.root ∉ m.store.levels o)
    (hlevel : a.owner ∈ m.store.levels o) (hplain : m.store.Transparent o)
    (hfield : m.store.local? (.part a.owner .fields) name = some c)
    (hmember : m.store.lookup (.part o .members) name = none) (d : Nat) :
    (m.store.Trusted a.owner o → Eval.Reaches d { m with stack := a :: rest } o name c) ∧
    (¬ m.store.Trusted a.owner o → Eval.Misses d { m with stack := a :: rest } o name) ∧
    (m.store.Finished m.roots.root o → m.store.face o = o → m.store.Trusted a.owner o) ∧
    (m.store.type o = none → (m.store.Trusted a.owner o ↔ a.owner = o)) ∧
    ∀ i, m.store.lookupIn a.scopes "self" = some i → m.store.cell i = .const o →
      Eval.evaluate (.ofDepth (d + 1)) (.member (.name "self") name)
          { m with stack := a :: rest } =
        Eval.getMember (.ofDepth (d + 1)) o name { m with stack := a :: rest } := by
  have hproper := h.proper.store
  have horderly := h.orderly
  have hm : ({ m with stack := a :: rest } : Machine).Literate .any :=
    ⟨h.sound.withStack hstack m.sink m.log, h.literate.string⟩
  have hlookup := Store.lookupIn_own_field hproper hinstance hfield hmember
  have ho : m.store.HasObject o := by
    rcases List.mem_cons.mp hlevel with heq | hbelow
    · exact heq ▸ (hstack a (List.mem_cons_self ..)).owner
    · apply Classical.byContradiction
      intro hnot
      rw [Store.object_of_not_has hnot] at hbelow
      cases hbelow
  have hkind : ∀ l, m.store.kind o ≠ .method l .memberRead := fun l heq =>
    hproper.not_definition hinstance (by rw [heq]; trivial)
  refine ⟨fun htrusted => ?_, fun htrusted => ?_, fun hfinished hface => ?_, fun htype => ?_,
    fun i hi hself => ?_⟩
  · rw [if_pos htrusted] at hlookup
    refine Eval.reaches_of_lookup hm rfl ho hkind hplain hlookup ?_
    exact horderly.classed.stored a.owner name c (Store.Wellformed.local?_mem hfield)
  · rw [if_neg htrusted] at hlookup
    exact Eval.misses_of_lookup hm rfl ho hkind hplain hlookup
  · exact Or.inr (((horderly.faced.face_of_finished hfinished).2 _ hlevel).trans hface)
  · exact horderly.faced.trusted_of_making htype
  · exact Eval.evaluate_self_member rfl hi hself

section Witness

def initialisingSource : Source :=
  .ofText ("class A \x7b var x; method f() \x7b self.x \x7d \x7d;" ++
  "class C : A \x7b \x7d; val c = C(); class B : A \x7b val y = self.f() \x7d; B()")

instance decideTransparent {s : Store} {o : ObjectId} : Decidable (s.Transparent o) :=
  decidable_of_iff (∃ c, s.lookup (.part o .operators) "." = some c ∧ ∃ f, s.cell c = .const f ∧
      ∃ l code, s.kind f = .method l code ∧ code = ⟨".", .fixed ["name"], .primitive .member, none⟩)
    ⟨fun ⟨c, hc, f, hf, l, _, hkind, hcode⟩ =>
        ⟨c, f, l, hc, hf, by rw [Store.MethodOf, hkind, hcode]; rfl⟩,
      fun ⟨c, f, l, hc, hf, hmethod⟩ => ⟨c, hc, f, hf, l, _, hmethod, rfl⟩⟩

/-- The program fails, and the level below the instance of `C` has a field of its own. -/
theorem initialising_fails : ∃ e m,
    Eval.runSource (.ofDepth 32) initialisingSource initial = .failed e m ∧
    e.rootCause = .fault (.unknownName "x") ∧ ∃ c, m.lookup "c" = some c ∧
    ∃ o, m.store.cell c = .const o ∧ (m.store.type o ≠ none ∧ m.roots.root ∉ m.store.levels o) ∧
    m.store.face o = o ∧ m.store.Transparent o ∧ m.store.lookup (.part o .members) "x" = none ∧
    ∃ l, m.store.base o = some l ∧ ∃ x, m.store.local? (.part l .fields) "x" = some x := by
  decide +kernel

/-- The instance of `C` that is there when the program has failed lets code of the level below it
see the field of that level. -/
theorem own_fields_inherited : ∃ m o a c, Reachable m ∧ m.store.base o = some a.owner ∧
    m.store.local? (.part a.owner .fields) "x" = some c ∧
    Eval.Reaches 32 { m with stack := [a] } o "x" c := by
  obtain ⟨e, m, hrun, -, -, -, o, -, ⟨htype, hroot⟩, hface, hplain, hnone, l, hbase, c, hc⟩ :=
    initialising_fails
  have ho : m.store.Finished m.roots.root o := ⟨htype, hroot⟩
  have h : Reachable m := .between (.next .start 32 initialisingSource (by rw [hrun]; rfl))
  have hl : l ∈ m.store.levels o := Store.mem_levels_of_below (List.mem_of_head? hbase)
  let a : Activation := ⟨l, "", [], m.builtins, []⟩
  have hfits : ∀ b ∈ [a], b.Fits m.store := by
    intro b hb
    obtain rfl := List.mem_singleton.mp hb
    exact ⟨(h.orderly.faced.bounded o ho.has).2 l hl, by simp [a], h.sound.builtins⟩
  obtain ⟨hreaches, -, htrusted, -⟩ := own_fields_through_self h hfits ho.2 hl hplain hc hnone 32
  exact ⟨m, o, a, c, h, hbase, hc, hreaches (htrusted ho hface)⟩

/-- While an instance of `B` is in the making, the method that `A` declares does not find the field
that `A` declares. -/
theorem own_field_unknown_in_making : ∃ e m,
    Eval.runSource (.ofDepth 32) initialisingSource initial = .failed e m ∧
      e.rootCause = .fault (.unknownName "x") := by
  obtain ⟨e, m, hrun, hcause, -⟩ := initialising_fails
  exact ⟨e, m, hrun, hcause⟩

end Witness

end Machine

end ObjectLang
