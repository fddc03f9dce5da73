import ObjectLang.Proofs.Store.Retains
import ObjectLang.Proofs.Store.Simple
import ObjectLang.Proofs.Store.Sound

/-!
Names along the levels of an instance.
Each level binds what its class declares, so that a name is looked up in the class of the instance
and then in its superclasses, nearest first. From a level downwards the same holds of what is left.
-/
namespace ObjectLang

namespace Store

variable {W : Stock} {R : TableId} {root o l : ObjectId} {s : Store} {b : Blueprint} {p : Part}
  {name : String} {e : Entry}

/-- What the class of a level gives to it under a name. -/
def declared (s : Store) (l : ObjectId) (p : Part) (name : String) : Option Entry :=
  (s.type l).bind fun c =>
    match s.kind c with
    | .ofClass b => (b.entries p).find? (·.name = name)
    | _ => none

/-- What the classes of an object declare as members of a name, each with its level, the nearest
first. -/
def declarations (s : Store) (o : ObjectId) (name : String) : List (ObjectId × Entry) :=
  (s.levels o).filterMap fun l => (s.declared l .members name).map (l, ·)

/-- Fields are no members. -/
theorem not_field_of_declared (h : s.declared l .members name = some e) :
    ∀ f, e ≠ .val f ∧ e ≠ .var f := by
  obtain ⟨c, -, h⟩ := Option.bind_eq_some_iff.mp h
  split at h
  · next b _ =>
    have hmem := List.mem_of_find?_eq_some h
    simp only [Blueprint.entries, List.mem_append, List.mem_map] at hmem
    rintro f
    rcases hmem with ⟨code, -, rfl⟩ | ⟨p, -, rfl⟩ <;> simp
  · cases h

section Levels

theorem Level.local?_of_mem (h : s.Level l b) (hd : s.Distinct) (he : e ∈ b.entries p) :
    ∃ c, s.local? (.part l p) e.name = some c ∧ e.Bound s l c := by
  obtain ⟨own, given, heq, -, hgiven⟩ := h.lists p
  obtain ⟨x, hx, hname, hbound⟩ := exists_of_forall₂ hgiven he
  have hmem : (e.name, x.2) ∈ s.bindings (.part l p) := by
    rw [heq, ← hname]
    exact List.mem_append.mpr (Or.inr (List.mem_reverse.mp hx))
  exact ⟨x.2, hd.local?_of_mem hmem, hbound⟩

theorem Level.local?_eq_none (h : s.Level l b) (hname : ∀ e ∈ b.entries p, e.name ≠ name)
    (hcall : p = .operators → name ≠ "()") : s.local? (.part l p) name = none := by
  obtain ⟨own, given, heq, hown, hgiven⟩ := h.lists p
  rw [local?, List.lookup_eq_none_iff]
  intro x hx
  rw [heq] at hx
  have hne : name ≠ x.1 := by
    rintro rfl
    rcases List.mem_append.mp hx with hx | hx
    · exact hcall (hown x hx).1 (hown x hx).2
    · obtain ⟨e, he, heq, -⟩ := exists_of_forall₂ hgiven.flip (List.mem_reverse.mpr hx)
      exact hname e he heq.symm
  simpa using hne

/-- A level binds a name just when its class declares it, and then to what is declared. -/
theorem Classed.local?_declared (h : s.Classed root) (hd : s.Distinct) (hl : s.Finished root l)
    (p : Part) (name : String) (hcall : p = .operators → name ≠ "()") :
    match s.declared l p name with
    | some e => ∃ c, s.local? (.part l p) name = some c ∧ e.Bound s l c
    | none => s.local? (.part l p) name = none := by
  obtain ⟨c, b, htype, hkind, hlevel⟩ := h.level l hl
  simp only [declared, htype, Option.bind_some, hkind]
  cases hfind : (b.entries p).find? (·.name = name) with
  | some e =>
    have hname := List.find?_some hfind
    obtain rfl : e.name = name := of_decide_eq_true hname
    exact hlevel.local?_of_mem hd (List.mem_of_find?_eq_some hfind)
  | none =>
    refine hlevel.local?_eq_none (fun e he hname => ?_) hcall
    exact List.find?_eq_none.mp hfind e he (decide_eq_true hname)

theorem Faced.finished_level (h : s.Faced root) (ho : s.Finished root o) (hl : l ∈ s.levels o) :
    s.Finished root l := by
  refine ⟨?_, fun hroot => ho.2 (h.nested o l hl root hroot)⟩
  rcases List.mem_cons.mp hl with rfl | hbelow
  · exact ho.1
  · exact (h.supported o l hbelow).1

/-- The classes of the levels of an instance are its class and the superclasses of that. -/
theorem Lineage.types {c : ObjectId} {cs : List ObjectId} (hcs : s.Lineage c cs)
    (h : s.Classed root) (hf : s.Faced root) (ho : s.Finished root o) (htype : s.type o = some c) :
    (s.levels o).map s.type = cs.map some := by
  induction hcs generalizing o with
  | last hc hb =>
    obtain ⟨c', b', htype', hc', hlevel⟩ := h.level o ho
    obtain rfl := Option.some.inj (htype.symm.trans htype')
    cases hc.symm.trans hc'
    have hbase := hlevel.base
    rw [hb, Option.map_none, Option.map_eq_none_iff, base, List.head?_eq_none_iff] at hbase
    simp [levels, hbase, htype]
  | derived hc hb _ ih =>
    obtain ⟨c', b', htype', hc', hlevel⟩ := h.level o ho
    obtain rfl := Option.some.inj (htype.symm.trans htype')
    cases hc.symm.trans hc'
    have hbase := hlevel.base
    rw [hb, Option.map_some, Option.map_eq_some_iff] at hbase
    obtain ⟨l, hl, hltype⟩ := hbase
    have hmem : l ∈ s.levels o := mem_levels_of_below (List.mem_of_head? hl)
    rw [levels, h.stacked o l hl, List.map_cons, List.map_cons, htype,
      ih (hf.finished_level ho hmem) hltype]

/-- A chain goes on below each of its levels as that level's own chain does. -/
theorem Classed.below_of_levels (h : s.Classed root) {before after : List ObjectId}
    (heq : s.levels o = before ++ l :: after) : (s.object l).below = after := by
  induction before generalizing o with
  | nil =>
    obtain ⟨rfl, hbelow⟩ := List.cons.inj heq
    exact hbelow
  | cons x before ih =>
    obtain ⟨rfl, hbelow⟩ := List.cons.inj heq
    cases hbase : s.base o with
    | none =>
      rw [base, List.head?_eq_none_iff] at hbase
      simp [hbase] at hbelow
    | some y => exact ih ((h.stacked o y hbase).symm.trans hbelow)

theorem Classed.nodup_levels (h : s.Classed root) (hf : s.Faced root) (o : ObjectId) :
    (s.levels o).Nodup := by
  induction hage : o.index using Nat.strongRecOn generalizing o with
  | ind age ih =>
    refine List.nodup_cons.mpr ⟨fun hmem => Nat.lt_irrefl _ (hf.older o o hmem), ?_⟩
    cases hbase : s.base o with
    | none =>
      rw [base, List.head?_eq_none_iff] at hbase
      rw [hbase]
      exact List.nodup_nil
    | some l =>
      have hlt := hf.older o l (List.mem_of_head? hbase)
      rw [h.stacked o l hbase]
      exact ih l.index (hage ▸ hlt) l rfl

end Levels

section Lookup

theorem lookup_part (s : Store) (o : ObjectId) (hp : p ≠ .fields) (name : String) :
    s.lookup (.part o p) name = (s.levels o).findSome? fun l => s.local? (.part l p) name := by
  have houter : s.outer (.part o p) = (s.object o).below.map (.part · p) := by
    cases p with
    | fields => exact absurd rfl hp
    | operators => rfl
    | members => rfl
  rw [lookup, houter, levels, List.findSome?_cons, List.findSome?_cons, List.findSome?_map]
  rfl

/-- A member is looked up by going through the declarations of the classes. -/
theorem Classed.lookup_members (h : s.Classed root) (hf : s.Faced root) (hd : s.Distinct)
    (ho : s.Finished root o) (name : String) :
    match (s.declarations o name).head? with
    | some (l, e) => ∃ c, s.lookup (.part o .members) name = some c ∧
        s.local? (.part l .members) name = some c ∧ e.Bound s l c
    | none => s.lookup (.part o .members) name = none := by
  have hall : ∀ l ∈ s.levels o, s.Finished root l := fun l hl => hf.finished_level ho hl
  rw [s.lookup_part o (by simp), declarations]
  -- The induction is on the levels that are left.
  generalize s.levels o = ls at hall ⊢
  induction ls with
  | nil => rfl
  | cons l ls ih =>
    have hlocal := h.local?_declared hd (hall l (List.mem_cons_self ..)) .members name (by simp)
    cases hdecl : s.declared l .members name with
    | some e =>
      rw [hdecl] at hlocal
      obtain ⟨c, hc, hbound⟩ := hlocal
      simp only [List.filterMap_cons, hdecl, Option.map_some, List.head?_cons, List.findSome?_cons,
        hc]
      exact ⟨c, rfl, rfl, hbound⟩
    | none =>
      rw [hdecl] at hlocal
      simp only [List.filterMap_cons, hdecl, Option.map_none, List.findSome?_cons, hlocal]
      exact ih fun l hl => hall l (List.mem_cons_of_mem _ hl)

/-- Behind a declaration come those of the level below. -/
theorem Classed.declarations_below (h : s.Classed root) {before after : List (ObjectId × Entry)}
    (heq : s.declarations o name = before ++ (l, e) :: after) : l ∈ s.levels o ∧
      s.declared l .members name = some e ∧
      after = (s.object l).below.filterMap fun x => (s.declared x .members name).map (x, ·) := by
  obtain ⟨ls₁, rest, hlevels, -, hrest⟩ := List.filterMap_eq_append_iff.mp heq
  obtain ⟨ls₂, x, ls₃, rfl, -, hx, rfl⟩ := List.filterMap_eq_cons_iff.mp hrest
  obtain ⟨e', he', hpair⟩ := Option.map_eq_some_iff.mp hx
  obtain ⟨rfl, rfl⟩ := Prod.mk.inj hpair
  have hsplit : s.levels o = (ls₁ ++ ls₂) ++ x :: ls₃ := by rw [hlevels, List.append_assoc]
  refine ⟨?_, he', by rw [h.below_of_levels hsplit]⟩
  rw [hsplit]
  exact List.mem_append.mpr (Or.inr (List.mem_cons_self ..))

/-- What does not lie on the root is no definition. -/
theorem Proper.not_definition (hs : s.Proper R root) (ho : root ∉ s.levels o) :
    ¬ (s.kind o).Definition := by
  intro hkind
  rw [hs.levels_definition hkind] at ho
  simp at ho

/-- Of what is no definition the members are seen, and by code of its own the fields of a level. -/
theorem memberScope_of_not_definition (hkind : ¬ (s.kind o).Definition) (a : ObjectId) :
    s.memberScope a o =
      .part o .members :: if a = o ∨ s.face a = o then [.part a .fields] else [] := by
  have hscopes : s.isModule o = false ∧ s.publicScope o = [.part o .members] ∧
      s.privateScope o = [.part o .members, .part o .fields] := by
    rw [isModule, publicScope, privateScope]
    cases hk : s.kind o with
    | ofModule | moduleAlias => exact absurd (by rw [hk]; trivial) hkind
    | _ => exact ⟨rfl, rfl, rfl⟩
  obtain ⟨hmodule, hpublic, hprivate⟩ := hscopes
  rw [memberScope, hmodule, hpublic, hprivate]
  by_cases heq : a = o
  · simp [heq]
  · by_cases hface : s.face a = o <;> simp [heq, hface]

/-- Only the topmost class gives a level its operator to read members. -/
def Undisputed (s : Store) (o : ObjectId) : Prop :=
  ∀ l ∈ s.levels o, s.base l ≠ none → s.declared l .operators "." = none

theorem Undisputed.of_level (h : s.Undisputed o) (hf : s.Faced root) (hl : l ∈ s.levels o) :
    s.Undisputed l := fun x hx => h x (hf.nested o l hl x hx)

section Bottom

variable (h : s.Classed root) (hf : s.Faced root) (hd : s.Distinct) (hs : s.Sound W)
  (hhook : s.Hooked root) {code : Code} (hcode : code ∈ Builtin.objectBlueprint.operators)
include h hf hd hs hhook hcode

/-- The bottom of an object has the operators of all objects, unless it is in the making. -/
theorem Classed.bottom_operator (hhas : s.HasObject o) (ho : ¬ s.Formless o) :
    ∃ l ∈ s.levels o, s.base l = none ∧ ∃ c f,
      s.local? (.part l .operators) code.name = some c ∧ s.cell c = .const f ∧
      s.MethodOf l code f := by
  induction hage : o.index using Nat.strongRecOn generalizing o with
  | ind age ih =>
    cases hbase : s.base o with
    | some l =>
      have hmem := List.mem_of_head? hbase
      have htype := (hf.supported o l hmem).1
      obtain ⟨x, hx, hrest⟩ := ih l.index (hage ▸ hf.older o l hmem) (has_of_type htype)
        (fun hl => htype hl.2.1) rfl
      exact ⟨x, hf.nested o l (mem_levels_of_below hmem) x hx, hrest⟩
    | none =>
      have hbelow : (s.object o).below = [] := List.head?_eq_none_iff.mp hbase
      refine ⟨o, mem_levels_self s o, hbase, ?_⟩
      by_cases hroot : root ∈ s.levels o
      · rw [levels, hbelow, List.mem_singleton] at hroot
        obtain ⟨c, f, hc, hcell, hmethod, -⟩ := hhook.operator code hcode
        rw [← hroot]
        exact ⟨c, f, hc, hcell, hmethod⟩
      · -- It is an instance of the topmost class, and there is just one such class.
        have htype : s.type o ≠ none := fun htype => ho ⟨hhas, htype, hbelow⟩
        obtain ⟨c, b, -, hkind, hlevel⟩ := h.level o ⟨htype, hroot⟩
        obtain ⟨object, b', -, hkind', htop', hall⟩ := hhook.class_
        have htop : b.base = none := by
          have hboth := hlevel.base
          rw [hbase] at hboth
          exact Option.map_eq_none_iff.mp hboth.symm
        obtain rfl := hs.lone c object b b' hkind hkind' htop htop'
        cases hkind.symm.trans hkind'
        obtain ⟨i, hi, f, hf, hmethod⟩ := hlevel.local?_of_mem (p := .operators) hd
          (List.mem_map.mpr ⟨_, hall code hcode, rfl⟩)
        exact ⟨i, f, hi, hf, hmethod⟩

theorem Classed.lookup_operator (hhas : s.HasObject o) (ho : ¬ s.Formless o) :
    ∃ c, s.lookup (.part o .operators) code.name = some c := by
  obtain ⟨l, hl, -, c, -, hc, -⟩ := h.bottom_operator hf hd hs hhook hcode hhas ho
  rw [lookup_part _ _ (by simp), ← Option.isSome_iff_exists, List.findSome?_isSome_iff]
  exact ⟨l, hl, by rw [hc]; rfl⟩

/-- Where no class has another one, the operator is that of the bottom. -/
theorem Classed.lookup_bottom (hhas : s.HasObject o) (ho : ¬ s.Formless o)
    (hnone : ∀ l ∈ s.levels o, s.base l ≠ none → s.local? (.part l .operators) code.name = none) :
    ∃ l c f, s.lookup (.part o .operators) code.name = some c ∧ s.cell c = .const f ∧
      s.MethodOf l code f := by
  obtain ⟨c, hc⟩ := h.lookup_operator hf hd hs hhook hcode hhas ho
  have hlookup := hc
  rw [lookup_part _ _ (by simp)] at hlookup
  obtain ⟨l, hl, hlocal⟩ := List.exists_of_findSome?_eq_some hlookup
  have hbase : s.base l = none := by
    by_contra hbase
    rw [hnone l hl hbase] at hlocal
    cases hlocal
  -- The level that binds the operator is a bottom, so that it is its own.
  have hformed : ¬ s.Formless l := by
    rcases List.mem_cons.mp hl with rfl | hbelow
    · exact ho
    · exact fun hl => (hf.supported o l hbelow).1 hl.2.1
  obtain ⟨x, hx, -, c', f, hc', hcell, hmethod⟩ :=
    h.bottom_operator hf hd hs hhook hcode ((hf.bounded o hhas).2 l hl) hformed
  rw [levels, List.head?_eq_none_iff.mp hbase, List.mem_singleton] at hx
  obtain rfl := hx
  cases hlocal.symm.trans hc'
  exact ⟨x, c, f, hc, hcell, hmethod⟩

end Bottom

end Lookup

end Store

end ObjectLang
