import ObjectLang.Proofs.Eval.MemberRead
import ObjectLang.Proofs.Standing

/-!
Method resolution.
A member of an instance is what the nearest of its classes declares under the name. A method runs on
the level that declares it, with the instance as `self` and the level below as `super`; there the
name leads on to the next declaration. So calls of `super` come by every declaration once, in order.
-/
namespace ObjectLang

open Machine Routine

namespace Machine

def IsNothing (m : Machine) (v : ObjectId) : Prop :=
  ∃ c, m.store.local? m.builtins "nothing" = some c ∧ m.store.cell c = .const v

variable {m : Machine}

theorem Reachable.literate (h : Reachable m) : m.Literate .any :=
  ⟨h.sound, h.simple (by decide)⟩

end Machine

namespace Eval

variable {m m₁ : Machine} {o target l : ObjectId} {name : String} {d : Nat} {a : Activation}

/-- An activation for code of the level `l`, on behalf of the object `o`: it belongs to the level,
and knows the object as `self` and what lies below the level as `super`. -/
structure Serves (m : Machine) (o l : ObjectId) (code : Code) (b : Activation) (m₁ : Machine) :
    Prop where
  owner : b.owner = l
  name : b.name = code.name
  knows : ∃ super, b.Knows m₁.store o super ∧
    (m.store.base l = some super ∨ m.store.base l = none ∧ m.IsNothing super)

/-- What it means that the member `name` of `target`, a level of the object `o`, is a declaration: a
method is given, and runs on its level when it is called; stored values are given as they are now; a
getter runs on its level. Without any declaration the name is unknown. Nothing else happens. -/
def Resolves (d : Nat) (m : Machine) (o target : ObjectId) (name : String) :
    Option (ObjectId × Entry) → Prop
  | some (l, .method code) =>
    (∃ f m', getMember (.ofDepth (d + 2)) target name m = .done f m' ∧
      m'.store.MethodOf l code f ∧ m.Retains m.store.objects.size m') ∧
    ∀ args, ∃ b m₁, callMember (.ofDepth (d + 2)) target name args m =
      withActivation b (runCode (.ofDepth (d + 1)) m.runningName target code args) m₁ ∧
      Serves m o l code b m₁ ∧ m.Retains m.store.objects.size m₁
  | some (l, .property p) =>
    match p.getter with
    | none => ∃ c v m', m.store.local? (.part l .members) name = some c ∧ m.store.cell c = .var v ∧
        getMember (.ofDepth (d + 2)) target name m = .done v m' ∧
        m.Retains m.store.objects.size m'
    | some getter => ∃ a b m₁, getMember (.ofDepth (d + 2)) target name m =
        ((withActivation b (runCode (.ofDepth d) a.name target getter [])).ensuring leave) m₁ ∧
        Serves m o l getter b m₁ ∧ m.Within a m₁
  | some (_, _) => False
  | none => ∃ m', getMember (.ofDepth (d + 2)) target name m =
      .failed (.fault (.unknownName name)) m' ∧ m.Retains m.store.objects.size m'

section Calls

/-- A method of a level runs in an activation that serves the level. -/
theorem invoke_method (hm : m.Sound .any) (hbacked : Backed m m₁) {f : ObjectId} {code : Code}
    (hl : m.store.HasObject l) (hf : m₁.store.MethodOf l code f)
    (htarget : m.store.HasObject target) (hface : m.store.face target = o) (d : Nat)
    (args : List ObjectId) : ∃ b m₂,
      invoke (.ofDepth d) f (some target) args m₁ =
        withActivation b (runCode (.ofDepth d) m₁.runningName target code args) m₂ ∧
      Serves m o l code b m₂ ∧ m₁.Retains m₁.store.objects.size m₂ := by
  obtain ⟨c, v, hc, hv⟩ := hm.nothing
  have hnothing : (nothing (.ofDepth d)).Finds m₁ v := hbacked.builtin_const hm hc hv _
  obtain ⟨b, m₂, hcall, hretains, howner, hname, hknows⟩ :=
    callMethod_run (superOf_finds hnothing l) code (some target) args
  refine ⟨b, m₂, ?_, ⟨howner, hname, (m₁.store.base l).getD v, ?_, ?_⟩, hretains⟩
  · have hkind : see (·.kind f) m₁ = .done (.method l code) m₁ := by
      rw [← hf]
      rfl
    rw [invoke, bind_run_done hkind]
    exact hcall.run
  · rw [Option.getD_some, hbacked.store.face htarget, hface] at hknows
    exact hknows
  · rw [hbacked.store.base hl]
    cases m.store.base l with
    | some b => exact Or.inl rfl
    | none => exact Or.inr ⟨rfl, c, hc, hv⟩

/-- A computed member runs its getter within the activation that reads it. -/
theorem resolves_getter (hm : m.Sound .any) (hwithin : m.Within a m₁) {c : CellId} {g : ObjectId}
    {setter : Option ObjectId} {getter : Code} (htarget : m.store.HasObject target)
    (hface : m.store.face target = o) (hl : m.store.HasObject l)
    (hc : m₁.store.cell c = .computed g setter) (hg : m₁.store.MethodOf l getter g)
    (hget : getMember (.ofDepth (d + 2)) target name m =
      ((readCell (.ofDepth (d + 1)) c (some target)).ensuring leave) m₁) : ∃ a b m₁,
      getMember (.ofDepth (d + 2)) target name m =
        ((withActivation b (runCode (.ofDepth d) a.name target getter [])).ensuring leave) m₁ ∧
      Serves m o l getter b m₁ ∧ m.Within a m₁ := by
  obtain ⟨b, m₂, hcall, hserves, hretains⟩ :=
    invoke_method hm ((Backed.refl m).within hwithin) hl hg htarget hface d []
  have hread : readCell (.ofDepth (d + 1)) c (some target) m₁ =
      invoke (.ofDepth d) g (some target) [] m₁ := by
    simp only [readCell, bind_run, see, quiet, hc]
    rfl
  have hname : m₁.runningName = a.name := by
    rw [Machine.runningName, hwithin.stack]
    rfl
  refine ⟨a, b, m₂, ?_, hserves, hwithin.retains hretains⟩
  rw [hget]
  simp only [ensuring, ending, hread, hcall, hname]

end Calls

/-- Seen from outside, a level of an instance has the members that are declared from there on. -/
theorem resolves_declarations (h : Reachable m) (ha : m.stack.head? = some a)
    (htarget : m.store.Finished m.roots.root target) (hface : m.store.face target = o)
    (hplain : m.store.Undisputed target) (hne : a.owner ≠ target)
    (houtside : m.store.face a.owner ≠ target) (name : String) (d : Nat) :
    Resolves d m o target name (m.store.declarations target name).head? := by
  have horderly := h.orderly
  have hproper := h.proper.store
  have hsound := h.sound
  obtain ⟨l, c, f, hfound⟩ := horderly.classed.lookup_bottom horderly.faced horderly.distinct
    hsound.store h.hooked Code.memberRead_mem htarget.has (fun hformless => htarget.1 hformless.2.1)
    fun l hl hbase => by
      have hlocal := horderly.classed.local?_declared horderly.distinct
        (horderly.faced.finished_level htarget hl) .operators "." (by decide)
      rwa [hplain l hl hbase] at hlocal
  have htransparent : m.store.Transparent target := ⟨c, f, l, hfound⟩
  obtain ⟨b, m₁, hwithin, hget⟩ := getMember_run h.literate ha htarget.has
    (fun l hkind => hproper.not_definition htarget.2 (by rw [hkind]; trivial)) htransparent (d + 1)
    name
  have hleave : m.Retains m.store.objects.size m₁.leave := hwithin.leave (.refl _ _)
  rw [Store.memberScope_of_not_definition (hproper.not_definition htarget.2),
    if_neg (not_or.mpr ⟨hne, houtside⟩), Store.lookupIn, List.findSome?_singleton] at hget
  have hlookup := horderly.classed.lookup_members horderly.faced horderly.distinct htarget name
  cases hhead : (m.store.declarations target name).head? with
  | none =>
    rw [hhead] at hlookup
    rw [hlookup] at hget
    exact ⟨m₁.leave, hget, hleave⟩
  | some x =>
    obtain ⟨l, e⟩ := x
    rw [hhead] at hlookup
    obtain ⟨c, hc, hlocal, hbound⟩ := hlookup
    simp only [hc] at hget
    have hl : m.store.HasObject l := Store.holds_of_binds (.of_local? hlocal)
    have hcell : m.store.HasCell c := Store.hasCell_of_lookup hsound.store.toWellformed hc
    have hgrows := hwithin.store.grows (Nat.le_refl _)
    have hfield : ∀ f, e ≠ .val f ∧ e ≠ .var f := by
      obtain ⟨x, -, hx⟩ := List.mem_filterMap.mp (List.mem_of_head? hhead)
      obtain ⟨e', he', hpair⟩ := Option.map_eq_some_iff.mp hx
      cases hpair
      exact Store.not_field_of_declared he'
    cases e with
    | method code =>
      obtain ⟨f, hf, hmethod⟩ := hbound
      have hread : readCell (.ofDepth (d + 1)) c (some target) m₁ = .done f m₁ := by
        simp [readCell, bind_run, see, quiet, hgrows.const hcell hf, pure_run]
      have hgiven : getMember (.ofDepth (d + 2)) target name m = .done f m₁.leave := by
        rw [hget]
        simp only [ensuring, ending, hread]
      have hthere : m₁.leave.store.MethodOf l code f := by
        rw [store_leave]
        exact hmethod.mono hgrows
      refine ⟨⟨f, m₁.leave, hgiven, hthere, hleave⟩, fun args => ?_⟩
      obtain ⟨b', m₂, hcall, hserves, hretains⟩ := invoke_method hsound
        ⟨hleave.store, hleave.builtins⟩ hl hthere htarget.has hface (d + 1) args
      refine ⟨b', m₂, ?_, hserves, hleave.trans (hretains.mono hleave.store.sizes.objects)⟩
      rw [callMember, bind_run_done hgiven]
      rw [Machine.runningName, hleave.stack, ← Machine.runningName] at hcall
      exact hcall
    | property plan =>
      obtain ⟨_, getter, setter⟩ := plan
      cases getter with
      | none =>
        cases setter with
        | none =>
          obtain ⟨v, hv⟩ := hbound
          have hread : readCell (.ofDepth (d + 1)) c (some target) m₁ = .done v m₁ := by
            simp [readCell, bind_run, see, quiet, hwithin.store.cells c hcell, hv, pure_run]
          refine ⟨c, v, m₁.leave, hlocal, hv, ?_, hleave⟩
          rw [hget]
          simp only [ensuring, ending, hread]
        | some _ => exact hbound.elim
      | some getter =>
        cases setter with
        | none =>
          obtain ⟨g, hg, hmethod⟩ := hbound
          exact resolves_getter hsound hwithin htarget.has hface hl (hgrows.computed hcell hg)
            (hmethod.mono hgrows) hget
        | some setter =>
          obtain ⟨g, f, hg, hmethod, -⟩ := hbound
          exact resolves_getter hsound hwithin htarget.has hface hl (hgrows.computed hcell hg)
            (hmethod.mono hgrows) hget
    | val f => exact absurd rfl (hfield f).1
    | var f => exact absurd rfl (hfield f).2

end Eval

namespace Machine

variable {m : Machine} {o c : ObjectId} {cs : List ObjectId}

/-- No class of a lineage but the topmost one has an operator of its own to read members. -/
def ReadsPlainly (s : Store) (cs : List ObjectId) : Prop :=
  ∀ x ∈ cs, ∀ b, s.kind x = .ofClass b → b.base ≠ none → ∀ op ∈ b.operators, op.name ≠ "."

theorem ReadsPlainly.undisputed (h : ReadsPlainly m.store cs) (horderly : m.Orderly)
    (ho : m.store.Finished m.roots.root o)
    (htypes : (m.store.levels o).map m.store.type = cs.map some) : m.store.Undisputed o := by
  intro l hl hbase
  obtain ⟨c, b, htype, hkind, hlevel⟩ :=
    horderly.classed.level l (horderly.faced.finished_level ho hl)
  have hc : c ∈ cs := by
    have hmem := List.mem_map.mpr ⟨l, hl, htype⟩
    rw [htypes] at hmem
    obtain ⟨c', hc', heq⟩ := List.mem_map.mp hmem
    exact Option.some.inj heq ▸ hc'
  have hderived : b.base ≠ none := by
    intro hnone
    have hboth := hlevel.base
    rw [hnone] at hboth
    exact hbase (Option.map_eq_none_iff.mp hboth)
  rw [Store.declared, htype, Option.bind_some, hkind]
  refine List.find?_eq_none.mpr fun e he => ?_
  obtain ⟨op, hop, rfl⟩ := List.mem_map.mp he
  rw [decide_eq_true_eq]
  exact h c hc b hkind hderived op hop

/-- In every state that a run comes to, for a finished instance of a class none of whose
superclasses but the topmost reads members in its own way: there is one level for each class, in
order. Code that belongs to no level finds under a name what the first class that declares it has
declared, or nothing at all. Code of a level with a declaration finds through `super` the next
declaration, for the same object; at the end there is none. What is declared stays the same. -/
theorem members_resolve_along_classes (h : Reachable m) {a : Activation}
    (ha : m.stack.head? = some a) (ho : m.store.Finished m.roots.root o)
    (hface : m.store.face o = o) (htype : m.store.type o = some c) (hcs : m.store.Lineage c cs)
    (hplain : ReadsPlainly m.store cs) (name : String) (d : Nat) :
    ((m.store.levels o).map m.store.type = cs.map some ∧ (m.store.levels o).Nodup) ∧
    (a.owner ∉ m.store.levels o →
      Eval.Resolves d m o o name (m.store.declarations o name).head?) ∧
    (∀ before l e after, m.store.declarations o name = before ++ (l, e) :: after →
      (m.store.base l = none → after = []) ∧
      ∀ l', a.owner = l → m.store.base l = some l' →
        Eval.Resolves d m o l' name after.head?) ∧
    ∀ t m', Later m t m' → m'.store.declarations o name = m.store.declarations o name := by
  have horderly := h.orderly
  have hfaced := horderly.faced
  have htypes := hcs.types horderly.classed hfaced ho htype
  have hundisputed := hplain.undisputed horderly ho htypes
  have hworn : ∀ l ∈ m.store.levels o, m.store.face l = o := fun l hl =>
    ((hfaced.face_of_finished ho).2 l hl).trans hface
  refine ⟨⟨htypes, horderly.classed.nodup_levels hfaced o⟩, fun houtside => ?_,
    fun before l e after heq => ?_, fun t m' hlater => ?_⟩
  · refine Eval.resolves_declarations h ha ho hface hundisputed ?_ ?_ name d
    · intro heq
      exact houtside (heq ▸ m.store.mem_levels_self o)
    · intro heq
      exact houtside (heq ▸ hfaced.worn a.owner)
  · obtain ⟨hl, -, hafter⟩ := horderly.classed.declarations_below heq
    refine ⟨fun hbase => ?_, fun l' howner hbase => ?_⟩
    · rw [hafter, List.head?_eq_none_iff.mp hbase]
      rfl
    · have hbelow := horderly.classed.stacked l l' hbase
      have hmem : l' ∈ (m.store.object l).below := List.mem_of_head? hbase
      have hl' : l' ∈ m.store.levels o :=
        hfaced.nested o l hl l' (Store.mem_levels_of_below hmem)
      have hrest : after = m.store.declarations l' name := by rw [hafter, hbelow]; rfl
      rw [hrest]
      refine Eval.resolves_declarations h ha (hfaced.finished_level ho hl') (hworn l' hl')
        (hundisputed.of_level hfaced hl') ?_ ?_ name d
      · rw [howner]
        rintro rfl
        exact Nat.lt_irrefl _ (hfaced.older l l hmem)
      · -- The face is the topmost level, which is no level below.
        rw [howner, hworn l hl]
        rintro rfl
        have hlt := hfaced.older l o hmem
        rcases List.mem_cons.mp hl with rfl | hbelow
        · exact Nat.lt_irrefl _ hlt
        · exact Nat.lt_asymm hlt (hfaced.older o l hbelow)
  · have hlasts := hlater.abides.lasts
    rw [Store.declarations, Store.declarations, hlasts.levels ho.has]
    refine List.filterMap_congr fun l hl => ?_
    obtain ⟨c, b, htype, hkind, -⟩ := horderly.classed.level l (hfaced.finished_level ho hl)
    rw [Store.declared, Store.declared, htype, hlasts.types l c htype, Option.bind_some,
      Option.bind_some, hkind, hlasts.kind_of_ne hkind (by simp)]

section Witness

def overridingSource : Source := .ofText ("class A \x7b method f() \x7b \x7d \x7d;" ++
  "class B : A \x7b method f() \x7b super.f() \x7d \x7d; val b = B()")

def checkPlainly (s : Store) : Nat → ObjectId → Option (List ObjectId)
  | 0, _ => none
  | n + 1, c =>
    match s.kind c with
    | .ofClass b =>
      match b.base with
      | none => some [c]
      | some base =>
        if b.operators.all (·.name ≠ ".") then (checkPlainly s n base).map (c :: ·) else none
    | _ => none

theorem checkPlainly_sound {s : Store} {n : Nat} (h : checkPlainly s n c = some cs) :
    s.Lineage c cs ∧ ReadsPlainly s cs := by
  induction n generalizing c cs with
  | zero => cases h
  | succ n ih =>
    simp only [checkPlainly] at h
    split at h
    · next b hb =>
      split at h
      · next hbase =>
        cases h
        refine ⟨.last hb hbase, fun x hx b' hb' hderived => ?_⟩
        obtain rfl := List.mem_singleton.mp hx
        cases hb.symm.trans hb'
        exact absurd hbase hderived
      · next base hbase =>
        split at h
        · next hops =>
          obtain ⟨rest, hrest, rfl⟩ := Option.map_eq_some_iff.mp h
          obtain ⟨hlineage, hplain⟩ := ih hrest
          refine ⟨.derived hb hbase hlineage, fun x hx b' hb' hderived op hop => ?_⟩
          rcases List.mem_cons.mp hx with rfl | hx
          · cases hb.symm.trans hb'
            exact of_decide_eq_true (List.all_eq_true.mp hops op hop)
          · exact hplain x hx b' hb' hderived op hop
        · cases h
    · cases h

/-- The instance has two declarations of the name, and nothing runs as one of its levels. -/
theorem overriding_run : ∃ m,
    (Eval.runSource (.ofDepth 24) overridingSource initial).machine? = some m ∧
    ∃ a, m.stack.head? = some a ∧ ∃ b, m.lookup "b" = some b ∧ ∃ o, m.store.cell b = .const o ∧
    m.roots.root ∉ m.store.levels o ∧ m.store.face o = o ∧ a.owner ∉ m.store.levels o ∧
    (m.store.declarations o "f").length = 2 ∧ ∃ c, m.store.type o = some c ∧
      ∃ cs, checkPlainly m.store 8 c = some cs := by decide +kernel

/-- The method of the instance is that of its class, and the one it reaches through `super` is that
of the superclass. -/
theorem members_resolve_overridden : ∃ m a o e e' l l', Reachable m ∧ m.stack.head? = some a ∧
    m.store.declarations o "f" = [(l, e), (l', e')] ∧ a.owner ∉ m.store.levels o ∧
    Eval.Resolves 24 m o o "f" (some (l, e)) := by
  obtain ⟨m, hrun, a, ha, -, -, o, -, hroot, hface, howner, hlength, c, htype, cs, hlevels⟩ :=
    overriding_run
  obtain ⟨hcs, hplain⟩ := checkPlainly_sound hlevels
  have ho : m.store.Finished m.roots.root o := ⟨by simp [htype], hroot⟩
  have hreachable : Reachable m := .between (.next .start 24 overridingSource hrun)
  obtain ⟨-, houtside, -, -⟩ :=
    members_resolve_along_classes hreachable ha ho hface htype hcs hplain "f" 24
  obtain ⟨⟨l, e⟩, ⟨l', e'⟩, hdecl⟩ := List.length_eq_two.mp hlength
  have hhead := houtside howner
  rw [hdecl, List.head?_cons] at hhead
  exact ⟨m, a, o, e, e', l, l', hreachable, ha, hdecl, howner, hhead⟩

end Witness

end Machine

end ObjectLang
