import ObjectLang.Proofs.Ancestry

/-!
Values that the machine makes by itself.
Integers, floats, strings and plain objects are instances of builtin classes. These classes cannot
be changed and their levels hold no fields, so that a value can be made in every state: no program
code runs, and nothing that was there is touched.
-/
namespace ObjectLang

open Machine Routine

namespace Store

variable {s : Store} {c base k : ObjectId} {b : Blueprint}

theorem derives_top (hc : s.kind c = .ofClass b) (hb : b.base = none) : s.Derives c k ↔ k = c := by
  rw [← (Lineage.last hc hb).mem_iff, List.mem_singleton]

end Store

namespace Machine

variable {m : Machine} {x : Routine ObjectId} {name : String} {kind : Kind}

/-- What a routine has made in the end: a new value of the class `c`, in as many levels as there are
classes. Nothing else is changed, and no code of a program was run. -/
structure NewValue (m : Machine) (x : Routine ObjectId) (c object : ObjectId) (kind : Kind)
    (levels : Nat) (o : ObjectId) (m' : Machine) : Prop where
  run : x m = .done o m'
  still : x.Still m
  retains : m.Retains m.store.objects.size m'
  levels : (m'.store.levels o).length = levels
  new : ∀ l ∈ m'.store.levels o, ¬ m.store.HasObject l ∧ m'.store.HasObject l
  faces : ∀ l ∈ m'.store.levels o, m'.store.face l = o
  kind : m'.store.kind o = kind
  isa : ∀ k, (m'.store.kind k).isType = true →
    ∃ r, m'.store.isa o k = .ok r ∧ (r = true ↔ k = c ∨ k = object)

def Makes (m : Machine) (x : Routine ObjectId) (name : String) (kind : Kind)
    (levels : Nat) : Prop :=
  ∃ c object o m', m.IsBuiltin name c ∧ m.IsBuiltin "Object" object ∧
    NewValue m x c object kind levels o m'

/-- A builtin class that the machine makes values of is `Object` or lies right over it, and so it
stays. -/
theorem Reachable.lineage_value (h : Reachable m) (hname : name ∈ Builtin.valueClasses) :
    ∃ c object, m.IsBuiltin name c ∧ m.IsBuiltin "Object" object ∧
      ∀ s, m.store.Grows s →
        (∃ cs, s.Lineage c cs ∧ cs.length = if name = "Object" then 1 else 2) ∧
        ∀ k, s.Derives c k ↔ k = c ∨ k = object := by
  obtain ⟨i, object, b, hi, hcell, hkind, hbase⟩ := h.sound.object
  by_cases hobject : name = "Object"
  · subst hobject
    refine ⟨object, object, ⟨i, hi, hcell⟩, ⟨i, hi, hcell⟩, fun s hg => ?_⟩
    have hkind' := hg.kind_of_ne hkind (by simp)
    refine ⟨⟨[object], .last hkind' hbase, rfl⟩, fun k => ?_⟩
    rw [Store.derives_top hkind' hbase, or_self]
  · have htail : name ∈ Builtin.valueClasses.tail := by
      simp only [Builtin.valueClasses, List.mem_cons] at hname
      simpa [Builtin.valueClasses] using hname.resolve_left hobject
    obtain ⟨j, c, b', j', object', hj, hcell', hkind', hbase', hj', hobject', -⟩ := h.derived htail
    obtain rfl := IsBuiltin.unique ⟨i, hi, hcell⟩ ⟨j', hj', hobject'⟩
    refine ⟨c, object, ⟨j, hj, hcell'⟩, ⟨i, hi, hcell⟩, fun s hg => ?_⟩
    have hclass := hg.kind_of_ne hkind' (by simp)
    have htop := hg.kind_of_ne hkind (by simp)
    refine ⟨⟨[c, object], .derived hclass hbase' (.last htop hbase), ?_⟩, fun k => ?_⟩
    · rw [if_neg hobject]
      rfl
    · rw [← (Store.Lineage.derived hclass hbase' (.last htop hbase)).mem_iff, List.mem_cons,
        List.mem_singleton]

theorem Reachable.makes (h : Reachable m) (hname : name ∈ Builtin.valueClasses)
    (hkind : m.store.Payload .any kind) (d : Nat) :
    m.Makes (Eval.instanceOf (.ofDepth (d + 1)) name kind) name kind
      (if name = "Object" then 1 else 2) := by
  obtain ⟨c, object, hc, hobject, hlineage⟩ := h.lineage_value hname
  obtain ⟨i, v, hi, hcell, hsimple⟩ := h.simple hname
  obtain rfl := hc.unique ⟨i, hi, hcell⟩
  obtain ⟨o, m', hrun, hmade, hstill⟩ :=
    (Eval.Backed.refl m).instanceOf_run h.sound hi hcell hsimple d kind
  have hgrows := hmade.retains.store.grows (Nat.le_refl _)
  -- The class is found where it is looked for, so that this is an instantiation from `m` on.
  have hinstance : Eval.instantiate (.ofDepth (d + 1)) c kind m = .done o m' := by
    rw [Eval.instanceOf, bind_run_done (Eval.builtin_run hi hcell _)] at hrun
    exact hrun
  obtain ⟨⟨-, hfinished, htype⟩, hisa⟩ := h.isa_made hkind hinstance
  obtain ⟨⟨cs, hcs, hlength⟩, hderives⟩ := hlineage _ hgrows
  refine ⟨c, object, o, m', hc, hobject, hrun, hstill, hmade.retains, ?_, ?_, ?_, hmade.kind, ?_⟩
  · have horderly := h.orderly_made hkind hinstance
    have htypes := congrArg List.length
      (hcs.types horderly.classed horderly.faced hfinished htype)
    rwa [List.length_map, List.length_map, hlength] at htypes
  · exact fun l hl => ⟨Nat.not_lt.mpr (hmade.new l hl), hmade.has l hl⟩
  · exact (h.face_instance hkind hinstance).2
  · intro k hk
    obtain ⟨r, hr, hiff⟩ := hisa k hk
    exact ⟨r, hr, hiff.trans (hderives k)⟩

/-- In every state that a run comes to, integers, floats, strings and plain objects can be made:
each is a new object that holds its value and is of its builtin class and of `Object` only. No code
of a program runs, nothing is written, and all that was there is as before. -/
theorem values_made (h : Reachable m) (d : Nat) :
    (∀ n, m.Makes (Eval.integer (.ofDepth (d + 1)) n) "Integer" (.integer n) 2) ∧
    (∀ x, m.Makes (Eval.float (.ofDepth (d + 1)) x) "Float" (.float x) 2) ∧
    (∀ text, m.Makes (Eval.string (.ofDepth (d + 1)) text) "String" (.string text) 2) ∧
    m.Makes (Eval.plainObject (.ofDepth (d + 1))) "Object" .plain 1 := by
  refine ⟨fun n => ?_, fun x => ?_, fun text => ?_, ?_⟩
  · have hkind : m.store.Payload .any (.integer n) := ⟨trivial, by simp [Store.NoClass]⟩
    exact h.makes (by decide) hkind d
  · have hkind : m.store.Payload .any (.float x) := ⟨trivial, by simp [Store.NoClass]⟩
    exact h.makes (by decide) hkind d
  · have hkind : m.store.Payload .any (.string text) := ⟨trivial, by simp [Store.NoClass]⟩
    exact h.makes (by decide) hkind d
  · exact h.makes (by decide) (Store.payload_plain _ _) d

def shadowingSource : Source := .ofText
  "class Integer \x7b val x = 1 \x7d; val String = 2; module Object \x7b\x7d; Integer().y"

theorem shadowing_fails :
    ∃ e m, Eval.runSource (.ofDepth 24) shadowingSource initial = .failed e m := by decide +kernel

/-- After it, an integer and a string are made as ever. -/
theorem values_made_shadowing : ∃ e m,
    Eval.runSource (.ofDepth 24) shadowingSource initial = .failed e m ∧
    m.Makes (Eval.integer (.ofDepth 1) 7) "Integer" (.integer 7) 2 ∧
    m.Makes (Eval.string (.ofDepth 1) "seven") "String" (.string "seven") 2 := by
  obtain ⟨e, m, hrun⟩ := shadowing_fails
  have hafter : After [shadowingSource] m := .next .start 24 shadowingSource (by rw [hrun]; rfl)
  obtain ⟨hinteger, -, hstring, -⟩ := values_made (.between hafter) 0
  exact ⟨e, m, hrun, hinteger 7, hstring "seven"⟩

end Machine

end ObjectLang
