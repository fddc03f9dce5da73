import ObjectLang.Proofs.Eval.Instances

/-!
Reading a member.
A member is read by the operator `.`, which takes the name as a string. Where no class of the object
gives it another meaning, this is the machine's own: the string is made, an activation is entered,
and there the name is looked up as the caller sees the object. Only the cell that is found may run
code.
-/
namespace ObjectLang

open Machine Routine

/-- A sound machine that can make strings. -/
structure Machine.Literate (W : Stock) (m : Machine) : Prop extends m.Sound W where
  string : ∃ c v, m.store.local? m.builtins "String" = some c ∧ m.store.cell c = .const v ∧
    m.store.Simple 2 v

namespace Eval

variable {W : Stock} {k : Inner} {m : Machine} {this target text : ObjectId} {name : String}
  {caller : Activation} {i : CellId}

/-- A member is looked up as the calling activation sees it. -/
theorem memberOf_run (htext : m.store.asString text = some name)
    (hcaller : m.stack[1]? = some caller) (k : Inner) (this : ObjectId) : memberOf k this [text] m =
      match m.store.lookupIn (m.store.memberScope caller.owner this) name with
      | some c => readCell k c (some this) m
      | none => .failed (.fault (.unknownName name)) m := by
  simp only [memberOf, argument, expectString, memberCell, bind_run, pure_run, see, quiet, peek,
    List.getElem?_cons_zero, htext, hcaller]
  cases m.store.lookupIn (m.store.memberScope caller.owner this) name <;> rfl

theorem setMember_run (hcaller : m.stack[0]? = some caller) (v : ObjectId) :
    setMember k target name v m =
      match m.store.lookupIn (m.store.memberScope caller.owner target) name with
      | some c => writeCell k c (some target) v m
      | none => .failed (.fault (.unknownName name)) m := by
  simp only [setMember, memberCell, bind_run, see, quiet, peek, hcaller]
  cases m.store.lookupIn (m.store.memberScope caller.owner target) name <;> rfl

/-- An operator is found where it was, also when more has been made since. -/
theorem Backed.dispatch_run {m₀ : Machine} (h : Backed m₀ m) (hm₀ : m₀.Sound W)
    (htarget : m₀.store.HasObject target) {op : String} {f : ObjectId}
    (hi : m₀.store.lookup (.part target .operators) op = some i) (hf : m₀.store.cell i = .const f)
    (args : List ObjectId) (d : Nat) : dispatch (.ofDepth (d + 1)) target op args m =
      invoke (.ofDepth d) f (if f = target then none else some target) args m := by
  have hw := hm₀.store.toWellformed
  have hi' := (h.store.lookup_eq hw (htarget.holds _) op).trans hi
  exact (dispatch_const hi' (h.grows.const (Store.hasCell_of_lookup hw hi) hf) _ args).run

/-- The operator of a target looks the member up as the running activation sees it; what is found is
read on a machine that only has more, within an activation of its own. An operator that is asked for
a member of itself looks at its owner instead. -/
theorem getMember_hooked (hm : m.Literate W) (hcaller : m.stack.head? = some caller)
    (htarget : m.store.HasObject target) {f l this : ObjectId}
    (hi : m.store.lookup (.part target .operators) "." = some i) (hf : m.store.cell i = .const f)
    (hmethod : m.store.MethodOf l .memberRead f) (hthis : this = if f = target then l else target)
    (d : Nat) (name : String) :
    ∃ a m₁, m.Within a m₁ ∧ getMember (.ofDepth (d + 1)) target name m =
      match m.store.lookupIn (m.store.memberScope caller.owner this) name with
      | some c => ((readCell (.ofDepth d) c (some this)).ensuring leave) m₁
      | none => .failed (.fault (.unknownName name)) m₁.leave := by
  have hw := hm.store.toWellformed
  have howner := (hm.stack caller (List.mem_of_head? hcaller)).owner
  have hhas : m.store.HasObject this := by
    have hfits : (m.store.kind f).Fits W m.store := (hw.objects f).kind
    rw [hmethod] at hfits
    rw [hthis]
    split
    · exact hfits.1
    · exact htarget
  obtain ⟨c, v, hc, hv, hsimple⟩ := hm.string
  obtain ⟨text, m₁, hstring, hmade, -⟩ :=
    (Backed.refl m).instanceOf_run hm.toSound hc hv hsimple d (.string name)
  have hbacked : Backed m m₁ := ⟨hmade.retains.store, hmade.retains.builtins⟩
  obtain ⟨nothing, hnothing⟩ := hbacked.nothing hm.toSound (.ofDepth d)
  obtain ⟨a, m₂, hcall, hwithin⟩ := callMethod_primitive (superOf_finds hnothing l)
    .memberRead (if f = target then none else some target) [text] rfl rfl rfl
    (by decide) (by decide)
  have hreceiver : (if f = target then none else some target).getD l = this := by
    rw [hthis]
    split <;> rfl
  rw [hreceiver] at hcall
  have hall : m.Within a m₂ := .of_retains hmade.retains hwithin
  refine ⟨a, m₂, hall, ?_⟩
  -- The text of the string that was made is read back within the activation.
  have htext : m₂.store.asString text = some name := by
    have hhas := hmade.has text (Store.mem_levels_self _ text)
    rw [Store.asString, hwithin.store.face hhas, hmade.face, hwithin.store.kind hhas, hmade.kind]
  have hbelow : m₂.stack[1]? = some caller := by
    rw [hall.stack, List.getElem?_cons_succ, ← List.head?_eq_getElem?, hcaller]
  have hperform := memberOf_run htext hbelow (.ofDepth d) this
  rw [hall.store.memberScope_eq howner hhas,
    hall.store.lookupIn_eq hw (Store.memberScope_holds hw howner hhas)] at hperform
  have hsee : see (·.kind f) m₁ = .done (.method l .memberRead) m₁ := by
    rw [← hbacked.grows.kind_of_ne hmethod (by simp)]
    rfl
  have hinvoke : invoke (.ofDepth d) f (if f = target then none else some target) [text] m₁ =
      ((memberOf (.ofDepth d) this [text]).ensuring leave) m₂ := by
    rw [invoke, bind_run_done hsee]
    exact hcall.run
  rw [getMember, string, bind_run_done hstring,
    hbacked.dispatch_run hm.toSound htarget hi hf, hinvoke]
  simp only [ensuring, ending, hperform]
  cases m.store.lookupIn (m.store.memberScope caller.owner this) name <;> rfl

theorem getMember_run (hm : m.Literate W) (hcaller : m.stack.head? = some caller)
    (htarget : m.store.HasObject target)
    (hkind : ∀ l, m.store.kind target ≠ .method l .memberRead)
    (htransparent : m.store.Transparent target) (d : Nat) (name : String) :
    ∃ a m₁, m.Within a m₁ ∧ getMember (.ofDepth (d + 1)) target name m =
      match m.store.lookupIn (m.store.memberScope caller.owner target) name with
      | some c => ((readCell (.ofDepth d) c (some target)).ensuring leave) m₁
      | none => .failed (.fault (.unknownName name)) m₁.leave := by
  obtain ⟨i, f, l, hi, hf, hmethod⟩ := htransparent
  have hne : f ≠ target := by
    rintro rfl
    exact hkind l hmethod
  exact getMember_hooked hm hcaller htarget hi hf hmethod (if_neg hne).symm d name

end Eval

end ObjectLang
