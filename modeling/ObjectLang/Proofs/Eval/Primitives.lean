import ObjectLang.Proofs.Eval.Objects

/-!
Members and primitives go well.
A primitive runs inside an activation of its own, so that a member is looked up on behalf of the
activation right below the running one.
-/
namespace ObjectLang.Eval

open Machine Routine

variable {W : Stock} {k : Inner} {n : Nat} {m : Machine} {o : ObjectId}
  {args : List ObjectId}

section Operands

variable {β : Type} {R : β → List Moment → Store → Prop}

theorem bind_argument (hargs : ∀ a ∈ args, m.store.HasObject a) {i : Nat} {f : ObjectId → Routine β}
    (hf : ∀ a, m.store.HasObject a → (f a).Goes W n m R) :
    (argument args i >>= f).Goes W n m R := by
  rw [argument]
  cases ha : args[i]? with
  | some a =>
    have hhas := hargs a (List.mem_of_getElem? ha)
    exact Goes.bind_reader rfl (moments_pure a m) (hf a hhas)
  | none => exact Goes.bind_failed rfl (moments_quiet _ m) (W.own (.missingArgument i) (by simp))

theorem bind_expectString {fault : String → Fault} (hfault : ∀ type, W.fault (fault type))
    {f : String → Routine β} (hf : ∀ text, (f text).Goes W n m R) :
    (expectString o fault >>= f).Goes W n m R := by
  refine Goes.assoc (Goes.bind_see ?_)
  cases m.store.asString o with
  | some text => exact Goes.bind_reader rfl (moments_pure text m) (hf text)
  | none =>
    refine Goes.assoc (Goes.bind_see ?_)
    exact Goes.bind_failed rfl (moments_quiet _ m) (hfault _)

theorem bind_number {f : Number → Routine β} (hf : ∀ x, (f x).Goes W n m R) :
    (number o >>= f).Goes W n m R := by
  refine Goes.assoc (Goes.bind_see ?_)
  split
  · exact Goes.bind_reader rfl (moments_pure _ m) (hf _)
  · exact Goes.bind_reader rfl (moments_pure _ m) (hf _)
  · refine Goes.assoc (Goes.bind_see ?_)
    exact Goes.bind_failed rfl (moments_quiet _ m) (W.own (.notNumber _) (by simp))

theorem bind_ofExcept {α : Type} {e : Except Fault α} (herr : ∀ g, e = .error g → W.fault g)
    {f : α → Routine β} (hf : ∀ a, (f a).Goes W n m R) : (ofExcept e >>= f).Goes W n m R := by
  cases e with
  | ok a => exact Goes.bind_reader rfl (moments_quiet _ m) (hf a)
  | error g => exact Goes.bind_failed rfl (moments_quiet _ m) (herr g rfl)

end Operands

variable {this target : ObjectId} (hk : Good W k) (hm : Ready W n m)

include hk hm

theorem getMember_goes (htarget : m.store.HasObject target) (name : String) :
    (getMember k target name).Delivers W n m := by
  refine Goes.bind hm (string_goes hk hm name) ?_
  intro text _ m' hreached htext
  exact dispatch_goes hk (hreached.ready hm) (htarget.mono hreached.sizes) (by simpa using htext)

/-- Only an unknown member is made up for; any other error is passed on. -/
theorem toText_goes (ho : m.store.HasObject o) : (toText k o).Goes W n m fun _ _ _ => True := by
  refine Goes.bind_attempt hm (getMember_goes hk hm ho "string") ?_ ?_
  · intro text _ m' _ _
    exact Goes.of_done rfl (by simpa [textOf, see] using Path.stay m') (.refl _ _) trivial
  · intro e _ m' _
    by_cases h : ∃ name, e = .fault (.unknownName name)
    · obtain ⟨name, rfl⟩ := h
      exact Or.inl (Goes.of_done rfl (by simpa [see] using Path.stay m') (.refl _ _) trivial)
    · refine Or.inr ?_
      split
      · next heq => cases heq
      · next heq =>
        cases heq
        exact absurd ⟨_, rfl⟩ h
      · next heq =>
        cases heq
        rfl

variable (hargs : ∀ a ∈ args, m.store.HasObject a)

include hargs

theorem callMember_goes (htarget : m.store.HasObject target) (name : String) :
    (callMember k target name args).Delivers W n m := by
  refine Goes.bind hm (getMember_goes hk hm htarget name) ?_
  intro f _ m' hreached hf
  refine hk.invoke (hreached.ready hm) hf ?_ fun a ha => (hargs a ha).mono hreached.sizes
  rintro r ⟨⟩
  exact htarget.mono hreached.sizes

/-- A member is read on behalf of the caller. -/
theorem memberOf_goes (hthis : m.store.HasObject this) : (memberOf k this args).Delivers W n m := by
  refine bind_argument hargs fun arg _ => ?_
  refine bind_expectString (fun type => W.own (.memberName type) (by simp)) fun name => ?_
  refine Goes.bind_peek fun caller hcaller => bind_memberCell fun c hc => ?_
  have hcell := Store.hasCell_of_lookupIn hm.sound.store.toWellformed hc
  exact readVia_goes hk hm ⟨⟨caller, hcaller, rfl⟩, hc⟩ hcell (by simpa using hthis)

theorem concat_goes : (concat k this args).Delivers W n m := by
  refine bind_expectString (fun type => W.own (.notString type) (by simp)) fun left => ?_
  refine bind_argument hargs fun arg harg => ?_
  refine Goes.bind hm (toText_goes hk hm harg) ?_
  intro right _ m' hreached _
  exact string_goes hk (hreached.ready hm) _

theorem replicate_goes : (replicate k this args).Delivers W n m := by
  refine bind_expectString (fun type => W.own (.notString type) (by simp)) fun text => ?_
  refine bind_argument hargs fun count _ => Goes.bind_see ?_
  cases m.store.asInteger count with
  | none => exact Goes.bind_see (Goes.fail (W.own (.notInteger _) (by simp)))
  | some i =>
    dsimp only
    split
    · exact Goes.fail (W.own _ (by simp))
    · split
      · exact Goes.fail (W.own _ (by simp))
      · exact string_goes hk hm _

theorem print_goes : (print k args).Delivers W n m := by
  refine bind_argument hargs fun arg harg => ?_
  refine Goes.bind hm (toText_goes hk hm harg) ?_
  intro text _ m' hreached _
  have hready := hreached.ready hm
  refine Goes.bind hready (Goes.writeLine text) ?_
  intro _ _ m'' hreached' _
  exact nothing_goes hk (hreached'.ready hready)

theorem arithmetic_goes (op : Arith) : (arithmetic k op this args).Delivers W n m := by
  refine bind_number fun a => bind_argument hargs fun arg _ => bind_number fun b => ?_
  split
  · refine bind_ofExcept (fun g hg => W.own g ?_) fun r => integer_goes hk hm r
    rcases Arith.error_of_integers hg with rfl | rfl <;> simp
  · refine bind_ofExcept (fun g hg => W.own g ?_) fun r => float_goes hk hm r
    simp [Arith.error_of_floats hg]

theorem perform_goes {p : Primitive} (hp : W.primitive p) (hthis : m.store.HasObject this) :
    (perform k p this args).Delivers W n m := by
  cases p with
  | member => exact memberOf_goes hk hm hargs hthis
  | isa =>
    refine bind_argument hargs fun type _ => Goes.bind_see ?_
    refine bind_ofExcept (fun g hg => W.own g ?_) fun b => builtin_goes hk hm _
    simp [Store.error_of_isa hg]
  | unsupported op => exact Goes.bind_see (Goes.fail (W.own (.unsupported _ op) (by simp)))
  | describe => exact Goes.bind_see (string_goes hk hm _)
  | typeOf =>
    refine Goes.bind_see ?_
    cases htype : m.store.type (m.store.face this) with
    | some t => exact Goes.pure ((hm.sound.store.objects _).type t htype)
    | none => exact nothing_goes hk hm
  | identity => exact Goes.bind_see (Goes.bind_touch trivial rfl (integer_goes hk hm _))
  | concat => exact concat_goes hk hm hargs
  | replicate => exact replicate_goes hk hm hargs
  | print => exact print_goes hk hm hargs
  | arithmetic op => exact arithmetic_goes hk hm hargs op
  | construct =>
    have hplain := Store.payload_plain W m.store
    exact Goes.bind_see ((instantiate_goes hk hm hplain).mono fun _ _ _ h => h.has)
  | definitionName => exact Goes.bind_see (string_goes hk hm _)
  | receiver => exact Goes.pure hthis
  | argument i =>
    simp only [perform]
    cases ha : args[i]? with
    | some a => exact Goes.pure (hargs a (List.mem_of_getElem? ha))
    | none => exact nothing_goes hk hm
  | argumentCount => exact integer_goes hk hm _
  | raise f => exact Goes.fail (hp f rfl)
  | activationName => exact Goes.bind_read (string_goes hk hm _)
  | callerText => exact Goes.bind_peek fun caller _ => Goes.bind_see (string_goes hk hm _)

end ObjectLang.Eval
