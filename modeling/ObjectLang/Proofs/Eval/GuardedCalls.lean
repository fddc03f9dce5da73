import ObjectLang.Proofs.Eval.Guards

/-!
Calls keep guard.
A primitive is performed with the arguments that it takes for granted, since they were counted
before, and within the activation of whoever called it. The one that looks up members is only ever
called by the operator `.`, with a string.
-/
namespace ObjectLang

open Machine Routine

namespace Eval

variable {k : Inner} {m : Machine} {o target v this : ObjectId} {c : CellId} {name : String}
  {receiver : Option ObjectId} {args : List ObjectId} {p : Primitive} {code : Code}

theorem argument_guards {i : Nat} (hi : i < args.length) :
    (argument args i).Guards m fun a m' => m = m' ∧ a ∈ args := by
  rw [argument, List.getElem?_eq_getElem hi]
  exact .pure ⟨rfl, List.getElem_mem hi⟩

theorem expectString_guards (o : ObjectId) {fault : String → Fault}
    (hfault : m.store.asString o = none → ∀ text, ¬ (fault text).Internal) :
    (expectString o fault).Guards m fun _ m' => m = m' := by
  refine .bind_see ?_
  cases htext : m.store.asString o with
  | none => exact .bind_see (.fail (hfault htext _))
  | some text => exact .pure rfl

theorem number_guards (o : ObjectId) : (number o).Guards m fun _ m' => m = m' := by
  refine .bind_see ?_
  split
  · exact .pure rfl
  · exact .pure rfl
  · exact .bind_see (.fail id)

theorem isa_yields (hneeds : 0 < args.length) : (isa k this args).Yields m := by
  refine (argument_guards hneeds).bind ?_
  rintro type _ - ⟨rfl, -⟩
  refine .bind_see ((Guards.ofExcept fun fault hfault => ?_).bind ?_)
  · obtain rfl := Store.error_of_isa hfault
    exact id
  · rintro b _ - rfl
    refine (builtin_guards _ (by cases b <;> decide)).mono ?_
    rintro v _ - ⟨rfl, hv⟩
    exact hv

/-- What a primitive takes for granted when it is performed. -/
structure Granted (p : Primitive) (args : List ObjectId) (m : Machine) : Prop where
  kept : (∀ f, p ≠ .raise f) ∧ p ≠ .callerText
  needs : p.needs ≤ args.length
  member : p = .member → 2 ≤ m.stack.length ∧
    m.store.Spelt args

/-- Binding parameters leaves all objects alone. -/
theorem bindParams_guards (i : Nat) (names : List String) (hargs : ∀ a ∈ args, m.store.Ordinary a) :
    (bindParams (.free i) names args).Guards m fun _ m' =>
      ∀ o, m'.store.object o = m.store.object o := by
  induction names generalizing args m with
  | nil => exact .pure fun _ => rfl
  | cons name names ih =>
    cases args with
    | nil => exact .pure fun _ => rfl
    | cons value values =>
      obtain ⟨hvalue, hvalues⟩ := List.forall_mem_cons.mp hargs
      refine (Guards.defineConst (fun _ => hvalue.1) hvalue.elim (by simp)).bind ?_
      rintro _ _ h₁ rfl
      exact ih fun a ha => (hvalues a ha).mono h₁.grows

/-- Once the arguments are taken, they are as many as the code asks for. -/
theorem takeArguments_guards (caller : String) (code : Code) (i : Nat)
    (hargs : ∀ a ∈ args, m.store.Ordinary a) :
    (takeArguments caller code (.free i) args).Guards m fun _ m' =>
      code.arity.getD 0 ≤ args.length ∧ ∀ o, m'.store.object o = m.store.object o := by
  rw [takeArguments]
  split
  · next names hparams =>
    split
    · exact .fail id
    · next hlength =>
      refine (bindParams_guards i names hargs).mono fun _ _ _ hsame => ⟨?_, hsame⟩
      simp [Code.arity, hparams, Decidable.not_not.mp hlength]
  · next hparams => exact .pure ⟨by simp [Code.arity, hparams], fun _ => rfl⟩

theorem home_of_apt (hcode : code.apt = true) : code.home.all TableId.isFree = true := by
  simp only [Code.apt, Bool.and_eq_true] at hcode
  exact hcode.1

/-- Primitive code gets what it takes for granted. -/
theorem granted_of_apt (hcode : code.apt = true) (hbody : code.body = .primitive p)
    (hlength : code.arity.getD 0 ≤ args.length) (hcaller : 2 ≤ m.stack.length)
    (hlooks : code.looks = true → m.store.Spelt args) :
    Granted p args m := by
  simp only [Code.apt, hbody, Bool.and_eq_true] at hcode
  simp only [Code.looks, hbody] at hlooks
  refine ⟨⟨?_, ?_⟩, ?_, ?_⟩
  · rintro f rfl
    simp at hcode
  · rintro rfl
    simp at hcode
  · refine Nat.le_trans ?_ hlength
    have hneeds := hcode.2
    split at hneeds
    · cases hneeds
    · cases hneeds
    · next h =>
      cases h
      exact of_decide_eq_true hneeds
    · next h => cases h
  · rintro rfl
    exact ⟨hcaller, hlooks rfl⟩

variable (hk : k.Guarded)

include hk

/-- The operator that reads members gets the string that was made for it. -/
theorem getMember_yields (htarget : m.store.Ordinary target) (name : String) :
    (getMember k target name).Yields m := by
  refine (string_guards hk name).bind fun text m₁ h₁ htext => ?_
  refine dispatch_yields hk (by decide) (htarget.mono h₁.grows) ?_ fun _ =>
    ⟨text, name, rfl, htext.asString⟩
  exact fun a ha => List.mem_singleton.mp ha ▸ htext.ordinary

theorem toText_guards (ho : m.store.Ordinary o) : (toText k o).Guards m fun _ _ => True := by
  refine (getMember_yields hk ho "string").attempt.bind fun result m₁ _ hresult => ?_
  split
  · exact (Guards.see _).mono fun _ _ _ _ => trivial
  · exact (Guards.see _).mono fun _ _ _ _ => trivial
  · next e _ => exact .failWith (hresult.2 e rfl)

/-- The caller is there, and the name is the string that the operator was given. -/
theorem memberOf_yields {text : ObjectId} (hthis : m.store.Ordinary this)
    (htext : m.store.asString text = some name) (hcaller : 2 ≤ m.stack.length) :
    (memberOf k this [text]).Yields m := by
  refine (argument_guards (show 0 < [text].length from Nat.one_pos)).bind ?_
  rintro a _ - ⟨rfl, ha⟩
  obtain rfl := List.mem_singleton.mp ha
  refine (expectString_guards a fun hnone => by rw [htext] at hnone; cases hnone).bind ?_
  rintro n _ - rfl
  have hpeek : peek 1 m = .done m.stack[1] m := by
    simp [peek, quiet, List.getElem?_eq_getElem hcaller]
  refine .bind_done hpeek (moments_quiet _ m) ((memberCell_guards _ this n).bind ?_)
  rintro c _ - ⟨rfl, hc⟩
  refine readVia_yields hk _ hc ?_
  rintro _ ⟨⟩
  exact hthis

theorem replicate_yields (hneeds : 0 < args.length) : (replicate k this args).Yields m := by
  refine (expectString_guards this fun _ _ => id).bind ?_
  rintro _ _ - rfl
  refine (argument_guards hneeds).bind ?_
  rintro a _ - ⟨rfl, -⟩
  refine .bind_see ?_
  split
  · exact .bind_see (.fail id)
  · split
    · exact .fail id
    · split
      · exact .fail id
      · exact string_yields hk _

theorem arithmetic_yields (op : Arith) (hneeds : 0 < args.length) :
    (arithmetic k op this args).Yields m := by
  refine (number_guards this).bind ?_
  rintro a _ - rfl
  refine (argument_guards hneeds).bind ?_
  rintro arg _ - ⟨rfl, -⟩
  refine (number_guards arg).bind ?_
  rintro b _ - rfl
  split
  · next a b =>
    refine (Guards.ofExcept fun fault hfault => ?_).bind fun _ _ _ _ => integer_yields hk _
    rcases Arith.error_of_integers hfault with rfl | rfl <;> exact id
  · refine (Guards.ofExcept fun fault hfault => ?_).bind fun _ _ _ _ => float_yields hk _
    obtain rfl := Arith.error_of_floats hfault
    exact id

theorem runBody_yields (b : Block) : (runBody k b).Yields m := by
  refine Guards.newTable.bind ?_
  rintro t _ - ⟨rfl, rfl⟩
  exact .withScope (S := fun v s => s.Ordinary v) rfl fun _ _ _ =>
    (hk.execute _ b).map _ fun _ _ hflow => hflow

variable (hargs : ∀ a ∈ args, m.store.Ordinary a)

include hargs

theorem callMember_yields (htarget : m.store.Ordinary target) (name : String) :
    (callMember k target name args).Yields m := by
  refine (getMember_yields hk htarget name).bind fun f m₁ h₁ hf => ?_
  refine hk.invoke hf.1 ?_ (fun a ha => (hargs a ha).mono h₁.grows) hf.unread
  rintro _ ⟨⟩
  exact htarget.mono h₁.grows

theorem concat_yields (hneeds : 0 < args.length) : (concat k this args).Yields m := by
  refine (expectString_guards this fun _ _ => id).bind ?_
  rintro _ _ - rfl
  refine (argument_guards hneeds).bind ?_
  rintro a _ - ⟨rfl, ha⟩
  exact (toText_guards hk (hargs a ha)).bind fun _ _ _ _ => string_yields hk _

theorem perform_yields (hthis : m.store.Ordinary this) (hp : Granted p args m) :
    (perform k p this args).Yields m := by
  have hface : m.Guarded → m.store.Ordinary (m.store.face this) := fun hm =>
    hm.store.ordinary_face hthis
  cases p with
  | member =>
    obtain ⟨hcaller, text, name, rfl, htext⟩ := hp.member rfl
    exact memberOf_yields hk hthis htext hcaller
  | isa => exact isa_yields hp.needs
  | unsupported op => exact .bind_see (.fail id)
  | describe => exact .bind_see (string_yields hk _)
  | typeOf =>
    refine Guards.of_guarded fun hm => .bind_see ?_
    cases htype : m.store.type (m.store.face this) with
    | none => exact nothing_yields
    | some type => exact .pure (hm.store.type _ type htype)
  | identity => exact .bind_see (.bind_touch fun _ => integer_yields hk _)
  | concat => exact concat_yields hk hargs hp.needs
  | replicate => exact replicate_yields hk hp.needs
  | print =>
    refine (argument_guards hp.needs).bind ?_
    rintro a _ - ⟨rfl, ha⟩
    exact (toText_guards hk (hargs a ha)).bind fun _ _ _ _ =>
      (Guards.writeLine _).bind fun _ _ _ _ => nothing_yields
  | arithmetic op => exact arithmetic_yields hk op hp.needs
  | construct =>
    refine Guards.of_guarded fun hm => .bind_see ?_
    exact (instantiate_guards hk .plain (hface hm) trivial rfl).mono
      fun _ _ _ ho => ho.ordinary
  | definitionName => exact .bind_see (string_yields hk _)
  | receiver => exact .pure hthis
  | argument i =>
    rw [perform]
    split
    · next a ha => exact .pure (hargs a (List.mem_of_getElem? ha))
    · exact nothing_yields
  | argumentCount => exact integer_yields hk _
  | raise f => exact absurd rfl (hp.kept.1 f)
  | activationName => exact .bind_read (string_yields hk _)
  | callerText => exact absurd rfl hp.kept.2

theorem runCode_yields (caller : String) (hcode : code.apt = true) (hthis : m.store.Ordinary this)
    (hcaller : 2 ≤ m.stack.length)
    (hlooks : code.looks = true → m.store.Spelt args) :
    (runCode k caller this code args).Yields m := by
  refine Guards.newTable.bind ?_
  rintro t _ h₁ ⟨rfl, rfl⟩
  have hargs₁ : ∀ a ∈ args, (m.store.newTable .empty).2.Ordinary a := fun a ha =>
    (hargs a ha).mono h₁.grows
  refine (takeArguments_guards (m := { m with store := _ }) caller code _ hargs₁).bind
    fun _ m₂ h₂ hpost => ?_
  obtain ⟨hlength, hsame⟩ := hpost
  refine .withScope (S := fun v s => s.Ordinary v) rfl fun a rest hstack => ?_
  have hgrows := (h₁.trans h₂).grows
  cases hbody : code.body with
  | block b => exact runBody_yields hk b
  | primitive p =>
    refine perform_yields hk (fun a ha => (hargs a ha).mono hgrows) (hthis.mono hgrows)
      (granted_of_apt hcode hbody hlength ?_ fun h => ?_)
    · rw [← h₂.length_eq, hstack] at hcaller
      exact hcaller
    · obtain ⟨text, name, rfl, htext⟩ := hlooks h
      refine ⟨text, name, rfl, ?_⟩
      change m₂.store.asString text = some name
      rw [← htext]
      simp only [Store.asString, Store.face, Store.kind, hsame, Store.object_newTable]

theorem invoke_yields {f : ObjectId} (hf : m.store.HasObject f)
    (hreceiver : ∀ r ∈ receiver, m.store.Ordinary r)
    (hlooks : m.store.MethodBy Code.looks f → m.store.Spelt args) :
    (invoke k f receiver args).Yields m := by
  refine Guards.of_guarded fun hm => .bind_see ?_
  have hapt := hm.store.kinds f
  have hframes : ∀ a m₁, m.Keeps m₁ → 2 ≤ (m₁.push a).stack.length := by
    intro a m₁ h₁
    obtain ⟨b, rest, hstack, -⟩ := h₁.guarded.top
    simp [push, Machine.note, hstack]
  split
  · next owner code hkind =>
    rw [hkind] at hapt
    obtain ⟨howner, hcode⟩ := hapt
    have hthis : m.store.Ordinary (receiver.getD owner) := by
      cases receiver with
      | none => exact howner
      | some r => exact hreceiver r rfl
    have hhome := home_of_apt hcode
    refine .bind_read ((ownedActivation_guards code.name howner hthis hhome).bind ?_)
    rintro a m₁ h₁ ⟨ha, hstrings⟩
    have hargs₁ : ∀ x ∈ args, m₁.store.Ordinary x := fun x hx => (hargs x hx).mono h₁.grows
    refine .withActivation (S := fun v s => s.Ordinary v) ha
      (runCode_yields (m := m₁.push a) hk hargs₁ _ hcode (hthis.mono h₁.grows) (hframes a m₁ h₁) ?_)
    intro hcodeLooks
    obtain ⟨text, name, rfl, htext⟩ := hlooks ⟨owner, code, hkind, hcodeLooks⟩
    exact ⟨text, name, rfl, (hstrings text (hargs text (List.mem_singleton.mpr rfl))).trans htext⟩
  · next code hkind =>
    rw [hkind] at hapt
    have hfair : code.Fair := hapt
    have hself : m.store.Ordinary f := Store.ordinary_of_kind hf (by simp [hkind])
    have hhome := home_of_apt hfair.1
    refine .bind_read ((newActivation_guards code.name hself hhome).bind ?_)
    rintro a m₁ h₁ ⟨ha, -⟩
    have hargs₁ : ∀ x ∈ args, m₁.store.Ordinary x := fun x hx => (hargs x hx).mono h₁.grows
    exact .withActivation (S := fun v s => s.Ordinary v) ha (runCode_yields (m := m₁.push a) hk
      hargs₁ _ hfair.1 (hself.mono h₁.grows) (hframes a m₁ h₁) hfair.unread)
  · next code captured hkind =>
    rw [hkind] at hapt
    obtain ⟨hfair, hcaptured⟩ := hapt
    have hself : m.store.Ordinary f := Store.ordinary_of_kind hf (by simp [hkind])
    have ha : (captured.renamed code.name).Sturdy m.store :=
      ⟨hcaptured.owner, hcaptured.inner, hcaptured.scopes, hcaptured.home, hcaptured.notes⟩
    exact .bind_read (.withActivation (S := fun v s => s.Ordinary v) ha
      (runCode_yields (m := m.push _) hk hargs _ hfair.1 hself (hframes _ m (.refl hm))
        hfair.unread))
  · next hmethod _ _ =>
    exact dispatch_yields hk (by decide) (Store.ordinary_of_kind hf hmethod) hargs (by simp)

end Eval

end ObjectLang
