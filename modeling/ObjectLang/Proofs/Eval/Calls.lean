import ObjectLang.Proofs.Eval.Primitives

/-!
Calls go well.
Whatever is called, its body is entered on a machine that went on from that of the call. The body is
left open in the lemmas about the frame around it, since the body of a constructor has more to say.
-/
namespace ObjectLang.Eval

open Machine Routine

variable {W : Stock} {k : Inner} {n : Nat} {m m₁ : Machine} {this f c : ObjectId} {code : Code}
  {args : List ObjectId} {Q : ObjectId → List Moment → Store → Prop} {receiver : Option ObjectId}
  {body : Body} {b : Blueprint}

/-- The body of code goes well on every machine that a call from `m` can bring it to. Up to there no
field is initialised on an object that is still to come. -/
def Enters (W : Stock) (k : Inner) (n : Nat) (m : Machine) (body : Body) (this : ObjectId)
    (args : List ObjectId) (Q : ObjectId → List Moment → Store → Prop) : Prop :=
  ∀ t m', Onward W n m m' → (∀ l, ¬ m'.store.HasObject l → fieldSteps l t = []) →
    (enter k body this args).Goes W n m' fun v u s => Q v (t ++ u) s

/-- The way to the body may be cut short. -/
theorem Enters.later (h : Enters W k n m body this args Q) {t₁ : List Moment}
    (hon : Onward W n m m₁) (ht₁ : ∀ l, ¬ m₁.store.HasObject l → fieldSteps l t₁ = []) :
    Enters W k n m₁ body this args fun v u s => Q v (t₁ ++ u) s := by
  intro t m' hon' ht
  have hall : ∀ l, ¬ m'.store.HasObject l → fieldSteps l (t₁ ++ t) = [] := by
    intro l hl
    have hl₁ : ¬ m₁.store.HasObject l := fun h => hl (h.mono hon'.grows.sizes)
    rw [fieldSteps_append, ht l hl, ht₁ l hl₁]
    rfl
  simpa only [List.append_assoc] using h (t₁ ++ t) m' (hon.trans hon') hall

theorem Enters.onward (h : Enters W k n m body this args Q) (hon : Onward W n m m₁) :
    Enters W k n m₁ body this args Q :=
  h.later hon (fun _ _ => fieldSteps_nil _)

section

variable (hm : Ready W n m) (hargs : ∀ a ∈ args, m.store.HasObject a)

include hm hargs

theorem bindParams_goes {t : TableId} (ht : m.store.HasTable t) (names : List String) :
    (bindParams t names args).Goes W n m fun _ _ _ => True := by
  induction names generalizing args m with
  | nil => exact Goes.pure trivial
  | cons name names ih =>
    cases args with
    | nil => exact Goes.pure trivial
    | cons a args =>
      have ha := hargs a (List.mem_cons_self ..)
      refine Goes.bind hm (Goes.defineFreeConst hm ht ha) ?_
      intro _ _ m' hreached _
      refine ih (hreached.ready hm) (fun x hx => ?_) (ht.mono hreached.sizes)
      exact (hargs x (List.mem_cons_of_mem _ hx)).mono hreached.sizes

theorem takeArguments_goes {scope : TableId} (hscope : m.store.HasTable scope) (caller : String) :
    (takeArguments caller code scope args).Goes W n m fun _ _ _ => True := by
  rw [takeArguments]
  split
  · split
    · exact Goes.fail (W.own _ (by simp))
    · exact bindParams_goes hm hargs hscope _
  · exact Goes.pure trivial

theorem runCode_frame (caller : String) (henter : Enters W k n m code.body this args Q) :
    (runCode k caller this code args).Goes W n m Q := by
  refine Goes.bind hm (Goes.newTable.unborn hm) ?_
  rintro scope t₁ m₁ hreached₁ ⟨⟨-, hscope⟩, ht₁⟩
  have hready₁ := hreached₁.ready hm
  have hargs₁ := fun a ha => (hargs a ha).mono hreached₁.sizes
  refine Goes.bind hready₁ ((takeArguments_goes hready₁ hargs₁ hscope caller).unborn hready₁) ?_
  rintro _ t₂ m₂ hreached₂ ⟨-, ht₂⟩
  have hscope₂ := hscope.mono hreached₂.sizes
  refine Goes.withScope hscope₂ fun a rest hstack => ?_
  have hopen := (Move.openScope hscope₂).onward (hreached₂.ready hready₁)
  have hbody := (henter.later hreached₁.toOnward ht₁).later hreached₂.toOnward ht₂
  exact hbody [] _ hopen fun _ _ => rfl

theorem activation_frame {a : Activation} (ha : a.Fits m.store) (caller : String)
    (henter : Enters W k n m code.body this args Q) :
    (withActivation a (runCode k caller this code args)).Goes W n m Q :=
  Goes.withActivation ha <| runCode_frame (hm.push ha) hargs caller <|
    henter.onward ((Move.push ha).onward hm)

theorem callMethod_frame (hk : Good W k) {owner : ObjectId}
    (howner : m.store.HasObject owner) (hcode : code.Fits W m.store)
    (hr : ∀ r ∈ receiver, m.store.HasObject r)
    (henter : Enters W k n m code.body (receiver.getD owner) args Q) :
    (callMethod k owner code receiver args).Goes W n m Q := by
  have hthis : m.store.HasObject (receiver.getD owner) := by
    cases receiver with
    | none => exact howner
    | some r => exact hr r rfl
  refine Goes.bind_read ?_
  refine Goes.bind hm
    ((ownedActivation_goes hk hm code.name howner hthis hcode.home).unborn hm) ?_
  rintro a t₁ m₁ hreached ⟨⟨ha, -⟩, ht₁⟩
  exact activation_frame (hreached.ready hm) (fun x hx => (hargs x hx).mono hreached.sizes) ha _
    (henter.later hreached.toOnward ht₁)

theorem callFunction_frame (hf : m.store.HasObject f) (hcode : code.Fits W m.store)
    (henter : Enters W k n m code.body f args Q) :
    (callFunction k f code args).Goes W n m Q := by
  refine Goes.bind_read ?_
  refine Goes.bind hm ((newActivation_goes hm code.name hf hcode.home).unborn hm) ?_
  rintro a t₁ m₁ hreached ⟨⟨ha, -⟩, ht₁⟩
  exact activation_frame (hreached.ready hm) (fun x hx => (hargs x hx).mono hreached.sizes) ha _
    (henter.later hreached.toOnward ht₁)

theorem callClosure_frame {captured : Activation} (hcaptured : captured.Fits m.store)
    (henter : Enters W k n m code.body f args Q) :
    (callClosure k f code captured args).Goes W n m Q := by
  have ha : (captured.renamed code.name).Fits m.store :=
    ⟨hcaptured.owner, hcaptured.scopes, hcaptured.home⟩
  exact Goes.bind_read (activation_frame hm hargs ha _ henter)

end

variable (hk : Good W k) (hm : Ready W n m)

include hk hm

theorem runBody_goes {b : Block} (hb : W.block b) : (runBody k b).Delivers W n m := by
  refine Goes.bind hm Goes.newTable ?_
  rintro t _ m₁ hreached ⟨rfl, ht⟩
  have hready₁ := hreached.ready hm
  refine Goes.withScope ht fun a rest hstack => ?_
  have hready := ((Move.openScope ht).onward hready₁).ready hready₁
  exact (hk.execute hready hb).map hready fun _ _ _ h => h

theorem enters (hbody : W.body body) (hthis : m.store.HasObject this)
    (hargs : ∀ a ∈ args, m.store.HasObject a) :
    Enters W k n m body this args fun v _ s => s.HasObject v := by
  intro t m' hon _
  have hready : Ready W n m' := hon.ready hm
  cases body with
  | primitive p =>
    exact perform_goes hk hready (fun a ha => (hargs a ha).mono hon.grows.sizes) hbody
      (hthis.mono hon.grows.sizes)
  | block b => exact runBody_goes hk hready hbody

/-- The body of a constructor builds an instance, since a class is its own face. -/
theorem enters_constructor (hc : m.store.kind c = .ofClass b) :
    Enters W k n m Code.constructor.body c [] fun o t s =>
      Built s m.store.objects.size c o .plain t := by
  intro t m' hon ht
  have hready : Ready W n m' := hon.ready hm
  have hc' := hon.grows.kind_of_ne hc (by simp)
  have hface : m'.store.face c = c := by
    simp [Store.face, (hon.sound.store.answers c b hc').face]
  have hplain := Store.payload_plain W m'.store
  refine Goes.bind_see ?_
  rw [hface]
  refine ((instantiate_goes hk hready hplain).grown hready).mono ?_
  rintro o u s ⟨hbuilt, -, hw⟩
  exact hbuilt.prepend hw hon.grows.sizes.objects fun l hl => ht l (Nat.not_lt.mpr hl)

theorem invoke_goes (hf : m.store.HasObject f) (hr : ∀ r ∈ receiver, m.store.HasObject r)
    (hargs : ∀ a ∈ args, m.store.HasObject a) : (invoke k f receiver args).Delivers W n m := by
  have hfits := (hm.sound.store.objects f).kind
  refine Goes.bind_see ?_
  rw [Store.kind]
  split
  · next owner code heq =>
    rw [heq] at hfits
    refine callMethod_frame hm hargs hk hfits.1 hfits.2 hr (enters hk hm hfits.2.body ?_ hargs)
    cases receiver with
    | none => exact hfits.1
    | some r => exact hr r rfl
  · next code heq =>
    rw [heq] at hfits
    have hcode : code.Fits W m.store := hfits
    exact callFunction_frame hm hargs hf hcode (enters hk hm hcode.body hf hargs)
  · next code captured heq =>
    rw [heq] at hfits
    exact callClosure_frame hm hargs hfits.2 (enters hk hm hfits.1.body hf hargs)
  · exact dispatch_goes hk hm hf hargs

theorem invoke_constructor_goes (hc : m.store.kind c = .ofClass b)
    (hf : m.store.kind f = .method c .constructor) :
    (invoke k f (some c) []).Goes W n m fun o t s =>
      Built s m.store.objects.size c o .plain t := by
  have hfits := (hm.sound.store.objects f).kind
  change Kind.Fits W m.store (m.store.kind f) at hfits
  rw [hf] at hfits
  refine Goes.bind_see ?_
  rw [hf]
  exact callMethod_frame hm (by simp) hk hfits.1 hfits.2 (by simpa using hfits.1)
    (enters_constructor hk hm hc)

end ObjectLang.Eval
