import ObjectLang.Proofs.Eval.Candid
import ObjectLang.Proofs.MemberAgreement

/-!
Turning a value into text hides no failure.
The text of a value is its member `string`, and its description only where the machine's own lookup
finds no such member. A name that is unknown to code of the program has left a statement before it
gets out of the code, and the machine's own code finds the names that it looks for.
-/
namespace ObjectLang

open Machine Routine

/-- On the machine the routine does not fail for a name that is not found, unless a statement of a
program has failed for it. -/
def Routine.Sure {α : Type} (x : Routine α) (m : Machine) : Prop :=
  ∀ n m', x m ≠ .failed (.fault (.unknownName n)) m'

namespace Routine.Sure

variable {α β : Type} {x : Routine α} {m m' : Machine} {f : α → Routine β}

theorem of_done {a : α} (h : x m = .done a m') : x.Sure m := by
  intro n m'' hfails
  rw [h] at hfails
  cases hfails

theorem bind (hx : x.Sure m) (hf : ∀ a m', x m = .done a m' → (f a).Sure m') :
    (x >>= f).Sure m := by
  intro n m' hfails
  rw [bind_run] at hfails
  cases hrun : x m with
  | done a m₁ =>
    rw [hrun] at hfails
    exact hf a m₁ hrun n m' hfails
  | failed e m₁ =>
    rw [hrun] at hfails
    cases hfails
    exact hx n m' hrun
  | exhausted =>
    rw [hrun] at hfails
    cases hfails

theorem bind_done {a : α} (hx : x m = .done a m') (hf : (f a).Sure m') :
    (x >>= f).Sure m := by
  refine (of_done hx).bind fun b m₁ hb => ?_
  cases hx.symm.trans hb
  exact hf

theorem ensuring (hx : x.Sure m) (cleanUp : Machine → Machine) : (x.ensuring cleanUp).Sure m := by
  intro n m' hfails
  simp only [Routine.ensuring, ending] at hfails
  split at hfails
  · cases hfails
  · next hrun =>
    cases hfails
    exact hx n _ hrun
  · cases hfails

theorem outOfFuel : (Routine.outOfFuel : Routine α).Sure m := nofun

end Routine.Sure

namespace Eval

variable {m₀ m : Machine} {c : CellId} {f target : ObjectId} {name : String}

theorem operatorCell_sure (target : ObjectId) (op : String) (m : Machine) :
    (operatorCell target op).Sure m := by
  refine .bind_done rfl ?_
  split
  · exact .of_done rfl
  · exact .bind_done rfl nofun

/-- Without fuel no getter is called. -/
theorem readCell_shallow (c : CellId) (receiver : Option ObjectId) (m : Machine) :
    (readCell (.ofDepth 0) c receiver).Sure m := by
  refine .bind_done rfl ?_
  split
  · exact .of_done rfl
  · exact .of_done rfl
  · exact .outOfFuel
  · exact .bind_done rfl .outOfFuel

theorem dispatch_shallow (target : ObjectId) (op : String) (args : List ObjectId) (m : Machine) :
    (dispatch (.ofDepth 0) target op args).Sure m := by
  refine Sure.bind (operatorCell_sure target op m) fun c m₁ _ => .bind ?_ fun f m₂ _ => .outOfFuel
  exact .bind_done rfl (readCell_shallow _ _ _)

variable (h : Reachable m₀)
include h

variable (hm : Backed m₀ m)
include hm

/-- The machine's own classes are there to be instantiated. -/
theorem instanceOf_sure (hname : name ∈ Builtin.valueClasses) (kind : Kind) (d : Nat) :
    (instanceOf (.ofDepth d) name kind).Sure m := by
  obtain ⟨i, v, hi, hv, hsimple⟩ := h.simple hname
  refine .bind_done (hm.builtin_const h.sound hi hv (.ofDepth d)).run ?_
  cases d with
  | succ d =>
    obtain ⟨o, m', hrun, -⟩ := hm.instantiate_simple h.sound hsimple (d := d + 1) (by omega) kind
    exact .of_done hrun
  | zero =>
    cases hsimple with
    | top hclass hb hbase =>
      obtain ⟨o, m', hrun, -⟩ := hm.instantiate_simple h.sound (.top (n := 0) hclass hb hbase)
        (d := 0) (by omega) kind
      exact .of_done hrun
    | @above _ _ base b hclass _ hbase _ =>
      have hblueprint : blueprint v m = .done b m := by
        simp [blueprint, bind_run, see, quiet, hm.grows.kind_of_ne hclass (by simp), pure_run]
      refine .bind_done rfl (.bind_done hblueprint (.bind ?_ fun o m' hdone => ?_))
      · rw [makeBase, hbase]
        exact (dispatch_shallow base "()" [] m).bind fun _ _ _ => .of_done rfl
      · rw [makeBase, hbase] at hdone
        obtain ⟨o, m₁, hdispatch, -⟩ := done_of_bind hdone
        obtain ⟨i, m₂, -, hread⟩ := done_of_bind hdispatch
        obtain ⟨f, m₃, -, hinvoke⟩ := done_of_bind hread
        cases hinvoke

theorem enter_sure (hstack : m.stack ≠ []) {code : Code} (hcode : code.tells = true)
    (this : ObjectId) (args : List ObjectId) (d : Nat) :
    (enter (.ofDepth d) code.body this args).Sure m := by
  cases hbody : code.body with
  | block b =>
    intro n m' hfails
    cases runBody_fatal h.sound hm hstack hfails
  | primitive p =>
    have hp : p ∈ [Primitive.describe, .typeOf, .identity, .definitionName] := by
      unfold Code.tells at hcode
      rw [hbody] at hcode
      split at hcode <;> simp_all
    have hstring : ∀ text, (string (.ofDepth d) text).Sure m := fun text =>
      instanceOf_sure h hm (by decide) _ d
    simp only [List.mem_cons, List.not_mem_nil, or_false] at hp
    rcases hp with rfl | rfl | rfl | rfl
    · exact .bind_done rfl (hstring _)
    · refine .bind_done rfl ?_
      split
      · exact .of_done rfl
      · obtain ⟨v, hnothing⟩ := hm.nothing h.sound (.ofDepth d)
        exact .of_done hnothing.run
    · exact .bind_done rfl (.bind_done rfl (instanceOf_sure h hm (by decide) _ d))
    · exact .bind_done rfl (hstring _)

/-- A getter that finds no name is one of the program, and a statement of it has failed. -/
theorem invoke_sure (hf : m₀.store.MethodBy Code.tells f) (receiver : Option ObjectId)
    (args : List ObjectId) (d : Nat) : (invoke (.ofDepth d) f receiver args).Sure m := by
  obtain ⟨owner, code, hkind, hcode⟩ := hf
  have hf : m₀.store.code? f = some code := by rw [Store.code?, hkind]
  obtain ⟨names, hparams⟩ : ∃ names, code.params = .fixed names := by
    unfold Code.tells at hcode
    split at hcode
    · exact ⟨_, ‹_›⟩
    · exact ⟨_, ‹_›⟩
    · cases hcode
  intro n m' hfails
  obtain ⟨_, _, _, hne⟩ | ⟨_, hne⟩ | ⟨m₁, m₂, hbacked, hstack, hrun⟩ :=
    h.poised.invoke_failed hm hf hparams hfails
  · cases hne
  · cases hne
  · exact enter_sure h hbacked hstack hcode _ _ d n m₂ hrun

/-- The induction is on the depth, since the cell behind a view is read one level further down. -/
theorem readCell_sure (hc : m₀.store.HasCell c) (receiver : Option ObjectId) (d : Nat) :
    (readCell (.ofDepth d) c receiver).Sure m := by
  induction d generalizing c with
  | zero => exact readCell_shallow _ _ _
  | succ d ih =>
    have hapt := h.guarded.store.cells c hc
    have hread : see (·.cell c) m = .done (m₀.store.cell c) m := by
      rw [← hm.store.cells c hc]
      rfl
    refine .bind_done hread ?_
    cases hcell : m₀.store.cell c with
    | var v => exact .of_done rfl
    | const v => exact .of_done rfl
    | computed getter setter =>
      rw [hcell] at hapt
      exact invoke_sure h hm hapt.1.2 receiver [] d
    | view shown =>
      rw [hcell] at hapt
      exact .bind_done rfl (ih hapt.1)

end Eval

namespace Machine

variable {m m' : Machine} {a : Activation} {v : ObjectId} {name n : String} {d : Nat}

/-- A member that cannot be read since a name is unknown, of which no statement tells, is not there:
the machine's own operator has looked for it. -/
theorem Reachable.getMember_unknown (h : Reachable m) (hstack : m.stack.head? = some a)
    (hv : m.store.HasObject v)
    (hfails : Eval.getMember (.ofDepth d) v name m = .failed (.fault (.unknownName n)) m') :
    n = name ∧ m.store.Transparent v ∧ m.store.holder? a.owner v name = none := by
  cases d with
  | zero =>
    have hvalue : "String" ∈ Builtin.valueClasses := by decide
    have hstring := Eval.instanceOf_sure h (.refl m) hvalue (.string name) 0
    exact absurd hfails (hstring.bind (fun text m₁ _ => Eval.dispatch_shallow v "." [text] m₁) n m')
  | succ d =>
    obtain ⟨c, w, hc, hw, hsimple⟩ := h.simple (show "String" ∈ Builtin.valueClasses by decide)
    obtain ⟨text, m₁, hstring, hmade, -⟩ :=
      (Eval.Backed.refl m).instanceOf_run h.sound hc hw hsimple d (.string name)
    have hbacked : Eval.Backed m m₁ := ⟨hmade.retains.store, hmade.retains.builtins⟩
    have hget : Eval.getMember (.ofDepth (d + 1)) v name m =
        Eval.dispatch (.ofDepth (d + 1)) v "." [text] m₁ := bind_run_done hstring
    obtain ⟨i, hi⟩ : ∃ i, m.store.lookup (.part v .operators) "." = some i :=
      h.lookup_operator Code.memberRead_mem hv (h.formed v)
    obtain ⟨f, hf, -, -, -, hreads⟩ := h.guarded.store.operator hi
    obtain ⟨owner, code, hkind, hcode⟩ := hreads rfl
    rcases Bool.or_eq_true_iff.mp hcode with hblock | hsame
    · obtain ⟨b, names, hbody, hparams⟩ := Code.exists_of_isBlock hblock
      have htells : code.tells = true := by simp [Code.tells, hbody, hparams]
      rw [hget, hbacked.dispatch_run h.sound hv hi hf] at hfails
      exact absurd hfails (Eval.invoke_sure h hbacked ⟨owner, code, hkind, htells⟩ _ _ d n m')
    · have hplain : m.store.Transparent v :=
        ⟨i, f, owner, hi, hf, by rw [← Code.eq_of_same hsame]; exact hkind⟩
      obtain ⟨b, m₂, this, hwithin, -, hread⟩ :=
        h.getMember_holder hstack hv hplain (.refl _) h.sound.store d name
      rw [show Eval.getMember (.ofDepth (d + 1)) v name m = _ from hread] at hfails
      cases hholder : m.store.holder? a.owner v name with
      | none =>
        rw [hholder] at hfails
        cases hfails
        exact ⟨rfl, hplain, rfl⟩
      | some c =>
        rw [hholder] at hfails
        have hc := Store.hasCell_of_lookupIn h.sound.store.toWellformed hholder
        have hsure := Eval.readCell_sure h ((Eval.Backed.refl m).within hwithin) hc (some this) d
        exact absurd hfails (hsure.ensuring leave n m')

/-- In every state of a run, for every value and to every depth: its text is that of its member
`string`, and turning it into text fails with the error that reading this member fails with. Only
where the value's members are read by the machine's own operator, and the running activation finds
no member `string`, the text is the description. A statement that fails on the way, in whatever code
is run, fails the whole with the error that leaves it. So it is for printing the value and for
adding it to a string, which make nothing of the text before they have it. -/
theorem texts_hide_no_failure (h : Reachable m) (hstack : m.stack.head? = some a)
    (hv : m.store.HasObject v) (d : Nat) :
    (match Eval.getMember (.ofDepth d) v "string" m with
      | .done text m' => Eval.toText (.ofDepth d) v m =
          .done ((m'.store.asString text).getD (m'.store.describe text)) m'
      | .failed e m' => Eval.toText (.ofDepth d) v m = .failed e m' ∨
          e = .fault (.unknownName "string") ∧ m.store.Transparent v ∧
            m.store.holder? a.owner v "string" = none ∧
            Eval.toText (.ofDepth d) v m = .done (m'.store.describe v) m'
      | .exhausted => Eval.toText (.ofDepth d) v m = .exhausted) ∧
    ((Eval.toText (.ofDepth d) v).Candid ∧ (Eval.print (.ofDepth d) [v]).Candid ∧
      ∀ this, (Eval.concat (.ofDepth d) this [v]).Candid) ∧
    (∀ e m', Eval.toText (.ofDepth d) v m = .failed e m' →
      Eval.print (.ofDepth d) [v] m = .failed e m' ∧
      ∀ this left, m.store.asString this = some left →
        Eval.concat (.ofDepth d) this [v] m = .failed e m') ∧
    ∀ text m', Eval.toText (.ofDepth d) v m = .done text m' →
      Eval.print (.ofDepth d) [v] m = (writeLine text >>= fun _ => Eval.nothing (.ofDepth d)) m' ∧
      ∀ this left, m.store.asString this = some left →
        Eval.concat (.ofDepth d) this [v] m = Eval.string (.ofDepth d) (left ++ text) m' := by
  have hk := Inner.candid_ofDepth d
  have hconcat : ∀ this left, m.store.asString this = some left →
      Eval.expectString this .notString m = .done left m := by
    intro this left hleft
    simp [Eval.expectString, bind_run, see, quiet, hleft, pure_run]
  refine ⟨?_, ⟨hk.toText (g := ()) v, hk.perform (g := ()) (p := .print) False.elim (by simp) v [v],
    fun this => hk.perform (g := ()) (p := .concat) False.elim (by simp) this [v]⟩,
    fun e m' hfails => ⟨?_, ?_⟩, fun text m' hdone => ⟨?_, ?_⟩⟩
  · cases hget : Eval.getMember (.ofDepth d) v "string" m with
    | done text m' => simp [Eval.toText, bind_run, attempt, ending, hget, Eval.textOf, see, quiet]
    | exhausted => simp [Eval.toText, bind_run, attempt, ending, hget]
    | failed e m' =>
      by_cases hname : ∃ n, e = .fault (.unknownName n)
      · obtain ⟨n, rfl⟩ := hname
        obtain ⟨rfl, hplain, hnone⟩ := h.getMember_unknown hstack hv hget
        refine Or.inr ⟨rfl, hplain, hnone, ?_⟩
        simp [Eval.toText, bind_run, attempt, ending, hget, see, quiet]
      · left
        simp only [Eval.toText, bind_run, attempt, ending, hget]
        split
        · cases ‹_ = _›
        · next n heq => exact absurd ⟨n, Except.error.inj heq⟩ hname
        · next heq => cases heq; rfl
  · simp [Eval.print, Eval.argument, bind_run, pure_run, hfails]
  · intro this left hleft
    rw [Eval.concat, bind_run_done (hconcat this left hleft)]
    simp [Eval.argument, bind_run, pure_run, hfails]
  · simp [Eval.print, Eval.argument, bind_run, pure_run, hdone]
  · intro this left hleft
    rw [Eval.concat, bind_run_done (hconcat this left hleft)]
    simp [Eval.argument, bind_run, pure_run, hdone]

section Witness

def textlessSource : Source := .ofText
  "class A \x7b property string \x7b get \x7b return b \x7d \x7d \x7d; val a = A()"

theorem textless_run :
    ∃ m, (Eval.runSource (.ofDepth 24) textlessSource initial).machine? = some m ∧
    ∃ x, m.lookup "a" = some x ∧ ∃ o, m.store.cell x = .const o ∧ m.store.HasObject o ∧
    (∃ a, m.stack.head? = some a) ∧
    ∃ e m', Eval.getMember (.ofDepth 24) o "string" m = .failed e m' ∧ e.isFatal = true := by
  decide +kernel

/-- Printing the instance fails, with the error that the getter fails with. -/
theorem texts_hide_no_failure_textless : ∃ m a o e m', Reachable m ∧ m.stack.head? = some a ∧
    m.store.HasObject o ∧ e.isFatal = true ∧ Eval.print (.ofDepth 24) [o] m = .failed e m' := by
  obtain ⟨m, hend, -, -, o, -, ho, ⟨a, ha⟩, e, m', hget, he⟩ := textless_run
  have hreachable : Reachable m := .between (.next .start 24 textlessSource hend)
  obtain ⟨htext, -, hfails, -⟩ := texts_hide_no_failure hreachable ha ho 24
  simp only [hget] at htext
  obtain htext | ⟨rfl, -⟩ := htext
  · exact ⟨m, a, o, e, m', hreachable, ha, ho, he, (hfails e m' htext).1⟩
  · cases he

end Witness

end Machine

end ObjectLang
