import ObjectLang.Proofs.Ancestry
import ObjectLang.Proofs.Eval.MemberRead
import ObjectLang.Proofs.StaticScope

/-!
Arithmetic on numbers.
A number answers an operator, and the compound assignment that goes with it, by two methods of its
own that do the same: both numbers are read, and the result is a new instance of its class. Nothing
of this depends on the call stack, so the two methods differ in the log that they leave and in
nothing else. Integers are exact, or refused where the exact result has no place in 64 bits.
-/
namespace ObjectLang

open Machine Routine

namespace Number

def className : Number → String
  | integer _ => "Integer"
  | float _ => "Float"

def kind : Number → Kind
  | integer n => .integer n
  | float x => .float x

end Number

namespace Arith

def numbers (op : Arith) : Number → Number → Except Fault Number
  | .integer a, .integer b => .integer <$> op.integers a b
  | a, b => .float <$> op.floats a.toFloat b.toFloat

def hooks (op : Arith) : List String := [op.symbol, op.updateSymbol]

def code (op : Arith) (hook : String) : Code := .primitive hook ["other"] (.arithmetic op)

variable {op : Arith} {a b : Int64}

theorem integers_of_range (hzero : ¬ (op = .div ∧ b = 0))
    (hrange : -9223372036854775808 ≤ op.exact a.toInt b.toInt ∧
      op.exact a.toInt b.toInt ≤ 9223372036854775807) :
    ∃ r : Int64, op.integers a b = .ok r ∧ r.toInt = op.exact a.toInt b.toInt := by
  have hrange : -Int.pow 2 63 ≤ op.exact a.toInt b.toInt ∧
      op.exact a.toInt b.toInt < Int.pow 2 63 := ⟨hrange.1, Int.lt_add_one_of_le hrange.2⟩
  refine ⟨Int64.ofInt (op.exact a.toInt b.toInt), ?_, Int64.toInt_ofInt_of_le hrange.1 hrange.2⟩
  rw [integers, if_neg hzero]
  exact if_pos hrange

theorem integers_of_not_range (h : (op = .div ∧ b = 0) ∨
      ¬ (-9223372036854775808 ≤ op.exact a.toInt b.toInt ∧
        op.exact a.toInt b.toInt ≤ 9223372036854775807)) :
    ∃ f, op.integers a b = .error f ∧ f.group = .arithmetic := by
  rw [integers]
  split
  · exact ⟨_, rfl, rfl⟩
  · next hzero =>
    have hrange : ¬ (-Int.pow 2 63 ≤ op.exact a.toInt b.toInt ∧
        op.exact a.toInt b.toInt < Int.pow 2 63) := by
      rintro ⟨hlow, hhigh⟩
      exact h.resolve_left hzero ⟨hlow, Int.le_of_lt_add_one hhigh⟩
    exact ⟨_, if_neg hrange, rfl⟩

end Arith

namespace Store

def number? (s : Store) (o : ObjectId) : Option Number :=
  match s.kind (s.face o) with
  | .integer n => some (.integer n)
  | .float x => some (.float x)
  | _ => none

/-- The object answers an operator by the arithmetic of the machine, as the level `l` has it. -/
def Reckons (s : Store) (o l : ObjectId) (op : Arith) (hook : String) : Prop :=
  ∃ c f, s.lookup (.part o .operators) hook = some c ∧ s.cell c = .const f ∧
    s.MethodOf l (op.code hook) f ∧ f ≠ o

variable {s s' : Store} {o : ObjectId}

theorem Retains.number? (h : s.Retains s.objects.size s') (ho : s.HasObject o)
    (hface : s.HasObject (s.face o)) : s'.number? o = s.number? o := by
  rw [Store.number?, h.face ho, h.kind hface, Store.number?]

end Store

namespace Machine

def IsInstance (m : Machine) (name : String) (o : ObjectId) : Prop :=
  ∃ c, m.IsBuiltin name c ∧ m.store.Finished m.roots.root o ∧ m.store.type o = some c

def IsNumber (m : Machine) (o : ObjectId) (n : Number) : Prop :=
  m.IsInstance n.className o ∧ m.store.number? o = some n

/-- A sound machine that can make numbers. -/
structure Numerate (W : Stock) (m : Machine) : Prop extends m.Sound W where
  classes : ∀ n : Number, ∃ c v, m.store.local? m.builtins n.className = some c ∧
    m.store.cell c = .const v ∧ m.store.Simple 2 v

inductive Yields (op : Arith) (m : Machine) (a b : ObjectId) :
    Except Fault ObjectId → Machine → Prop where
  | number {x y n : Number} {o : ObjectId} {m' : Machine} (ha : m.store.number? a = some x)
      (hb : m.store.number? b = some y) (hn : op.numbers x y = .ok n)
      (hnew : ¬ m.store.HasObject o) (ho : m'.IsNumber o n) : Yields op m a b (.ok o) m'
  | refused {x y : Number} {f : Fault} {m' : Machine} (ha : m.store.number? a = some x)
      (hb : m.store.number? b = some y) (hf : op.numbers x y = .error f) :
      Yields op m a b (.error f) m'
  | mistyped {f : Fault} {m' : Machine}
      (h : m.store.number? a = none ∨ m.store.number? b = none) (hf : f.group = .invalidType) :
      Yields op m a b (.error f) m'

variable {W : Stock} {op : Arith} {m m₁ m' : Machine} {a b : ObjectId} {r : Except Fault ObjectId}

theorem Retains.atop {n : Nat} (h : m.Retains n m') (log : List Event) :
    m.Retains n (m'.atop m.stack log) :=
  ⟨h.store, rfl, h.builtins, h.modules, h.roots, h.sink⟩

theorem Yields.of_retains (hw : m.store.Wellformed W)
    (hm : m.Retains m.store.objects.size m₁) (ha : m.store.HasObject a) (hb : m.store.HasObject b)
    (h : Yields op m₁ a b r m') : Yields op m a b r m' := by
  have hleft := hm.store.number? ha (hw.has_face ha)
  have hright := hm.store.number? hb (hw.has_face hb)
  cases h with
  | number hx hy hn hnew ho =>
    exact .number (hleft ▸ hx) (hright ▸ hy) hn (fun hold => hnew (hold.mono hm.store.sizes)) ho
  | refused hx hy hf => exact .refused (hleft ▸ hx) (hright ▸ hy) hf
  | mistyped hnone hf => exact .mistyped (hleft ▸ hright ▸ hnone) hf

/-- Two integers come to what is exact, or to what is refused. -/
theorem Yields.integers {x y : Int64} (h : Yields op m a b r m')
    (hx : m.store.number? a = some (.integer x)) (hy : m.store.number? b = some (.integer y)) :
    (∃ n o, op.integers x y = .ok n ∧ r = .ok o ∧ ¬ m.store.HasObject o ∧
      m'.IsNumber o (.integer n)) ∨ ∃ f, op.integers x y = .error f ∧ r = .error f := by
  cases h with
  | number ha hb hn hnew ho =>
    cases hx.symm.trans ha
    cases hy.symm.trans hb
    rw [Arith.numbers] at hn
    cases hi : op.integers x y with
    | error f =>
      rw [hi] at hn
      cases hn
    | ok n =>
      rw [hi] at hn
      cases hn
      exact Or.inl ⟨n, _, rfl, rfl, hnew, ho⟩
  | refused ha hb hf =>
    cases hx.symm.trans ha
    cases hy.symm.trans hb
    rw [Arith.numbers] at hf
    cases hi : op.integers x y with
    | error f =>
      rw [hi] at hf
      cases hf
      exact Or.inr ⟨_, rfl, rfl⟩
    | ok n =>
      rw [hi] at hf
      cases hf
  | mistyped hnone _ => rcases hnone with hnone | hnone <;> simp [hx, hy] at hnone

end Machine

namespace Routine

variable {α β : Type} {x : Routine α} {f : α → Routine β} {a : α} {b : β} {m m' m₁ m₂ : Machine}

/-- Whatever the call stack and the log are, the routine gives the value and leaves the other
machine, with the stack as it was. -/
def Settles (x : Routine α) (m : Machine) (a : α) (m' : Machine) : Prop :=
  ∀ stack log, ∃ log', x (m.atop stack log) = .done a (m'.atop stack log')

theorem Settles.bind (hx : x.Settles m a m₁) (hf : (f a).Settles m₁ b m₂) :
    (x >>= f).Settles m b m₂ := by
  intro stack log
  obtain ⟨log₁, hfirst⟩ := hx stack log
  obtain ⟨log₂, hsecond⟩ := hf stack log₁
  exact ⟨log₂, by rw [bind_run_done hfirst, hsecond]⟩

theorem Settles.stack (h : x.Settles m a m') (hrun : x m = .done a m') : m'.stack = m.stack := by
  obtain ⟨log, hlog⟩ := h m.stack m.log
  have hsame := hrun.symm.trans hlog
  simp only [Outcome.done.injEq, true_and] at hsame
  rw [hsame]
  rfl

/-- What a routine that sees nothing of the call stack does once, it does on every stack. -/
theorem OnlySees.settles (h : x.OnlySees [] m) (hrun : x m = .done a m')
    (hstack : m'.stack = m.stack) : x.Settles m a m' := by
  obtain ⟨r, hr⟩ := h
  have hself : x m = r.onto m.stack m.log := hr m.stack m.log
  cases r with
  | done v m₀ =>
    cases hrun.symm.trans hself
    have hempty : m₀.stack = [] := by simpa [onto] using hstack
    intro stack log
    refine ⟨m₀.log ++ log, (hr stack log).trans ?_⟩
    simp [Outcome.onto, onto, atop, hempty]
  | failed e m₀ => cases hrun.symm.trans hself
  | exhausted => cases hrun.symm.trans hself

end Routine

namespace Eval

variable {W : Stock} {k : Inner} {m m' m₀ : Machine} {b : Blueprint} {c o : ObjectId} {kind : Kind}

section Made

/-- A level is filled without a look at the call stack, if no code runs for it. -/
theorem fillLevel_local (hb : b.Simple) (o : ObjectId) : (fillLevel k b o).Local 0 := by
  have hmake (code : Code) : (makeMethod o code).Local 0 :=
    (makeRooted_local _ _).bind fun f => (Local.defineConst _ _ f).bind fun _ => .pure f
  have hmethod (p : Part) (code : Code) : (defineMethod o p code).Local 0 :=
    (hmake code).bind fun f => .defineConst _ _ f
  have hproperty (p : PropertyPlan) (hp : p ∈ b.properties) : (defineProperty k o p).Local 0 := by
    have hsetter : (maybeMethod o p.setter).Local 0 := by
      cases p.setter with
      | none => exact .pure none
      | some code => exact (hmake code).bind fun _ => .pure _
    obtain ⟨getter, hget⟩ := Option.ne_none_iff_exists'.mp (hb.getters p hp)
    rw [defineProperty, propertyCell, hget]
    exact (hsetter.bind fun _ => (hmake getter).bind fun _ => .newCell _).bind
      fun c => .define _ _ c
  rw [fillLevel, hb.vals, hb.vars]
  exact (Local.forM fun c _ => hmethod _ c).bind fun _ =>
    (Local.forM fun c _ => hmethod _ c).bind fun _ => (Local.forM hproperty).bind fun _ =>
      (Local.pure ()).bind fun _ => .pure ()

/-- A level put on a base that is made without a look at the call stack. -/
theorem instantiate_settles_over (hc : m.store.kind c = .ofClass b) (hb : b.Simple)
    (hbase : ∀ base m₁, makeBase k b m = .done base m₁ → (makeBase k b).Settles m base m₁)
    (hrun : instantiate k c kind m = .done o m') (hstack : m'.stack = m.stack) :
    (instantiate k c kind).Settles m o m' := by
  have htouch : (touch (.instantiates c kind)).Settles m () m := fun stack log => ⟨log, rfl⟩
  have hblueprint : ∀ m : Machine, m.store.kind c = .ofClass b → blueprint c m = .done b m := by
    intro m hc
    simp [blueprint, bind_run, see, quiet, hc, pure_run]
  have hread : (blueprint c).Settles m b m := fun stack log =>
    ⟨log, hblueprint (m.atop stack log) hc⟩
  rw [instantiate, bind_run_done (show touch _ m = .done () m from rfl),
    bind_run_done (hblueprint m hc)] at hrun
  obtain ⟨base, m₁, hmake, hrest⟩ := done_of_bind hrun
  have hsettles := hbase base m₁ hmake
  have hlocal : (newObject base kind >>= fun o => fillLevel k b o >>= fun _ =>
      change (·.wearFace o) >>= fun _ => change (·.setType o c) >>= fun _ => pure o).Local 0 :=
    (Local.newObject base kind).bind fun o => (fillLevel_local hb o).bind fun _ =>
      (Local.change _).bind fun _ => (Local.change _).bind fun _ => .pure o
  rw [instantiate]
  refine htouch.bind (hread.bind (hsettles.bind ?_))
  exact (OnlySees.of_local hlocal (Nat.zero_le _) m₁).settles hrest
    (hstack.trans (hsettles.stack hmake).symm)

variable (hm₀ : m₀.Sound W) (h : Backed m₀ m)
include hm₀ h

/-- The call of a class has the same outcome on every call stack. -/
theorem Backed.dispatch_class_unseen (hc : m₀.store.kind c = .ofClass b) (d : Nat) :
    (dispatch (.ofDepth (d + 1)) c "()" []).OnlySees [] m := by
  obtain ⟨-, i, f, hi, hf, hkind⟩ := hm₀.store.answers c b hc
  have hne : f ≠ c := by
    rintro rfl
    cases hc.symm.trans hkind
  have hcall : (callMethod (.ofDepth d) c .constructor (some c) []).OnlySees [] m :=
    h.callMethod_unseen hm₀ (Inner.local_ofDepth d) (by rintro ⟨p, ⟨⟩, ⟨⟩⟩)
      (by rintro names ⟨⟩; rfl) c _
  refine hcall.congr fun stack log => ?_
  have hback : Backed m₀ (m.atop stack log) := ⟨h.store, h.builtins⟩
  have hsee : see (·.kind f) (m.atop stack log) =
      .done (.method c .constructor) (m.atop stack log) := by
    rw [← hback.grows.kind_of_ne hkind (by simp)]
    rfl
  rw [hback.dispatch_run hm₀ (Store.has_of_kind (by simp [hc])) (Store.lookup_of_local? hi) hf,
    if_neg hne, invoke, bind_run_done hsee]

/-- So is an instance of a simple class made in the same way on every call stack. -/
theorem Backed.instantiate_settles {j d : Nat} (hc : m₀.store.Simple j c) (hd : j ≤ d + 1)
    (hrun : instantiate (.ofDepth d) c kind m = .done o m') (hstack : m'.stack = m.stack) :
    (instantiate (.ofDepth d) c kind).Settles m o m' := by
  cases hc with
  | @top n c b hc hb hbase =>
    refine instantiate_settles_over (h.grows.kind_of_ne hc (by simp)) hb ?_ hrun hstack
    intro base m₁ hmake
    rw [makeBase, hbase] at hmake ⊢
    cases hmake
    exact fun stack log => ⟨log, rfl⟩
  | @above n c base b hc hb hbase hsimple =>
    obtain ⟨d, rfl⟩ : ∃ d', d = d' + 1 := by
      cases hsimple <;> exact ⟨d - 1, by omega⟩
    obtain ⟨b', hb'⟩ : ∃ b', m₀.store.kind base = .ofClass b' := by
      cases hsimple <;> exact ⟨_, ‹_›⟩
    refine instantiate_settles_over (h.grows.kind_of_ne hc (by simp)) hb ?_ hrun hstack
    intro l m₁ hmake
    rw [makeBase, hbase] at hmake ⊢
    obtain ⟨x, m₂, hdispatch, hlast⟩ := done_of_bind hmake
    cases hlast
    have hlevel : m₁.stack = m.stack := by
      obtain ⟨a, m₂, hcall, hwithin⟩ := h.dispatch_class hm₀ hb' d
      obtain ⟨x', m₃, hrun', hmade, -⟩ :=
        (h.within hwithin).instantiate_simple hm₀ hsimple (d := d) (by omega) .plain
      rw [hcall.run] at hdispatch
      simp only [ensuring, ending, hrun', Outcome.done.injEq] at hdispatch
      rw [← hdispatch.2]
      exact (hwithin.leave (hmade.retains.mono hwithin.store.sizes.objects)).stack
    exact ((h.dispatch_class_unseen hm₀ hb' d).settles hdispatch hlevel).bind
      fun stack log => ⟨log, rfl⟩

end Made

section Numbers

variable {op : Arith} {a b' l : ObjectId} {d : Nat}

theorem number_run (o : ObjectId) (m : Machine) : number o m =
    match m.store.number? o with
    | some n => .done n m
    | none => .failed (.fault (.notNumber (m.store.typeName o))) m := by
  rw [number, bind_run, Store.number?]
  simp only [see, quiet]
  cases m.store.kind (m.store.face o) <;> rfl

theorem arithmetic_run (k : Inner) (op : Arith) (a b : ObjectId) (m : Machine) :
    arithmetic k op a [b] m =
      match m.store.number? a, m.store.number? b with
      | none, _ => .failed (.fault (.notNumber (m.store.typeName a))) m
      | some _, none => .failed (.fault (.notNumber (m.store.typeName b))) m
      | some x, some y =>
        (ofExcept (op.numbers x y) >>= fun n => instanceOf k n.className n.kind) m := by
  have hargument : argument [b] 0 m = .done b m := rfl
  rw [arithmetic, bind_run, number_run]
  cases m.store.number? a with
  | none => rfl
  | some x =>
    simp only
    rw [bind_run_done hargument, bind_run, number_run]
    cases m.store.number? b with
    | none => rfl
    | some y =>
      cases x <;> cases y <;> simp only [Arith.numbers, bind_run]
      · cases op.integers _ _ <;> rfl
      all_goals cases op.floats _ _ <;> rfl

/-- A number is made in the same way on every call stack. -/
theorem Backed.number_made (hm₀ : m₀.Numerate W) (h : Backed m₀ m) (n : Number) (d : Nat) :
    ∃ c o m', m₀.IsBuiltin n.className c ∧ Made m c n.kind o m' ∧
      (instanceOf (.ofDepth (d + 1)) n.className n.kind).Settles m o m' := by
  obtain ⟨i, c, hi, hc, hsimple⟩ := hm₀.classes n
  obtain ⟨o, m', hrun, hmade, -⟩ := h.instanceOf_run hm₀.toSound hi hc hsimple d n.kind
  have hclass : ∀ stack log, builtin (.ofDepth (d + 1)) n.className (m.atop stack log) =
      .done c (m.atop stack log) := by
    intro stack log
    have hback : Backed m₀ (m.atop stack log) := ⟨h.store, h.builtins⟩
    exact (hback.builtin_const hm₀.toSound hi hc _).run
  refine ⟨c, o, m', ⟨i, hi, hc⟩, hmade, Settles.bind (fun stack log => ⟨log, hclass stack log⟩) ?_⟩
  have hfound : builtin (.ofDepth (d + 1)) n.className m = .done c m := hclass m.stack m.log
  rw [instanceOf, bind_run_done hfound] at hrun
  exact h.instantiate_settles hm₀.toSound hsimple (by omega) hrun hmade.retains.stack

/-- Arithmetic has the same outcome on every call stack. -/
theorem Backed.arithmetic_settles (hm₀ : m₀.Numerate W) (h : Backed m₀ m)
    (hroots : m.roots = m₀.roots) (op : Arith) (a b : ObjectId) (d : Nat) :
    ∃ r m', m.Retains m.store.objects.size m' ∧ Yields op m a b r m' ∧
      ∀ stack log, ∃ log', arithmetic (.ofDepth (d + 1)) op a [b] (m.atop stack log) =
        ofExcept r (m'.atop stack log') := by
  cases ha : m.store.number? a with
  | none =>
    refine ⟨.error (.notNumber (m.store.typeName a)), m, .refl _ m, .mistyped (Or.inl ha) rfl,
      fun stack log => ⟨log, ?_⟩⟩
    rw [arithmetic_run]
    simp only [atop, ha]
    rfl
  | some x =>
    cases hb : m.store.number? b with
    | none =>
      refine ⟨.error (.notNumber (m.store.typeName b)), m, .refl _ m, .mistyped (Or.inr hb) rfl,
        fun stack log => ⟨log, ?_⟩⟩
      rw [arithmetic_run]
      simp only [atop, ha, hb]
      rfl
    | some y =>
      have hrun : ∀ stack log, arithmetic (.ofDepth (d + 1)) op a [b] (m.atop stack log) =
          (ofExcept (op.numbers x y) >>= fun n => instanceOf (.ofDepth (d + 1)) n.className n.kind)
            (m.atop stack log) := by
        intro stack log
        rw [arithmetic_run]
        simp only [atop, ha, hb]
      cases hn : op.numbers x y with
      | error f =>
        refine ⟨.error f, m, .refl _ m, .refused ha hb hn, fun stack log => ⟨log, ?_⟩⟩
        rw [hrun, hn]
        rfl
      | ok n =>
        obtain ⟨c, o, m', ⟨i, hi, hc⟩, hmade, hsettles⟩ := h.number_made hm₀ n d
        have hback : Backed m₀ m' :=
          ⟨h.store.trans (hmade.retains.store.mono h.store.sizes.objects),
            hmade.retains.builtins.trans h.builtins⟩
        have hroot : m'.roots.root ∉ m'.store.levels o := by
          intro hmem
          have hold : m.store.HasObject m'.roots.root := by
            rw [hmade.retains.roots, hroots]
            exact hm₀.roots.root.mono h.store.sizes
          exact Nat.not_lt.mpr (hmade.new _ hmem) hold
        refine ⟨.ok o, m', hmade.retains, .number ha hb hn ?_
          ⟨⟨c, ?_, ⟨?_, hroot⟩, hmade.type⟩, ?_⟩, fun stack log => ?_⟩
        · exact Nat.not_lt.mpr (hmade.new o (Store.mem_levels_self _ o))
        · exact ⟨i, hback.keeps_const hm₀.toSound hi hc⟩
        · simp [hmade.type]
        · rw [Store.number?, hmade.face, hmade.kind]
          cases n <;> rfl
        · obtain ⟨log', hlog⟩ := hsettles stack log
          exact ⟨log', by rw [hrun, hn]; exact hlog⟩

/-- The operators that stand for one operation on one level are called within activations that
differ by their names. -/
theorem dispatch_enters (hm : m.Numerate W) (ha : m.store.HasObject a) (l b : ObjectId)
    (op : Arith) (d : Nat) : ∃ m₁, m.Retains m.store.objects.size m₁ ∧
      ∀ hook, m.store.Reckons a l op hook → ∃ act log,
        dispatch (.ofDepth (d + 2)) a hook [b] m =
          ((arithmetic (.ofDepth (d + 1)) op a [b]).ensuring leave)
            (m₁.atop (act :: m.stack) log) := by
  obtain ⟨v, hnothing⟩ := (Backed.refl m).nothing hm.toSound (.ofDepth (d + 1))
  obtain ⟨act, m₁, hact, hretains, -⟩ := ownedActivation_run (superOf_finds hnothing l) a none
  obtain ⟨i, s, hfurnished, henter⟩ := runCode_enters (.ofDepth (d + 1)) m₁ a
    (show ["other"].length = [b].length from rfl) (by decide) (by decide)
  refine ⟨{ m₁ with store := s }, hretains.trans (.of_store (hfurnished.retains.mono
    hretains.store.sizes.objects)), fun hook hhook => ?_⟩
  obtain ⟨c, f, hc, hf, hmethod, hne⟩ := hhook
  refine ⟨(act.renamed hook).pushScope (.free i), .pushed hook :: m₁.log, ?_⟩
  have hsee : see (·.kind f) m = .done (.method l (op.code hook)) m := by
    rw [← hmethod]
    rfl
  have hread : Routine.read (·.runningName) m = .done m.runningName m := rfl
  rw [(Backed.refl m).dispatch_run hm.toSound ha hc hf, if_neg hne, invoke, bind_run_done hsee]
  change callMethod (.ofDepth (d + 1)) l (op.code hook) (some a) [b] m = _
  rw [callMethod, bind_run_done hread]
  refine ((hact hook).bind_pure _).run.trans ((henter (op.code hook) _ _ rfl).run.trans ?_)
  rw [← hretains.stack]
  rfl

/-- Whichever of the operators of a number is called, it has the one outcome of the operation, up to
the log. Nothing that was there is changed. -/
theorem dispatch_arithmetic (hm : m.Numerate W) (ha : m.store.HasObject a)
    (hb : m.store.HasObject o) (l : ObjectId) (op : Arith) (d : Nat) :
    ∃ r m', m.Retains m.store.objects.size m' ∧ Yields op m a o r m' ∧
      ∀ hook, m.store.Reckons a l op hook → ∃ log,
        dispatch (.ofDepth (d + 2)) a hook [o] m = ofExcept r (m'.atop m.stack log) := by
  obtain ⟨m₁, hretains, hdispatch⟩ := dispatch_enters hm ha l o op d
  have hback : Backed m m₁ := ⟨hretains.store, hretains.builtins⟩
  obtain ⟨r, m', hretains', hyields, hrun⟩ := hback.arithmetic_settles hm hretains.roots op a o d
  refine ⟨r, m', hretains.trans (hretains'.mono hretains.store.sizes.objects),
    .of_retains hm.store.toWellformed hretains ha hb hyields, fun hook hhook => ?_⟩
  obtain ⟨act, log, hcall⟩ := hdispatch hook hhook
  obtain ⟨log', hend⟩ := hrun (act :: m.stack) log
  refine ⟨.popped act.name :: log', hcall.trans ?_⟩
  simp only [ensuring, ending, hend]
  cases r <;> rfl

end Numbers

end Eval

namespace Machine

variable {m : Machine} {a b l o : ObjectId} {op : Arith} {hook name : String}

/-- The builtin classes of numbers declare all operators. -/
theorem initial_numbers : ∀ name ∈ ["Integer", "Float"],
    ∃ c, initial.store.local? initial.builtins name = some c ∧
    ∃ v, initial.store.cell c = .const v ∧ ∃ b, initial.store.kind v = .ofClass b ∧
    ∀ op ∈ [Arith.add, .sub, .mul, .div], ∀ hook ∈ op.hooks,
      ∃ code ∈ b.operators, code = ⟨hook, .fixed ["other"], .primitive (.arithmetic op), none⟩ := by
  decide +kernel

theorem Reachable.numerate (h : Reachable m) : m.Numerate .any :=
  ⟨h.sound, fun n => h.simple (by cases n <;> simp [Number.className, Builtin.valueClasses])⟩

/-- An instance of a class of numbers has the operators as its own, and keeps them. -/
theorem Reachable.reckons (h : Reachable m) (hname : name ∈ ["Integer", "Float"])
    (ho : m.IsInstance name o) (hhook : hook ∈ op.hooks) {s : Store} (hs : m.store.Grows s) :
    s.Reckons o o op hook := by
  obtain ⟨c, hc, hfinished, htype⟩ := ho
  obtain ⟨i, hi, v, hcell, b, hkind, hcodes⟩ := initial_numbers name hname
  obtain ⟨_, hcode, rfl⟩ := hcodes op (by cases op <;> decide) hook hhook
  obtain rfl := hc.unique ⟨i, h.builtin_const hi hcell⟩
  obtain ⟨c', b', htype', hkind', hlevel⟩ := h.orderly.classed.level o hfinished
  cases htype.symm.trans htype'
  cases (h.abides.lasts.toGrows.kind_of_ne hkind (by simp)).symm.trans hkind'
  have hentry : Entry.method (op.code hook) ∈ b.entries .operators :=
    List.mem_map.mpr ⟨_, hcode, rfl⟩
  obtain ⟨x, hx, f, hf, hmethod⟩ := hlevel.local?_of_mem h.orderly.distinct hentry
  refine ⟨x, f, Store.lookup_of_local? (hs.bound _ _ _ hx), hs.const ?_ hf, ?_, ?_⟩
  · exact Store.hasCell_of_lookup h.sound.store.toWellformed (Store.lookup_of_local? hx)
  · exact hs.kind_of_ne hmethod (by simp)
  · -- A method lies on the root, and an instance does not.
    rintro rfl
    have hdefinition : (m.store.kind f).Definition := by
      rw [show m.store.kind f = _ from hmethod]
      trivial
    exact hfinished.2 (by rw [h.levels_definition hdefinition]; simp)

/-- The operator is refused for a reason of the group. All that was there is as before. -/
def OperatorRefused (m : Machine) (d : Nat) (a : ObjectId) (hook : String) (b : ObjectId)
    (group : Group) : Prop :=
  ∃ f m', Eval.dispatch (.ofDepth (d + 2)) a hook [b] m = .failed (.fault f) m' ∧
    f.group = group ∧ m.Retains m.store.objects.size m'

/-- The operator gives a new integer that holds `z`, or else is refused because `z` has no place in
64 bits. All that was there is as before. -/
def OperatorGives (m : Machine) (d : Nat) (a : ObjectId) (hook : String) (b : ObjectId)
    (z : Int) : Prop :=
  (-9223372036854775808 ≤ z ∧ z ≤ 9223372036854775807 ∧
    ∃ r o m', Eval.dispatch (.ofDepth (d + 2)) a hook [b] m = .done o m' ∧ r.toInt = z ∧
      m'.IsNumber o (.integer r) ∧ ¬ m.store.HasObject o ∧ m.Retains m.store.objects.size m') ∨
  ¬ (-9223372036854775808 ≤ z ∧ z ≤ 9223372036854775807) ∧
    m.OperatorRefused d a hook b .arithmetic

section Integers

variable {x y : Int64}

theorem Reachable.operator_settles (h : Reachable m) (ha : m.store.HasObject a)
    (hb : m.store.HasObject b) (hhook : hook ∈ op.hooks) (hx : m.IsNumber a (.integer x))
    (hy : m.IsNumber b (.integer y)) (d : Nat) :
    (∃ r o m', Eval.dispatch (.ofDepth (d + 2)) a hook [b] m = .done o m' ∧
      op.integers x y = .ok r ∧ m'.IsNumber o (.integer r) ∧ ¬ m.store.HasObject o ∧
      m.Retains m.store.objects.size m') ∨
    ∃ f m', Eval.dispatch (.ofDepth (d + 2)) a hook [b] m = .failed (.fault f) m' ∧
      op.integers x y = .error f ∧ m.Retains m.store.objects.size m' := by
  have hreckons := h.reckons (by simp [Number.className]) hx.1 hhook (.refl _)
  obtain ⟨r, m', hretains, hyields, hrun⟩ := Eval.dispatch_arithmetic h.numerate ha hb a op d
  obtain ⟨log, hlog⟩ := hrun hook hreckons
  rcases hyields.integers hx.2 hy.2 with ⟨n, o, hn, rfl, hnew, ho⟩ | ⟨f, hf, rfl⟩
  · exact Or.inl ⟨n, o, m'.atop m.stack log, hlog, hn, ho, hnew, hretains.atop log⟩
  · exact Or.inr ⟨f, m'.atop m.stack log, hlog, hf, hretains.atop log⟩

theorem Reachable.operator_gives (h : Reachable m) (op : Arith) (ha : m.store.HasObject a)
    (hb : m.store.HasObject b) (hhook : hook ∈ op.hooks) (hx : m.IsNumber a (.integer x))
    (hy : m.IsNumber b (.integer y)) (hzero : ¬ (op = .div ∧ y = 0)) (d : Nat) :
    m.OperatorGives d a hook b (op.exact x.toInt y.toInt) := by
  have hsettles := h.operator_settles ha hb hhook hx hy d
  by_cases hrange : -9223372036854775808 ≤ op.exact x.toInt y.toInt ∧
      op.exact x.toInt y.toInt ≤ 9223372036854775807
  · obtain ⟨n, hn, hexact⟩ := Arith.integers_of_range hzero hrange
    rcases hsettles with ⟨r, o, m', hrun, hr, ho⟩ | ⟨f, m', -, hf, -⟩
    · cases hr.symm.trans hn
      exact Or.inl ⟨hrange.1, hrange.2, n, o, m', hrun, hexact, ho⟩
    · cases hf.symm.trans hn
  · obtain ⟨f, hf, hgroup⟩ := Arith.integers_of_not_range (Or.inr hrange)
    rcases hsettles with ⟨r, o, m', -, hr, -⟩ | ⟨f', m', hrun, hf', hretains⟩
    · cases hr.symm.trans hf
    · cases hf'.symm.trans hf
      exact Or.inr ⟨hrange, f, m', hrun, hgroup, hretains⟩

theorem Reachable.operator_refused (h : Reachable m) (ha : m.store.HasObject a)
    (hb : m.store.HasObject b) (hhook : hook ∈ Arith.div.hooks) (hx : m.IsNumber a (.integer x))
    (hy : m.IsNumber b (.integer 0)) (d : Nat) : m.OperatorRefused d a hook b .arithmetic := by
  obtain ⟨f, hf, hgroup⟩ := Arith.integers_of_not_range (a := x) (Or.inl ⟨rfl, rfl⟩)
  rcases h.operator_settles ha hb hhook hx hy d with
    ⟨r, o, m', -, hr, -⟩ | ⟨f', m', hrun, hf', hretains⟩
  · cases hr.symm.trans hf
  · cases hf'.symm.trans hf
    exact ⟨f, m', hrun, hgroup, hretains⟩

end Integers

/-- In every state that a run comes to, the operators on two integers give a new integer, which
holds the exact sum, difference, product or quotient, the latter cut off toward zero. They fail with
an arithmetic error if there is no quotient, or if the exact result does not fit in 64 bits. Where
an operand is no number, they fail with a type error, be it an instance of a class of numbers or any
object that has its operators from one. All that was there is as before. -/
theorem integers_exact_or_refused (h : Reachable m) (ha : m.store.HasObject a)
    (hb : m.store.HasObject b) (d : Nat) :
    (∀ x y, m.IsNumber a (.integer x) → m.IsNumber b (.integer y) →
      (∀ hook ∈ ["+", "+="], m.OperatorGives d a hook b (x.toInt + y.toInt)) ∧
      (∀ hook ∈ ["-", "-="], m.OperatorGives d a hook b (x.toInt - y.toInt)) ∧
      (∀ hook ∈ ["*", "*="], m.OperatorGives d a hook b (x.toInt * y.toInt)) ∧
      ∀ hook ∈ ["/", "/="], (y.toInt ≠ 0 → m.OperatorGives d a hook b (x.toInt.tdiv y.toInt)) ∧
        (y.toInt = 0 → m.OperatorRefused d a hook b .arithmetic)) ∧
    ∀ hook ∈ ["+", "-", "*", "/", "+=", "-=", "*=", "/="],
      (∀ name ∈ ["Integer", "Float"], m.IsInstance name a → ∃ op, m.store.Reckons a a op hook) ∧
      ∀ op l, m.store.Reckons a l op hook →
        m.store.number? a = none ∨ m.store.number? b = none →
        m.OperatorRefused d a hook b .invalidType := by
  refine ⟨fun x y hx hy => ⟨fun hook hhook => ?_, fun hook hhook => ?_, fun hook hhook => ?_,
    fun hook hhook => ⟨fun hy0 => ?_, fun hy0 => ?_⟩⟩, fun hook hhook => ⟨?_, ?_⟩⟩
  · exact h.operator_gives .add ha hb hhook hx hy (by simp) d
  · exact h.operator_gives .sub ha hb hhook hx hy (by simp) d
  · exact h.operator_gives .mul ha hb hhook hx hy (by simp) d
  · refine h.operator_gives .div ha hb hhook hx hy (fun hzero => hy0 ?_) d
    rw [hzero.2]
    rfl
  · obtain rfl : y = 0 := Int64.toInt_inj.mp hy0
    exact h.operator_refused ha hb hhook hx hy d
  · have hhooks : ∀ hook ∈ ["+", "-", "*", "/", "+=", "-=", "*=", "/="],
        ∃ op : Arith, hook ∈ op.hooks := by
      have hall : ∀ hook ∈ ["+", "-", "*", "/", "+=", "-=", "*=", "/="],
          ∃ op ∈ [Arith.add, .sub, .mul, .div], hook ∈ op.hooks := by decide
      exact fun hook hhook => (hall hook hhook).imp fun _ => And.right
    intro name hname hinstance
    obtain ⟨op, hop⟩ := hhooks hook hhook
    exact ⟨op, h.reckons hname hinstance hop (.refl _)⟩
  · intro op l hl hnone
    obtain ⟨r, m', hretains, hyields, hrun⟩ := Eval.dispatch_arithmetic h.numerate ha hb l op d
    obtain ⟨log, hlog⟩ := hrun hook hl
    cases hyields with
    | number hx hy => rcases hnone with hnone | hnone <;> simp [hx, hy] at hnone
    | refused hx hy => rcases hnone with hnone | hnone <;> simp [hx, hy] at hnone
    | @mistyped f _ _ hf => exact ⟨f, m'.atop m.stack log, hlog, hf, hretains.atop log⟩

def integersSource : Source :=
  .ofText
    "val a = 0 - 7 val b = 2 val low = 0 - 9223372036854775807 - 1 val c = 0 - 1 val s = \"7\""

instance decideInstance : Decidable (m.IsInstance name o) :=
  decidable_of_iff (∃ i, m.store.local? m.builtins name = some i ∧ ∃ c, m.store.cell i = .const c ∧
      m.store.type o = some c ∧ m.roots.root ∉ m.store.levels o)
    ⟨fun ⟨i, hi, c, hc, htype, hroot⟩ => ⟨c, ⟨i, hi, hc⟩, ⟨by simp [htype], hroot⟩, htype⟩,
      fun ⟨c, ⟨i, hi, hc⟩, ho, htype⟩ => ⟨i, hi, c, hc, htype, ho.2⟩⟩

instance decideNumber {x : Int64} : Decidable (m.IsNumber o (.integer x)) :=
  decidable_of_iff (m.IsInstance "Integer" o ∧ m.store.kind (m.store.face o) = .integer x)
    (and_congr_right fun _ => by
      rw [Store.number?]
      split <;> simp_all)

theorem integers_run :
    ∃ m, (Eval.runSource (.ofDepth 24) integersSource initial).machine? = some m ∧
      (∃ a, m.constant? "a" = some a ∧ m.IsNumber a (.integer (-7))) ∧
      (∃ b, m.constant? "b" = some b ∧ m.IsNumber b (.integer 2)) ∧
      (∃ low, m.constant? "low" = some low ∧ m.IsNumber low (.integer (-9223372036854775808))) ∧
      (∃ c, m.constant? "c" = some c ∧ m.IsNumber c (.integer (-1))) ∧
      ∃ s, m.constant? "s" = some s ∧ m.IsInstance "String" s ∧
        (m.store.number? s).isNone = true := by
  decide +kernel

theorem IsNumber.has {n : Number} (h : m.IsNumber o n) : m.store.HasObject o :=
  h.1.choose_spec.2.1.has

/-- A quotient is cut off toward zero, a product is exact, the least integer has no quotient by
minus one, and a string cannot be added. -/
theorem integers_exact_or_refused_signs : ∃ m a b low c s, After [integersSource] m ∧
    m.IsNumber a (.integer (-7)) ∧ m.IsNumber b (.integer 2) ∧
    m.IsNumber low (.integer (-9223372036854775808)) ∧ m.IsNumber c (.integer (-1)) ∧
    (∃ r o m', Eval.dispatch (.ofDepth 2) a "/" [b] m = .done o m' ∧ r.toInt = -3 ∧
      m'.IsNumber o (.integer r)) ∧
    (∃ r o m', Eval.dispatch (.ofDepth 2) a "*=" [b] m = .done o m' ∧ r.toInt = -14 ∧
      m'.IsNumber o (.integer r)) ∧
    (∃ f m', Eval.dispatch (.ofDepth 2) low "/" [c] m = .failed (.fault f) m' ∧
      f.group = .arithmetic) ∧
    ∃ f m', Eval.dispatch (.ofDepth 2) a "+" [s] m = .failed (.fault f) m' ∧
      f.group = .invalidType := by
  obtain ⟨m, hrun, ⟨a, -, ha⟩, ⟨b, -, hb⟩, ⟨low, -, hlow⟩, ⟨c, -, hc⟩, s, -, hs, hnone⟩ :=
    integers_run
  have hafter : After [integersSource] m := .next .start 24 integersSource hrun
  have hab := (integers_exact_or_refused (.between hafter) ha.has hb.has 0).1 _ _ ha hb
  have hlc := (integers_exact_or_refused (.between hafter) hlow.has hc.has 0).1 _ _ hlow hc
  obtain ⟨hreckons, hmistyped⟩ := (integers_exact_or_refused (.between hafter) ha.has
    hs.choose_spec.2.1.has 0).2 "+" (by decide)
  obtain ⟨op, hop⟩ := hreckons "Integer" (by decide) ha.1
  refine ⟨m, a, b, low, c, s, hafter, ha, hb, hlow, hc, ?_, ?_, ?_, ?_⟩
  · rcases (hab.2.2.2 "/" (by decide)).1 (by decide)
      with ⟨-, -, r, o, m', hrun, hr, ho, -⟩ | ⟨hno, -⟩
    · exact ⟨r, o, m', hrun, hr.trans (by decide), ho⟩
    · exact absurd (by decide) hno
  · rcases hab.2.2.1 "*=" (by decide) with ⟨-, -, r, o, m', hrun, hr, ho, -⟩ | ⟨hno, -⟩
    · exact ⟨r, o, m', hrun, hr.trans (by decide), ho⟩
    · exact absurd (by decide) hno
  · rcases (hlc.2.2.2 "/" (by decide)).1 (by decide) with ⟨-, hhigh, -⟩ | ⟨-, f, m', hrun, hf, -⟩
    · exact absurd hhigh (by decide)
    · exact ⟨f, m', hrun, hf⟩
  · obtain ⟨f, m', hrun, hf, -⟩ := hmistyped op a hop (Or.inr (Option.isNone_iff_eq_none.mp hnone))
    exact ⟨f, m', hrun, hf⟩

end Machine

end ObjectLang
