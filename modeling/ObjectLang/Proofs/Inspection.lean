import ObjectLang.Machine.Routine

/-!
Facts that can be computed.
What a program leaves behind is looked at one constructor after the other: a name stands for a cell,
which holds an object, which is of some kind. Each such fact can be decided, so that what a program
does on a given machine is a matter of computation.
-/
namespace ObjectLang

deriving instance DecidableEq for Fault, Primitive, Params, Activation

section Shapes

variable {α β γ : Type} {x : γ} {P : α → Prop} [DecidablePred P]

instance Option.decideSome {o : Option α} : Decidable (∃ a, o = some a ∧ P a) :=
  match o with
  | some a => decidable_of_iff (P a) (by simp)
  | none => .isFalse (by simp)

/-- A value is of a shape that holds one thing, and the thing is as told. -/
def decideShape {f : α → γ} (part : Option α) (h : ∀ a, part = some a ↔ x = f a) :
    Decidable (∃ a, x = f a ∧ P a) :=
  decidable_of_iff (∃ a, part = some a ∧ P a) (by simp only [h])

def decidePair {f : α → β → γ} {Q : α → β → Prop} [∀ a b, Decidable (Q a b)]
    (parts : Option (α × β)) (h : ∀ a b, parts = some (a, b) ↔ x = f a b) :
    Decidable (∃ a b, x = f a b ∧ Q a b) :=
  decidable_of_iff (∃ p, parts = some p ∧ Q p.1 p.2) (by simp only [Prod.exists, h])

instance decideHasShape {f : α → γ} [Decidable (∃ a, x = f a ∧ True)] :
    Decidable (∃ a, x = f a) :=
  decidable_of_iff (∃ a, x = f a ∧ True) (by simp)

instance decideHasPair {f : α → β → γ} [Decidable (∃ a b, x = f a b ∧ True)] :
    Decidable (∃ a b, x = f a b) :=
  decidable_of_iff (∃ a b, x = f a b ∧ True) (by simp)

end Shapes

section Outcomes

variable {α : Type} {r : Outcome α}

instance Outcome.decideDone {Q : α → Machine → Prop} [∀ a m, Decidable (Q a m)] :
    Decidable (∃ a m, r = .done a m ∧ Q a m) :=
  decidePair (match r with
    | .done a m => some (a, m)
    | _ => none) (by cases r <;> simp)

instance Outcome.decideFailed {Q : Error → Machine → Prop} [∀ e m, Decidable (Q e m)] :
    Decidable (∃ e m, r = .failed e m ∧ Q e m) :=
  decidePair (match r with
    | .failed e m => some (e, m)
    | _ => none) (by cases r <;> simp)

instance Outcome.decideGives {P : Machine → Prop} [DecidablePred P] [DecidableEq α] {a : α} :
    Decidable (∃ m, r = .done a m ∧ P m) :=
  decideShape (match r with
    | .done b m => if b = a then some m else none
    | _ => none) (by cases r <;> simp)

instance decideSingle {l : List α} {P : α → Prop} [DecidablePred P] :
    Decidable (∃ a, l = [a] ∧ P a) :=
  decideShape (match l with
    | [a] => some a
    | _ => none) (by rcases l with _ | ⟨_, _ | _⟩ <;> simp)

instance Sink.decideEmpty {s : Sink} : Decidable (s = .collecting []) :=
  match s with
  | .collecting [] => .isTrue rfl
  | .collecting (_ :: _) | .broken _ => .isFalse (by simp)

instance Error.decideFault {e : Error} {f : Fault} : Decidable (e = .fault f) :=
  match e with
  | .fault g => decidable_of_iff (g = f) (by simp)
  | .malformed _ | .fatal .. => .isFalse (by simp)

instance Error.decideFatal {e : Error} {f : Fault} {text : String} :
    Decidable (e = .fatal (.fault f) text) :=
  match e with
  | .fatal (.fault g) t => decidable_of_iff (g = f ∧ t = text) (by simp)
  | .fatal (.malformed _) _ | .fatal (.fatal ..) _ | .fault _ | .malformed _ => .isFalse (by simp)

end Outcomes

section Cells

variable {c : Cell} {P : ObjectId → Prop} [DecidablePred P]

instance Cell.decideVar : Decidable (∃ v, c = .var v ∧ P v) :=
  decideShape (match c with
    | .var v => some v
    | _ => none) (by cases c <;> simp)

instance Cell.decideConst : Decidable (∃ v, c = .const v ∧ P v) :=
  decideShape (match c with
    | .const v => some v
    | _ => none) (by cases c <;> simp)

instance Cell.decideComputed : Decidable (∃ getter, c = .computed getter none ∧ P getter) :=
  decideShape (match c with
    | .computed getter none => some getter
    | _ => none) (by rcases c with _ | _ | ⟨_, _ | _⟩ | _ <;> simp)

instance Cell.decideView {P : CellId → Prop} [DecidablePred P] :
    Decidable (∃ x, c = .view x ∧ P x) :=
  decideShape (match c with
    | .view x => some x
    | _ => none) (by cases c <;> simp)

end Cells

section Kinds

variable {k : Kind}

instance Kind.decideAlias {Q : ObjectId → ModuleParts → Prop} [∀ o p, Decidable (Q o p)] :
    Decidable (∃ o p, k = .moduleAlias o p ∧ Q o p) :=
  decidePair (match k with
    | .moduleAlias o p => some (o, p)
    | _ => none) (by cases k <;> simp)

instance Kind.decideClass {P : Blueprint → Prop} [DecidablePred P] :
    Decidable (∃ b, k = .ofClass b ∧ P b) :=
  decideShape (match k with
    | .ofClass b => some b
    | _ => none) (by cases k <;> simp)

instance Kind.decideFunction {P : Code → Prop} [DecidablePred P] :
    Decidable (∃ code, k = .function code ∧ P code) :=
  decideShape (match k with
    | .function code => some code
    | _ => none) (by cases k <;> simp)

instance Kind.decideClosure {Q : Code → Activation → Prop} [∀ code a, Decidable (Q code a)] :
    Decidable (∃ code a, k = .closure code a ∧ Q code a) :=
  decidePair (match k with
    | .closure code a => some (code, a)
    | _ => none) (by cases k <;> simp)

instance Kind.decideMethod {Q : ObjectId → Code → Prop} [∀ o code, Decidable (Q o code)] :
    Decidable (∃ o code, k = .method o code ∧ Q o code) :=
  decidePair (match k with
    | .method o code => some (o, code)
    | _ => none) (by cases k <;> simp)

instance Kind.decideInteger {n : Int64} : Decidable (k = .integer n) :=
  decidable_of_iff ((match k with
    | .integer x => some x
    | _ => none) = some n) (by cases k <;> simp)

instance Kind.decidePlain : Decidable (k = .plain) :=
  decidable_of_iff ((match k with
    | .plain => true
    | _ => false) = true) (by cases k <;> simp)

instance Params.decideOne {p : Params} {P : String → Prop} [DecidablePred P] :
    Decidable (∃ x, p = .fixed [x] ∧ P x) :=
  decideShape (match p with
    | .fixed [x] => some x
    | _ => none) (by rcases p with ⟨_ | ⟨_, _ | _⟩⟩ | _ <;> simp)

instance Code.decidePrimitive {c : Code} {name : String} {params : Params} {p : Primitive} :
    Decidable (c = ⟨name, params, .primitive p, none⟩) :=
  match c with
  | ⟨name', params', .primitive p', none⟩ =>
    decidable_of_iff (name' = name ∧ params' = params ∧ p' = p) (by simp)
  | ⟨_, _, .primitive _, some _⟩ | ⟨_, _, .block _, _⟩ => .isFalse (by simp)

end Kinds

def Machine.constant? (m : Machine) (name : String) : Option ObjectId := do
  match m.store.cell (← m.lookup name) with
  | .const o => some o
  | _ => none

theorem Machine.constant?_eq_some {m : Machine} {name : String} {o : ObjectId}
    (h : m.constant? name = some o) : ∃ c, m.lookup name = some c ∧ m.store.cell c = .const o := by
  obtain ⟨c, hc, h⟩ := Option.bind_eq_some_iff.mp h
  split at h
  · next o' ho =>
    cases h
    exact ⟨c, hc, ho⟩
  · cases h

end ObjectLang
