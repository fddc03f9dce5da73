import ObjectLang.Eval.Member

/-!
The primitives of the machine.
Integers are exact or refused: a result beyond 64 bits is an overflow. As soon as one operand is a
float, the result is one.
-/
namespace ObjectLang

inductive Number where
  | integer (n : Int64)
  | float (x : Float)

namespace Number

def toFloat : Number → Float
  | integer n => n.toFloat
  | float x => x

end Number

namespace Arith

/-- The mathematical result; a quotient is cut off toward zero. -/
def exact : Arith → Int → Int → Int
  | add, a, b => a + b
  | sub, a, b => a - b
  | mul, a, b => a * b
  | div, a, b => a.tdiv b

def integers (op : Arith) (a b : Int64) : Except Fault Int64 :=
  if op = div ∧ b = 0 then .error .divisionByZero
  else
    let r := op.exact a.toInt b.toInt
    if -Int.pow 2 63 ≤ r ∧ r < Int.pow 2 63 then .ok (Int64.ofInt r) else .error (.overflow a op b)

def floats (op : Arith) (a b : Float) : Except Fault Float :=
  match op with
  | add => .ok (a + b)
  | sub => .ok (a - b)
  | mul => .ok (a * b)
  | div => if b == 0.0 then .error .divisionByZero else .ok (a / b)

theorem error_of_integers {op : Arith} {a b : Int64} {f : Fault} (h : op.integers a b = .error f) :
    f = .divisionByZero ∨ f = .overflow a op b := by
  simp only [integers] at h
  split at h
  · exact Or.inl (Except.error.inj h).symm
  · split at h
    · cases h
    · exact Or.inr (Except.error.inj h).symm

theorem error_of_floats {op : Arith} {a b : Float} {f : Fault} (h : op.floats a b = .error f) :
    f = .divisionByZero := by
  cases op with
  | div =>
    simp only [floats] at h
    split at h
    · exact (Except.error.inj h).symm
    · cases h
  | _ => cases h

end Arith

def repeatText (s : String) (n : Nat) : String :=
  if s = "" then "" else String.join (List.replicate n s)

def maxTextSize : Nat := Nat.pow 2 63 - 1

namespace Eval

open Routine

variable (k : Inner)

def argument (args : List ObjectId) (i : Nat) : Routine ObjectId :=
  match args[i]? with
  | some a => pure a
  | none => fail (.missingArgument i)

def expectString (o : ObjectId) (fault : String → Fault) : Routine String := do
  match ← see (·.asString o) with
  | some s => return s
  | none => fail (fault (← see (·.typeName o)))

def number (o : ObjectId) : Routine Number := do
  match ← see fun s => s.kind (s.face o) with
  | .integer n => return .integer n
  | .float x => return .float x
  | _ => fail (.notNumber (← see (·.typeName o)))

def memberOf (this : ObjectId) (args : List ObjectId) : Routine ObjectId := do
  let name ← expectString (← argument args 0) .memberName
  let caller ← peek 1
  let c ← memberCell caller.owner this name
  readVia k (.member caller.owner this name) c (some this)

def concat (this : ObjectId) (args : List ObjectId) : Routine ObjectId := do
  let left ← expectString this .notString
  let right ← toText k (← argument args 0)
  string k (left ++ right)

def replicate (this : ObjectId) (args : List ObjectId) : Routine ObjectId := do
  let text ← expectString this .notString
  let count ← argument args 0
  match ← see (·.asInteger count) with
  | none => fail (.notInteger (← see (·.typeName count)))
  | some n =>
    if n.toInt < 0 then fail (.negativeRepeat n)
    else if maxTextSize < text.utf8ByteSize * n.toInt.toNat then fail (.repeatTooLarge n)
    else string k (repeatText text n.toInt.toNat)

def print (args : List ObjectId) : Routine ObjectId := do
  writeLine (← toText k (← argument args 0))
  nothing k

def arithmetic (op : Arith) (this : ObjectId) (args : List ObjectId) : Routine ObjectId := do
  let a ← number this
  let b ← number (← argument args 0)
  match a, b with
  | .integer a, .integer b => integer k (← ofExcept (op.integers a b))
  | a, b => float k (← ofExcept (op.floats a.toFloat b.toFloat))

def isa (this : ObjectId) (args : List ObjectId) : Routine ObjectId := do
  let type ← argument args 0
  boolean k (← ofExcept (← see (·.isa this type)))

def perform (p : Primitive) (this : ObjectId) (args : List ObjectId) : Routine ObjectId :=
  match p with
  | .member => memberOf k this args
  | .isa => isa k this args
  | .unsupported op => do fail (.unsupported (← see (·.typeName this)) op)
  | .describe => do string k (← see (·.describe this))
  | .typeOf => do
    match ← see fun s => s.type (s.face this) with
    | some t => return t
    | none => nothing k
  | .identity => do
    let face ← see (·.face this)
    touch (.identifies face)
    integer k (Int64.ofNat (face.index + 1))
  | .concat => concat k this args
  | .replicate => replicate k this args
  | .print => print k args
  | .arithmetic op => arithmetic k op this args
  | .construct => do instantiate k (← see (·.face this)) .plain
  | .definitionName => do
    string k (← see fun s => ((s.kind (s.face this)).definitionName).getD "")
  | .receiver => pure this
  | .argument i =>
    match args[i]? with
    | some a => pure a
    | none => nothing k
  | .argumentCount => integer k (Int64.ofNat args.length)
  | .raise f => fail f
  | .activationName => do string k (← read (·.runningName))
  | .callerText => do
    let caller ← peek 1
    string k (← see (·.describe caller.owner))

end Eval

end ObjectLang
