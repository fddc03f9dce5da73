/-!
Binary floating-point numbers of 64 bits as exact fractions.
A finite magnitude is `m * 2 ^ q` with `m` below `2 ^ 53` and `q` from -1074 on; its bits, as a
number, grow with the magnitude, which is how the nearest one to a fraction is written down.
-/
namespace ObjectLang.Decimal

inductive Double where
  | nan
  | infinite (negative : Bool)
  | finite (negative : Bool) (m : Nat) (q : Int)
deriving DecidableEq

def Double.ofBits (bits : Nat) : Double :=
  let negative := bits / Nat.pow 2 63 % 2 == 1
  let e : Nat := bits / Nat.pow 2 52 % Nat.pow 2 11
  let f : Nat := bits % Nat.pow 2 52
  if e = 2047 then if f = 0 then .infinite negative else .nan
  else if e = 0 then .finite negative f (-1074)
  else .finite negative (Nat.pow 2 52 + f) ((e : Int) - 1075)

/-- The quotient `num / den` rounded to the nearest natural number, a half to the even one. -/
def roundHalfEven (num den : Nat) : Nat :=
  let d := num / den
  let r := num % den
  if 2 * r < den then d
  else if den < 2 * r then d + 1
  else if d % 2 = 0 then d else d + 1

def scaleDown (num den : Nat) (q : Int) : Nat × Nat :=
  if 0 ≤ q then (num, den * Nat.pow 2 q.toNat) else (num * Nat.pow 2 (-q).toNat, den)

/-- The greatest `e` with `2 ^ e ≤ num / den`, for positive `num` and `den`. -/
def log2Floor (num den : Nat) : Int :=
  let e : Int := (Nat.log2 num : Int) - (Nat.log2 den : Int)
  let (n, d) := scaleDown num den e
  if d ≤ n then e else e - 1

/-- The bits of positive infinity, above those of every finite magnitude. -/
def infinityBits : Nat := 2047 * Nat.pow 2 52

/-- The bits of the magnitude nearest to `num / den`, a half to the even one; too large a fraction
gives infinity. -/
def nearestBits (num den : Nat) : Nat :=
  if num = 0 ∨ den = 0 then 0
  else
    let q := max (-1074) (log2Floor num den - 52)
    let (n, d) := scaleDown num den q
    min infinityBits ((q + 1074).toNat * Nat.pow 2 52 + roundHalfEven n d)

def nearest (negative : Bool) (num den : Nat) : Float :=
  Float.ofBits ((if negative then Nat.pow 2 63 else 0) + nearestBits num den).toUInt64

end ObjectLang.Decimal
