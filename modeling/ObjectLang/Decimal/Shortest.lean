import ObjectLang.Decimal.Double

/-!
The fewest decimal digits that read back as a given number, and their layout as text.
A number stands for all reals that round to it. For one digit, two digits and so on, the two
decimals next to the number are tried; the first that stands for the number is taken, of two the
nearer, and of two equally near the greater.
-/
namespace ObjectLang.Decimal

/-- The reals that round to a magnitude, as fractions over `den`: those from `low` to `high`, the
ends included only where `closed`. -/
structure Interval where
  low : Nat
  value : Nat
  high : Nat
  den : Nat
  closed : Bool

/-- The interval of `m * 2 ^ q`. Below a power of two the neighbours are twice as near. -/
def Interval.ofDouble (m : Nat) (q : Int) : Interval :=
  let up := Nat.pow 2 (q - 2).toNat
  let below := if m = Nat.pow 2 52 ∧ -1074 < q then 1 else 2
  ⟨(4 * m - below) * up, 4 * m * up, (4 * m + 2) * up, Nat.pow 2 (2 - q).toNat, m % 2 = 0⟩

def Interval.holds (i : Interval) (d : Nat) (k : Int) : Bool :=
  let x := d * Nat.pow 10 k.toNat * i.den
  let unit := Nat.pow 10 (-k).toNat
  if i.closed then i.low * unit ≤ x && x ≤ i.high * unit
  else i.low * unit < x && x < i.high * unit

/-- A decimal: `digits * 10 ^ exponent`. -/
structure Scaled where
  digits : Nat
  exponent : Int
deriving DecidableEq

/-- The decimal with place `k` that stands for the number, if one of the two next to it does. -/
def Interval.atPlace? (i : Interval) (k : Int) : Option Scaled :=
  let num := i.value * Nat.pow 10 (-k).toNat
  let den := i.den * Nat.pow 10 k.toNat
  let d := num / den
  match i.holds d k, i.holds (d + 1) k with
  | true, true => some (if 2 * (num % den) < den then ⟨d, k⟩ else ⟨d + 1, k⟩)
  | true, false => some ⟨d, k⟩
  | false, true => some ⟨d + 1, k⟩
  | false, false => none

/-- The place of the first digit of `num / den`, searched downwards from `10 ^ top`. -/
def leadingPlace (num den : Nat) : Nat → Int → Int
  | 0, top => top
  | n + 1, top =>
    if den * Nat.pow 10 top.toNat ≤ num * Nat.pow 10 (-top).toNat then top
    else leadingPlace num den n (top - 1)

def Interval.search (i : Interval) : Nat → Int → Scaled
  | 0, k => ⟨i.value * Nat.pow 10 (-k).toNat / (i.den * Nat.pow 10 k.toNat), k⟩
  | n + 1, k => (i.atPlace? k).getD (i.search n (k - 1))

def Scaled.strip : Nat → Scaled → Scaled
  | 0, d => d
  | n + 1, d =>
    if d.digits ≠ 0 ∧ d.digits % 10 = 0 then strip n ⟨d.digits / 10, d.exponent + 1⟩ else d

def shortest (m : Nat) (q : Int) : Scaled :=
  let i := Interval.ofDouble m q
  let top := leadingPlace i.value i.den 640 310
  (i.search 17 top).strip 20

/-- How a number is laid out: digits with a point for exponents from `least` up to `greatest`, and
with the mark `e` beyond them. -/
structure Layout where
  least : Int
  greatest : Int

/-- Positional from a ten-thousandth up to ten to the sixteenth. -/
def Layout.plain : Layout := ⟨-4, 15⟩

def Layout.magnitude (l : Layout) (d : Scaled) : String :=
  let ds := Nat.toDigits 10 d.digits
  let e := d.exponent + ds.length - 1
  if l.least ≤ e ∧ e ≤ l.greatest then
    if e < 0 then "0." ++ String.ofList (List.replicate (-e - 1).toNat '0' ++ ds)
    else
      let whole := ds.take (e.toNat + 1)
      let fraction := ds.drop (e.toNat + 1)
      String.ofList (whole ++ List.replicate (e.toNat + 1 - whole.length) '0' ++ ['.'] ++
        (if fraction.isEmpty then ['0'] else fraction))
  else
    let fraction := ds.tail
    String.ofList (ds.take 1 ++ (if fraction.isEmpty then [] else '.' :: fraction)) ++ "e" ++
      toString e

def Layout.double (l : Layout) : Double → String
  | .nan => "NaN"
  | .infinite negative => if negative then "-inf" else "inf"
  | .finite negative m q =>
    (if negative then "-" else "") ++ (if m = 0 then "0.0" else l.magnitude (shortest m q))

def text (x : Float) : String := Layout.plain.double (.ofBits x.toBits.toNat)

end ObjectLang.Decimal
