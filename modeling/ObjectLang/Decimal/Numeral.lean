import ObjectLang.Decimal.Double

/-!
Reading decimal numerals: digits with a point, and optionally a sign and an exponent.
-/
namespace ObjectLang.Decimal

def ofDigits (digits : List Char) : Nat :=
  digits.foldl (fun n c => 10 * n + (c.toNat - '0'.toNat)) 0

/-- The fraction `digits * 10 ^ shift`. Beyond 400 places on either side the value is decided by the
place of its first digit alone. -/
def nearestScaled (negative : Bool) (digits : List Char) (shift : Int) : Float :=
  let n := ofDigits digits
  if n = 0 then nearest negative 0 1
  else if 400 < shift then nearest negative (Nat.pow 10 400) 1
  else if shift + digits.length < -400 then nearest negative 0 1
  else if 0 ≤ shift then nearest negative (n * Nat.pow 10 shift.toNat) 1
  else nearest negative n (Nat.pow 10 (-shift).toNat)

def ofParts (whole fraction : List Char) : Float :=
  nearestScaled false (whole ++ fraction) (-(fraction.length : Int))

def ofLiteral? (cs : List Char) : Option Float :=
  let whole := cs.takeWhile Char.isDigit
  match cs.dropWhile Char.isDigit with
  | '.' :: fraction =>
    if whole.isEmpty || fraction.isEmpty || !fraction.all Char.isDigit then none
    else some (ofParts whole fraction)
  | _ => none

def exponent? (cs : List Char) : Option Int :=
  let digits := match cs with
    | '+' :: rest => rest
    | '-' :: rest => rest
    | rest => rest
  if digits.isEmpty || !digits.all Char.isDigit then none
  else if cs.head? = some '-' then some (-(ofDigits digits : Int)) else some (ofDigits digits)

/-- An unsigned numeral: digits with an optional point and an optional exponent. -/
def unsigned? (negative : Bool) (cs : List Char) : Option Float :=
  let whole := cs.takeWhile Char.isDigit
  let (fraction, tail) := match cs.dropWhile Char.isDigit with
    | '.' :: rest => (rest.takeWhile Char.isDigit, rest.dropWhile Char.isDigit)
    | rest => ([], rest)
  if whole.isEmpty && fraction.isEmpty then none
  else
    let value (e : Int) := nearestScaled negative (whole ++ fraction) (e - fraction.length)
    match tail with
    | [] => some (value 0)
    | c :: rest => if c = 'e' || c = 'E' then (exponent? rest).map value else none

def ofText? (s : String) : Option Float :=
  let (negative, cs) := match s.toList with
    | '-' :: rest => (true, rest)
    | '+' :: rest => (false, rest)
    | rest => (false, rest)
  let lower := String.ofList (cs.map Char.toLower)
  if lower = "nan" then some (Float.ofBits 0x7FF8000000000000)
  else if lower = "inf" || lower = "infinity" then
    some (Float.ofBits (if negative then 0xFFF0000000000000 else 0x7FF0000000000000))
  else unsigned? negative cs

end ObjectLang.Decimal
