/-! Decimal numbers as written: a coefficient and a power of ten, the reading of a spelling such
as `12.5e-3`, and the written form of a value. Signs are kept apart. -/

namespace OfflineCache

/-- The number `coefficient * 10 ^ exponent`. -/
structure Decimal where
  coefficient : Nat
  exponent : Int
  deriving DecidableEq, Repr

namespace Decimal

def digitsOf (n : Nat) : List Char := Nat.toDigits 10 n

/-- The same number with no trailing zero in its coefficient. -/
def normalized (d : Decimal) : Decimal :=
  go (digitsOf d.coefficient).length d
where
  go : Nat → Decimal → Decimal
    | 0, d => d
    | n + 1, d =>
      if d.coefficient % 10 = 0 ∧ d.coefficient ≠ 0 then
        go n ⟨d.coefficient / 10, d.exponent + 1⟩
      else d

private def decimalValue (s : List Char) : Nat :=
  s.foldl (fun a c => a * 10 + (c.toNat - '0'.toNat)) 0

/-- The exponent part: nothing, or `e` with an optional sign and at least one digit. -/
private def exponentPart? : List Char → Option Int
  | [] => some 0
  | 'e' :: r | 'E' :: r =>
    let (negative, ds) := match r with
      | '-' :: r => (true, r)
      | '+' :: r => (false, r)
      | r => (false, r)
    if ds ≠ [] ∧ ds.all Char.isDigit then
      some (if negative then -(decimalValue ds : Int) else decimalValue ds)
    else none
  | _ => none

/-- Digits with an optional point among or around them, and an optional exponent. -/
def parse? (s : List Char) : Option Decimal :=
  let whole := s.takeWhile Char.isDigit
  let (fraction, tail) := match s.dropWhile Char.isDigit with
    | '.' :: r => (r.takeWhile Char.isDigit, r.dropWhile Char.isDigit)
    | r => ([], r)
  if whole = [] ∧ fraction = [] then none
  else (exponentPart? tail).map fun e =>
    ⟨decimalValue (whole ++ fraction), e - fraction.length⟩

/-- How a decimal value is written: from `positionalFrom` to `positionalTo`, the place of its
first digit counted from the point, it stands without an exponent. -/
structure Format where
  positionalFrom : Int
  positionalTo : Int

/-- Values from 0.00001 to below 10^16 stand without an exponent, and whole ones end in `.0`. -/
def plainFormat : Format := ⟨-4, 16⟩

private def intText (i : Int) : List Char :=
  match i with
  | .ofNat n => digitsOf n
  | .negSucc n => '-' :: digitsOf (n + 1)

def render (f : Format) (d : Decimal) : List Char :=
  let d := d.normalized
  let ds := digitsOf d.coefficient
  let point : Int := ds.length + d.exponent
  if d.coefficient = 0 then "0.0".toList
  else if 0 ≤ d.exponent ∧ point ≤ f.positionalTo then
    ds ++ List.replicate d.exponent.toNat '0' ++ ['.', '0']
  else if 0 < point ∧ point ≤ f.positionalTo then
    ds.take point.toNat ++ '.' :: ds.drop point.toNat
  else if f.positionalFrom ≤ point ∧ point ≤ 0 then
    '0' :: '.' :: List.replicate (-point).toNat '0' ++ ds
  else
    let power := 'e' :: intText (point - 1)
    match ds with
    | [d] => d :: power
    | d :: r => d :: '.' :: r ++ power
    | [] => power

/-- The value without an exponent, and without a point if it is whole. -/
def positional (d : Decimal) : List Char :=
  let d := d.normalized
  let ds := digitsOf d.coefficient
  let places := (-d.exponent).toNat
  if 0 ≤ d.exponent then ds ++ List.replicate d.exponent.toNat '0'
  else
    let ds := List.replicate (places + 1 - ds.length) '0' ++ ds
    ds.take (ds.length - places) ++ '.' :: ds.drop (ds.length - places)

end Decimal

end OfflineCache
