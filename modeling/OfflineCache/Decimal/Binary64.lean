import OfflineCache.Decimal.Basic

/-! Nonnegative finite binary64 values in exact arithmetic: the value nearest to a decimal
number, and the shortest decimal number to which a value is nearest. -/

namespace OfflineCache

/-- The number `significand * 2 ^ exponent`. -/
structure Binary64 where
  significand : Nat
  exponent : Int
  deriving DecidableEq, Repr

namespace Binary64

def minExponent : Int := -1074

def maxExponent : Int := 971

def zero : Binary64 := ⟨0, minExponent⟩

/-- `n / d` to the nearest whole number, a half to the even one. -/
def roundHalfEven (n d : Nat) : Nat :=
  let q := n / d
  let r := n % d
  if 2 * r < d then q else if d < 2 * r then q + 1 else q + q % 2

/-- `n * 2 ^ e / d` as a quotient of whole numbers. -/
private def scaled (n d : Nat) (e : Int) : Nat × Nat :=
  if 0 ≤ e then (n * Nat.pow 2 e.toNat, d) else (n, d * Nat.pow 2 (-e).toNat)

/-- The value nearest to `n / d`; none when it exceeds every finite value. -/
def nearestQuotient? (n d : Nat) : Option Binary64 :=
  let low : Int := (n.log2 : Int) - d.log2 - 53
  let fits (q : Int) : Bool := let (a, b) := scaled n d (-q); a / b < Nat.pow 2 53
  let q := max (if fits low then low else low + 1) minExponent
  let (a, b) := scaled n d (-q)
  let m := roundHalfEven a b
  let (m, q) := if m = Nat.pow 2 53 then (Nat.pow 2 52, q + 1) else (m, q)
  if m = 0 then some zero else if q ≤ maxExponent then some ⟨m, q⟩ else none

/-- The value nearest to a decimal number. Magnitudes far outside the range are decided by
their first digit's place alone. -/
def nearest? (d : Decimal) : Option Binary64 :=
  let point : Int := (Decimal.digitsOf d.coefficient).length + d.exponent
  if d.coefficient = 0 then some zero
  else if 320 < point then none
  else if point < -340 then some zero
  else if 0 ≤ d.exponent then nearestQuotient? (d.coefficient * Nat.pow 10 d.exponent.toNat) 1
  else nearestQuotient? d.coefficient (Nat.pow 10 (-d.exponent).toNat)

/-- The reals nearest to a value, in quarters of its last place: both ends belong to it exactly
when its significand is even, and below a power of two the spacing halves. -/
private def roundsTo (b : Binary64) (n d : Nat) : Bool :=
  let lower := if b.significand = Nat.pow 2 52 ∧ minExponent < b.exponent then 1 else 2
  let (a, c) := scaled n d (2 - b.exponent)
  let low := (4 * b.significand - lower) * c
  let high := (4 * b.significand + 2) * c
  if b.significand % 2 = 0 then low ≤ a && a ≤ high else low < a && a < high

/-- The decimal numbers with `10 ^ p` as last place next to the value, the nearer one first. -/
private def neighbours (b : Binary64) (p : Int) : List Nat :=
  let (n, d) := scaled b.significand 1 b.exponent
  let (n, d) := if 0 ≤ p then (n, d * Nat.pow 10 p.toNat) else (n * Nat.pow 10 (-p).toNat, d)
  let f := n / d
  if roundHalfEven n d = f then [f, f + 1] else [f + 1, f]

private def onGrid? (b : Binary64) (p : Int) : Option Decimal :=
  ((neighbours b p).find? fun f =>
    if 0 ≤ p then roundsTo b (f * Nat.pow 10 p.toNat) 1 else roundsTo b f (Nat.pow 10 (-p).toNat)).map (⟨·, p⟩)

/-- The place of the first digit, counted from the point. -/
private def leadingPlace (b : Binary64) : Int :=
  if 0 ≤ b.exponent then (Decimal.digitsOf (b.significand * Nat.pow 2 b.exponent.toNat)).length
  else
    let shift : Nat := 400
    let whole := b.significand * Nat.pow 10 shift / Nat.pow 2 (-b.exponent).toNat
    ((Decimal.digitsOf whole).length : Int) - shift

/-- The decimal number with the fewest digits that is nearest to this value alone, and of
those the nearest to it. Seventeen digits are always enough. -/
def shortest (b : Binary64) : Decimal :=
  if b.significand = 0 then ⟨0, 0⟩
  else
    let place := leadingPlace b
    match (List.range 17).findSome? fun (i : Nat) => onGrid? b (place - (i + 1)) with
    | some d => d.normalized
    | none => ⟨b.significand, 0⟩

end Binary64

end OfflineCache
