/-! Decimal numbers below a bound. A leading plus sign and leading zeros are read; no other
sign, no blank and no empty text is. -/

namespace OfflineCache.Text

def digitValue? (c : Char) : Option Nat :=
  if '0' ≤ c ∧ c ≤ '9' then some (c.toNat - '0'.toNat) else none

def isDigit (c : Char) : Bool := (digitValue? c).isSome

/-- The value of a run of digits, continued from `acc`. -/
def digitsValue? (acc : Nat) : List Char → Option Nat
  | [] => some acc
  | c :: r => (digitValue? c).bind fun d => digitsValue? (acc * 10 + d) r

/-- Digits only, at least one, of a value below `limit`. -/
def digitsBelow? (limit : Nat) (s : List Char) : Option Nat :=
  if s = [] then none else (digitsValue? 0 s).filter (· < limit)

def naturalBelow? (limit : Nat) : List Char → Option Nat
  | '+' :: r => digitsBelow? limit r
  | s => digitsBelow? limit s

def word32 : Nat := Nat.pow 2 32

def word64 : Nat := Nat.pow 2 64

end OfflineCache.Text
