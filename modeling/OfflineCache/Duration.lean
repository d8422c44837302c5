import OfflineCache.Decimal.Basic

/-! Lengths of time in nanoseconds, up to the longest one that 64 bits of seconds hold. -/

namespace OfflineCache

structure Duration where
  nanos : Nat
  nanos_lt : nanos < Nat.pow 2 64 * Nat.pow 10 9
  deriving DecidableEq, Repr

namespace Duration

def perSecond : Nat := Nat.pow 10 9

/-- The longest length of time. -/
def longest : Duration := ⟨Nat.pow 2 64 * Nat.pow 10 9 - 1, by decide⟩

/-- Lengths beyond the longest one count as it. -/
def ofNanos (n : Nat) : Duration :=
  if h : n < Nat.pow 2 64 * Nat.pow 10 9 then ⟨n, h⟩ else longest

def ofMillis (n : Nat) : Duration := ofNanos (n * Nat.pow 10 6)

def ofSeconds (n : Nat) : Duration := ofNanos (n * Nat.pow 10 9)

def scale (d : Duration) (factor : Nat) : Duration := ofNanos (d.nanos * factor)

instance : Min Duration := ⟨fun a b => if a.nanos ≤ b.nanos then a else b⟩

def isZero (d : Duration) : Bool := d.nanos == 0

/-- `digits` with zeros in front up to `width` places. -/
private def padded (width n : Nat) : List Char :=
  let ds := Decimal.digitsOf n
  List.replicate (width - ds.length) '0' ++ ds

/-- Seconds with nine places. -/
def seconds (d : Duration) : String :=
  String.ofList (Decimal.digitsOf (d.nanos / perSecond) ++ '.' :: padded 9 (d.nanos % perSecond))

private def withUnit (n unit : Nat) (places : Nat) (name : String) : String :=
  let fraction := ((padded places (n % unit)).reverse.dropWhile (· = '0')).reverse
  String.ofList (Decimal.digitsOf (n / unit) ++
    (if fraction = [] then [] else '.' :: fraction)) ++ name

/-- In the largest of seconds, milli-, micro- and nanoseconds that leaves a whole part. -/
def render (d : Duration) : String :=
  let n := d.nanos
  if Nat.pow 10 9 ≤ n then withUnit n (Nat.pow 10 9) 9 "s"
  else if Nat.pow 10 6 ≤ n then withUnit n (Nat.pow 10 6) 6 "ms"
  else if Nat.pow 10 3 ≤ n then withUnit n (Nat.pow 10 3) 3 "µs"
  else withUnit n 1 0 "ns"

end Duration

end OfflineCache
