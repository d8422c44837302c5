import OfflineCache.Text.Utf8

/-! Hexadecimal text of bytes. Writing uses lower case; reading takes either case and names the
first offending byte and its place. -/

namespace OfflineCache.Text.Hex

def digit (n : Nat) : Char := ("0123456789abcdef".toList)[n]?.getD '0'

def value? (c : Char) : Option Nat :=
  let n := c.toNat
  if 0x30 ≤ n ∧ n ≤ 0x39 then some (n - 0x30)
  else if 0x61 ≤ n ∧ n ≤ 0x66 then some (n - 0x57)
  else if 0x41 ≤ n ∧ n ≤ 0x46 then some (n - 0x37)
  else none

def isDigit (c : Char) : Bool := (value? c).isSome

def encode (bs : Bytes) : List Char :=
  bs.flatMap fun b => [digit (b.toNat / 16), digit (b.toNat % 16)]

inductive Error where
  | oddLength
  /-- A byte that is no digit, and its index. -/
  | badByte (byte : UInt8) (index : Nat)
deriving DecidableEq, Repr

private def nibble (index : Nat) (b : UInt8) : Except Error Nat :=
  match value? (Char.ofNat b.toNat) with
  | some v => .ok v
  | none => .error (.badByte b index)

/-- Reads pairs of digits, the first of them at `index`. -/
def decodeFrom (index : Nat) : Bytes → Except Error Bytes
  | [] => .ok []
  | [_] => .error .oddLength
  | a :: b :: rest => do
    let hi ← nibble index a
    let lo ← nibble (index + 1) b
    let bytes ← decodeFrom (index + 2) rest
    return UInt8.ofNat (hi * 16 + lo) :: bytes

/-- The bytes that the UTF-8 form of `s` spells. -/
def decode (s : List Char) : Except Error Bytes :=
  let bs := Utf8.encode s
  if bs.length % 2 = 1 then .error .oddLength else decodeFrom 0 bs

theorem decodeFrom_digits {a b : UInt8} {hi lo : Nat} (ha : value? (Char.ofNat a.toNat) = some hi)
    (hb : value? (Char.ofNat b.toNat) = some lo) (index : Nat) (rest : Bytes) :
    decodeFrom index (a :: b :: rest) =
      (decodeFrom (index + 2) rest).map (UInt8.ofNat (hi * 16 + lo) :: ·) := by
  simp only [decodeFrom, nibble, ha, hb]
  cases decodeFrom (index + 2) rest <;> rfl

theorem length_of_decodeFrom {index : Nat} {bs ds : Bytes} (h : decodeFrom index bs = .ok ds) :
    bs.length = 2 * ds.length := by
  fun_induction decodeFrom index bs generalizing ds with
  | case1 =>
    cases h
    rfl
  | case2 => cases h
  | case3 index a b rest ih =>
    cases hi : nibble index a with
    | error e =>
      rw [hi] at h
      cases h
    | ok hi' =>
      cases lo : nibble (index + 1) b with
      | error e =>
        rw [hi, lo] at h
        cases h
      | ok lo' =>
        cases hr : decodeFrom (index + 2) rest with
        | error e =>
          rw [hi, lo, hr] at h
          cases h
        | ok ds' =>
          rw [hi, lo, hr] at h
          cases h
          have := ih hr
          simp only [List.length_cons]
          omega

end OfflineCache.Text.Hex
