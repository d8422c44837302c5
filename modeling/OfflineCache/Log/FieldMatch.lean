import OfflineCache.Decimal.Binary64
import OfflineCache.Text.Cut
import OfflineCache.Text.Natural

/-! Conditions on a field: that it is there, or that it has a value. The text of a value is taken
for a boolean or a number where it spells one, and for a pattern otherwise, so two spellings of a
number are one condition. -/

namespace OfflineCache.Log

/-- A number with a point or an exponent, and what lies beyond such numbers. -/
inductive FloatValue where
  | finite (negative : Bool) (magnitude : Binary64)
  | infinity (negative : Bool)
  deriving DecidableEq, Repr

namespace FloatValue

/-- Every finite magnitude in units of the smallest one; infinity is larger. -/
private def units : FloatValue → Bool × Nat
  | .finite negative m => (negative, m.significand * Nat.pow 2 (m.exponent - Binary64.minExponent).toNat)
  | .infinity negative => (negative, Nat.pow 2 2100)

def order (a b : FloatValue) : Ordering :=
  let value (x : FloatValue) : Int := let (negative, n) := x.units; if negative then -n else n
  compare (value a) (value b)

def render (x : FloatValue) : List Char :=
  let (negative, digits) := match x with
    | .finite negative m => (negative, m.shortest.positional)
    | .infinity negative => (negative, "inf".toList)
  if negative then '-' :: digits else digits

end FloatValue

/-- What the value of a field is compared with. -/
inductive Wanted where
  | bool (b : Bool)
  | float (x : FloatValue)
  | nan
  | natural (n : Nat)
  | minus (n : Nat)
  | pattern (s : List Char)
  deriving DecidableEq, Repr

namespace Wanted

private def unsigned (s : List Char) : Bool × List Char :=
  match s with
  | '-' :: r => (true, r)
  | '+' :: r => (false, r)
  | r => (false, r)

/-- A number below zero, or zero itself, with its sign. -/
private def minus? (s : List Char) : Option Nat :=
  match s with
  | '-' :: r => Text.digitsBelow? (Nat.pow 2 63 + 1) r
  | _ => none

private def float? (s : List Char) : Option Wanted :=
  let (negative, r) := unsigned s
  match String.ofList (r.map Char.toLower) with
  | "inf" | "infinity" => some (.float (.infinity negative))
  | "nan" => some .nan
  | _ => (Decimal.parse? r).map fun d =>
    match Binary64.nearest? d with
    | some m => .float (.finite negative m)
    | none => .float (.infinity negative)

def ofText (s : List Char) : Wanted :=
  if s = "true".toList then .bool true
  else if s = "false".toList then .bool false
  else match Text.naturalBelow? Text.word64 s with
    | some n => .natural n
    | none =>
      match minus? s with
      | some n => .minus n
      | none => (float? s).getD (.pattern s)

def render : Wanted → List Char
  | .bool b => (if b then "true" else "false").toList
  | .float x => x.render
  | .nan => "NaN".toList
  | .natural n => Decimal.digitsOf n
  | .minus n => if n = 0 then ['0'] else '-' :: Decimal.digitsOf n
  | .pattern s => s

private def rank : Wanted → Nat
  | .bool _ => 0
  | .float _ => 1
  | .nan => 2
  | .natural _ => 3
  | .minus _ => 4
  | .pattern _ => 5

/-- By the kind of value first. -/
def order (a b : Wanted) : Ordering :=
  match a, b with
  | .bool a, .bool b => compare a.toNat b.toNat
  | .float a, .float b => a.order b
  | .natural a, .natural b => compare a b
  | .minus a, .minus b => compare b a
  | .pattern a, .pattern b => compare (String.ofList a) (String.ofList b)
  | a, b => compare a.rank b.rank

end Wanted

structure FieldMatch where
  name : List Char
  value : Option Wanted
  deriving DecidableEq, Repr

namespace FieldMatch

/-- A name, and after an equals sign a value; what a second equals sign begins is left out. -/
def parse? (s : List Char) : Option FieldMatch :=
  match Text.splitAll '=' s with
  | [] | [[]] => none
  | [name] => some ⟨name, none⟩
  | name :: value :: _ => some ⟨name, some (.ofText value)⟩

def render (f : FieldMatch) : List Char :=
  match f.value with
  | none => f.name
  | some v => f.name ++ '=' :: v.render

/-- A condition on a value is more specific than one on a name, whatever the names are. -/
def order (a b : FieldMatch) : Ordering :=
  (compare a.value.isSome.toNat b.value.isSome.toNat).then
    ((compare (String.ofList a.name) (String.ofList b.name)).then
      (match a.value, b.value with
        | some v, some w => v.order w
        | _, _ => .eq))

end FieldMatch

end OfflineCache.Log
