import OfflineCache.Text.Blank
import OfflineCache.Version.Requirement

/-! Ranges as package manifests write them: hyphen ranges, comparators next to each other, wildcards
in the last place and alternatives. `canonical` brings one alternative into the form that
`Requirement.parse?` reads; a wildcard whose upper bound would need more than 64 bits has none. -/

namespace OfflineCache.Version.Range

open Text

/-- The number after a wildcard's last one does not fit into 64 bits. -/
inductive Overflow where
  | upperBound
deriving DecidableEq, Repr

def isOperator (t : List Char) : Bool :=
  t ∈ [">", "<", ">=", "<=", "=", "^", "~"].map String.toList

def isNumeric (t : List Char) : Bool := !t.isEmpty && t.all isDigit

/-- Letters, digits and the marks of versions, with at least one digit. -/
def looksLikeVersion (t : List Char) : Bool :=
  t.any isDigit && t.all fun c =>
    isIdentifierChar c || c == '.' || c == '+' || c == '*'

def next (n : Nat) : Except Overflow Nat :=
  if n + 1 < word64 then .ok (n + 1) else .error .upperBound

def number (n : Nat) : List Char := (toString n).toList

private def isAny (t : List Char) : Bool := t == ['x'] || t == ['X'] || t == ['*']

/-- A wildcard in the last place becomes a lower and an upper bound. -/
def expandWildcard (pattern : List Char) : Except Overflow (List Char) :=
  match splitAll '.' pattern with
  | [major, w] =>
    match isAny w, naturalBelow? word64 major with
    | true, some m => do
      let above ← next m
      return ">=".toList ++ number m ++ ".0.0, <".toList ++ number above ++ ".0.0".toList
    | _, _ => .ok pattern
  | [major, minor, w] =>
    match isAny w, naturalBelow? word64 major, naturalBelow? word64 minor with
    | true, some m, some n => do
      let above ← next n
      return ">=".toList ++ number m ++ '.' :: number n ++ ".0, <".toList ++ number m ++
        '.' :: number above ++ ".0".toList
    | _, _, _ => .ok pattern
  | _ => .ok pattern

/-- Operators that stand alone are joined with what follows; `none` if nothing does. -/
def joinOperators : List (List Char) → Option (List (List Char))
  | [] => some []
  | [t] => if isOperator t then none else some [t]
  | t :: u :: rest =>
    if isOperator t then (joinOperators rest).map ((t ++ u) :: ·)
    else (joinOperators (u :: rest)).map (t :: ·)

def commaSeparated (ts : List (List Char)) : List Char := (", ".toList).intercalate ts

/-- Two versions with a spaced hyphen between them. -/
def hyphenRange? (s : List Char) : Option (List Char) :=
  (cutText " - ".toList s).bind fun (a, b) =>
    let low := trim a
    let high := trim b
    if looksLikeVersion low && looksLikeVersion high then
      some (">=".toList ++ low ++ ", <=".toList ++ high)
    else none

def endsWithWildcard (s : List Char) : Bool :=
  endsWith ".x".toList s || endsWith ".*".toList s || endsWith ".X".toList s

/-- The form of one word that is no exact version. -/
def canonicalWord (s : List Char) : Except Overflow (List Char) :=
  if isNumeric s then .ok ('^' :: s ++ ".0.0".toList)
  else if endsWithWildcard s then expandWildcard s
  else .ok s

def canonical (input : List Char) : Except Overflow (List Char) :=
  let s := trim input
  if s = [] ∨ s = ['*'] ∨ s = "latest".toList then .ok ['*']
  else if containsText "||".toList s then .ok s
  else if (Version.parse? s).isSome then .ok ('=' :: s)
  else match hyphenRange? s with
    | some r => .ok r
    | none =>
      match words s with
      | _ :: _ :: _ => .ok (((joinOperators (words s)).map commaSeparated).getD s)
      | _ => canonicalWord s

/-- One alternative: a wildcard, or a readable requirement. -/
def isAlternative (s : List Char) : Except Overflow Bool := do
  let c ← canonical s
  return c == ['*'] || (Requirement.parse? c).isSome

def allAlternatives : List (List Char) → Except Overflow Bool
  | [] => .ok true
  | s :: rest =>
    if trim s = [] then .ok false
    else do if ← isAlternative (trim s) then allAlternatives rest else .ok false

/-- Alternatives between double bars, none of them blank. -/
def isRange (input : List Char) : Except Overflow Bool :=
  let s := trim input
  if s = [] then .ok false
  else if containsText "||".toList s then allAlternatives (splitAllText "||".toList s)
  else isAlternative s

/-- The single version that a reference pins, if it is no range. -/
def pinned? (input : List Char) : Option Version := Version.parse? (trim input)

end OfflineCache.Version.Range
