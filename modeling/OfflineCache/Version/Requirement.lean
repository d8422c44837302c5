import OfflineCache.Version.Basic

/-! Requirements on versions: comparators joined by commas, or a lone wildcard. A version meets a
requirement if it meets every comparator; a pre-release moreover has to be asked for by a comparator
with the same three numbers and a pre-release of its own. -/

namespace OfflineCache.Version

open Text

inductive Operator where
  | exact | greater | greaterEq | less | lessEq | tilde | caret | wildcard
deriving DecidableEq, Repr

structure Comparator where
  operator : Operator
  major : Nat
  minor : Option Nat
  patch : Option Nat
  pre : List Char
deriving DecidableEq, Repr

abbrev Requirement := List Comparator

def isWildcard (c : Char) : Bool := c == '*' || c == 'x' || c == 'X'

def skipSpaces (s : List Char) : List Char := s.dropWhile (· == ' ')

/-- The operator in front, if one is written. -/
def operator? : List Char → Option Operator × List Char
  | '=' :: r => (some .exact, r)
  | '>' :: '=' :: r => (some .greaterEq, r)
  | '>' :: r => (some .greater, r)
  | '<' :: '=' :: r => (some .lessEq, r)
  | '<' :: r => (some .less, r)
  | '~' :: r => (some .tilde, r)
  | '^' :: r => (some .caret, r)
  | s => (none, s)

/-- A later part of a comparator: not written, a wildcard, or a number. -/
inductive Part where
  | absent
  | any
  | number (n : Nat)
deriving DecidableEq, Repr

def Part.toOption : Part → Option Nat
  | .number n => some n
  | _ => none

def part? : List Char → Option (Part × List Char)
  | '.' :: c :: r =>
    if isWildcard c then some (.any, r)
    else (number? (c :: r)).map fun (n, r) => (.number n, r)
  | '.' :: [] => none
  | s => some (.absent, s)

def comparator? (s : List Char) : Option (Comparator × List Char) := do
  let (op, s) := operator? s
  let (major, s) ← number? (skipSpaces s)
  let (minor, s) ← part? s
  let (patch, s) ← part? s
  match minor, patch with
  | .any, .number _ => none
  | _, _ =>
    let operator := op.getD (if minor = .any ∨ patch = .any then .wildcard else .caret)
    let whole := patch.toOption.isSome
    let (pre, s) ← if whole then pre? s else some ([], s)
    let (_, s) ← if whole then build? s else some ([], s)
    some (⟨operator, major, minor.toOption, patch.toOption, pre⟩, skipSpaces s)

/-- At most `limit` comparators, at least one. -/
def comparators? : Nat → List Char → Option (List Comparator)
  | 0, _ => none
  | limit + 1, s => do
    let (c, rest) ← comparator? s
    match rest with
    | [] => some [c]
    | ',' :: r => (comparators? limit (skipSpaces r)).map (c :: ·)
    | _ => none

def maxComparators : Nat := 32

/-- The requirement that a text states; a lone wildcard states none. -/
def Requirement.parse? (s : List Char) : Option Requirement :=
  match skipSpaces s with
  | c :: r =>
    if isWildcard c then (if skipSpaces r = [] then some [] else none)
    else comparators? maxComparators (c :: r)
  | [] => none

/-! ### Meeting a requirement -/

namespace Comparator

def matchesExact (c : Comparator) (v : Version) : Bool :=
  v.major == c.major && c.minor.all (v.minor == ·) && c.patch.all (v.patch == ·) && v.pre == c.pre

def matchesGreater (c : Comparator) (v : Version) : Bool :=
  if v.major ≠ c.major then v.major > c.major
  else match c.minor with
    | none => false
    | some minor =>
      if v.minor ≠ minor then v.minor > minor
      else match c.patch with
        | none => false
        | some patch =>
          if v.patch ≠ patch then v.patch > patch else comparePre v.pre c.pre == .gt

def matchesLess (c : Comparator) (v : Version) : Bool :=
  if v.major ≠ c.major then v.major < c.major
  else match c.minor with
    | none => false
    | some minor =>
      if v.minor ≠ minor then v.minor < minor
      else match c.patch with
        | none => false
        | some patch =>
          if v.patch ≠ patch then v.patch < patch else comparePre v.pre c.pre == .lt

def matchesTilde (c : Comparator) (v : Version) : Bool :=
  v.major == c.major && c.minor.all (v.minor == ·) &&
    match c.patch with
    | none => comparePre v.pre c.pre != .lt
    | some patch => if v.patch ≠ patch then v.patch > patch else comparePre v.pre c.pre != .lt

/-- A caret allows every change to the right of the leftmost number that is not zero. -/
def matchesCaret (c : Comparator) (v : Version) : Bool :=
  v.major == c.major &&
    match c.minor, c.patch with
    | none, _ => true
    | some minor, none => if c.major > 0 then v.minor ≥ minor else v.minor == minor
    | some minor, some patch =>
      if c.major > 0 then
        if v.minor ≠ minor then v.minor > minor
        else if v.patch ≠ patch then v.patch > patch
        else comparePre v.pre c.pre != .lt
      else if minor > 0 then
        v.minor == minor &&
          (if v.patch ≠ patch then v.patch > patch else comparePre v.pre c.pre != .lt)
      else v.minor == minor && v.patch == patch && comparePre v.pre c.pre != .lt

def admits (c : Comparator) (v : Version) : Bool :=
  match c.operator with
  | .exact | .wildcard => c.matchesExact v
  | .greater => c.matchesGreater v
  | .greaterEq => c.matchesExact v || c.matchesGreater v
  | .less => c.matchesLess v
  | .lessEq => c.matchesExact v || c.matchesLess v
  | .tilde => c.matchesTilde v
  | .caret => c.matchesCaret v

def asksForPre (c : Comparator) (v : Version) : Bool :=
  c.major == v.major && c.minor == some v.minor && c.patch == some v.patch && !c.pre.isEmpty

end Comparator

def Requirement.admits (r : Requirement) (v : Version) : Bool :=
  r.all (·.admits v) && (v.isRelease || r.any (·.asksForPre v))

end OfflineCache.Version
