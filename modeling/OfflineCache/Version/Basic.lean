import OfflineCache.Text.Natural
import OfflineCache.Text.Cut

/-! Semantic versions: three numbers below 2^64, an optional pre-release and optional build
metadata. Numbers have no leading zeros; so do the numeric parts of a pre-release. -/

namespace OfflineCache

open Text

structure Version where
  major : Nat
  minor : Nat
  patch : Nat
  /-- Dot-separated identifiers after the hyphen, empty for a release. -/
  pre : List Char
  /-- Dot-separated identifiers after the plus sign, empty if there are none. -/
  build : List Char
deriving DecidableEq, Repr

namespace Version

/-- Digits from the front: a number without leading zeros, below 2^64. -/
def number? (s : List Char) : Option (Nat × List Char) :=
  let digits := s.takeWhile isDigit
  if digits.length > 1 ∧ digits.head? = some '0' then none
  else (digitsBelow? word64 digits).map (·, s.dropWhile isDigit)

def isIdentifierChar (c : Char) : Bool :=
  ('0' ≤ c && c ≤ '9') || ('A' ≤ c && c ≤ 'Z') || ('a' ≤ c && c ≤ 'z') || c == '-'

def hasLeadingZero (segment : List Char) : Bool :=
  segment.length > 1 && segment.head? == some '0' && segment.all isDigit

def isPreSegment (segment : List Char) : Bool := !segment.isEmpty && !hasLeadingZero segment

def isBuildSegment (segment : List Char) : Bool := !segment.isEmpty

/-- Nonempty segments, each of which passes `ok`, between dots. -/
def identifiers? (ok : List Char → Bool) (s : List Char) : Option (List Char × List Char) :=
  let inside := fun c => isIdentifierChar c || c == '.'
  let text := s.takeWhile inside
  if (splitAll '.' text).all ok then some (text, s.dropWhile inside) else none

def pre? : List Char → Option (List Char × List Char)
  | '-' :: r => identifiers? isPreSegment r
  | s => some ([], s)

def build? : List Char → Option (List Char × List Char)
  | '+' :: r => identifiers? isBuildSegment r
  | s => some ([], s)

def dot? : List Char → Option (List Char)
  | '.' :: r => some r
  | _ => none

def parse? (s : List Char) : Option Version := do
  let (major, s) ← number? s
  let s ← dot? s
  let (minor, s) ← number? s
  let s ← dot? s
  let (patch, s) ← number? s
  let (pre, s) ← pre? s
  let (build, s) ← build? s
  if s = [] then some ⟨major, minor, patch, pre, build⟩ else none

def render (v : Version) : List Char :=
  (toString v.major).toList ++ '.' :: (toString v.minor).toList ++ '.' :: (toString v.patch).toList ++
    (if v.pre = [] then [] else '-' :: v.pre) ++ (if v.build = [] then [] else '+' :: v.build)

def isRelease (v : Version) : Bool := v.pre.isEmpty

/-- A numeric identifier stands before a textual one; numbers go by size, texts by character. -/
def compareSegment (a b : List Char) : Ordering :=
  match a.all isDigit, b.all isDigit with
  | true, true => (compare a.length b.length).then (compareOfLessAndEq a b)
  | true, false => .lt
  | false, true => .gt
  | false, false => compareOfLessAndEq a b

def compareSegments : List (List Char) → List (List Char) → Ordering
  | [], [] => .eq
  | [], _ :: _ => .lt
  | _ :: _, [] => .gt
  | a :: as, b :: bs => (compareSegment a b).then (compareSegments as bs)

/-- A release stands after each of its pre-releases. -/
def comparePre (a b : List Char) : Ordering :=
  match a, b with
  | [], [] => .eq
  | [], _ => .gt
  | _, [] => .lt
  | a, b => compareSegments (splitAll '.' a) (splitAll '.' b)

end Version

end OfflineCache
