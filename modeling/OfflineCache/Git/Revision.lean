import OfflineCache.Git.Repository
import OfflineCache.Text.Hex
import OfflineCache.Text.Natural

/-! Revisions: a hash or the name of a reference, and the steps from there to an ancestor. -/

namespace OfflineCache.Git

/-- A step from a commit. -/
inductive RevisionStep where
  /-- The parent of a number, or the commit itself for zero. -/
  | parent (n : Nat)
  /-- So many first parents back. -/
  | ancestor (n : Nat)
  deriving DecidableEq, Repr

structure Revision where
  base : String
  steps : List RevisionStep
  deriving DecidableEq, Repr

namespace Revision

def isMark (c : Char) : Bool := c = '^' || c = '~'

/-- A count; without digits it is one. -/
def count (ds : List Char) : Option Nat := if ds = [] then some 1 else Text.digitsValue? 0 ds

/-- What stands between one mark and the next. -/
def step? (mark : Char) (body : List Char) : Option RevisionStep :=
  if mark = '~' then (count body).map .ancestor
  else if body = "\x7b\x7d".toList ∨ body = "\x7bcommit\x7d".toList then some (.parent 0)
  else (count body).map .parent

/-- The steps of a text; each one begins with its mark. `body` is read backwards. -/
def steps? (mark : Char) (body : List Char) : List Char → Option (List RevisionStep)
  | [] => (step? mark body.reverse).map ([·])
  | c :: r =>
    if isMark c then do return (← step? mark body.reverse) :: (← steps? c [] r)
    else steps? mark (c :: body) r

def parse? (s : String) : Option Revision :=
  let base := String.ofList (s.toList.takeWhile (!isMark ·))
  match s.toList.dropWhile (!isMark ·) with
  | [] => some ⟨base, []⟩
  | c :: r => (steps? c [] r).map (⟨base, ·⟩)

end Revision

namespace Repository

/-- The full names that a short one may stand for, the first that exists counts. -/
def fullNames (name : String) : List String :=
  [name, "refs/" ++ name, tag name, branch name, "refs/remotes/" ++ name,
    "refs/remotes/" ++ name ++ "/HEAD"]

def named? (r : Repository) (name : String) : Option Commit :=
  if name = "HEAD" ∨ name = "@" then r.headCommit?
  else (fullNames name).findSome? r.reference?

def isHash (s : String) : Bool :=
  s.length = 40 && s.toList.all Text.Hex.isDigit

def base? (r : Repository) (s : String) : Option Commit :=
  if isHash s then r.commit? (s.map Char.toLower) else r.named? s

def parent? (r : Repository) (n : Nat) (c : Commit) : Option Commit :=
  match n with
  | 0 => some c
  | n + 1 => (c.parents[n]?).bind r.commit?

def ancestor? (r : Repository) : Nat → Commit → Option Commit
  | 0, c => some c
  | n + 1, c => (r.parent? 1 c).bind (ancestor? r n)

def follow? (r : Repository) (c : Commit) : RevisionStep → Option Commit
  | .parent n => r.parent? n c
  | .ancestor n => r.ancestor? n c

/-- The commit that a revision stands for. -/
def resolve? (r : Repository) (revision : String) : Option Commit := do
  let v ← Revision.parse? revision
  v.steps.foldlM r.follow? (← r.base? v.base)

end Repository

end OfflineCache.Git
