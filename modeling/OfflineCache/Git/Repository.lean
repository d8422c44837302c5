import OfflineCache.FileTree.Listing

/-! Git repositories as far as exporting needs them: commits with the files they hold, and the
references that name commits. -/

namespace OfflineCache.Git

/-- What a commit holds at a path. Directories are not recorded. -/
inductive Leaf where
  | file (content : Bytes) (executable : Bool)
  | link (target : Path)
  deriving DecidableEq, Repr

structure Commit where
  /-- Forty hexadecimal digits in lower case. -/
  hash : String
  parents : List String
  leaves : List (Place × Leaf)
  deriving DecidableEq, Repr

structure Repository where
  commits : List Commit
  /-- From full names of references to hashes. -/
  references : List (String × String)
  /-- The reference that the repository stands at; it need not exist yet. -/
  head : String
  deriving DecidableEq, Repr

namespace Repository

def branch (name : String) : String := "refs/heads/" ++ name

def tag (name : String) : String := "refs/tags/" ++ name

def remoteBranch (name : String) : String := "refs/remotes/origin/" ++ name

/-- A repository before its first commit. -/
def empty (name : String) : Repository := ⟨[], [], branch name⟩

def commit? (r : Repository) (hash : String) : Option Commit := r.commits.find? (·.hash = hash)

def reference? (r : Repository) (name : String) : Option Commit :=
  (r.references.lookup name).bind r.commit?

def headCommit? (r : Repository) : Option Commit := r.reference? r.head

def setReference (r : Repository) (name hash : String) : Repository :=
  { r with references := (name, hash) :: r.references.filter (·.1 ≠ name) }

/-- Makes a branch where the repository stands, unless there is one of that name, and goes to it. -/
def switch (r : Repository) (name : String) : Repository :=
  let r := match r.reference? (branch name), r.headCommit? with
    | none, some c => r.setReference (branch name) c.hash
    | _, _ => r
  { r with head := branch name }

/-- A commit on the branch that the repository stands at. -/
def record (r : Repository) (hash : String) (leaves : List (Place × Leaf)) : Repository :=
  let c : Commit := ⟨hash, (r.headCommit?.map (·.hash)).toList, leaves⟩
  { r with commits := r.commits ++ [c] }.setReference r.head hash

/-- The files of a tree below a directory, as a commit holds them. -/
def leavesOf (t : FileTree) (dir : Place) : List (Place × Leaf) :=
  (t.below dir).filterMap fun (p, n) =>
    if p.head? = some ".git".toList then none
    else match n with
      | .file b x => some (p, .file b x)
      | .link l => some (p, .link l)
      | .directory => none

/-- A fresh clone: it has the tags, the branches under the name of the remote, and a branch of its
own only for the one that the repository stands at. -/
def clone (r : Repository) : Repository :=
  let heads := r.references.filterMap fun (n, h) =>
    ("refs/heads/".toList.isPrefixOf? n.toList).map fun b =>
      (remoteBranch (String.ofList b), h)
  let tags := r.references.filter fun (n, _) => "refs/tags/".toList.isPrefixOf n.toList
  let own := match r.references.lookup r.head with
    | some h => [(r.head, h), (remoteBranch "HEAD", h)]
    | none => []
  { r with references := own ++ heads ++ tags }

end Repository

end OfflineCache.Git
