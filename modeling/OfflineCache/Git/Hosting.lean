import OfflineCache.Archive.Gzip
import OfflineCache.Archive.Tar
import OfflineCache.Fetch.Transport
import OfflineCache.Git.Revision
import OfflineCache.Text.Percent

/-! Exports of repositories that lie in a file tree, and the transport that has nothing else to
offer. A clone that fails may go better the next time; a revision that is not there will not. -/

namespace OfflineCache.Git

structure Hosting where
  files : FileTree
  /-- Repositories by the directory that holds their data. -/
  repositories : List (Place × Repository)

namespace Hosting

/-- The directories that an address may mean: the data of a worktree, or the data itself. -/
def dataDirectories (url : String) : List Path :=
  match "file://".toList.isPrefixOf? url.toList with
  | none => []
  | some p =>
    let p : Path := ⟨Text.Percent.decode p⟩
    [p / .ofString ".git", p]

def repository? (h : Hosting) (url : String) : Option Repository :=
  (dataDirectories url).findSome? fun p =>
    match h.files.find p with
    | .ok (place, .directory) => h.repositories.lookup place
    | _ => none

/-- The directories on the way to a path, from the outermost on. -/
def directoriesOf (p : Place) : List Place := ((List.range p.length).map p.take).filter (· ≠ [])

/-- The entries of an archive that holds a commit below one directory. Links are left out, the
directories that hold them are not. -/
def entriesOf (root : List Char) (leaves : List (Place × Leaf)) : List Archive.Entry :=
  let leaves := leaves.filter fun (p, _) => p.all (· ≠ ".git".toList)
  let directories := (leaves.flatMap fun (p, _) => directoriesOf p).eraseDups
  let entries := directories.map Archive.Entry.directory ++ leaves.filterMap fun (p, l) =>
    match l with
    | .file b x => some (.file p b x)
    | .link _ => none
  (entries.mergeSort fun a b => FileTree.placeBefore a.path b.path).map fun
    | .directory p => .directory (root :: p)
    | .file p b x => .file (root :: p) b x

def checkout (h : Hosting) (url : String) (revision : Option String) :
    Except Fetch.Error (List Archive.Entry) :=
  match h.repository? url with
  | none => .error (.transport url "git clone" true)
  | some r =>
    match r.clone.resolve? (revision.getD "HEAD") with
    | none => .error (.transport url "git checkout" false)
    | some c => .ok (entriesOf "package".toList c.leaves)

def answer (h : Hosting) : Request → Except Fetch.Error Bytes
  | .get url => .error (.transport url s!"error sending request for url ({url})" true)
  | .gitExport url revision =>
    (h.checkout url revision).map fun es => Archive.Gzip.pack (Archive.Tar.pack es)

def transport (h : Hosting) : Transport := fun _ q => ⟨h.answer q, false⟩

end Hosting

end OfflineCache.Git
