import OfflineCache.FileTree.Listing

/-! What has to be done to one file tree to make it another: removals from the innermost on,
directories from the outermost on, and files at last. -/

namespace OfflineCache.FileTree

inductive Change where
  | remove (p : Place)
  | removeDirectory (p : Place)
  | makeDirectory (p : Place)
  | write (p : Place) (content : Bytes)
  deriving DecidableEq, Repr

private def removal? (after : FileTree) : Place × Node → Option Change
  | (p, .directory) =>
    if after.node? p = some .directory then none else some (.removeDirectory p)
  | (p, n) => if after.node? p = some n then none else some (.remove p)

private def directory? (before : FileTree) : Place × Node → Option Change
  | (p, .directory) =>
    if before.node? p = some .directory then none else some (.makeDirectory p)
  | _ => none

private def file? (before : FileTree) : Place × Node → Option Change
  | (p, .file b x) => if before.node? p = some (.file b x) then none else some (.write p b)
  | _ => none

private def sorted (t : FileTree) : List (Place × Node) :=
  t.nodes.mergeSort fun a b => placeBefore a.1 b.1

def changes (before after : FileTree) : List Change :=
  before.sorted.reverse.filterMap after.removal? ++
    after.sorted.filterMap before.directory? ++
    after.sorted.filterMap before.file?

end OfflineCache.FileTree
