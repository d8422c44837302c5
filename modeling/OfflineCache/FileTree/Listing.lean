import OfflineCache.FileTree.Basic

/-! The finished files below a directory, in the order of their paths. Links are not followed and
not listed, the directory itself excepted, and neither are temporary files. -/

namespace OfflineCache.FileTree

structure ListedFile where
  path : Path
  size : Nat
  deriving DecidableEq, Repr

/-- Names are ordered by their characters, and a name before every longer one. -/
def nameBefore : List Char → List Char → Bool
  | [], _ => true
  | _ :: _, [] => false
  | a :: x, b :: y => if a = b then nameBefore x y else a.val < b.val

def placeBefore : Place → Place → Bool
  | [], _ => true
  | _ :: _, [] => false
  | a :: x, b :: y => if a = b then placeBefore x y else nameBefore a b

/-- The names from `p` on to each node below it. -/
def below (t : FileTree) (p : Place) : List (Place × Node) :=
  t.nodes.filterMap fun (q, n) =>
    (p.isPrefixOf? q).bind fun rest => if rest = [] then none else some (rest, n)

def listed? : Place × Node → Option (Place × Nat)
  | (p, .file b _) =>
    if (p.getLast?).any Path.isTemporaryName then none else some (p, b.length)
  | _ => none

def relative (p : Place) : Path := Path.ofComponents (p.map .name)

def listFiles (t : FileTree) (root : Path) : List ListedFile :=
  match t.spot root false with
  | .ok (.present _ (.file b _)) =>
    if root.isTemporary then [] else [⟨⟨[]⟩, b.length⟩]
  | _ =>
    match t.find root with
    | .ok (place, .directory) =>
      (((t.below place).filterMap listed?).mergeSort fun a b => placeBefore a.1 b.1).map
        fun (p, size) => ⟨relative p, size⟩
    | _ => []

end OfflineCache.FileTree
