import OfflineCache.FileTree.Basic

/-! Changes to a tree: making directories, creating, writing, renaming and removing files, and
the replacement of a file by way of a temporary one beside it. -/

namespace OfflineCache.FileTree

/-- The tree with this node at this place. -/
def put (t : FileTree) (p : Place) (n : Node) : FileTree :=
  { t with nodes := t.nodes.filter (·.1 ≠ p) ++ [(p, n)] }

def erase (t : FileTree) (p : Place) : FileTree :=
  { t with nodes := t.nodes.filter (·.1 ≠ p) }

/-- Takes a place and all below it away. -/
def prune (t : FileTree) (p : Place) : FileTree :=
  { t with nodes := t.nodes.filter (!p.isPrefixOf ·.1) }

/-! ## Directories -/

def withoutEndSlashes (p : Path) : Path :=
  if p.chars.all (· = '/') then p else ⟨(p.chars.reverse.dropWhile (· = '/')).reverse⟩

def makeDirectory (t : FileTree) (p : Path) : Except Fault FileTree := do
  match ← t.spot (withoutEndSlashes p) false with
  | .present .. => .error .exists
  | .free d n => .ok (t.put (d ++ [n]) .directory)

/-- Makes the directory, unless one is there already or a link to one. -/
def makeOrFind (t : FileTree) (p : Path) : FileTree × Except Fault Unit :=
  match t.makeDirectory p with
  | .ok t => (t, .ok ())
  | .error e => (t, if t.isDirectory p then .ok () else .error e)

/-- Makes a directory and what is missing above it. What is already there may be a link to a
directory, but no file; what was made before a fault stays. -/
def layDirectories (t : FileTree) (p : Path) : FileTree × Except Fault Unit :=
  go (p.components.length + 1) t p
where
  go : Nat → FileTree → Path → FileTree × Except Fault Unit
    | 0, t, _ => (t, .error .noRoot)
    | n + 1, t, p =>
      if p.chars = [] then (t, .ok ())
      else match t.makeDirectory p with
        | .error .notFound =>
          match p.parent? with
          | none => (t, .error .noRoot)
          | some q =>
            match go n t q with
            | (t, .error e) => (t, .error e)
            | (t, .ok ()) => makeOrFind t p
        | _ => makeOrFind t p

def makeDirectories (t : FileTree) (p : Path) : Except Fault FileTree :=
  match t.layDirectories p with
  | (t, .ok ()) => .ok t
  | (_, .error e) => .error e

/-! ## Files -/

/-- The place at which writing to a path creates or changes a file; behind a link to a free name
that name. -/
def writePlace (t : FileTree) (p : Path) : Except Fault (Place × Bool) := do
  match ← t.spot p true with
  | .present place (.file _ x) => .ok (place, x)
  | .present .. => .error .isDirectory
  | .free d n => .ok (d ++ [n], false)

/-- An empty file at this path, in place of the file that was there. -/
def createFile (t : FileTree) (p : Path) : Except Fault FileTree :=
  (t.writePlace p).map fun (place, x) => t.put place (.file [] x)

def writeFile (t : FileTree) (p : Path) (b : Bytes) : Except Fault FileTree :=
  (t.writePlace p).map fun (place, x) => t.put place (.file b x)

/-- Gives the file at `p` the name `q`. A file or link there is replaced; a directory is not, and
a name that asks for a directory is refused. -/
def renameFile (t : FileTree) (p q : Path) : Except Fault FileTree := do
  match ← t.spot p false with
  | .free .. => .error .notFound
  | .present source n =>
    let last := (Path.pieces q.chars).getLast?
    if last = none ∨ last = some ['.'] ∨ last = some ['.', '.'] then
      let _ ← t.spot q false
      .error .busy
    else
      let target ← t.spot (withoutEndSlashes q) false
      if q.chars.getLast? = some '/' then .error .notDirectory
      else match target with
        | .present _ .directory => .error .isDirectory
        | .present place _ => .ok ((t.erase source).put place n)
        | .free d name => .ok ((t.erase source).put (d ++ [name]) n)

def makeLink (t : FileTree) (p target : Path) : Except Fault FileTree := do
  match ← t.spot p false with
  | .present .. => .error .exists
  | .free d n => .ok (t.put (d ++ [n]) (.link target))

def removeFile (t : FileTree) (p : Path) : Except Fault FileTree := do
  match ← t.spot p false with
  | .free .. => .error .notFound
  | .present _ .directory => .error .isDirectory
  | .present place _ => .ok (t.erase place)

/-- Removes a directory with all it holds, or a link. -/
def removeTree (t : FileTree) (p : Path) : Except Fault FileTree := do
  match ← t.spot p false with
  | .free .. => .error .notFound
  | .present place (.link _) => .ok (t.erase place)
  | .present _ (.file ..) => .error .notDirectory
  | .present place .directory => .ok (t.prune place)

end OfflineCache.FileTree
