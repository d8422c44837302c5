import OfflineCache.Path.Basic
import OfflineCache.Text.Utf8

/-! A tree of directories, files and symbolic links, and the walk along a path in it. Places are
lists of names from the root, so a place is a path without links or dots. -/

namespace OfflineCache

abbrev Place := List (List Char)

inductive FileTree.Node where
  | directory
  | file (content : Bytes) (executable : Bool)
  | link (target : Path)
  deriving DecidableEq, Repr

/-- The nodes below the root, which is always a directory, and the working directory. -/
structure FileTree where
  nodes : List (Place × FileTree.Node)
  home : Place
  deriving Inhabited

namespace FileTree

/-- Why an operation on files fails. -/
inductive Fault where
  | notFound
  | exists
  | notDirectory
  | isDirectory
  | busy
  | nameTooLong
  | tooManyLinks
  | nullInName
  | notText
  | noParent
  | noRoot
  deriving DecidableEq, Repr

def Fault.message : Fault → String
  | .notFound => "No such file or directory (os error 2)"
  | .exists => "File exists (os error 17)"
  | .notDirectory => "Not a directory (os error 20)"
  | .isDirectory => "Is a directory (os error 21)"
  | .busy => "Device or resource busy (os error 16)"
  | .nameTooLong => "File name too long (os error 36)"
  | .tooManyLinks => "Too many levels of symbolic links (os error 40)"
  | .nullInName => "file name contained an unexpected NUL byte"
  | .notText => "stream did not contain valid UTF-8"
  | .noParent => "destination has no parent"
  | .noRoot => "failed to create whole tree"

def node? (t : FileTree) (p : Place) : Option Node :=
  if p = [] then some .directory else t.nodes.lookup p

/-- The longest name, in bytes. -/
def maxName : Nat := 255

/-- The longest path, in bytes with an end mark. -/
def maxPath : Nat := 4096

def maxLinks : Nat := 40

def fitsName (n : List Char) : Bool := Text.Utf8.length n ≤ maxName

/-- The pieces of a path that are walked one by one. A slash at the end asks for a directory,
as a dot does. -/
def steps (p : Path) : List (List Char) :=
  let ps := Path.pieces p.chars
  if ps ≠ [] ∧ p.chars.getLast? = some '/' then ps ++ [['.']] else ps

/-- Where a walk may end: at a node, or at a free name in a directory. -/
inductive Spot where
  | present (place : Place) (node : Node)
  | free (directory : Place) (name : List Char)
  deriving DecidableEq, Repr

/-- Walks on from the directory `origin` as far as no link has to be followed, and leaves the rest
to `jump`. At the end a link is followed if `follow` says so. -/
def walkTo (t : FileTree) (follow : Bool)
    (jump : Place → List (List Char) → Except Fault Spot) (origin : Place) :
    List (List Char) → Except Fault Spot
  | [] => .ok (.present origin .directory)
  | s :: rest =>
    if s = ['.'] then t.walkTo follow jump origin rest
    else if s = ['.', '.'] then t.walkTo follow jump origin.dropLast rest
    else if !fitsName s then .error .nameTooLong
    else
      let place := origin ++ [s]
      match t.node? place with
      | none => if rest = [] then .ok (.free origin s) else .error .notFound
      | some .directory => t.walkTo follow jump place rest
      | some (.file b x) =>
        if rest = [] then .ok (.present place (.file b x)) else .error .notDirectory
      | some (.link target) =>
        if rest = [] ∧ !follow then .ok (.present place (.link target))
        else jump (if target.isAbsolute then [] else origin) (steps target ++ rest)

/-- Walks from the directory `origin` and follows as many links as given. -/
def walk (t : FileTree) (follow : Bool) :
    (links : Nat) → (origin : Place) → List (List Char) → Except Fault Spot
  | 0 => t.walkTo follow fun _ _ => .error .tooManyLinks
  | links + 1 => t.walkTo follow (t.walk follow links)

def spot (t : FileTree) (p : Path) (follow : Bool) : Except Fault Spot :=
  if p.chars.contains '\x00' then .error .nullInName
  else if p.chars = [] then .error .notFound
  else if maxPath ≤ Text.Utf8.length p.chars then .error .nameTooLong
  else t.walk follow maxLinks (if p.isAbsolute then [] else t.home) (steps p)

/-- The node at the end of a walk. -/
def Spot.found : Spot → Except Fault (Place × Node)
  | .present place n => .ok (place, n)
  | .free .. => .error .notFound

/-- The node a path leads to, links followed. -/
def find (t : FileTree) (p : Path) : Except Fault (Place × Node) := (t.spot p true).bind Spot.found

def placePath (p : Place) : Path := Path.ofComponents (.root :: p.map .name)

/-- The node that a path leads to, found name by name, so that the path as a whole may be longer
than one that is opened. -/
def locate (t : FileTree) (p : Path) : Except Fault (Place × Node) :=
  if p.chars.contains '\x00' then .error .nullInName
  else if p.chars = [] then .error .notFound
  else (t.walk true maxLinks (if p.isAbsolute then [] else t.home) (steps p)).bind Spot.found

/-- The absolute path without links that leads to the same node. -/
def canonicalize (t : FileTree) (p : Path) : Except Fault Path :=
  (t.locate p).map fun (place, _) => placePath place

def exists? (t : FileTree) (p : Path) : Bool := (t.find p).toBool

def isFile (t : FileTree) (p : Path) : Bool :=
  match t.find p with
  | .ok (_, .file ..) => true
  | _ => false

def isDirectory (t : FileTree) (p : Path) : Bool :=
  match t.find p with
  | .ok (_, .directory) => true
  | _ => false

def readBytes (t : FileTree) (p : Path) : Except Fault Bytes := do
  match ← t.find p with
  | (_, .file b _) => .ok b
  | _ => .error .isDirectory

def readText (t : FileTree) (p : Path) : Except Fault (List Char) := do
  match Text.Utf8.decode? (← t.readBytes p) with
  | some s => .ok s
  | none => .error .notText

/-! ## Links on the way -/

/-- The place of the longest part of a normal path that exists, the rest put behind it. -/
def resolvePrefix (t : FileTree) (p : Path) : Path :=
  let cs := Path.normalComponents p.components
  go cs.length cs []
where
  go : Nat → List Path.Component → List Path.Component → Path
    | 0, cs, rest => Path.ofComponents (cs ++ rest)
    | n + 1, cs, rest =>
      match t.canonicalize (Path.ofComponents cs) with
      | .ok c => (Path.ofComponents (c.components ++ rest)).normalize
      | .error _ =>
        match cs.getLast? with
        | some (.name x) => go n cs.dropLast (.name x :: rest)
        | _ => Path.ofComponents (cs ++ rest)

end FileTree

end OfflineCache
