import OfflineCache.Text.Cut

/-! Paths as texts, and the components they are made of: a leading slash is the root, empty
pieces count for nothing, and a dot counts only in front of a relative path. -/

namespace OfflineCache

/-- A path keeps its spelling; two spellings may have the same components. -/
structure Path where
  chars : List Char
  deriving DecidableEq, Repr, Inhabited

namespace Path

inductive Component where
  | root
  | here
  | up
  | name (n : List Char)
  deriving DecidableEq, Repr

def ofString (s : String) : Path := ⟨s.toList⟩

def render (p : Path) : String := String.ofList p.chars

instance : ToString Path := ⟨render⟩

def isAbsolute (p : Path) : Bool := p.chars.head? == some '/'

/-- The nonempty pieces between slashes. -/
def pieces (s : List Char) : List (List Char) := (Text.splitAll '/' s).filter (· ≠ [])

def Component.ofPiece (s : List Char) : Component :=
  if s = ['.', '.'] then .up else .name s

private def inner (ps : List (List Char)) : List Component :=
  (ps.filter (· ≠ ['.'])).map Component.ofPiece

def components (p : Path) : List Component :=
  let ps := pieces p.chars
  if p.isAbsolute then .root :: inner ps
  else match ps with
    | ['.'] :: r => .here :: inner r
    | ps => inner ps

def Component.chars : Component → List Char
  | .root => ['/']
  | .here => ['.']
  | .up => ['.', '.']
  | .name n => n

/-- The components with single slashes between them. -/
def spell : List Component → List Char
  | [] => []
  | .root :: cs => '/' :: spell cs
  | [c] => c.chars
  | c :: cs => c.chars ++ '/' :: spell cs

def ofComponents (cs : List Component) : Path := ⟨spell cs⟩

/-- `q` seen from `p`: an absolute path stands on its own. -/
def join (p q : Path) : Path :=
  if q.isAbsolute ∨ p.chars = [] then q
  else if p.chars.getLast? = some '/' then ⟨p.chars ++ q.chars⟩
  else ⟨p.chars ++ '/' :: q.chars⟩

instance : Div Path := ⟨join⟩

/-- The last component, if it is a name. -/
def fileName? (p : Path) : Option (List Char) :=
  match p.components.getLast? with
  | some (.name n) => some n
  | _ => none

def parent? (p : Path) : Option Path :=
  match p.components.getLast? with
  | none | some .root => none
  | some _ => some (ofComponents p.components.dropLast)

def startsWith (p base : Path) : Bool := base.components.isPrefixOf p.components

/-! ## Normal form -/

/-- One component more: a name is taken back by going up, and nothing lies above the root. -/
def pushComponent (cs : List Component) (c : Component) : List Component :=
  match c with
  | .here => cs
  | .up =>
    match cs.getLast? with
    | some (.name _) => cs.dropLast
    | some .root => cs
    | _ => cs ++ [.up]
  | c => cs ++ [c]

def normalComponents (cs : List Component) : List Component := cs.foldl pushComponent []

/-- The path with `.` and `..` resolved in its text alone. -/
def normalize (p : Path) : Path := ofComponents (normalComponents p.components)

/-! ## Temporary files -/

/-- The names that unfinished writes go by. -/
def isTemporaryName (n : List Char) : Bool :=
  n.head? == some '.' && Text.containsText ".tmp-".toList n

def isTemporary (p : Path) : Bool := p.fileName?.any isTemporaryName

end Path

end OfflineCache
