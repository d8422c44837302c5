import OfflineCache.FileTree.Basic
import OfflineCache.Policy

/-! Whether a reference to a path stays inside the project. The target is taken from the directory
of the workspace that declares the reference, links are resolved as far as the path exists, and
what is left must lie below the project root. -/

namespace OfflineCache.Containment

/-- The directory that a relative reference starts from: that of the workspace named by the
locator's binding, or the project root. -/
def baseDirectory (l : Locator) (root : Path) : Path :=
  match l.param? "locator" with
  | none => root
  | some parent =>
    match Locator.parse (String.ofList (Text.Percent.decode parent.toList)) with
    | .ok p => if p.protocol = .workspace then root / .ofString p.decodedReference else root
    | .error _ => root

variable (t : FileTree)

/-- Where a path reference leads. -/
def target? (l : Locator) (root : Path) : Option Path :=
  if l.protocol.bearsPath then
    some (t.resolvePrefix (baseDirectory l root / .ofString l.decodedReference))
  else none

def contained? (l : Locator) (root : Path) : Option Path :=
  (target? t l root).filter (·.startsWith (t.resolvePrefix root))

def escapes (l : Locator) (root : Path) : Bool :=
  l.protocol.bearsPath && (contained? t l root).isNone

/-- Denies the fetching of what lies outside; other decisions stand. -/
def guard (c : Classification) (l : Locator) (root : Path) : Classification :=
  if escapes t l root && c = .fetchable then .deny .pathEscape else c

/-- Whether a reference that is not to be fetched points outside all the same. -/
def pointsOutside (c : Classification) (l : Locator) (root : Path) : Bool :=
  escapes t l root && c != .fetchable

end OfflineCache.Containment
