import OfflineCache.Text.Blank

/-! How a locator is resolved. The grammar yields the eight known protocols only; `other` stands for
a name that no rule covers. -/

namespace OfflineCache

open Text

inductive Protocol where
  | registry
  | git
  | http
  | file
  | link
  | workspace
  | patch
  | exec
  | other (name : String)
deriving DecidableEq, Repr

namespace Protocol

def name : Protocol → String
  | .registry => "registry"
  | .git => "git"
  | .http => "http"
  | .file => "file"
  | .link => "link"
  | .workspace => "workspace"
  | .patch => "patch"
  | .exec => "exec"
  | .other n => n

instance : ToString Protocol := ⟨name⟩

/-- The name as lockfiles and cache paths spell it. -/
def tag : Protocol → String
  | .registry => "npm"
  | p => p.name

/-- The known protocols in their order. -/
def known : List Protocol :=
  [.registry, .git, .http, .file, .link, .workspace, .patch, .exec]

/-- A reference of this protocol is a path relative to the package that declares it. -/
def bearsPath : Protocol → Bool
  | .file | .link | .workspace => true
  | _ => false

/-- The protocol of a locator's prefix. -/
def ofPrefix (s : String) : Protocol :=
  match s with
  | "npm" => .registry
  | "file" => .file
  | "link" | "portal" => .link
  | "workspace" => .workspace
  | "patch" => .patch
  | "exec" => .exec
  | "github" | "git" | "git+ssh" | "git+http" | "git+https" | "git+file" => .git
  | "http" | "https" => .http
  | _ => .other s

def ofLowerName? (s : String) : Option Protocol :=
  match s with
  | "registry" | "npm" => some .registry
  | "git" => some .git
  | "http" | "https" | "tarball" => some .http
  | "file" => some .file
  | "link" | "portal" => some .link
  | "workspace" => some .workspace
  | "patch" => some .patch
  | "exec" => some .exec
  | _ => none

/-- An allow-list names a protocol that does not exist; the name is trimmed and in lower case. -/
structure UnknownName where
  name : String
deriving DecidableEq, Repr

def UnknownName.message (e : UnknownName) : String := s!"unknown protocol '{e.name}'"

/-- Names in allow-lists, in any case (of ASCII) and with blanks around them. -/
def ofName (raw : String) : Except UnknownName Protocol :=
  let s := String.ofList ((trim raw.toList).map Char.toLower)
  match ofLowerName? s with
  | some p => .ok p
  | none => .error ⟨s⟩

end Protocol

end OfflineCache
