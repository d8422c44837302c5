import OfflineCache.Locator.Source
import OfflineCache.Path.Basic
import OfflineCache.Text.Natural

/-! Where an artifact lies below the cache root. A layout is a template of text and placeholders in
braces; placeholders are replaced from left to right, and what is put in is not looked at
again. The path that comes out must consist of plain names. -/

namespace OfflineCache

namespace Template

inductive Fault where
  | unclosed
  | unknown (key : String)
  deriving DecidableEq, Repr

def Fault.message : Fault → String
  | .unclosed => "unclosed '\x7b'"
  | .unknown key => "unknown placeholder '\x7b" ++ key ++ "\x7d'"

/-- The text of a template with its placeholders looked up. -/
def render (lookup : List Char → Option (List Char)) (s : List Char) :
    Except Fault (List Char) :=
  match _h : Text.cut '{' s with
  | none => .ok s
  | some (lead, after) =>
    match _h' : Text.cut '}' after with
    | none => .error .unclosed
    | some (key, rest) =>
      match lookup key with
      | none => .error (.unknown (String.ofList key))
      | some v => (render lookup rest).map (lead ++ v ++ ·)
termination_by s.length
decreasing_by
  have e := Text.eq_append_of_cut _h
  have e' := Text.eq_append_of_cut _h'
  simp only [e, e', List.length_append, List.length_cons]
  omega

end Template

structure Layout where
  name : String
  template : String
  deriving DecidableEq, Repr

namespace Layout

inductive Error where
  | unknownLayout (name : String)
  | unsafePath (layout path : String)
  | template (template : String) (fault : Template.Fault)
  deriving DecidableEq, Repr

def Error.message : Error → String
  | .unknownLayout n => s!"unknown cache layout '{n}'"
  | .unsafePath l p => s!"cache layout '{l}' produced an unsafe path '{p}'"
  | .template t f => s!"invalid cache layout template '{t}': {f.message}"

/-- The version in paths of packages that have none. -/
def noVersion : String := "0.0.0"

def versionOf (l : Locator) : String := l.version?.getD noVersion

/-- What a placeholder stands for; `hash:N` is the first N digits of the hash. -/
def placeholder? (l : Locator) (digest : Checksum) (key : List Char) : Option (List Char) :=
  let hash := digest.hex.toList
  match String.ofList key with
  | "name" => some l.ident.render.toList
  | "slug" => some l.ident.slug.toList
  | "version" => some (versionOf l).toList
  | "protocol" => some l.protocol.tag.toList
  | "algo" => some digest.algorithm.name.toList
  | "hash" => some hash
  | _ =>
    ("hash:".toList.isPrefixOf? key).bind fun n =>
      (Text.naturalBelow? Text.word64 n).map hash.take

def isPlain (p : Path) : Bool :=
  p.components.all fun
    | .name _ => true
    | _ => false

def relativePath (y : Layout) (l : Locator) (digest : Checksum) : Except Error Path :=
  match Template.render (placeholder? l digest) y.template.toList with
  | .error f => .error (.template y.template f)
  | .ok s =>
    if s ≠ [] ∧ isPlain ⟨s⟩ then .ok ⟨s⟩ else .error (.unsafePath y.name (String.ofList s))

def yarn : Layout :=
  ⟨"yarn", "cache/\x7bslug\x7d-\x7bprotocol\x7d-\x7bversion\x7d-\x7bhash:10\x7d.tgz"⟩

def npm : Layout := ⟨"npm", "pkgs/\x7bname\x7d/\x7bversion\x7d/\x7bhash:16\x7d/package.tgz"⟩

def cas : Layout := ⟨"cas", "\x7balgo\x7d/\x7bhash:2\x7d/\x7bhash\x7d.tgz"⟩

end Layout

/-- Layouts by name, in the order of their names. -/
structure LayoutTable where
  layouts : List Layout
  deriving DecidableEq, Repr

namespace LayoutTable

def builtin : LayoutTable := ⟨[.cas, .npm, .yarn]⟩

/-- Adds a layout or replaces the one of its name. -/
def insert (t : LayoutTable) (y : Layout) : LayoutTable :=
  ⟨t.layouts.takeWhile (·.name < y.name) ++ y :: t.layouts.dropWhile (·.name ≤ y.name)⟩

def get (t : LayoutTable) (name : String) : Except Layout.Error Layout :=
  match t.layouts.find? (·.name == name) with
  | some y => .ok y
  | none => .error (.unknownLayout name)

def names (t : LayoutTable) : List String := t.layouts.map (·.name)

end LayoutTable

end OfflineCache
