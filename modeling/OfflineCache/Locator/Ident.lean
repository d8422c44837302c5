import OfflineCache.Text.Cut

/-! Package names, with an optional scope. A name has none of the characters that separate the parts
of a locator and is no relative directory. -/

namespace OfflineCache

open Text

structure Ident where
  scope : Option String
  name : String
deriving DecidableEq, Repr

namespace Ident

def isSeparator (c : Char) : Bool := c == '/' || c == '\\' || c == '@' || c == ':' || c == '#'

def isName (s : List Char) : Bool :=
  !s.isEmpty && !s.any isSeparator && s != ['.'] && s != ['.', '.']

def parse? : List Char → Option Ident
  | '@' :: rest =>
    (cut '/' rest).bind fun (scope, name) =>
      if scope ≠ [] ∧ isName name then some ⟨some (String.ofList scope), String.ofList name⟩
      else none
  | s => if isName s then some ⟨none, String.ofList s⟩ else none

def ofString? (s : String) : Option Ident := parse? s.toList

def render (i : Ident) : String :=
  match i.scope with
  | some scope => "@" ++ scope ++ "/" ++ i.name
  | none => i.name

instance : ToString Ident := ⟨render⟩

/-- One path segment for the whole name. -/
def slug (i : Ident) : String :=
  match i.scope with
  | some scope => "@" ++ scope ++ "-" ++ i.name
  | none => i.name

end Ident

end OfflineCache
