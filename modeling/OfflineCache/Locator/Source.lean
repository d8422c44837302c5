import OfflineCache.Locator.Grammar

/-! What a locator refers to: the package asked of a registry, the clone address and revision of a
git reference, the version a cache path is named after, and the identity that tells duplicates. -/

namespace OfflineCache.Locator

open Text

def decodedReference (l : Locator) : String :=
  String.ofList (Percent.decode l.reference.toList)

structure Identity where
  name : String
  protocol : Protocol
  reference : String
  subdirectory : Option String
deriving DecidableEq, Repr

/-- Two records of one identity describe one package; two packages may live in one archive, so the
subdirectory counts. -/
def identity (l : Locator) : Identity :=
  ⟨l.ident.render, l.protocol, l.decodedReference, l.subdirectory⟩

/-- The package and version asked of the registry; another package's name stands in front of the
version of an alias. -/
def registryTarget? (l : Locator) : Option (Ident × String) :=
  if l.protocol ≠ .registry then none
  else
    let decoded := Percent.decode l.reference.toList
    match splitIdent decoded with
    | some (name, version) =>
      if name = [] then some (l.ident, String.ofList decoded)
      else (Ident.parse? name).map (·, String.ofList version)
    | none => some (l.ident, String.ofList decoded)

def exactVersion? (reference : String) : Option Version := Version.Range.pinned? reference.toList

/-- The version that the locator itself pins. -/
def pinnedVersion? (l : Locator) : Option String :=
  (l.registryTarget?.bind fun t => exactVersion? t.2).map fun v => String.ofList v.render

/-- The version that cache paths and reports use. -/
def version? (l : Locator) : Option String :=
  match l with
  | ⟨i, p, r, s, ps, patch, c, v⟩ =>
    let self : Locator := ⟨i, p, r, s, ps, patch, c, v⟩
    let pinned := match p with
      | .registry => self.pinnedVersion?
      | .patch =>
        (self.param? "version").or (match patch with
          | some ⟨base, _, _⟩ => base.version?
          | none => none)
      | _ => self.param? "version"
    pinned.or v

/-- Which revision a fragment names, in this order of keys. -/
def revisionKeys : List String := ["commit", "tag", "head", "semver"]

def decodeText (s : List Char) : String := String.ofList (Percent.decode s)

/-- A fragment is a revision, or key=value pairs one of which names it. -/
def gitRevision? (fragment : List Char) : Option String :=
  if fragment = [] then none
  else if '=' ∉ fragment then some (decodeText fragment)
  else
    let pairs := (splitAll '&' fragment).filterMap (cut '=')
    revisionKeys.findSome? fun key =>
      (pairs.find? (·.1 == key.toList)).map fun p => decodeText p.2

/-- The clone address of a reference without its fragment. -/
def cloneUrl (url : List Char) : String :=
  match "github:".toList.isPrefixOf? url with
  | some rest => "https://github.com/" ++ String.ofList (dropSuffixes ".git".toList rest) ++ ".git"
  | none => String.ofList (("git+".toList.isPrefixOf? url).getD url)

def gitSource? (l : Locator) : Option (String × Option String) :=
  if l.protocol ≠ .git then none
  else
    match cut '#' l.reference.toList with
    | some (url, fragment) => some (cloneUrl url, gitRevision? fragment)
    | none => some (cloneUrl l.reference.toList, none)

end OfflineCache.Locator
