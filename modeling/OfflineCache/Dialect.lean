import OfflineCache.Locator.Source

/-! Lockfile dialects. Every difference between the supported majors is a field of this record; the
grammar itself knows none of them. -/

namespace OfflineCache

open Text

structure Dialect where
  major : Nat
  /-- The first and the last metadata version that this major writes. -/
  metadataVersions : Nat × Nat
  /-- Registry ranges always carry their protocol. -/
  qualifiedRanges : Bool
  /-- File locators may carry a subdirectory and a hash. -/
  fileExtensions : Bool
  /-- Marks a builtin patch as optional. -/
  optionalMarker : String
  /-- Checksums are written behind a cache key. -/
  checksumCacheKey : Bool
deriving DecidableEq, Repr

namespace Dialect

def three : Dialect := ⟨3, (4, 6), false, false, "~", false⟩

def four : Dialect := ⟨4, (7, 8), true, true, "optional!", true⟩

def supported : List Dialect := [three, four]

def minMajor : Nat := 3

def maxMajor : Nat := 4

/-- The number that no supported dialect goes with, and where it came from. -/
inductive Unsupported where
  | major (n : Nat)
  | metadata (n : Nat)
deriving DecidableEq, Repr

def Unsupported.found : Unsupported → String
  | .major n => toString n
  | .metadata n => s!"for metadata version {n}"

def Unsupported.message (e : Unsupported) : String :=
  s!"unsupported lockfile dialect {e.found} (this build understands {minMajor} through {maxMajor})"

def writes (d : Dialect) (metadata : Nat) : Bool :=
  d.metadataVersions.1 ≤ metadata && metadata ≤ d.metadataVersions.2

def ofMajor (n : Nat) : Except Unsupported Dialect :=
  match supported.find? (·.major == n) with
  | some d => .ok d
  | none => .error (.major n)

def ofMetadata (n : Nat) : Except Unsupported Dialect :=
  match supported.find? (·.writes n) with
  | some d => .ok d
  | none => .error (.metadata n)

/-- A bare range behind a name, if that is what the text is. -/
def bareRange? (raw : List Char) : Option (List Char × List Char) :=
  (Locator.splitIdent (trim raw)).filter fun (_, reference) =>
    !reference.contains ':' && !"git@".toList.isPrefixOf reference &&
      Version.Range.isRange reference matches .ok true

/-- Gives bare ranges their protocol, so that both spellings reach the grammar in one shape. -/
def normalize (raw : String) : String :=
  match bareRange? raw.toList with
  | some (name, range) => String.ofList (name ++ "@npm:".toList ++ range)
  | none => raw

/-- Recognises this dialect's marker on a builtin patch. Before anything else it is part of the
source: `~/` is a path. -/
def markOptional (d : Dialect) (l : Locator) : Locator :=
  match l.patch with
  | none => l
  | some p =>
    if p.optional then l
    else match d.optionalMarker.toList.isPrefixOf? p.source.toList with
      | none => l
      | some rest =>
        if "builtin<".toList.isPrefixOf rest then
          { l with patch := some { p with source := String.ofList rest, optional := true } }
        else l

def parseLocator (d : Dialect) (raw : String) : Except Locator.Malformed Locator :=
  match Locator.parse (normalize raw) with
  | .error e => .error ⟨raw, e.reason⟩
  | .ok l => .ok (d.markOptional l)

/-- A checksum field. With or without the cache key in front, the digest is the same. -/
def parseChecksum (_ : Dialect) (raw : String) : Except Checksum.Error Checksum := Checksum.parse raw

/-! ### Remarks on unusual spellings -/

inductive Remark where
  | bareRange (raw : String) (major : Nat)
  | fileExtension (locator : String) (major : Nat)
  | checksumWithoutKey (checksum : String)
deriving DecidableEq, Repr

def locatorRemarks (d : Dialect) (raw : String) : List Remark :=
  let bare := if d.qualifiedRanges && (bareRange? raw.toList).isSome then
    [Remark.bareRange raw d.major] else []
  match Locator.parse (normalize raw) with
  | .error _ => bare
  | .ok l =>
    if !d.fileExtensions && (l.subdirectory.isSome || (l.param? "hash").isSome) then
      bare ++ [.fileExtension l.render d.major]
    else bare

def checksumRemarks (d : Dialect) (raw : String) : List Remark :=
  if d.checksumCacheKey && !raw.contains '/' && !raw.contains '-' then [.checksumWithoutKey raw]
  else []

end Dialect

end OfflineCache
