import OfflineCache.Yaml.Value
import OfflineCache.Text.Natural
import OfflineCache.Text.Cut
import OfflineCache.Text.Blank

/-! A lockfile: its format version and its records in file order. A record's key lists the
descriptors that resolved to one package, and its resolution names that package; where there is
none, the first descriptor stands in for it. -/

namespace OfflineCache

structure LockRecord where
  descriptors : List String
  resolution : Option String
  version : Option String
  checksum : Option String
  linkType : Option String
  deriving DecidableEq, Repr

/-- The text that says what the record stands for. -/
def LockRecord.locatorText (r : LockRecord) : String :=
  (r.resolution.or r.descriptors.head?).getD ""

structure Lockfile where
  version : UInt32
  cacheKey : Option String
  records : List LockRecord
  deriving DecidableEq, Repr

namespace Lockfile

def metadataKey : String := "__metadata"

inductive Error where
  | unreadable
  | notMapping
  | noMetadata
  | noVersion
  | badVersion (text : String)
  | badRecord (key : String)
  | badKey
  | emptyKey
  deriving DecidableEq, Repr

/-- What is wrong with the text, where it can be told in one phrase. -/
def Error.reason? : Error → Option String
  | .unreadable => none
  | .notMapping => some "expected a YAML mapping at the top level"
  | .noMetadata => some s!"missing {metadataKey} block"
  | .noVersion => some s!"{metadataKey}.version is missing"
  | .badVersion t => some s!"{metadataKey}.version '{t}' is not a number"
  | .badRecord key => some s!"record '{key}'"
  | .badKey => some "non-string record key"
  | .emptyKey => some "record with an empty key"

/-- The message, as far as the lockfile's own rules word it. -/
def Error.message? (e : Error) : Option String :=
  e.reason?.map ("failed to parse lockfile: " ++ ·)

open Yaml (Value)

private def entryText? (v : Value) (key : String) : Option String :=
  (v.get? key).bind Value.scalarText?

private def readVersion (metadata : Value) : Except Error UInt32 :=
  match entryText? metadata "version" with
  | none => .error .noVersion
  | some t =>
    match Text.naturalBelow? Text.word32 t.toList with
    | some n => .ok (UInt32.ofNat n)
    | none => .error (.badVersion t)

/-- The fields of a record under their names. A record without a value has none. -/
private def fields? (v : Value) : Option (List (List Char × Value)) :=
  match v.untagged with
  | .null => some []
  | .mapping entries => entries.mapM fun (k, v) =>
    match k.untagged with
    | .text name => some (name, v)
    | _ => none
  | _ => none

/-- The one field of this name; `none` if it is given twice. -/
private def field? (fs : List (List Char × Value)) (name : String) : Option Value :=
  match fs.filter (·.1 = name.toList) with
  | [] => some .null
  | [f] => some f.2
  | _ => none

/-- A text or nothing. -/
private def optionalText? (v : Value) : Option (Option String) :=
  match v with
  | .null => some none
  | v =>
    match v.untagged with
    | .text s => some (some (String.ofList s))
    | _ => none

/-- The descriptors that a key lists. -/
def descriptorsOf (key : List Char) : List String :=
  (((Text.splitAll ',' key).map Text.trim).filter (· ≠ [])).map String.ofList

private def readRecord? (descriptors : List String) (v : Value) : Option LockRecord := do
  let fs ← fields? v
  let resolution ← optionalText? (← field? fs "resolution")
  let version ← field? fs "version"
  let checksum ← field? fs "checksum"
  let linkType ← optionalText? (← field? fs "linkType")
  some ⟨descriptors, resolution, version.scalarText?, checksum.scalarText?, linkType⟩

/-- The record of one entry; none for the metadata. -/
private def readEntry (k v : Value) : Except Error (Option LockRecord) :=
  match k.untagged with
  | .text key =>
    if key = metadataKey.toList then .ok none
    else
      let descriptors := descriptorsOf key
      match readRecord? descriptors v with
      | none => .error (.badRecord (String.ofList key))
      | some r => if descriptors = [] then .error .emptyKey else .ok (some r)
  | _ => .error .badKey

def ofValue (v : Value) : Except Error Lockfile :=
  match v with
  | .mapping entries =>
    match v.get? metadataKey with
    | none => .error .noMetadata
    | some metadata => do
      let version ← readVersion metadata
      let records ← entries.mapM fun (k, v) => readEntry k v
      .ok ⟨version, entryText? metadata "cacheKey", records.filterMap id⟩
  | _ => .error .notMapping

def parse (text : String) : Except Error Lockfile :=
  match Value.ofText? text.toList with
  | none => .error .unreadable
  | some v => ofValue v

end Lockfile

end OfflineCache
