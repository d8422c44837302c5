import OfflineCache.Containment
import OfflineCache.Dialect
import OfflineCache.Lockfile

/-! What a run will do with each record of a lockfile, before anything is fetched. Every record is
judged against those before it: it is malformed, new, a duplicate of an earlier one, or in
conflict with it. A plan has an entry per malformed record and per new one. -/

namespace OfflineCache

/-- What the plan says of a record: no locator, or one with the decision about it. -/
inductive PlannedEntry.Subject where
  | malformed (e : Locator.Malformed)
  | located (l : Locator) (c : Classification)

structure PlannedEntry where
  raw : String
  subject : PlannedEntry.Subject

namespace PlannedEntry

def locator? (e : PlannedEntry) : Option Locator :=
  match e.subject with
  | .malformed _ => none
  | .located l _ => some l

def classification? (e : PlannedEntry) : Option Classification :=
  match e.subject with
  | .malformed _ => none
  | .located _ c => some c

/-- The locator, if it is to be fetched. -/
def pending? (e : PlannedEntry) : Option Locator :=
  match e.subject with
  | .located l .fetchable => some l
  | _ => none

def needsFetch (e : PlannedEntry) : Bool := e.pending?.isSome

end PlannedEntry

structure Plan where
  dialect : Dialect
  entries : List PlannedEntry

namespace Plan

inductive Error where
  | malformed (e : Locator.Malformed)
  | dialect (e : Dialect.Unsupported)
  | corrupted (l : Locator)

def Error.message : Error → String
  | .malformed e => e.message
  | .dialect e => e.message
  | .corrupted l => s!"corrupted lockfile: {l.render} appears twice with different checksums"

/-! ## Judging records -/

/-- The dialect that was declared, or else the one that the lockfile's version shows. -/
def dialectOf (f : Lockfile) (declared : Option Nat) : Except Dialect.Unsupported Dialect :=
  match declared with
  | none => Dialect.ofMetadata f.version.toNat
  | some n => Dialect.ofMajor n

/-- The locator of a record with its checksum and version. -/
def readRecord (d : Dialect) (r : LockRecord) : Except Locator.Malformed Locator := do
  let l ← d.parseLocator r.locatorText
  let checksum ← match r.checksum with
    | none => pure none
    | some c =>
      match d.parseChecksum c with
      | .ok c => pure (some c)
      | .error e => throw ⟨r.locatorText, .badChecksum e⟩
  return (l.withChecksum checksum).withResolvedVersion r.version

inductive Verdict where
  | malformed (e : Locator.Malformed)
  | fresh (l : Locator)
  | duplicate (l : Locator)
  | conflict (l : Locator)

/-- Judges a record against the locators of the new ones before it. -/
def judge (d : Dialect) (seen : List Locator) (r : LockRecord) : Verdict :=
  match readRecord d r with
  | .error e => .malformed e
  | .ok l =>
    match seen.find? (·.identity = l.identity) with
    | none => .fresh l
    | some first => if first.checksum = l.checksum then .duplicate l else .conflict l

/-- The verdicts on all records in order. -/
def trace (d : Dialect) (seen : List Locator) : List LockRecord → List (LockRecord × Verdict)
  | [] => []
  | r :: rest =>
    let v := judge d seen r
    let seen := match v with
      | .fresh l => seen ++ [l]
      | _ => seen
    (r, v) :: trace d seen rest

/-! ## Entries -/

def classify (t : FileTree) (p : Policy) (l : Locator) : Classification :=
  Containment.guard t (p.classify l) l p.root

/-- The entry for a judged record, if it has one. -/
def entryOf? (t : FileTree) (p : Policy) :
    LockRecord × Verdict → Except Error (Option PlannedEntry)
  | (r, .malformed e) =>
    if p.strict then .error (.malformed e) else .ok (some ⟨r.locatorText, .malformed e⟩)
  | (r, .fresh l) => .ok (some ⟨r.locatorText, .located l (classify t p l)⟩)
  | (_, .duplicate _) => .ok none
  | (_, .conflict l) => .error (.corrupted l)

def entriesOf (t : FileTree) (p : Policy) :
    List (LockRecord × Verdict) → Except Error (List PlannedEntry)
  | [] => .ok []
  | v :: rest => do
    let e ← entryOf? t p v
    let es ← entriesOf t p rest
    return e.toList ++ es

def make (t : FileTree) (p : Policy) (f : Lockfile) (declared : Option Nat) :
    Except Error Plan := do
  let d ← (dialectOf f declared).mapError .dialect
  let entries ← entriesOf t p (trace d [] f.records)
  return ⟨d, entries⟩

end Plan

end OfflineCache
