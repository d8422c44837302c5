import OfflineCache.Json.Basic
import OfflineCache.Plan
import OfflineCache.Store

/-! The report of a run: one outcome per planned entry in their order, a summary, the fetched
packages as components with package addresses, and the settings with which a package manager
works from the cache alone. -/

namespace OfflineCache

inductive FailureKind where
  | malformedLocator
  | integrityError
  | fetchError
  | writeError
  deriving DecidableEq, Repr

def FailureKind.name : FailureKind → String
  | .malformedLocator => "malformed-locator"
  | .integrityError => "integrity-error"
  | .fetchError => "fetch-error"
  | .writeError => "write-error"

inductive Outcome where
  | fetched (path : Path) (digest : String)
  | skipped (reason : String)
  | denied (reason : String)
  | failed (kind : FailureKind) (cause : String)
  deriving DecidableEq, Repr

namespace Outcome

def status : Outcome → String
  | .fetched .. => "fetched"
  | .skipped _ => "skipped"
  | .denied _ => "denied"
  | .failed .. => "failed"

def isFailed : Outcome → Bool
  | .failed .. => true
  | _ => false

def cancelled : Outcome := .skipped SkipReason.cancelled.message

def ofFetchError (e : Fetch.Error) : Outcome :=
  match e with
  | .integrity .. => .failed .integrityError e.message
  | e => .failed .fetchError e.message

def ofStoreError (e : Store.Error) : Outcome := .failed .writeError e.message

def ofEntry (e : CacheEntry) : Outcome := .fetched e.path e.digest.render

def json : Outcome → List (String × Json.Value)
  | o@(.fetched p d) =>
    [("status", .text o.status), ("path", .text p.render), ("verified_digest", .text d)]
  | o@(.skipped r) => [("status", .text o.status), ("reason", .text r)]
  | o@(.denied r) => [("status", .text o.status), ("reason", .text r)]
  | o@(.failed k c) =>
    [("status", .text o.status), ("kind", .text k.name), ("cause", .text c)]

end Outcome

/-- What the plan alone decides. -/
def PlannedEntry.outcome? (e : PlannedEntry) : Option Outcome :=
  match e.subject with
  | .malformed m => some (.failed .malformedLocator m.message)
  | .located _ .fetchable => none
  | .located _ (.skip r) => some (.skipped r.message)
  | .located _ (.deny r) => some (.denied r.message)

structure ReportEntry where
  /-- The locator as the lockfile writes it. -/
  raw : String
  ident : Option String
  protocol : Option String
  version : Option String
  checksum : Option String
  outcome : Outcome
  deriving DecidableEq, Repr

namespace ReportEntry

def make (raw : String) (l : Option Locator) (o : Outcome) : ReportEntry :=
  ⟨raw, l.map (·.ident.render), l.map (·.protocol.name), l.bind (·.version?),
    l.bind fun l => l.checksum.map (·.render), o⟩

def json (e : ReportEntry) : Json.Value :=
  .object ([("locator", .text e.raw), ("ident", .ofOption e.ident),
    ("protocol", .ofOption e.protocol), ("version", .ofOption e.version),
    ("integrity", .ofOption e.checksum)] ++ e.outcome.json)

end ReportEntry

structure Summary where
  total : Nat
  fetched : Nat
  skipped : Nat
  denied : Nat
  failed : Nat
  deriving DecidableEq, Repr

/-- A fetched package, as a bill of materials names it. -/
structure Component where
  name : String
  version : Option String
  address : String
  checksum : Option String
  deriving DecidableEq, Repr

namespace Component

/-- The name in a package address: the mark of a scope is encoded. -/
def addressName (name : String) : String :=
  match name.toList with
  | '@' :: r => "%40" ++ String.ofList r
  | _ => name

def addressOf (name : String) (version : Option String) : String :=
  match version with
  | some v => s!"pkg:npm/{addressName name}@{v}"
  | none => s!"pkg:npm/{addressName name}"

/-- The component for an entry that was fetched. -/
def make? (e : ReportEntry) : Option Component :=
  match e.outcome, e.ident with
  | .fetched .., some name => some ⟨name, e.version, addressOf name e.version, e.checksum⟩
  | _, _ => none

def json (c : Component) : Json.Value :=
  .object [("name", .text c.name), ("version", .ofOption c.version), ("purl", .text c.address),
    ("integrity", .ofOption c.checksum)]

end Component

structure Report where
  dialect : Nat
  entries : List ReportEntry
  cacheRoot : Path
  deriving DecidableEq, Repr

namespace Report

private def count (r : Report) (status : String) : Nat :=
  r.entries.countP (·.outcome.status == status)

def summary (r : Report) : Summary :=
  ⟨r.entries.length, r.count "fetched", r.count "skipped", r.count "denied", r.count "failed"⟩

/-- Nothing failed, and nothing that is needed was denied. -/
def success (r : Report) : Bool := r.summary.failed == 0 && r.summary.denied == 0

def failures (r : Report) : List ReportEntry := r.entries.filter (·.outcome.isFailed)

def components (r : Report) : List Component := r.entries.filterMap Component.make?

/-- Settings for installing from the cache with the network off. -/
def environment (r : Report) : List (String × String) :=
  [("YARN_ENABLE_GLOBAL_CACHE", "false"), ("YARN_ENABLE_IMMUTABLE_CACHE", "false"),
    ("YARN_ENABLE_MIRROR", "true"), ("YARN_ENABLE_NETWORK", "false"),
    ("YARN_GLOBAL_FOLDER", r.cacheRoot.render)]

private def Summary.json (s : Summary) : Json.Value :=
  .object [("total", .number s.total), ("fetched", .number s.fetched),
    ("skipped", .number s.skipped), ("denied", .number s.denied), ("failed", .number s.failed)]

def json (r : Report) : Json.Value :=
  .object [("dialect", .number r.dialect), ("entries", .list (r.entries.map (·.json))),
    ("summary", Summary.json r.summary), ("components", .list (r.components.map (·.json))),
    ("environment", .list (r.environment.map fun (n, v) =>
      .object [("name", .text n), ("value", .text v)]))]

def render (r : Report) : String := r.json.render

end Report

end OfflineCache
