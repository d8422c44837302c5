import OfflineCache.Dialect
import OfflineCache.Duration
import OfflineCache.Fetch.Error
import OfflineCache.Text.Quoted

/-! What the program tells about its work: each event has a level, the part of the program that it
belongs to, a message and fields. -/

namespace OfflineCache.Log

inductive Level where
  | trace
  | debug
  | info
  | warn
  | error
  deriving DecidableEq, Repr

namespace Level

def name : Level → String
  | .trace => "trace"
  | .debug => "debug"
  | .info => "info"
  | .warn => "warn"
  | .error => "error"

/-- The name as it stands in a log. -/
def label (l : Level) : String := l.name.map Char.toUpper

def all : List Level := [.trace, .debug, .info, .warn, .error]

def rank : Level → Nat
  | .trace => 0
  | .debug => 1
  | .info => 2
  | .warn => 3
  | .error => 4

end Level

inductive Event where
  | remark (r : Dialect.Remark)
  | dialectMismatch (declared metadata : Nat)
  | malformed (e : Locator.Malformed)
  | duplicate (locator : String)
  | denied (locator reason : String)
  | pointsOutside (locator : String)
  | configFile (path : String)
  | started (dialect entries pending jobs : Nat)
  | fetched (locator : String) (attempts size : Nat)
  | retrying (url : String) (attempt : Nat) (delay : Duration) (cause : Fetch.Error)
  | fetchFailed (locator : String) (cause : Fetch.Error)
  | alreadyStored (path : String)
  | replacing (path : String)
  | writeFailed (path : String) (fault : FileTree.Fault)
  | stored (locator path : String)
  | finished (fetched skipped denied failed : Nat)
  deriving DecidableEq, Repr

/-- The value of a field. Words of the program's own are quoted in lines of text. -/
inductive FieldValue where
  | number (n : Nat)
  | shown (s : String)
  | word (s : String)
  deriving DecidableEq, Repr

/-- An event as it is written out. -/
structure Entry where
  level : Level
  target : String
  message : String
  fields : List (String × FieldValue)
  deriving DecidableEq, Repr

namespace Event

open FieldValue

def entry : Event → Entry
  | .remark (.bareRange raw major) =>
    ⟨.debug, "lockfetch::locator::dialect", "bare range in a qualified dialect",
      [("locator", word raw), ("dialect", number major)]⟩
  | .remark (.fileExtension l major) =>
    ⟨.debug, "lockfetch::locator::dialect", "file locator extension in older dialect",
      [("locator", shown l), ("dialect", number major)]⟩
  | .remark (.checksumWithoutKey c) =>
    ⟨.debug, "lockfetch::locator::dialect", "checksum without cache key prefix",
      [("checksum", word c)]⟩
  | .dialectMismatch declared metadata =>
    ⟨.warn, "lockfetch::prefetch",
      "declared dialect does not match lockfile metadata; using the declared one",
      [("declared", number declared), ("metadata", number metadata)]⟩
  | .malformed e =>
    ⟨.warn, "lockfetch::prefetch", "skipping malformed locator",
      [("locator", shown e.raw), ("error", shown e.message)]⟩
  | .duplicate l =>
    ⟨.debug, "lockfetch::prefetch", "collapsing duplicate lockfile entry",
      [("locator", shown l)]⟩
  | .denied l reason =>
    ⟨.info, "lockfetch::prefetch", "denied", [("locator", shown l), ("reason", word reason)]⟩
  | .pointsOutside l =>
    ⟨.warn, "lockfetch::guard", "in-project reference points outside the project root",
      [("locator", shown l)]⟩
  | .configFile p => ⟨.debug, "lockfetch::config", "using config file", [("path", shown p)]⟩
  | .started dialect entries pending jobs =>
    ⟨.info, "lockfetch::prefetch", "starting prefetch",
      [("dialect", number dialect), ("entries", number entries), ("to_fetch", number pending),
        ("jobs", number jobs)]⟩
  | .fetched l attempts size =>
    ⟨.debug, "lockfetch::fetch", "fetched",
      [("locator", shown l), ("attempts", number attempts), ("size", number size)]⟩
  | .retrying url attempt delay cause =>
    ⟨.warn, "lockfetch::fetch::retry", "transient fetch failure, retrying",
      [("url", word url), ("attempt", number attempt), ("delay", shown delay.render),
        ("error", shown cause.message)]⟩
  | .fetchFailed l cause =>
    ⟨.warn, "lockfetch::prefetch", "fetch failed",
      [("locator", shown l), ("error", shown cause.message)]⟩
  | .alreadyStored p =>
    ⟨.trace, "lockfetch::cache", "cache hit, already stored", [("path", shown p)]⟩
  | .replacing p =>
    ⟨.debug, "lockfetch::cache", "replacing cache entry with mismatching content",
      [("path", shown p)]⟩
  | .writeFailed p f =>
    ⟨.error, "lockfetch::cache", "cache write failed",
      [("path", shown p), ("error", shown f.message)]⟩
  | .stored l p =>
    ⟨.debug, "lockfetch::cache", "stored", [("locator", shown l), ("path", shown p)]⟩
  | .finished a b c d =>
    ⟨.info, "lockfetch::prefetch", "prefetch finished",
      [("fetched", number a), ("skipped", number b), ("denied", number c), ("failed", number d)]⟩

end Event

def FieldValue.text : FieldValue → String
  | .number n => toString n
  | .shown s => s
  | .word s => String.ofList (Text.Quoted.string s.toList)

/-- One line of text: the level, the message and the fields. -/
def Entry.line (e : Entry) : String :=
  " ".intercalate (e.level.label :: e.message :: e.fields.map fun (k, v) => k ++ "=" ++ v.text)

end OfflineCache.Log
