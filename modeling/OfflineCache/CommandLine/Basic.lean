import OfflineCache.CommandLine.Invocation
import OfflineCache.CommandLine.Screen
import OfflineCache.FileTree.Change

/-! The commands. Each one is an action on a session: the world of the program and what it has
shown so far, both of which outlive a failure. -/

namespace OfflineCache.CommandLine

/-- What the program is told by the machine that it runs on. -/
structure Machine where
  /-- The number of workers where nothing else says it. -/
  jobs : Nat
  cacheRoot : Path
  transport : Transport
  /-- How long a run took, as it is shown. -/
  elapsed : String

/-- Why a command ends early. -/
inductive Failure where
  | projectRoot (p : Path) (f : FileTree.Fault)
  | lockfileRead (p : Path) (f : FileTree.Fault)
  | lockfile (p : Path) (e : Lockfile.Error)
  | settings (e : Settings.Error)
  | plan (e : Plan.Error)
  | report (p : Path) (f : FileTree.Fault)
  | remove (p : Path) (f : FileTree.Fault)
  | create (p : Path) (f : FileTree.Fault)

namespace Failure

def readFault (p : Path) (f : FileTree.Fault) : String := s!"I/O error at {p.render}: {f.message}"

/-- The messages from the outermost on, each one caused by the next. -/
def chain : Failure → List String
  | .projectRoot p f => [s!"project root {p.render}", f.message]
  | .lockfileRead p f => [s!"load {p.render}", readFault p f, f.message]
  | .lockfile p e => [s!"load {p.render}", e.message?.getD "failed to parse lockfile"]
  | .settings (.io p f) => [readFault p f, f.message]
  | .settings e => [e.message?.getD "invalid configuration"]
  | .plan e => [e.message]
  | .report p f => [s!"write report {p.render}", f.message]
  | .remove p f => [s!"remove {p.render}", f.message]
  | .create p f => [s!"create {p.render}", f.message]

def render (f : Failure) : String := ": ".intercalate f.chain

/-- What was being done, where the failure has a cause apart from it. -/
def context? (f : Failure) : Option String :=
  match f.chain with
  | c :: _ :: _ => some c
  | _ => none

end Failure

structure Session where
  world : World
  output : String := ""

abbrev SessionM := ExceptT Failure (StateM Session)

namespace SessionM

def display (s : String) : SessionM Unit := modify fun x => { x with output := x.output ++ s }

def tellAll (es : List Log.Event) : SessionM Unit :=
  modify fun x => { x with world := x.world.tellAll es }

def files : SessionM FileTree := return (← get).world.files

def setFiles (t : FileTree) : SessionM Unit :=
  modify fun x => { x with world := { x.world with files := t } }

/-- The value, or a failure that is made of the error. -/
def expect (r : Except ε α) (failure : ε → Failure) : SessionM α :=
  match r with
  | .ok a => pure a
  | .error e => throw (failure e)

end SessionM

open SessionM

/-! ## Projects -/

def lockfileName : String := "yarn.lock"

/-- A project with what `check` and `fetch` need of it. -/
structure Project where
  root : Path
  lockfile : Lockfile
  settings : Settings

def openProject (o : ProjectOptions) : SessionM Project := do
  let t ← files
  let root ← expect (t.canonicalize o.project) (.projectRoot o.project)
  let path := o.lockfile.getD (root / .ofString lockfileName)
  let text ← expect (t.readText path) (.lockfileRead path)
  let lockfile ← expect (Lockfile.parse (String.ofList text)) (.lockfile path)
  tellAll (Settings.discoverEvents t root o.config)
  let file ← expect (Settings.discover t root o.config) .settings
  return ⟨root, lockfile, ← expect (Settings.resolve root file o.overrides) .settings⟩

/-! ## Commands -/

/-- Shows what a run would do; blocked entries make it fail. -/
def check (o : ProjectOptions) : SessionM Nat := do
  let p ← openProject o
  let t ← files
  tellAll (Plan.events t p.settings.policy p.lockfile p.settings.dialect)
  let plan ← expect (Plan.make t p.settings.policy p.lockfile p.settings.dialect) .plan
  display (showPlan plan)
  return if plan.entries.any isBlocked then 1 else 0

def Machine.options (m : Machine) (s : Settings) : Options where
  registry := s.registry
  cacheRoot := s.cacheRoot.getD m.cacheRoot
  layout := s.layout
  jobs := s.jobs.getD m.jobs
  retry := s.retry
  dialect := s.dialect

/-- Prefetches a lockfile. A run without any time is stopped from the start. -/
def runPrefetch (m : Machine) (p : Project) : SessionM Report := do
  let x ← get
  let w := { x.world with
    cancelled := x.world.cancelled || p.settings.timeout.any (·.isZero) }
  let (w, r) := prefetch p.settings.policy (m.options p.settings) m.transport p.lockfile w
  set { x with world := w }
  expect r .plan

/-- Replaces the file at a path by the report. -/
def writeReport (path : Path) (r : Report) : SessionM Unit := do
  let w := (← get).world
  let temporary := Replacement.temporaryFor path w.process w.temporaries
  modify fun x => { x with world := { w with temporaries := w.temporaries + 1 } }
  let content := Text.Utf8.encode (r.render ++ "\n").toList
  let (t, result) := Replacement.run path temporary content (← files)
  setFiles t
  expect result (.report path)
  display (line s!"report written to {path.render}")

/-- The place that stands for the terminal. -/
def terminal : Path := .ofString "-"

/-- On the terminal the report stands alone. -/
def fetch (m : Machine) (o : FetchOptions) : SessionM Nat := do
  let p ← openProject o.toProjectOptions
  let root := (m.options p.settings).cacheRoot
  if (o.report.map Path.components) = some terminal.components then
    let r ← runPrefetch m p
    display (r.render ++ "\n")
    return if r.success then 0 else 1
  display (line s!"prefetching {p.lockfile.records.length} lockfile entries into {root.render}")
  let r ← runPrefetch m p
  display (showReport r m.elapsed)
  if let some path := o.report then writeReport path r
  return if r.success then 0 else 1

def clean (root : Path) : SessionM Unit := do
  if (← files).exists? root then
    setFiles (← expect ((← files).removeTree root) (.remove root))
  let (t, made) := (← files).layDirectories root
  setFiles t
  expect made (.create root)
  display (line (Ink.green.paint "cache cleaned" ++ s!" at {root.render}"))

def cache (root : Path) : CacheTask → SessionM Unit
  | .path => display (line s!"cache: {root.render}")
  | .list true => do display ((listingJson ((← files).listFiles root)).render ++ "\n")
  | .list false => do display (showListing root ((← files).listFiles root))
  | .clean => clean root

/-! ## All commands -/

def helpText : String := String.join <| List.map (· ++ "\n") [
  "lockfetch reads a Yarn lockfile, decides which entries may be fetched, downloads and",
  "verifies them and lays them out as an offline cache.",
  "",
  "Usage: lockfetch [OPTIONS] [COMMAND]",
  "",
  "Commands:",
  "  fetch  Fetch every permitted lockfile entry into the offline cache",
  "  check  Parse and classify the lockfile without touching the network",
  "  cache  Inspect the cache directory",
  "  help   Print this message or the help of the given subcommand(s)",
  "",
  "Options:",
  "      --log-level <LEVEL>    trace, debug, info, warn or error",
  "      --log-format <FORMAT>  pretty, compact or json",
  "  -h, --help                 Print help",
  "  -V, --version              Print version"]

def versionText : String := "lockfetch 0.1.0\n"

/-- What is shown for a command line that asks for no command. -/
def Refusal.output : Refusal → String
  | .help => helpText
  | .version => versionText
  | _ => ""

def perform (m : Machine) (i : Invocation) : SessionM Nat :=
  match i.task with
  | .overview => do
    display (helpText ++ "\n")
    return 0
  | .fetch o => fetch m o
  | .check o => check o
  | .cache root t => do
    cache (root.getD m.cacheRoot) t
    return 0

/-- Carries an invocation out: the session at its end, and its exit code or failure. -/
def run (m : Machine) (i : Invocation) (w : World) : Session × Except Failure Nat :=
  let (r, s) := (perform m i).run ⟨w, ""⟩
  (s, r)

end OfflineCache.CommandLine
