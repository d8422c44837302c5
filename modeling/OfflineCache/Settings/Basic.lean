import OfflineCache.Run.Basic
import OfflineCache.Settings.File

/-! The settings of a run: what the command line says, or else the settings file, or else the
defaults. The number of workers and the place of the cache have no default here; the machine
decides them. -/

namespace OfflineCache

/-- What the command line says; what it leaves out is left to the file. -/
structure Overrides where
  allow : Option (List Protocol) := none
  hardened : Bool := false
  lenient : Bool := false
  registry : Option String := none
  jobs : Option Nat := none
  timeoutSeconds : Option Nat := none
  layout : Option String := none
  output : Option Path := none
  dialect : Option Nat := none

structure Settings where
  policy : Policy
  registry : Option String
  cacheRoot : Option Path
  layout : Layout
  jobs : Option Nat
  retry : RetryPolicy
  dialect : Option Nat
  timeout : Option Duration

namespace Settings

inductive Error where
  | unreadable
  | noJobs
  | noAttempts
  | layout (e : Layout.Error)
  | io (path : Path) (fault : FileTree.Fault)

/-- What is wrong with settings, where their own rules word it. -/
def Error.message? : Error → Option String
  | .unreadable => none
  | .noJobs => some "invalid configuration: jobs must be at least 1"
  | .noAttempts => some "invalid configuration: retry.max_attempts must be at least 1"
  | .layout e => some ("invalid configuration: " ++ e.message)
  | .io p f => some s!"I/O error at {p.render}: {f.message}"

def fileName : String := "lockfetch.yml"

def defaultLayout : String := "yarn"

/-! ## The file -/

def load (t : FileTree) (p : Path) : Except Error FileSettings :=
  match t.readText p with
  | .error f => .error (.io p f)
  | .ok s =>
    match FileSettings.parse? s with
    | some c => .ok c
    | none => .error .unreadable

/-- The file that is read: the one that is named, or the one in the project if there is one. -/
def file? (t : FileTree) (root : Path) (explicit : Option Path) : Option Path :=
  match explicit with
  | some p => some p
  | none =>
    let p := root / .ofString fileName
    if t.isFile p then some p else none

def discover (t : FileTree) (root : Path) (explicit : Option Path) :
    Except Error FileSettings :=
  match file? t root explicit with
  | some p => load t p
  | none => .ok {}

/-- A file that was not named is told of. -/
def discoverEvents (t : FileTree) (root : Path) (explicit : Option Path) : List Log.Event :=
  match explicit, file? t root explicit with
  | none, some p => [.configFile p.render]
  | _, _ => []

/-! ## Merging -/

def resolve (root : Path) (file : FileSettings) (cli : Overrides) : Except Error Settings := do
  let policy : Policy := {
    allow := (cli.allow.or file.allow).getD Policy.defaultAllow
    root
    hardened := cli.hardened || file.hardened.getD false
    strict := !cli.lenient && file.strict.getD true }
  let table := file.layouts.foldl LayoutTable.insert .builtin
  let layout ← (table.get ((cli.layout.or file.layout).getD defaultLayout)).mapError .layout
  let jobs := cli.jobs.or file.jobs
  if jobs = some 0 then throw .noJobs
  let retry := file.retry.getD .standard
  if retry.maxAttempts = 0 then throw .noAttempts
  return {
    policy
    registry := cli.registry.or file.registry
    cacheRoot := cli.output
    layout
    jobs
    retry
    dialect := cli.dialect
    timeout := (cli.timeoutSeconds.or file.timeoutSeconds).map .ofSeconds }

end Settings

end OfflineCache
