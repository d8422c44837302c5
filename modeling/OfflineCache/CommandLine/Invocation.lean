import OfflineCache.CommandLine.Arguments
import OfflineCache.Settings.Basic

/-! What a command line asks for: a task, and how much is told about it and in which form. An
option that several levels have counts where it stands deepest. -/

namespace OfflineCache.CommandLine

structure ProjectOptions where
  lockfile : Option Path
  project : Path
  config : Option Path
  overrides : Overrides

structure FetchOptions extends ProjectOptions where
  report : Option Path

inductive CacheTask where
  | path
  | list (json : Bool)
  | clean
  deriving DecidableEq, Repr

inductive Task where
  | overview
  | fetch (o : FetchOptions)
  | check (o : ProjectOptions)
  | cache (root : Option Path) (t : CacheTask)

structure Invocation where
  level : Log.Level
  format : Log.Format
  task : Task

namespace Invocation

/-- The deepest setting of a kind. -/
def pick? (ls : List Level) (f : Setting → Option α) : Option α :=
  ls.reverse.findSome? fun l => l.settings.findSome? f

def isSet (ls : List Level) (k : Key) : Bool := ls.any (·.has k)

def allowed? (ls : List Level) : Option (List Protocol) :=
  if isSet ls .allow then
    some ((ls.flatMap (·.settings)).flatMap fun s => match s with | .allow ps => ps | _ => [])
  else none

def output? (ls : List Level) : Option Path :=
  pick? ls fun s => match s with | .output p => some p | _ => none

def overrides (ls : List Level) : Overrides where
  allow := allowed? ls
  hardened := isSet ls .hardened
  lenient := isSet ls .lenient
  registry := pick? ls fun s => match s with | .registry r => some r | _ => none
  jobs := pick? ls fun s => match s with | .jobs n => some n | _ => none
  timeoutSeconds := pick? ls fun s => match s with | .timeout n => some n | _ => none
  layout := pick? ls fun s => match s with | .layout n => some n | _ => none
  output := output? ls
  dialect := pick? ls fun s => match s with | .dialect n => some n | _ => none

def projectOptions (ls : List Level) : ProjectOptions where
  lockfile := pick? ls fun s => match s with | .lockfile p => some p | _ => none
  project := (pick? ls fun s => match s with | .project p => some p | _ => none).getD (.ofString ".")
  config := pick? ls fun s => match s with | .config p => some p | _ => none
  overrides := overrides ls

def innermost (ls : List Level) : Command := (ls.getLast?.map Level.command).getD .top

def taskOf (ls : List Level) : Task :=
  match innermost ls with
  | .fetch =>
    .fetch { projectOptions ls with
      report := pick? ls fun s => match s with | .report p => some p | _ => none }
  | .check => .check (projectOptions ls)
  | .cachePath => .cache (output? ls) .path
  | .cacheList => .cache (output? ls) (.list (isSet ls .json))
  | .cacheClean => .cache (output? ls) .clean
  | _ => .overview

def ofLevels (ls : List Level) : Invocation where
  level := (pick? ls fun s => match s with | .logLevel l => some l | _ => none).getD .warn
  format := (pick? ls fun s => match s with | .logFormat f => some f | _ => none).getD .compact
  task := taskOf ls

def read (words : List String) : Except Refusal Invocation := (levelsOf words).map ofLevels

end Invocation

end OfflineCache.CommandLine
