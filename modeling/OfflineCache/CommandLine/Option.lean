import OfflineCache.Locator.Protocol
import OfflineCache.Log.Format
import OfflineCache.Path.Basic
import OfflineCache.Text.Cut
import OfflineCache.Text.Natural

/-! The options of the command line: their words, and how the value of each one is read. -/

namespace OfflineCache.CommandLine

/-- Which option a word names. -/
inductive Key where
  | logLevel
  | logFormat
  | lockfile
  | project
  | config
  | dialect
  | allow
  | hardened
  | lenient
  | output
  | registry
  | layout
  | jobs
  | timeout
  | report
  | json
  | help
  | version
  deriving DecidableEq, Repr

/-- An option with its value. -/
inductive Setting where
  | logLevel (l : Log.Level)
  | logFormat (f : Log.Format)
  | lockfile (p : Path)
  | project (p : Path)
  | config (p : Path)
  | dialect (n : Nat)
  | allow (ps : List Protocol)
  | hardened
  | lenient
  | output (p : Path)
  | registry (s : String)
  | layout (name : String)
  | jobs (n : Nat)
  | timeout (seconds : Nat)
  | report (p : Path)
  | json

/-- Why a command line asks for no command. The last three are requests, not mistakes. -/
inductive Refusal where
  | unknownArgument
  | unknownCommand
  | badValue
  | invalidValue
  | uselessValue
  | repeated
  | missingCommand
  | helpInstead
  | help
  | version
  deriving DecidableEq, Repr

namespace Refusal

/-- Requests end well; everything else that is refused ends with two. -/
def exitCode : Refusal → Nat
  | .help | .version => 0
  | _ => 2

end Refusal

/-! ## Values -/

/-- One of a few words. -/
def choose (name : α → String) (all : List α) (s : String) : Except Refusal α :=
  match all.find? (name · = s) with
  | some a => .ok a
  | none => .error .invalidValue

/-- A path is not empty. -/
def readPath (s : String) : Except Refusal Path :=
  if s = "" then .error .invalidValue else .ok (.ofString s)

def readWord64 (s : String) : Except Refusal Nat :=
  match Text.naturalBelow? Text.word64 s.toList with
  | some n => .ok n
  | none => .error .badValue

/-- A number of 32 bits; zero may have a minus sign. -/
def readWord32 (s : String) : Except Refusal Nat :=
  match s.toList with
  | '-' :: ds =>
    match Text.digitsBelow? 1 ds with
    | some n => .ok n
    | none => .error .badValue
  | cs =>
    match Text.naturalBelow? Text.word32 cs with
    | some n => .ok n
    | none => .error .badValue

/-- Names of protocols between commas. -/
def readProtocols (s : String) : Except Refusal (List Protocol) :=
  (Text.splitAll ',' s.toList).mapM fun n =>
    match Protocol.ofName (String.ofList n) with
    | .ok p => .ok p
    | .error _ => .error .badValue

namespace Key

def word : Key → String
  | .logLevel => "log-level"
  | .logFormat => "log-format"
  | .lockfile => "lockfile"
  | .project => "project"
  | .config => "config"
  | .dialect => "dialect"
  | .allow => "allow"
  | .hardened => "hardened"
  | .lenient => "lenient"
  | .output => "output"
  | .registry => "registry"
  | .layout => "layout"
  | .jobs => "jobs"
  | .timeout => "timeout"
  | .report => "report"
  | .json => "json"
  | .help => "help"
  | .version => "version"

def letter? : Key → Option Char
  | .jobs => some 'j'
  | .help => some 'h'
  | .version => some 'V'
  | _ => none

/-- What the option does by itself, if it takes no value. -/
def switch? : Key → Option (Except Refusal Setting)
  | .hardened => some (.ok .hardened)
  | .lenient => some (.ok .lenient)
  | .json => some (.ok .json)
  | .help => some (.error .help)
  | .version => some (.error .version)
  | _ => none

/-- The setting that a value makes. A switch takes none. -/
def read (k : Key) (v : String) : Except Refusal Setting :=
  match k with
  | .logLevel => (choose Log.Level.name Log.Level.all v).map .logLevel
  | .logFormat => (choose Log.Format.name Log.Format.all v).map .logFormat
  | .lockfile => (readPath v).map .lockfile
  | .project => (readPath v).map .project
  | .config => (readPath v).map .config
  | .dialect => (readWord32 v).map .dialect
  | .allow => (readProtocols v).map .allow
  | .output => (readPath v).map .output
  | .registry => .ok (.registry v)
  | .layout => .ok (.layout v)
  | .jobs => (readWord64 v).map .jobs
  | .timeout => (readWord64 v).map .timeout
  | .report => (readPath v).map .report
  | _ => .error .uselessValue

/-- Whether the option may be given more than once. -/
def repeats : Key → Bool
  | .allow => true
  | _ => false

end Key

/-- The option that a setting belongs to. -/
def Setting.key : Setting → Key
  | .logLevel _ => .logLevel
  | .logFormat _ => .logFormat
  | .lockfile _ => .lockfile
  | .project _ => .project
  | .config _ => .config
  | .dialect _ => .dialect
  | .allow _ => .allow
  | .hardened => .hardened
  | .lenient => .lenient
  | .output _ => .output
  | .registry _ => .registry
  | .layout _ => .layout
  | .jobs _ => .jobs
  | .timeout _ => .timeout
  | .report _ => .report
  | .json => .json

end OfflineCache.CommandLine
