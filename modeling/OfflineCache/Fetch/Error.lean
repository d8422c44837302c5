import OfflineCache.FileTree.Basic
import OfflineCache.Locator.Source

/-! Why an artifact could not be fetched, and which failures are worth another attempt. -/

namespace OfflineCache.Fetch

inductive Unsupported where
  | notRegistry
  | notPinned
  | unreadableGit
  | pathEscape
  | neverFetched (p : Protocol)
  deriving DecidableEq, Repr

def Unsupported.message : Unsupported → String
  | .notRegistry => "not a registry locator"
  | .notPinned => "registry reference is not pinned to an exact version"
  | .unreadableGit => "unreadable git reference"
  | .pathEscape => "path escapes project root"
  | .neverFetched p => s!"{p.name} locators are never fetched"

inductive Error where
  | integrity (locator expected actual : String)
  | status (url : String) (code : Nat)
  | transport (url message : String) (transient : Bool)
  | exhausted (url : String) (attempts : Nat) (last : Error)
  | unsupported (locator : String) (cause : Unsupported)
  | io (path : Path) (fault : FileTree.Fault)
  | cancelled
  deriving DecidableEq, Repr

namespace Error

def message : Error → String
  | .integrity l e a => s!"integrity mismatch for {l}: expected {e}, got {a}"
  | .status u c => s!"{u} returned status {c}"
  | .transport u m _ => s!"transport error for {u}: {m}"
  | .exhausted u n e => s!"giving up on {u} after {n} attempts: {e.message}"
  | .unsupported l c => s!"cannot fetch {l}: {c.message}"
  | .io p f => s!"read {p.render}: {f.message}"
  | .cancelled => "run cancelled"

/-- Interrupted connections and answers from 500 on may go better the next time. -/
def isTransient : Error → Bool
  | .status _ c => c ≥ 500
  | .transport _ _ t => t
  | _ => false

end Error

end OfflineCache.Fetch
