import OfflineCache.Locator.Source
import OfflineCache.Path.Basic

/-! What may be fetched. References inside the project are skipped, scripts are never run, the
rest needs its protocol on the allow-list; in hardened mode it must be pinned by a checksum or,
from git, by a full commit hash. -/

namespace OfflineCache

structure Policy where
  /-- Used as a set. -/
  allow : List Protocol
  root : Path
  hardened : Bool
  /-- Whether a malformed locator stops the run. -/
  strict : Bool
  deriving Repr

namespace Policy

def defaultAllow : List Protocol := [.registry, .git, .http, .file]

def ofRoot (root : Path) : Policy := ⟨defaultAllow, root, false, true⟩

def allows (p : Policy) (q : Protocol) : Bool := p.allow.contains q

/-- The allowed protocols, each once, in the order of the known ones. -/
def allowed (p : Policy) : List Protocol := Protocol.known.filter p.allows

end Policy

inductive SkipReason where
  | insideProject
  | patchApplied
  | cancelled
  deriving DecidableEq, Repr

def SkipReason.message : SkipReason → String
  | .insideProject => "resolved inside project, not fetched"
  | .patchApplied => "patch application handled by external build step"
  | .cancelled => "run cancelled"

inductive DenyReason where
  | execution
  | protocol
  | pathEscape
  | noChecksum
  | unpinnedGit
  deriving DecidableEq, Repr

def DenyReason.message : DenyReason → String
  | .execution => "arbitrary code execution"
  | .protocol => "protocol not permitted"
  | .pathEscape => "path escapes project root"
  | .noChecksum => "integrity required in hardened mode"
  | .unpinnedGit => "git revision must be a full commit hash in hardened mode"

inductive Classification where
  | fetchable
  | skip (r : SkipReason)
  | deny (r : DenyReason)
  deriving DecidableEq, Repr

namespace Policy

/-- Forty hexadecimal digits. -/
def isCommitHash (rev : String) : Bool :=
  rev.toList.length == 40 && rev.toList.all fun c => (Text.Hex.value? c).isSome

/-- What hardened mode finds missing. -/
def unpinned? (l : Locator) : Option DenyReason :=
  match l.protocol with
  | .registry | .http | .file => if l.checksum.isNone then some .noChecksum else none
  | .git =>
    if (l.gitSource?.bind (·.2)).any isCommitHash then none else some .unpinnedGit
  | _ => none

def classify (p : Policy) (l : Locator) : Classification :=
  match l.protocol with
  | .exec => .deny .execution
  | .workspace | .link => .skip .insideProject
  | .patch => .skip .patchApplied
  | q =>
    if !p.allows q then .deny .protocol
    else if p.hardened then
      match unpinned? l with
      | some r => .deny r
      | none => .fetchable
    else .fetchable

end Policy

end OfflineCache
