import OfflineCache.Containment
import OfflineCache.Fetch.Retry

/-! Fetching one artifact: from the registry, an address, a git repository or the project itself.
The bytes are checked against the checksum of the record before anything else sees them. -/

namespace OfflineCache

/-- Verified bytes. -/
structure Artifact where
  bytes : Bytes
  /-- The checksum that was asked for, or one that was computed where none was. -/
  digest : Checksum
  attempts : Nat
  deriving DecidableEq, Repr

structure Fetcher where
  registry : String
  root : Path
  retry : RetryPolicy

namespace Fetcher

def defaultRegistry : String := "https://registry.yarnpkg.com"

def trimRegistry (s : String) : String :=
  String.ofList ((s.toList.reverse.dropWhile (· = '/')).reverse)

def make (registry : Option String) (root : Path) (retry : RetryPolicy) : Fetcher :=
  ⟨trimRegistry (registry.getD defaultRegistry), root, retry⟩

open Fetch (Error Unsupported)

private def unsupported (l : Locator) (u : Unsupported) : Error := .unsupported l.render u

/-- The address of a package: the one that the locator is bound to, or that of the exact
version in the registry. -/
def tarballUrl (f : Fetcher) (l : Locator) : Except Error String :=
  match l.param? "__archiveUrl" with
  | some url => .ok (String.ofList (Text.Percent.decode url.toList))
  | none =>
    match l.registryTarget? with
    | none => .error (unsupported l .notRegistry)
    | some (ident, reference) =>
      match Locator.exactVersion? reference with
      | none => .error (unsupported l .notPinned)
      | some v =>
        .ok s!"{f.registry}/{ident.render}/-/{ident.name}-{String.ofList v.render}.tgz"

/-- Computes the digest with the algorithm that is asked for. -/
def verify (l : Locator) (b : Bytes) : Except Error Checksum :=
  match l.checksum with
  | none => .ok (Checksum.compute .sha512 b)
  | some expected =>
    let actual := Checksum.compute expected.algorithm b
    if actual.digest = expected.digest then .ok actual
    else .error (.integrity l.render expected.render actual.render)

/-- Where bytes come from. -/
inductive Source where
  | remote (url : String) (q : Request)
  | local (p : Path)
  deriving DecidableEq, Repr

def source (f : Fetcher) (t : FileTree) (l : Locator) : Except Error Source :=
  match l.protocol with
  | .registry => (f.tarballUrl l).map fun url => .remote url (.get url)
  | .http => .ok (.remote l.reference (.get l.reference))
  | .git =>
    match l.gitSource? with
    | some (url, rev) => .ok (.remote url (.gitExport url rev))
    | none => .error (unsupported l .unreadableGit)
  | .file =>
    match Containment.contained? t l f.root with
    | some p => .ok (.local p)
    | none => .error (unsupported l .pathEscape)
  | p => .error (unsupported l (.neverFetched p))

end Fetcher

/-- Where the fetching of an artifact stands. -/
inductive Fetching where
  | starting
  | retrying (target : String) (q : Request) (r : Retry)
  | verifying (b : Bytes) (attempts : Nat)
  | done (r : Except Fetch.Error Artifact)

namespace Fetching

def begin (f : Fetcher) (l : Locator) (t : FileTree) : Fetching :=
  match f.source t l with
  | .error e => .done (.error e)
  | .ok (.remote url q) => .retrying url q .start
  | .ok (.local p) =>
    match t.readBytes p with
    | .ok b => .verifying b 1
    | .error fault => .done (.error (.io p fault))

def step (f : Fetcher) (t : Transport) (l : Locator) (w : World) : Fetching → World × Fetching
  | .starting => (w, begin f l w.files)
  | .retrying _ _ (.done (.ok (b, n))) => (w, .verifying b n)
  | .retrying _ _ (.done (.error e)) => (w, .done (.error e))
  | .retrying target q r =>
    let (w, r) := r.step f.retry t target q w
    (w, .retrying target q r)
  | .verifying b n =>
    match Fetcher.verify l b with
    | .error e => (w, .done (.error e))
    | .ok d => (w.tell (.fetched l.render n b.length), .done (.ok ⟨b, d, n⟩))
  | .done r => (w, .done r)

/-- How many steps are left at most. -/
def stepsLeft (f : Fetcher) : Fetching → Nat
  | .starting => Retry.start.stepsLeft f.retry + 3
  | .retrying _ _ r => r.stepsLeft f.retry + 2
  | .verifying .. => 1
  | .done _ => 0

def steps (f : Fetcher) (t : Transport) (l : Locator) : Nat → World → Fetching → World × Fetching
  | 0, w, s => (w, s)
  | _ + 1, w, .done r => (w, .done r)
  | n + 1, w, s =>
    let (w, s) := step f t l w s
    steps f t l n w s

/-- Fetches one artifact from start to end. -/
def run (f : Fetcher) (t : Transport) (l : Locator) (w : World) :
    World × Except Fetch.Error Artifact :=
  match steps f t l (starting.stepsLeft f) w .starting with
  | (w, .done r) => (w, r)
  | (w, _) => (w, .error .cancelled)

end Fetching

end OfflineCache
