import OfflineCache.Report

/-! The work on one entry, step by step: a look at the stop signal, the fetching, the storing, and
the outcome. -/

namespace OfflineCache

/-- What all workers of a run are given. -/
structure Workplace where
  fetcher : Fetcher
  store : Store
  transport : Transport

inductive Worker where
  | waiting
  | fetching (s : Fetching)
  | storing (a : Artifact) (s : Storing)
  | finished (o : Outcome)

namespace Worker

def outcome? : Worker → Option Outcome
  | .finished o => some o
  | _ => none

def isFinished (w : Worker) : Bool := w.outcome?.isSome

/-- What becomes of a failed fetch; a stopped one counts as skipped and is not told of. -/
def afterFailure (l : Locator) (e : Fetch.Error) (w : World) : World × Worker :=
  if e = .cancelled then (w, .finished .cancelled)
  else (w.tell (.fetchFailed l.render e), .finished (.ofFetchError e))

def step (p : Workplace) (l : Locator) (m : Option Mishap) (w : World) : Worker → World × Worker
  | .waiting =>
    if w.cancelled then (w, .finished .cancelled) else (w, .fetching .starting)
  | .fetching (.done (.ok a)) => (w, .storing a .starting)
  | .fetching (.done (.error e)) => afterFailure l e w
  | .fetching s =>
    let (w, s) := s.step p.fetcher p.transport l w
    (w, .fetching s)
  | .storing _ (.done (.ok e)) => (w, .finished (.ofEntry e))
  | .storing _ (.done (.error e)) => (w, .finished (.ofStoreError e))
  | .storing a s =>
    let (w, s) := s.step p.store l a m w
    (w, .storing a s)
  | .finished o => (w, .finished o)

/-- How many steps are enough from the start, while no other worker holds the path. -/
def maxSteps (p : Workplace) : Nat :=
  Fetching.starting.stepsLeft p.fetcher + Storing.maxSteps + 3

def steps (p : Workplace) (l : Locator) : Nat → World → Worker → World × Worker
  | 0, w, k => (w, k)
  | _ + 1, w, .finished o => (w, .finished o)
  | n + 1, w, k =>
    let (w, k) := step p l none w k
    steps p l n w k

end Worker

end OfflineCache
