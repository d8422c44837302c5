import OfflineCache.Run.World

/-! Bounded retry with delays that double. The states are those of one series of attempts; the
stages add the look at the stop signal before each attempt, so that a series can be taken step
by step or run to its end. -/

namespace OfflineCache

structure RetryPolicy where
  /-- The first attempt counts too; zero is taken for one. -/
  maxAttempts : UInt32
  baseDelay : Duration
  maxDelay : Duration
  deriving DecidableEq, Repr

namespace RetryPolicy

def standard : RetryPolicy := ⟨5, .ofMillis 500, .ofSeconds 8⟩

/-- How many attempts are made at most. -/
def limit (p : RetryPolicy) : Nat := max p.maxAttempts.toNat 1

/-- The largest factor is that of 32 bits. -/
def factor (attempt : Nat) : Nat :=
  let shift := attempt - 1
  if shift < 32 then Nat.pow 2 shift else Nat.pow 2 32 - 1

/-- The delay after a failed attempt; attempts count from one. -/
def delayAfter (p : RetryPolicy) (attempt : Nat) : Duration :=
  min (p.baseDelay.scale (factor attempt)) p.maxDelay

end RetryPolicy

inductive AttemptResult where
  | success
  | transient
  | fatal
  deriving DecidableEq, Repr

inductive RetryState where
  | attempting (n : Nat)
  | succeeded (attempts : Nat)
  | exhausted (attempts : Nat)
  | aborted (attempts : Nat)
  deriving DecidableEq, Repr

namespace RetryState

def start : RetryState := .attempting 1

def advance (p : RetryPolicy) (s : RetryState) (r : AttemptResult) : RetryState :=
  match s, r with
  | .attempting n, .success => .succeeded n
  | .attempting n, .fatal => .aborted n
  | .attempting n, .transient => if p.limit ≤ n then .exhausted n else .attempting (n + 1)
  | s, _ => s

/-- The state at the start and after each result. -/
def trace (p : RetryPolicy) (s : RetryState) : List AttemptResult → List RetryState
  | [] => [s]
  | r :: rs => s :: trace p (s.advance p r) rs

end RetryState

def Fetch.attemptResult (r : Except Fetch.Error α) : AttemptResult :=
  match r with
  | .ok _ => .success
  | .error e => if e.isTransient then .transient else .fatal

/-- Where a series of attempts stands: before the look at the stop signal, before the attempt,
or at its end. -/
inductive Retry where
  | checking (n : Nat)
  | calling (n : Nat)
  | done (r : Except Fetch.Error (Bytes × Nat))

namespace Retry

def start : Retry := .checking 1

/-- What follows from the result of attempt `n`. -/
def judge (p : RetryPolicy) (target : String) (n : Nat) (r : Except Fetch.Error Bytes) : Retry :=
  match r with
  | .ok b => .done (.ok (b, n))
  | .error e =>
    match (RetryState.attempting n).advance p (Fetch.attemptResult (.error e : Except _ Bytes)) with
    | .attempting m => .checking m
    | .exhausted k => .done (.error (.exhausted target k e))
    | _ => .done (.error e)

/-- The sleep between two attempts, which is told of. -/
def pause (p : RetryPolicy) (target : String) (n : Nat) (r : Except Fetch.Error Bytes)
    (w : World) : World :=
  match r, judge p target n r with
  | .error e, .checking _ =>
    let d := p.delayAfter n
    (w.tell (.retrying target n d e)).sleep d
  | _, _ => w

def step (p : RetryPolicy) (t : Transport) (target : String) (q : Request) (w : World) :
    Retry → World × Retry
  | .checking n => if w.cancelled then (w, .done (.error .cancelled)) else (w, .calling n)
  | .calling n =>
    let (w, r) := w.call t q
    (pause p target n r w, judge p target n r)
  | .done r => (w, .done r)

/-- How many steps a series still takes at most. -/
def stepsLeft (p : RetryPolicy) : Retry → Nat
  | .checking n => 2 * (p.limit - n) + 2
  | .calling n => 2 * (p.limit - n) + 1
  | .done _ => 0

/-- The steps from a stage on, as many as given. -/
def steps (p : RetryPolicy) (t : Transport) (target : String) (q : Request) :
    Nat → World → Retry → World × Retry
  | 0, w, s => (w, s)
  | _ + 1, w, .done r => (w, .done r)
  | n + 1, w, s =>
    let (w, s) := step p t target q w s
    steps p t target q n w s

/-- The whole series, from the first look at the signal on. -/
def run (p : RetryPolicy) (t : Transport) (target : String) (q : Request) (w : World) :
    World × Except Fetch.Error (Bytes × Nat) :=
  match steps p t target q (start.stepsLeft p) w start with
  | (w, .done r) => (w, r)
  | (w, _) => (w, .error .cancelled)

end Retry

end OfflineCache
