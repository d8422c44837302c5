import OfflineCache.Run.Worker

/-! A run: every pending entry of a plan has a worker, and a schedule says which worker takes the
next step and when the run is stopped. Any schedule is allowed; the one that is carried out
lets the workers finish one after the other. -/

namespace OfflineCache

/-- A planned entry with its worker. Entries that the plan has decided have none. -/
structure Slot where
  entry : PlannedEntry
  task : Option (Locator × Worker)

namespace Slot

def ofEntry (e : PlannedEntry) : Slot := ⟨e, e.pending?.map (·, .waiting)⟩

/-- The outcome; an entry whose worker never finished counts as stopped. -/
def outcome (s : Slot) : Outcome :=
  match s.task with
  | some (_, k) => k.outcome?.getD .cancelled
  | none => s.entry.outcome?.getD .cancelled

def reportEntry (s : Slot) : ReportEntry :=
  .make s.entry.raw s.entry.locator? s.outcome

end Slot

/-- One move of a schedule. -/
inductive Move where
  | stop
  | work (slot : Nat) (m : Option Mishap)
  deriving DecidableEq, Repr

/-- A run under way. -/
structure Run where
  world : World
  slots : List Slot

namespace Run

def start (w : World) (p : Plan) : Run := ⟨w, p.entries.map .ofEntry⟩

def move (p : Workplace) (r : Run) : Move → Run
  | .stop => { r with world := { r.world with cancelled := true } }
  | .work i m =>
    match r.slots[i]? with
    | some ⟨e, some (l, k)⟩ =>
      let (world, k) := k.step p l m r.world
      ⟨world, r.slots.set i ⟨e, some (l, k)⟩⟩
    | _ => r

/-- A run by a given schedule. -/
def follow (p : Workplace) (r : Run) (schedule : List Move) : Run := schedule.foldl (move p) r

/-- Every worker in turn, each until it is finished. -/
def finishAll (p : Workplace) : World → List Slot → World × List Slot
  | w, [] => (w, [])
  | w, s :: rest =>
    match s.task with
    | none =>
      let (w, rest) := finishAll p w rest
      (w, s :: rest)
    | some (l, k) =>
      let (w, k) := k.steps p l (Worker.maxSteps p) w
      let (w, rest) := finishAll p w rest
      (w, ⟨s.entry, some (l, k)⟩ :: rest)

def report (dialect : Nat) (cacheRoot : Path) (slots : List Slot) : Report :=
  ⟨dialect, slots.map (·.reportEntry), cacheRoot⟩

end Run

/-! ## What planning tells -/

namespace Plan

private def recordRemarks (d : Dialect) (r : LockRecord) : List Log.Event :=
  let raw := r.locatorText
  (d.locatorRemarks raw ++
    match d.parseLocator raw, r.checksum with
    | .ok _, some c => d.checksumRemarks c
    | _, _ => []).map .remark

private def classificationEvents (t : FileTree) (p : Policy) (l : Locator) : List Log.Event :=
  let c := p.classify l
  (if Containment.pointsOutside t c l p.root then [.pointsOutside l.render] else []) ++
    match classify t p l with
    | .deny r => [.denied l.render r.message]
    | _ => []

/-- What is told of a judged record. -/
def verdictEvents (t : FileTree) (p : Policy) (d : Dialect) :
    LockRecord × Verdict → List Log.Event
  | (r, v) => recordRemarks d r ++
    match v with
    | .malformed e => if p.strict then [] else [.malformed e]
    | .duplicate l => [.duplicate l.render]
    | .conflict _ => []
    | .fresh l => classificationEvents t p l

/-- What is told of the records up to the one that stops the planning. -/
def traceEvents (t : FileTree) (p : Policy) (d : Dialect) :
    List (LockRecord × Verdict) → List Log.Event
  | [] => []
  | v :: rest =>
    verdictEvents t p d v ++
      match entryOf? t p v with
      | .ok _ => traceEvents t p d rest
      | .error _ => []

def events (t : FileTree) (p : Policy) (f : Lockfile) (declared : Option Nat) :
    List Log.Event :=
  match dialectOf f declared with
  | .error _ => []
  | .ok d =>
    (match declared with
      | some n =>
        if d.writes f.version.toNat then [] else [.dialectMismatch n f.version.toNat]
      | none => []) ++
    traceEvents t p d (trace d [] f.records)

end Plan

/-! ## Prefetching -/

structure Options where
  registry : Option String
  cacheRoot : Path
  layout : Layout
  /-- How many workers there are; they share nothing but the world. -/
  jobs : Nat
  retry : RetryPolicy
  dialect : Option Nat

namespace Options

def workplace (o : Options) (p : Policy) (t : Transport) : Workplace :=
  ⟨.make o.registry p.root o.retry, ⟨o.cacheRoot, o.layout⟩, t⟩

end Options

/-- Plans a lockfile, works all pending entries off and reports on them. -/
def prefetch (p : Policy) (o : Options) (t : Transport) (f : Lockfile) (w : World) :
    World × Except Plan.Error Report :=
  let w := w.tellAll (Plan.events w.files p f o.dialect)
  match Plan.make w.files p f o.dialect with
  | .error e => (w, .error e)
  | .ok plan =>
    let slots := plan.entries.map Slot.ofEntry
    let w := w.tell (.started plan.dialect.major plan.entries.length
      (plan.entries.countP (·.needsFetch)) o.jobs)
    let (w, slots) := Run.finishAll (o.workplace p t) w slots
    let report := Run.report plan.dialect.major o.cacheRoot slots
    let s := report.summary
    (w.tell (.finished s.fetched s.skipped s.denied s.failed), .ok report)

end OfflineCache
