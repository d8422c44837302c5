import OfflineCache.Proofs.Fetch.Requests
import OfflineCache.Proofs.Plan.Entries
import OfflineCache.Proofs.Run.Schedule

/-! The calls of a run. A move makes the request that the moved worker's state holds ready, and no
other; the calls of a run are those of its moves, and each belongs to the entry whose worker made
it. A worker holds ready only what is asked of its entry's locator, so whatever the schedule and
the answers, only entries to be fetched from the registry, an address or a git repository cause
calls. -/

namespace OfflineCache

/-! ## Workers -/

/-- Storing makes no call, stops no run, and goes on in the same program. -/
structure Storing.Frame (w w' : World) : Prop where
  calls : w'.calls = w.calls
  process : w'.process = w.process
  cancelled : w'.cancelled = w.cancelled

theorem Storing.frame_step (s : Store) (l : Locator) (a : Artifact) (m : Option Mishap) (w : World)
    (st : Storing) : Storing.Frame w (st.step s l a m w).1 := by
  cases st with
  | starting =>
    simp only [step]
    split <;> exact ⟨rfl, rfl, rfl⟩
  | locking e =>
    simp only [step]
    split <;> exact ⟨rfl, rfl, rfl⟩
  | comparing e =>
    simp only [step, compare]
    split
    · split <;> exact ⟨rfl, rfl, rfl⟩
    · exact ⟨rfl, rfl, rfl⟩
  | replacing e tmp r =>
    cases r with
    | done r => cases r <;> exact ⟨rfl, rfl, rfl⟩
    | _ => exact ⟨rfl, rfl, rfl⟩
  | unlocking e r => exact ⟨rfl, rfl, rfl⟩
  | done r => exact ⟨rfl, rfl, rfl⟩

namespace Worker

/-- The request that the next step makes. -/
def request? : Worker → Option Request
  | .fetching s => s.request?
  | _ => none

def Asking (f : Fetcher) (l : Locator) : Worker → Prop
  | .fetching s => s.Asking f l
  | _ => True

theorem asks_of_request? {f : Fetcher} {l : Locator} {k : Worker} {q : Request}
    (hk : k.Asking f l) (h : k.request? = some q) : f.Asks l q := by
  cases k with
  | fetching s => exact Fetching.asks_of_request? hk h
  | _ => cases h

theorem afterFailure_calls (l : Locator) (e : Fetch.Error) (w : World) :
    (afterFailure l e w).1.calls = w.calls := by
  unfold afterFailure
  split <;> rfl

theorem asking_afterFailure (f : Fetcher) (l l' : Locator) (e : Fetch.Error) (w : World) :
    (afterFailure l e w).2.Asking f l' := by
  unfold afterFailure
  split <;> trivial

/-- The stages of a worker, with those apart where the fetching or the storing is through. -/
@[elab_as_elim]
theorem stages {P : Worker → Prop} (waiting : P .waiting)
    (fetching : ∀ s, (∀ r, s ≠ .done r) → P (.fetching s))
    (fetched : ∀ a, P (.fetching (.done (.ok a))))
    (failed : ∀ e, P (.fetching (.done (.error e))))
    (storing : ∀ a s, (∀ r, s ≠ .done r) → P (.storing a s))
    (stored : ∀ a r, P (.storing a (.done r))) (finished : ∀ o, P (.finished o)) (k : Worker) :
    P k := by
  cases k with
  | waiting => exact waiting
  | fetching s =>
    cases s with
    | done r =>
      cases r with
      | ok a => exact fetched a
      | error e => exact failed e
    | _ => exact fetching _ nofun
  | storing a s =>
    cases s with
    | done r => exact stored a r
    | _ => exact storing a _ nofun
  | finished o => exact finished o

/-- The worker takes the steps of the fetching until it is done. -/
theorem step_fetching (p : Workplace) (l : Locator) (m : Option Mishap) (w : World) {s : Fetching}
    (h : ∀ r, s ≠ .done r) :
    step p l m w (.fetching s) =
      ((s.step p.fetcher p.transport l w).1, .fetching (s.step p.fetcher p.transport l w).2) := by
  cases s with
  | done r => exact absurd rfl (h r)
  | _ => rfl

theorem step_storing (p : Workplace) (l : Locator) (m : Option Mishap) (w : World) (a : Artifact)
    {s : Storing} (h : ∀ r, s ≠ .done r) :
    step p l m w (.storing a s) =
      ((s.step p.store l a m w).1, .storing a (s.step p.store l a m w).2) := by
  cases s with
  | done r => exact absurd rfl (h r)
  | _ => rfl

theorem step_calls (p : Workplace) (l : Locator) (m : Option Mishap) (w : World) (k : Worker) :
    (k.step p l m w).1.calls = w.calls ++ k.request?.toList := by
  cases k using stages with
  | waiting =>
    simp only [step, request?, Option.toList_none, List.append_nil]
    split <;> rfl
  | fetching s hs =>
    rw [step_fetching p l m w hs]
    exact Fetching.step_calls p.fetcher p.transport l w s
  | fetched a => simp [step, request?, Fetching.request?]
  | failed e => simp [step, request?, Fetching.request?, afterFailure_calls]
  | storing a s hs =>
    rw [step_storing p l m w a hs]
    simp [request?, (Storing.frame_step p.store l a m w s).calls]
  | stored a r => cases r <;> simp [step, request?]
  | finished o => simp [step, request?]

theorem step_asking (p : Workplace) {l : Locator} (m : Option Mishap) (w : World) {k : Worker}
    (h : k.Asking p.fetcher l) : (k.step p l m w).2.Asking p.fetcher l := by
  cases k using stages with
  | waiting =>
    simp only [step]
    split <;> trivial
  | fetching s hs =>
    rw [step_fetching p l m w hs]
    exact Fetching.step_asking p.fetcher p.transport l w h
  | fetched a => trivial
  | failed e => exact asking_afterFailure p.fetcher l l e w
  | storing a s hs =>
    rw [step_storing p l m w a hs]
    trivial
  | stored a r => cases r <;> trivial
  | finished o => trivial

end Worker

/-! ## Runs -/

namespace Run

/-- The request of the next move, with the place of the entry it belongs to. -/
def request? (r : Run) : Move → Option (Nat × Request)
  | .stop => none
  | .work i _ =>
    match r.slots[i]? with
    | some ⟨_, some (_, k)⟩ => k.request?.map (i, ·)
    | _ => none

/-- The requests of all moves in order. -/
def trail (p : Workplace) (r : Run) : List Move → List (Nat × Request)
  | [] => []
  | m :: ms => (r.request? m).toList ++ trail p (r.move p m) ms

/-- A slot has a worker only if its entry is to be fetched, and the worker holds ready only what is
asked of the entry's locator. -/
def Sound (f : Fetcher) (s : Slot) : Prop :=
  ∀ l k, s.task = some (l, k) → s.entry.pending? = some l ∧ k.Asking f l

variable (p : Workplace)

theorem move_calls (r : Run) (m : Move) :
    (r.move p m).world.calls = r.world.calls ++ (r.request? m).toList.map (·.2) := by
  cases m with
  | stop => simp [move, request?]
  | work i m =>
    cases hs : r.slots[i]? with
    | none => simp [move, request?, hs]
    | some s =>
      obtain ⟨e, task⟩ := s
      cases task with
      | none => simp [move, request?, hs]
      | some lk =>
        obtain ⟨l, k⟩ := lk
        simp only [move, request?, hs, Worker.step_calls]
        cases k.request? <;> rfl

theorem follow_calls (r : Run) (schedule : List Move) :
    (r.follow p schedule).world.calls = r.world.calls ++ (r.trail p schedule).map (·.2) := by
  induction schedule generalizing r with
  | nil => simp [follow, trail]
  | cons m ms ih =>
    rw [follow_cons, ih, move_calls, trail, List.map_append, List.append_assoc]

/-- A move leaves a slot as it is, or takes its worker a step further. -/
theorem move_slot (r : Run) (m : Move) (i : Nat) :
    (r.move p m).slots[i]? = r.slots[i]? ∨ ∃ e l k x, m = .work i x ∧
      r.slots[i]? = some ⟨e, some (l, k)⟩ ∧
      (r.move p m).slots[i]? = some ⟨e, some (l, (k.step p l x r.world).2)⟩ := by
  cases m with
  | stop => exact Or.inl rfl
  | work j x =>
    simp only [move]
    split
    · rename_i e l k hs
      by_cases hij : j = i
      · subst hij
        exact Or.inr ⟨e, l, k, x, rfl, hs,
          List.getElem?_set_self (List.getElem?_eq_some_iff.mp hs).1⟩
      · exact Or.inl (List.getElem?_set_ne hij)
    · exact Or.inl rfl

/-- A move leaves every entry where it is, and every slot sound. -/
theorem move_slots (r : Run) (m : Move) (h : ∀ s ∈ r.slots, Sound p.fetcher s) :
    (r.move p m).slots.map (·.entry) = r.slots.map (·.entry) ∧
      ∀ s ∈ (r.move p m).slots, Sound p.fetcher s := by
  constructor
  · refine List.ext_getElem? fun i => ?_
    simp only [List.getElem?_map]
    rcases move_slot p r m i with hsame | ⟨e, l, k, x, -, hs, hs'⟩
    · rw [hsame]
    · rw [hs, hs']
      rfl
  · intro s hm
    obtain ⟨i, hi⟩ := List.mem_iff_getElem?.mp hm
    rcases move_slot p r m i with hsame | ⟨e, l, k, x, -, hs, hs'⟩
    · exact h s (List.mem_of_getElem? (hsame.symm.trans hi))
    · obtain rfl := Option.some.inj (hs'.symm.trans hi)
      obtain ⟨hp, hk⟩ := h _ (List.mem_of_getElem? hs) l k rfl
      rintro _ _ ⟨⟩
      exact ⟨hp, Worker.step_asking p x r.world hk⟩

theorem asks_of_request? {r : Run} (h : ∀ s ∈ r.slots, Sound p.fetcher s) {m : Move} {i : Nat}
    {q : Request} (hq : r.request? m = some (i, q)) :
    ∃ e l, (r.slots.map (·.entry))[i]? = some e ∧ e.pending? = some l ∧ p.fetcher.Asks l q := by
  cases m with
  | stop => cases hq
  | work j m =>
    simp only [request?] at hq
    split at hq
    · rename_i e l k hs
      obtain ⟨q', hk, he⟩ := Option.map_eq_some_iff.mp hq
      obtain ⟨rfl, rfl⟩ : j = i ∧ q' = q := by simpa using he
      obtain ⟨hp, ha⟩ := h _ (List.mem_of_getElem? hs) l k rfl
      exact ⟨e, l, by simp [hs], hp, Worker.asks_of_request? ha hk⟩
    · cases hq

/-- Every request of a run is asked of an entry with a worker. -/
theorem asks_of_mem_trail {r : Run} (h : ∀ s ∈ r.slots, Sound p.fetcher s) {schedule : List Move}
    {i : Nat} {q : Request} (hq : (i, q) ∈ r.trail p schedule) :
    ∃ e l, (r.slots.map (·.entry))[i]? = some e ∧ e.pending? = some l ∧ p.fetcher.Asks l q := by
  induction schedule generalizing r with
  | nil => cases hq
  | cons m ms ih =>
    rcases List.mem_append.mp hq with hq | hq
    · exact asks_of_request? p h (by simpa using hq)
    · obtain ⟨hentries, hsound⟩ := move_slots p r m h
      obtain ⟨e, l, hi, hp, ha⟩ := ih hsound hq
      exact ⟨e, l, hentries ▸ hi, hp, ha⟩

theorem start_entries (w : World) (plan : Plan) :
    (start w plan).slots.map (·.entry) = plan.entries := by
  simp only [start, List.map_map]
  exact List.map_id plan.entries

theorem start_sound (f : Fetcher) (w : World) (plan : Plan) :
    ∀ s ∈ (start w plan).slots, Sound f s := by
  intro s hs
  obtain ⟨e, -, rfl⟩ := List.mem_map.mp hs
  intro l k hk
  obtain ⟨l', hp, he⟩ := Option.map_eq_some_iff.mp hk
  obtain ⟨rfl, rfl⟩ : l' = l ∧ Worker.waiting = k := by simpa using he
  exact ⟨hp, trivial⟩

end Run

/-- A run that is planned calls what some schedule calls. -/
theorem prefetch_calls_of_make {p : Policy} {o : Options} {t : Transport} {f : Lockfile} {w : World}
    {plan : Plan} (h : Plan.make w.files p f o.dialect = .ok plan) :
    ∃ w' schedule, w'.calls = w.calls ∧ (prefetch p o t f w).1.calls =
      w.calls ++ ((Run.start w' plan).trail (o.workplace p t) schedule).map (·.2) := by
  let told := (w.tellAll (Plan.events w.files p f o.dialect)).tell (.started plan.dialect.major
    plan.entries.length (plan.entries.countP (·.needsFetch)) o.jobs)
  obtain ⟨schedule, -, hs⟩ := Run.finishAll_eq_follow (o.workplace p t) told
    (plan.entries.map Slot.ofEntry)
  refine ⟨told, schedule, rfl, ?_⟩
  have hcalls := Run.follow_calls (o.workplace p t) (Run.start told plan) schedule
  rw [Run.start, hs] at hcalls
  have hfiles : (w.tellAll (Plan.events w.files p f o.dialect)).files = w.files := rfl
  simp only [prefetch, hfiles, h]
  exact hcalls

/-- **Confinement of the network.**  Without a plan nothing is called. With one, every call of a
run, whatever the schedule and the answers, belongs to an entry that is to be fetched and whose
protocol is allowed, and it is what the entry's locator asks of the registry, of an address or of a
git repository. The run that is carried out is one of these. -/
theorem prefetch_calls_confined (p : Policy) (o : Options) (t : Transport) (f : Lockfile)
    (w : World) :
    (∀ e, Plan.make w.files p f o.dialect = .error e → (prefetch p o t f w).1.calls = w.calls) ∧
    ∀ plan, Plan.make w.files p f o.dialect = .ok plan →
      (∃ w' schedule, w'.calls = w.calls ∧ (prefetch p o t f w).1.calls =
        w.calls ++ ((Run.start w' plan).trail (o.workplace p t) schedule).map (·.2)) ∧
      ∀ (w' : World) (schedule : List Move),
        ((Run.start w' plan).follow (o.workplace p t) schedule).world.calls =
          w'.calls ++ ((Run.start w' plan).trail (o.workplace p t) schedule).map (·.2) ∧
        ∀ i q, (i, q) ∈ (Run.start w' plan).trail (o.workplace p t) schedule →
          ∃ raw l, plan.entries[i]? = some ⟨raw, .located l .fetchable⟩ ∧
            p.allows l.protocol = true ∧
            (Fetcher.make o.registry p.root o.retry).Asks l q := by
  constructor
  · intro e he
    have hfiles : (w.tellAll (Plan.events w.files p f o.dialect)).files = w.files := rfl
    simp only [prefetch, hfiles, he]
    rfl
  · intro plan hplan
    refine ⟨prefetch_calls_of_make hplan, fun w' schedule => ⟨Run.follow_calls _ _ _, ?_⟩⟩
    intro i q hq
    obtain ⟨e, l, hi, hp, ha⟩ := Run.asks_of_mem_trail (o.workplace p t)
      (Run.start_sound _ w' plan) hq
    rw [Run.start_entries] at hi
    have he : e = ⟨e.raw, .located l .fetchable⟩ := PlannedEntry.pending?_eq_some_iff.mp hp
    rw [he] at hi
    have hc := Plan.classify_of_make hplan (List.mem_of_getElem? hi)
    exact ⟨e.raw, l, hi, (Policy.classify_eq_fetchable (Plan.classify_eq_fetchable hc.symm)).1, ha⟩

/-- A script and an archive at an address. -/
def scriptAndArchive : Lockfile :=
  ⟨8, none, [⟨["b@exec:./b.js"], none, none, none, none⟩,
    ⟨["a@https://e.org/a.tgz"], none, none, none, none⟩]⟩

def plainOptions : Options := ⟨none, ⟨['/', 'c']⟩, .cas, 1, .standard, none⟩

def nothingThere : Transport := fun _ _ => ⟨.ok [], false⟩

theorem prefetch_calls_confined_archive :
    ∃ plan, Plan.make ⟨[], []⟩ (.ofRoot ⟨['/']⟩) scriptAndArchive none = .ok plan ∧
      (1, .get "https://e.org/a.tgz") ∈ (Run.start (.ofFiles ⟨[], []⟩) plan).trail
        (plainOptions.workplace (.ofRoot ⟨['/']⟩) nothingThere)
        (.work 0 none :: List.replicate 4 (.work 1 none)) ∧
      ∃ raw l, plan.entries[1]? = some ⟨raw, .located l .fetchable⟩ ∧
        (Policy.ofRoot ⟨['/']⟩).allows l.protocol = true ∧
        (Fetcher.make none ⟨['/']⟩ .standard).Asks l (.get "https://e.org/a.tgz") := by
  have hd : (Plan.make ⟨[], []⟩ (.ofRoot ⟨['/']⟩) scriptAndArchive none).toOption.any (fun plan =>
      ((Run.start (.ofFiles ⟨[], []⟩) plan).trail
        (plainOptions.workplace (.ofRoot ⟨['/']⟩) nothingThere)
        (.work 0 none :: List.replicate 4 (.work 1 none))).contains
          (1, .get "https://e.org/a.tgz")) = true := by
    decide +kernel
  cases h : Plan.make ⟨[], []⟩ (.ofRoot ⟨['/']⟩) scriptAndArchive none with
  | error e =>
    rw [h] at hd
    cases hd
  | ok plan =>
    rw [h] at hd
    have hm := List.contains_iff_mem.mp hd
    exact ⟨plan, rfl, hm, ((prefetch_calls_confined (.ofRoot ⟨['/']⟩) plainOptions nothingThere
      scriptAndArchive (.ofFiles ⟨[], []⟩)).2 plan h).2 _ _ |>.2 1 _ hm⟩

end OfflineCache
