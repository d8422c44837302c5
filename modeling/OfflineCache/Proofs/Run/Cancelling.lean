import OfflineCache.Proofs.Run.Independence
import OfflineCache.Proofs.Run.Outcomes

/-! Stopping a run. The signal is looked at before an entry and before each attempt. Whoever sees it calls
nothing more, leaves the world as it is and ends as cancelled; nobody else can tell that there is a
signal. So a stopped run takes the moves of a run that nothing stops, with those left out that came after
a worker had seen the signal (`Run.Shadows`), and what else it came to, that run comes to as well. -/

namespace OfflineCache

/-! ## Without the signal -/

/-- The same answers, but none stops the run. -/
def Transport.calm (t : Transport) : Transport := fun calls q => { t calls q with cancels := false }

/-- The same workplace, where no call stops the run. -/
def Workplace.calm (p : Workplace) : Workplace := { p with transport := p.transport.calm }

/-- The same world without the signal. -/
def World.calm (w : World) : World := { w with cancelled := false }

namespace Retry

theorem pause_calm (p : RetryPolicy) (target : String) (n : Nat) (r : Except Fetch.Error Bytes)
    (w : World) : pause p target n r w.calm = (pause p target n r w).calm := by
  unfold pause
  split <;> rfl

theorem step_calm (p : RetryPolicy) (t : Transport) (target : String) (q : Request) {w : World}
    {r : Retry} (h : ∀ n, r = .checking n → w.cancelled = false) :
    r.step p t.calm target q w.calm =
      ((r.step p t target q w).1.calm, (r.step p t target q w).2) := by
  cases r with
  | checking n => simp [step, h n rfl, World.calm]
  | calling n =>
    have hcall : w.calm.call t.calm q = ((w.call t q).1.calm, (w.call t q).2) := rfl
    simp only [step, hcall, pause_calm]
  | done x => rfl

/-- With the signal there, it stays and no attempt is made ready. -/
theorem step_cancelled (p : RetryPolicy) (t : Transport) (target : String) (q : Request) {w : World}
    (h : w.cancelled = true) (r : Retry) :
    (r.step p t target q w).1.cancelled = true ∧ ∀ n, (r.step p t target q w).2 ≠ .calling n := by
  cases r with
  | checking m => simp [step, h]
  | calling m =>
    have hcall : (w.call t q).1.cancelled = true := by simp [World.call, h]
    constructor
    · simp only [step, pause]
      split <;> exact hcall
    · intro n
      simp only [step, judge]
      split
      · rintro ⟨⟩
      · split <;> rintro ⟨⟩
  | done x => exact ⟨h, fun n hn => by cases hn⟩

end Retry

namespace Fetching

theorem step_calm (f : Fetcher) (t : Transport) (l : Locator) {w : World} {s : Fetching}
    (h : ∀ target q n, s = .retrying target q (.checking n) → w.cancelled = false) :
    s.step f t.calm l w.calm = ((s.step f t l w).1.calm, (s.step f t l w).2) := by
  cases s with
  | starting => rfl
  | retrying target q r =>
    cases r with
    | done r => cases r <;> rfl
    | checking n =>
      have hr := Retry.step_calm f.retry t target q (r := .checking n) fun m _ => h target q n rfl
      simp only [step, hr]
    | calling n =>
      have hr := Retry.step_calm f.retry t target q (w := w) (r := .calling n) fun m hm => by cases hm
      simp only [step, hr]
  | verifying b n =>
    simp only [step]
    split <;> rfl
  | done r => rfl

theorem request?_retrying {target : String} {q : Request} {r : Retry} (h : ∀ n, r ≠ .calling n) :
    (retrying target q r).request? = none := by
  cases r with
  | calling n => exact absurd rfl (h n)
  | _ => rfl

theorem step_cancelled (f : Fetcher) (t : Transport) (l : Locator) {w : World}
    (h : w.cancelled = true) (s : Fetching) :
    (s.step f t l w).1.cancelled = true ∧ (s.step f t l w).2.request? = none := by
  cases s with
  | starting =>
    refine ⟨h, ?_⟩
    simp only [step, begin]
    split
    · rfl
    · rfl
    · split <;> rfl
  | retrying target q r =>
    cases r with
    | done r => cases r <;> exact ⟨h, rfl⟩
    | checking n =>
      obtain ⟨hstays, hnone⟩ := Retry.step_cancelled f.retry t target q h (.checking n)
      exact ⟨hstays, request?_retrying hnone⟩
    | calling n =>
      obtain ⟨hstays, hnone⟩ := Retry.step_cancelled f.retry t target q h (.calling n)
      exact ⟨hstays, request?_retrying hnone⟩
  | verifying b n =>
    simp only [step]
    split <;> exact ⟨h, rfl⟩
  | done r => exact ⟨h, rfl⟩

end Fetching

theorem Storing.step_calm (s : Store) (l : Locator) (a : Artifact) (m : Option Mishap) (w : World)
    (st : Storing) :
    st.step s l a m w.calm = ((st.step s l a m w).1.calm, (st.step s l a m w).2) := by
  cases st with
  | starting =>
    simp only [step]
    split <;> rfl
  | locking e =>
    have hlocked : w.calm.locked = w.locked := rfl
    simp only [step, hlocked]
    split <;> rfl
  | comparing e =>
    have hfiles : w.calm.files = w.files := rfl
    simp only [step, compare, hfiles]
    split
    · split <;> rfl
    · rfl
  | replacing e tmp r =>
    cases r with
    | done x => cases x <;> rfl
    | _ => rfl
  | unlocking e r => rfl
  | done r => rfl

namespace Worker

/-- The next step is a look at the signal. -/
def looks : Worker → Bool
  | .waiting => true
  | .fetching (.retrying _ _ (.checking _)) => true
  | _ => false

/-- The worker was told to stop, and has at most to say so. -/
def Stopped : Worker → Prop
  | .fetching (.retrying _ _ (.done (.error e))) => e = .cancelled
  | .fetching (.done (.error e)) => e = .cancelled
  | .finished o => o = .cancelled
  | _ => False

variable (p : Workplace) (l : Locator) (m : Option Mishap) {w : World} {k : Worker}

/-- **Only a look at the signal can tell** whether there is one. -/
theorem step_calm (h : k.looks = true → w.cancelled = false) :
    k.step p.calm l m w.calm = ((k.step p l m w).1.calm, (k.step p l m w).2) := by
  cases k using stages with
  | waiting => simp [step, h rfl, World.calm]
  | fetching s hs =>
    have hf := Fetching.step_calm p.fetcher p.transport l (w := w) (s := s) fun target q n he =>
      h (by rw [he]; rfl)
    rw [step_fetching p l m w hs, step_fetching p.calm l m w.calm hs]
    exact congrArg (fun x : World × Fetching => (x.1, Worker.fetching x.2)) hf
  | fetched a => rfl
  | failed e =>
    simp only [step, afterFailure]
    split <;> rfl
  | storing a s hs =>
    rw [step_storing p l m w a hs, step_storing p.calm l m w.calm a hs]
    exact congrArg (fun x : World × Storing => (x.1, Worker.storing a x.2))
      (Storing.step_calm p.store l a m w s)
  | stored a r => cases r <;> rfl
  | finished o => rfl

/-- Whoever sees the signal stops, and changes nothing by it. -/
theorem stopped_of_looks (hk : k.looks = true) (hw : w.cancelled = true) :
    (k.step p l m w).1 = w ∧ (k.step p l m w).2.Stopped := by
  unfold looks at hk
  split at hk
  · simp [step, hw, Stopped]
  · simp [step, Fetching.step, Retry.step, hw, Stopped]
  · cases hk

theorem Stopped.step (h : k.Stopped) : (k.step p l m w).1 = w ∧ (k.step p l m w).2.Stopped := by
  unfold Stopped at h
  split at h
  · exact ⟨rfl, h⟩
  · rw [h]
    exact ⟨rfl, rfl⟩
  · exact ⟨rfl, h⟩
  · exact h.elim

theorem Stopped.outcome {o : Outcome} (h : k.Stopped) (ho : k.outcome? = some o) :
    o = .cancelled := by
  cases k with
  | finished o' =>
    obtain rfl : o' = o := Option.some.inj ho
    exact h
  | _ => cases ho

/-- **With the signal there**, it stays and no call is made ready. -/
theorem step_cancelled (h : w.cancelled = true) :
    (k.step p l m w).1.cancelled = true ∧ (k.step p l m w).2.request? = none := by
  cases k using stages with
  | waiting => simp [step, h, request?]
  | fetching s hs =>
    rw [step_fetching p l m w hs]
    exact Fetching.step_cancelled p.fetcher p.transport l h s
  | fetched a => exact ⟨h, rfl⟩
  | failed e =>
    simp only [step, afterFailure]
    split <;> exact ⟨h, rfl⟩
  | storing a s hs =>
    rw [step_storing p l m w a hs]
    exact ⟨(Storing.frame_step p.store l a m w s).cancelled.trans h, rfl⟩
  | stored a r => cases r <;> exact ⟨h, rfl⟩
  | finished o => exact ⟨h, rfl⟩

end Worker

/-! ## Calls after the signal -/

namespace Run

variable (p : Workplace) {r r' : Run}

/-- The call that the worker of a slot has made ready. -/
theorem request?_work (r : Run) (i : Nat) (x : Option Mishap) :
    r.request? (.work i x) = (r.worker? i).bind fun lk => lk.2.request?.map (i, ·) := by
  rw [request?, worker?]
  cases hs : r.slots[i]? with
  | none => rfl
  | some s =>
    obtain ⟨e, task⟩ := s
    cases task with
    | none => rfl
    | some lk => rfl

theorem cancelled_move (h : r.world.cancelled = true) (m : Move) :
    (r.move p m).world.cancelled = true := by
  cases m with
  | stop => rfl
  | work i x =>
    cases hk : r.worker? i with
    | none => rwa [move_of_none hk]
    | some lk =>
      rw [(move_worker hk x).1]
      exact (lk.2.step_cancelled p lk.1 x h).1

/-- **After the signal** a worker makes at most the call that it had ready, which is one that it had looked
at the signal for before. -/
theorem trail_of_cancelled (h : r.world.cancelled = true) (schedule : List Move) (i : Nat) :
    (r.trail p schedule).filter (·.1 = i) <+: (r.request? (.work i none)).toList := by
  induction schedule generalizing r with
  | nil => exact List.nil_prefix
  | cons m ms ih =>
    have hrest := ih (cancelled_move p h m)
    rw [trail, List.filter_append]
    cases m with
    | stop => exact hrest
    | work j x =>
      cases hk : r.worker? j with
      | none =>
        rw [move_of_none hk] at hrest
        simpa [request?_work r j, hk, move_of_none hk] using hrest
      | some lk =>
        obtain ⟨l, k⟩ := lk
        obtain ⟨-, hj, hother⟩ := move_worker (p := p) hk x
        by_cases hij : j = i
        · subst hij
          rw [request?_work _ j none, hj, Option.bind_some, (k.step_cancelled p l x h).2] at hrest
          rw [List.prefix_nil.mp hrest, List.append_nil, request?_work r j x, request?_work r j none,
            hk, Option.bind_some]
          cases k.request? <;> simp
        · rw [request?_work _ i none, hother i (Ne.symm hij), ← request?_work r i none] at hrest
          have hnone : ((r.request? (.work j x)).toList).filter (·.1 = i) = [] := by
            rw [request?_work r j x, hk, Option.bind_some]
            cases k.request? <;> simp [hij]
          rwa [hnone, List.nil_append]

/-! ## The run that nothing stops -/

/-- The other run is this one without the signal: the world is the same, and every worker stands where it
stands here, unless it was told to stop. -/
structure Shadows (r r' : Run) : Prop where
  world : r'.world = r.world.calm
  jobs : r'.jobs = r.jobs
  workers : ∀ i l k, r.worker? i = some (l, k) → r'.worker? i = some (l, k) ∨ k.Stopped

theorem shadows_start (w : World) (plan : Plan) : Shadows (start w plan) (start w.calm plan) :=
  ⟨rfl, rfl, fun _ _ _ h => Or.inl h⟩

/-- A worker that is told to stop moves in one run alone. -/
theorem Shadows.stop (h : Shadows r r') {i : Nat} {l : Locator} {k : Worker}
    (hk : r.worker? i = some (l, k)) {x : Option Mishap} (hw : (k.step p l x r.world).1 = r.world)
    (hstopped : (k.step p l x r.world).2.Stopped) : Shadows (r.move p (.work i x)) r' := by
  obtain ⟨hworld, -⟩ := move_worker (p := p) hk x
  refine ⟨by rw [hworld, hw, h.world], by rw [jobs_move, h.jobs], fun j l' k' hj => ?_⟩
  rcases worker_of_move hj with ⟨hj, -⟩ | ⟨y, k₁, hm, hk₁, -, rfl⟩
  · exact h.workers j l' k' hj
  · obtain ⟨rfl, rfl⟩ := Move.work.inj hm
    obtain ⟨rfl, rfl⟩ := Prod.mk.inj (Option.some.inj (hk.symm.trans hk₁))
    exact Or.inr hstopped

/-- **One move** is made in both runs, or in this one alone. -/
theorem Shadows.move (h : Shadows r r') (m : Move) :
    ∃ kept, kept.Sublist [m] ∧ Move.stop ∉ kept ∧ Shadows (r.move p m) (r'.follow p.calm kept) := by
  cases m with
  | stop => exact ⟨[], List.nil_sublist _, List.not_mem_nil, h.world, h.jobs, h.workers⟩
  | work i x =>
    cases hk : r.worker? i with
    | none =>
      rw [move_of_none hk]
      exact ⟨[], List.nil_sublist _, List.not_mem_nil, h⟩
    | some lk =>
      obtain ⟨l, k⟩ := lk
      rcases h.workers i l k hk with hk' | hstopped
      · by_cases hlook : k.looks = true → r.world.cancelled = false
        · refine ⟨[.work i x], List.Sublist.refl _, by simp, ?_⟩
          obtain ⟨hworld, hi, hother⟩ := move_worker (p := p) hk x
          obtain ⟨hworld', hi', hother'⟩ := move_worker (p := p.calm) hk' x
          have hstep := k.step_calm p l x hlook
          rw [h.world, hstep] at hworld' hi'
          refine ⟨by rw [follow_cons, hworld]; exact hworld', ?_, fun j l' k' hj => ?_⟩
          · rw [jobs_follow, jobs_move, h.jobs]
          · by_cases hij : j = i
            · subst hij
              obtain ⟨rfl, rfl⟩ := Prod.mk.inj (Option.some.inj (hi.symm.trans hj))
              exact Or.inl hi'
            · rw [follow_cons]
              exact (h.workers j l' k' (hother j hij ▸ hj)).imp_left (hother' j hij ▸ ·)
        · simp only [Classical.not_imp, Bool.not_eq_false] at hlook
          obtain ⟨hw, hstopped⟩ := k.stopped_of_looks p l x hlook.1 hlook.2
          exact ⟨[], List.nil_sublist _, List.not_mem_nil, h.stop p hk hw hstopped⟩
      · obtain ⟨hw, hstopped⟩ := hstopped.step p l x (w := r.world)
        exact ⟨[], List.nil_sublist _, List.not_mem_nil, h.stop p hk hw hstopped⟩

/-- **Every run shadows one that nothing stops.** -/
theorem Shadows.follow (h : Shadows r r') (schedule : List Move) :
    ∃ kept, kept.Sublist schedule ∧ Move.stop ∉ kept ∧
      Shadows (r.follow p schedule) (r'.follow p.calm kept) := by
  induction schedule generalizing r r' with
  | nil => exact ⟨[], List.nil_sublist _, List.not_mem_nil, h⟩
  | cons m ms ih =>
    obtain ⟨first, hfirst, hnot, hmove⟩ := h.move p m
    obtain ⟨kept, hkept, hnot', hfollow⟩ := ih hmove
    refine ⟨first ++ kept, hfirst.append hkept, ?_, ?_⟩
    · simp [hnot, hnot']
    · rw [follow_append]
      exact hfollow

/-- What is in a slot is there without the signal as well, unless it is that the run was cancelled. -/
theorem Shadows.filled? (h : Shadows r r') {i : Nat} {o : Outcome} (ho : r.filled? i = some o) :
    r'.filled? i = some o ∨ o = .cancelled := by
  obtain ⟨⟨e, task⟩, hs, hfilled⟩ := Option.bind_eq_some_iff.mp ho
  have hjob : r'.jobs[i]? = r.jobs[i]? := by rw [h.jobs]
  simp only [Run.jobs, List.getElem?_map, hs, Option.map_some] at hjob
  obtain ⟨⟨e', task'⟩, hs', hpair⟩ := Option.map_eq_some_iff.mp hjob
  obtain ⟨rfl, ht⟩ := Prod.mk.inj hpair
  rw [Run.filled?, hs', Option.bind_some]
  cases task with
  | none =>
    obtain rfl : task' = none := Option.map_eq_none_iff.mp ht
    exact Or.inl hfilled
  | some lk =>
    obtain ⟨l, k⟩ := lk
    rcases h.workers i l k (by rw [worker?, hs]; rfl) with hk | hstopped
    · obtain rfl : task' = some (l, k) := by simpa [worker?, hs'] using hk
      exact Or.inl hfilled
    · exact Or.inr (hstopped.outcome hfilled)

end Run

/-! ## Outcomes -/

theorem Slot.outcome_eq (s : Slot) : s.outcome = s.filled?.getD .cancelled := by
  obtain ⟨e, task⟩ := s
  cases task <;> rfl

namespace Run

variable {p : Workplace} {r r' : Run}

def outcomes (r : Run) : List Outcome := r.slots.map (·.outcome)

/-- Every outcome is the one of the other run, or that the run was cancelled. -/
def OrCancelled (r r' : Run) : Prop :=
  ∀ (i : Nat) (o : Outcome), r.outcomes[i]? = some o → r'.outcomes[i]? = some o ∨ o = .cancelled

theorem outcomes_of_filled? {i : Nat} {o : Outcome} (h : r.filled? i = some o) :
    r.outcomes[i]? = some o := by
  obtain ⟨s, hs, ho⟩ := Option.bind_eq_some_iff.mp h
  rw [outcomes, List.getElem?_map, hs, Option.map_some, Slot.outcome_of_filled? ho]

theorem filled?_of_outcomes {i : Nat} {o : Outcome} (h : r.outcomes[i]? = some o) :
    r.filled? i = some o ∨ o = .cancelled := by
  obtain ⟨s, hs, ho⟩ := Option.map_eq_some_iff.mp (List.getElem?_map ▸ h)
  rw [Run.filled?, hs, Option.bind_some]
  rw [Slot.outcome_eq] at ho
  cases hf : s.filled? with
  | none => exact Or.inr (by rw [← ho, hf]; rfl)
  | some o' => exact Or.inl (by rw [← ho, hf]; rfl)

theorem length_outcomes (p : Workplace) (w : World) (plan : Plan) (schedule : List Move) :
    ((start w plan).follow p schedule).outcomes.length = plan.entries.length := by
  have hentries := congrArg List.length (entries_follow p w plan schedule)
  simpa [outcomes] using hentries

/-- **However the other run goes on**, its outcomes are those of this one, but for what was cancelled. -/
theorem Shadows.orCancelled (h : Shadows r r') (rest : List Move) :
    OrCancelled r (r'.follow p rest) := by
  intro i o ho
  rcases filled?_of_outcomes ho with hfilled | hcancelled
  · exact (h.filled? hfilled).imp_left fun ho' => outcomes_of_filled? (filled?_follow p ho' rest)
  · exact Or.inr hcancelled

theorem outcomes_eq (r : Run) : r.outcomes = (r.slots.map (·.reportEntry)).map (·.outcome) := by
  simp only [outcomes, List.map_map]
  rfl

/-- What the plan has decided stands there at every moment. -/
theorem outcomes_of_decided (p : Workplace) (w : World) (schedule : List Move) {plan : Plan} {i : Nat}
    {e : PlannedEntry} (he : plan.entries[i]? = some e) {d : Outcome} (hd : e.outcome? = some d) :
    ((start w plan).follow p schedule).outcomes[i]? = some d := by
  refine outcomes_of_filled? (filled?_follow p ?_ schedule)
  rw [filled?_start, he]
  exact hd

/-- Where nothing stops a run, it is not stopped. -/
theorem calm_follow (h : r.world.cancelled = false) {schedule : List Move}
    (hs : Move.stop ∉ schedule) : (r.follow p.calm schedule).world.cancelled = false := by
  induction schedule generalizing r with
  | nil => exact h
  | cons m ms ih =>
    refine ih ?_ fun hm => hs (List.mem_cons_of_mem _ hm)
    cases m with
    | stop => exact absurd List.mem_cons_self hs
    | work i x =>
      cases hk : r.worker? i with
      | none => rwa [move_of_none hk]
      | some lk =>
        -- this world has no signal, so the step is one without it
        have hw : r.world.calm = r.world := by simp [World.calm, ← h]
        have hstep := lk.2.step_calm p.calm lk.1 x (w := r.world) fun _ => h
        rw [hw] at hstep
        rw [(move_worker hk x).1, show p.calm = p.calm.calm from rfl, hstep]
        rfl

end Run

/-- Two runs of the ground that have ended have the same outcomes. -/
theorem Ground.Admits.outcomes_eq {g : Ground} {w w' : World} (hw : g.Admits w) (hw' : g.Admits w')
    {schedule schedule' : List Move} (hs : Run.Smooth schedule) (hs' : Run.Smooth schedule')
    (hover : ((Run.start w g.plan).follow g.workplace schedule).Over)
    (hover' : ((Run.start w' g.plan).follow g.workplace schedule').Over) :
    ((Run.start w g.plan).follow g.workplace schedule).outcomes =
      ((Run.start w' g.plan).follow g.workplace schedule').outcomes := by
  rw [Run.outcomes_eq, Run.outcomes_eq, (hw.ends hs hover).1, (hw'.ends hs' hover').1]

/-- **Stopping is clean, whenever it comes.**  A run has an outcome for each entry at every moment, and
where the plan decided, it is what the plan decided. Once there is the signal, a worker makes at most
the call that it had looked at the signal for before. Without the moves that came after their worker had
seen the signal, the schedule is that of a run that nothing stops. It can be brought to its end, and
when it has ended, each outcome of the stopped run is the one there, or that the run was cancelled; so
nothing has failed by being stopped. Where nothing disturbs the run (`Outset.Undisturbed`), all runs that
nothing stops are such. -/
theorem Run.stopped_clean (p : Workplace) {w : World} (hw : w.locked = []) (plan : Plan)
    (schedule : List Move) {r : Run} (hr : (start w plan).follow p schedule = r) :
    (r.outcomes.length = plan.entries.length ∧
      ∀ (i : Nat) (e : PlannedEntry) (d : Outcome), plan.entries[i]? = some e → e.outcome? = some d →
        r.outcomes[i]? = some d) ∧
    (∀ before after r₀, schedule = before ++ after → (start w plan).follow p before = r₀ →
      r₀.world.cancelled = true → ∀ i,
        (r₀.trail p after).filter (·.1 = i) <+: (r₀.request? (.work i none)).toList) ∧
    (∃ kept, kept.Sublist schedule ∧ Move.stop ∉ kept ∧
      (∃ rest, Smooth rest ∧ ((start w.calm plan).follow p.calm (kept ++ rest)).Over) ∧
      ∀ rest r', Move.stop ∉ rest → (start w.calm plan).follow p.calm (kept ++ rest) = r' →
        r'.Over → r'.world.cancelled = false ∧ OrCancelled r r' ∧
          ∀ (i : Nat) kind cause, r.outcomes[i]? = some (Outcome.failed kind cause) →
            r'.outcomes[i]? = some (Outcome.failed kind cause)) ∧
    ∀ uses, (Outset.mk p.calm w.files plan).Undisturbed uses →
      (Outset.mk p.calm w.files plan).Begins uses w.files w.calm →
      (∀ m ∈ schedule, m = .stop ∨ ∃ i, m = .work i none) →
      ∀ w' schedule' r', (Outset.mk p.calm w.files plan).Begins uses w.files w' →
        Smooth schedule' → (start w' plan).follow p.calm schedule' = r' → r'.Over →
          OrCancelled r r' := by
  subst hr
  obtain ⟨kept, hkept, hnot, hshadows⟩ := (shadows_start w plan).follow p schedule
  obtain ⟨rest, hrest, hover⟩ :=
    ((locked_start (w := w.calm) hw plan).follow (p := p.calm) kept).can_end (p := p.calm)
  rw [← follow_append] at hover
  have hall : ∀ rest, OrCancelled ((start w plan).follow p schedule)
      ((start w.calm plan).follow p.calm (kept ++ rest)) := by
    intro rest
    rw [follow_append]
    exact hshadows.orCancelled rest
  refine ⟨⟨length_outcomes p w plan schedule, fun i e d he hd => outcomes_of_decided p w schedule he hd⟩,
    ?_, ⟨kept, hkept, hnot, ⟨rest, hrest, hover⟩, ?_⟩, ?_⟩
  · rintro before after r₀ rfl rfl hcancelled i
    exact trail_of_cancelled p hcancelled after i
  · rintro rest' r' hstop rfl -
    refine ⟨calm_follow rfl (by simp [hnot, hstop]), hall rest', fun i kind cause hi => ?_⟩
    rcases hall rest' i _ hi with hsame | hcancelled
    · exact hsame
    · cases hcancelled
  · rintro uses hfree hbegins hquiet w' schedule' r' hbegins' hs' rfl hover'
    have hsmooth : Smooth (kept ++ rest) := by
      refine Smooth.append (fun m hm => ?_) hrest
      rcases hquiet m (hkept.subset hm) with rfl | hwork
      · exact absurd hm hnot
      · exact hwork
    obtain ⟨⟨s, uses, place, process, counter, hfree, hseat, heven⟩, rfl, rfl⟩ := hfree.ground
    let g : Ground := ⟨⟨p.calm, w.files, plan⟩, uses, place, process, counter, hfree, hseat, heven⟩
    have hadmits : g.Admits w.calm := Ground.admits_of_begins (g := g) hbegins (.untouched rfl)
    have hadmits' : g.Admits w' := Ground.admits_of_begins (g := g) hbegins' (.untouched rfl)
    have hsame := hadmits.outcomes_eq hadmits' hsmooth hs' hover hover'
    intro i o ho
    exact (hall rest i o ho).imp_left fun ho' => by rw [← ho', hsame]

def archiveRun (plan : Plan) (schedule : List Move) : Run :=
  (Run.start (.ofFiles ⟨[], []⟩) plan).follow (archiveOutset plan).workplace schedule

/-- The worker of the archive comes to its first attempt when the run is stopped. -/
def stoppedEarly : List Move :=
  List.replicate 2 (.work 3 none) ++ .stop :: List.replicate 20 (.work 3 none)

def notStopped : List Move := List.replicate 20 (.work 3 none)

theorem Run.stopped_clean_early :
    ∃ plan, Plan.make ⟨[], []⟩ lenient mixedLockfile none = .ok plan ∧
      (archiveOutset plan).Undisturbed firstUses ∧
      (archiveRun plan stoppedEarly).outcomes[1]? =
        some (.denied DenyReason.execution.message) ∧
      (archiveRun plan stoppedEarly).outcomes[3]? = some .cancelled ∧
      ((archiveRun plan (stoppedEarly.take 3)).trail (archiveOutset plan).workplace
        (stoppedEarly.drop 3)).filter (·.1 = 3) = [] ∧
      (∃ r' kind cause, r'.Over ∧ r'.world.cancelled = false ∧
        (archiveRun plan stoppedEarly).OrCancelled r' ∧
        r'.outcomes[0]? = some (.failed kind cause)) ∧
      (archiveRun plan notStopped).Over ∧
      (archiveRun plan stoppedEarly).OrCancelled (archiveRun plan notStopped) := by
  have hd : (Plan.make ⟨[], []⟩ lenient mixedLockfile none).toOption.any (fun plan =>
      plan.oneArchive ∧ (archiveRun plan notStopped).Over ∧
        plan.entries[1]?.bind (·.outcome?) = some (.denied DenyReason.execution.message) ∧
        (archiveRun plan stoppedEarly).outcomes[0]?.any (·.isFailed) = true ∧
        (archiveRun plan stoppedEarly).outcomes[3]? = some .cancelled ∧
        (archiveRun plan (stoppedEarly.take 3)).request? (.work 3 none) = none) = true := by
    decide +kernel
  cases h : Plan.make ⟨[], []⟩ lenient mixedLockfile none with
  | error e =>
    rw [h] at hd
    cases hd
  | ok plan =>
    rw [h] at hd
    obtain ⟨hone, hover, hdenied, hfailed, hcancelled, hready⟩ := of_decide_eq_true hd
    have hfree := archive_undisturbed hone
    have hbegins := archive_begins hone ⟨[], []⟩ (Nat.zero_le 1)
    have hquiet : ∀ m ∈ stoppedEarly, m = .stop ∨ ∃ i, m = .work i none := by
      intro m hm
      rcases List.mem_append.mp hm with hm | hm
      · exact Or.inr ⟨3, List.eq_of_mem_replicate hm⟩
      · exact (List.mem_cons.mp hm).imp_right fun hm => ⟨3, List.eq_of_mem_replicate hm⟩
    have hsmooth : Run.Smooth notStopped := fun m hm => ⟨3, List.eq_of_mem_replicate hm⟩
    obtain ⟨⟨-, hdecided⟩, hcalls, ⟨kept, -, -, ⟨rest, hrest, hends⟩, hkept⟩, hall⟩ :=
      Run.stopped_clean (archiveOutset plan).workplace (w := .ofFiles ⟨[], []⟩) rfl plan stoppedEarly
        rfl
    refine ⟨plan, rfl, hfree, ?_, hcancelled, ?_, ?_, hover, ?_⟩
    · obtain ⟨e, he, hdenied⟩ := Option.bind_eq_some_iff.mp hdenied
      exact hdecided 1 e _ he hdenied
    · have hprefix := hcalls (stoppedEarly.take 3) (stoppedEarly.drop 3) _ rfl rfl rfl 3
      have hnone : ((archiveRun plan (stoppedEarly.take 3)).request? (.work 3 none)).toList = [] := by
        rw [hready]
        rfl
      exact List.prefix_nil.mp (hnone ▸ hprefix)
    · obtain ⟨o, ho, hfailed⟩ := (Option.any_eq_true _ _).mp hfailed
      have hstop : Move.stop ∉ rest := fun hm => by
        obtain ⟨i, hi⟩ := hrest _ hm
        cases hi
      obtain ⟨hcalm, hor, hstays⟩ := hkept rest _ hstop rfl hends
      cases o with
      | failed kind cause => exact ⟨_, kind, cause, hends, hcalm, hor, hstays 0 kind cause ho⟩
      | _ => cases hfailed
    · exact hall firstUses hfree hbegins hquiet _ _ _ hbegins hsmooth rfl hover

end OfflineCache
