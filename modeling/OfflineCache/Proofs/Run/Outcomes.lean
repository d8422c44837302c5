import OfflineCache.CommandLine.Basic
import OfflineCache.Proofs.Run.Ending

/-! One outcome for each entry. A slot is filled by the plan or by the worker of its entry, never by both,
and what it holds stays. So when all workers are through, every slot has been filled once
(`Run.fillings_eq`), the report has an entry for each entry of the plan, and its counts are those of
the outcomes. A run that succeeds was planned without an entry that blocks. -/

namespace OfflineCache

/-! ## What the plan decides -/

namespace PlannedEntry

/-- The plan decides an entry unless it is to be fetched. -/
theorem outcome?_eq_none_iff {e : PlannedEntry} : e.outcome? = none ↔ ∃ l, e.pending? = some l := by
  obtain ⟨raw, subject⟩ := e
  cases subject with
  | malformed m => simp [outcome?, pending?]
  | located l c => cases c <;> simp [outcome?, pending?]

theorem outcome?_isSome_of_pending? {e : PlannedEntry} (h : e.pending? = none) :
    ∃ o, e.outcome? = some o := by
  rw [← Option.isSome_iff_exists, ← Option.ne_none_iff_isSome]
  intro hn
  obtain ⟨l, hl⟩ := outcome?_eq_none_iff.mp hn
  rw [h] at hl
  cases hl

/-- An entry that blocks is denied or malformed. -/
theorem outcome?_of_isBlocked {e : PlannedEntry} (h : CommandLine.isBlocked e = true) :
    ∃ o, e.outcome? = some o ∧ ((o matches .denied _) ∨ (o matches .failed ..)) := by
  obtain ⟨raw, subject⟩ := e
  cases subject with
  | malformed m => exact ⟨_, rfl, Or.inr rfl⟩
  | located l c =>
    cases c with
    | fetchable => cases h
    | skip r => cases h
    | deny r => exact ⟨_, rfl, Or.inl rfl⟩

end PlannedEntry

/-! ## Slots -/

/-- What is in a slot so far: the outcome that the plan decided, or the one that its worker came to. -/
def Slot.filled? (s : Slot) : Option Outcome :=
  match s.task with
  | some (_, k) => k.outcome?
  | none => s.entry.outcome?

theorem Slot.outcome_of_filled? {s : Slot} {o : Outcome} (h : s.filled? = some o) :
    s.outcome = o := by
  obtain ⟨e, task⟩ := s
  cases task with
  | none => exact congrArg (·.getD Outcome.cancelled) h
  | some lk => exact congrArg (·.getD Outcome.cancelled) h

theorem Slot.filled?_ofEntry (e : PlannedEntry) : (Slot.ofEntry e).filled? = e.outcome? := by
  cases hp : e.pending? with
  | none => simp [Slot.filled?, Slot.ofEntry, hp]
  | some l =>
    rw [PlannedEntry.outcome?_eq_none_iff.mpr ⟨l, hp⟩]
    simp [Slot.filled?, Slot.ofEntry, hp, Worker.outcome?]

namespace Run

variable (p : Workplace)

def filled? (r : Run) (i : Nat) : Option Outcome := r.slots[i]?.bind (·.filled?)

theorem filled?_start (w : World) (plan : Plan) (i : Nat) :
    (start w plan).filled? i = plan.entries[i]?.bind (·.outcome?) := by
  simp only [filled?, start, List.getElem?_map]
  cases plan.entries[i]? with
  | none => rfl
  | some e => exact Slot.filled?_ofEntry e

/-- **What a slot holds stays.** -/
theorem filled?_move {r : Run} {i : Nat} {o : Outcome} (h : r.filled? i = some o) (m : Move) :
    (r.move p m).filled? i = some o := by
  rcases move_slot p r m i with hs | ⟨e, l, k, x, -, hs, hs'⟩
  · rw [filled?, hs]
    exact h
  · rw [filled?, hs] at h
    obtain rfl : k = .finished o := by
      cases k with
      | finished o' => exact congrArg Worker.finished (Option.some.inj h)
      | _ => cases h
    rw [filled?, hs']
    rfl

theorem filled?_follow {r : Run} {i : Nat} {o : Outcome} (h : r.filled? i = some o)
    (schedule : List Move) : (r.follow p schedule).filled? i = some o := by
  induction schedule generalizing r with
  | nil => exact h
  | cons m ms ih => exact ih (filled?_move p h m)

/-- How many moves of a schedule change what a slot holds. -/
def fillings (i : Nat) (r : Run) : List Move → Nat
  | [] => 0
  | m :: ms => (if (r.move p m).filled? i = r.filled? i then 0 else 1) + fillings i (r.move p m) ms

theorem fillings_of_filled {r : Run} {i : Nat} {o : Outcome} (h : r.filled? i = some o)
    (schedule : List Move) : r.fillings p i schedule = 0 := by
  induction schedule generalizing r with
  | nil => rfl
  | cons m ms ih =>
    have hm := filled?_move p h m
    rw [fillings, if_pos (hm.trans h.symm), ih hm]

/-- **A slot is filled once**, by the plan or by one move. -/
theorem fillings_eq {r : Run} {i : Nat} {schedule : List Move} {o : Outcome}
    (h : (r.follow p schedule).filled? i = some o) :
    (r.filled? i).toList.length + r.fillings p i schedule = 1 := by
  induction schedule generalizing r with
  | nil => simp [fillings, show r.filled? i = some o from h]
  | cons m ms ih =>
    cases hr : r.filled? i with
    | some o' => simp [fillings_of_filled p hr]
    | none =>
      have hrest := ih h
      rw [fillings, hr]
      cases hm : (r.move p m).filled? i with
      | none => simpa [hm] using hrest
      | some o' => simp [fillings_of_filled p hm]

/-- When all workers are through, the slot of every entry is filled, with what the plan decided if it
did. -/
theorem Over.filled {r : Run} {es : List PlannedEntry} (h : r.Over)
    (hjobs : r.jobs = es.map fun e => (e, e.pending?)) {i : Nat} {e : PlannedEntry}
    (he : es[i]? = some e) :
    ∃ s o, r.slots[i]? = some s ∧ s.entry = e ∧ s.filled? = some o ∧
      ∀ d, e.outcome? = some d → o = d := by
  have hi : r.jobs[i]? = some (e, e.pending?) := by simp [hjobs, he]
  obtain ⟨⟨e', task⟩, hs, hj⟩ := Option.map_eq_some_iff.mp (List.getElem?_map ▸ hi)
  obtain ⟨rfl, ht⟩ := Prod.mk.inj hj
  cases task with
  | none =>
    obtain ⟨d, hd⟩ := PlannedEntry.outcome?_isSome_of_pending? ht.symm
    exact ⟨_, d, hs, rfl, hd, fun d' hd' => Option.some.inj (hd.symm.trans hd')⟩
  | some lk =>
    obtain ⟨l, k⟩ := lk
    obtain ⟨o, rfl⟩ := Worker.isFinished_iff.mp (h i l k (by rw [worker?, hs]; rfl))
    refine ⟨_, o, hs, rfl, rfl, fun d hd => ?_⟩
    rw [PlannedEntry.outcome?_eq_none_iff.mpr ⟨l, ht.symm⟩] at hd
    cases hd

end Run

/-! ## Reports -/

namespace Report

theorem summary_eq (r : Report) : r.summary = ⟨r.entries.length,
    r.entries.countP (·.outcome matches .fetched ..),
    r.entries.countP (·.outcome matches .skipped _),
    r.entries.countP (·.outcome matches .denied _),
    r.entries.countP (·.outcome matches .failed ..)⟩ := by
  have hcount : ∀ (status : String) (c : Outcome → Bool), (∀ o, (o.status == status) = c o) →
      r.entries.countP (·.outcome.status == status) = r.entries.countP (c ·.outcome) :=
    fun status c hc => congrArg (List.countP · r.entries) (funext fun e => hc e.outcome)
  have hsummary : r.summary = ⟨r.entries.length,
      r.entries.countP (·.outcome.status == "fetched"),
      r.entries.countP (·.outcome.status == "skipped"),
      r.entries.countP (·.outcome.status == "denied"),
      r.entries.countP (·.outcome.status == "failed")⟩ := rfl
  rw [hsummary, hcount "fetched" (· matches .fetched ..) fun o => by cases o <;> rfl,
    hcount "skipped" (· matches .skipped _) fun o => by cases o <;> rfl,
    hcount "denied" (· matches .denied _) fun o => by cases o <;> rfl,
    hcount "failed" (· matches .failed ..) fun o => by cases o <;> rfl]

/-- Each entry is counted under one heading. -/
theorem summary_total (r : Report) : r.summary.fetched + r.summary.skipped + r.summary.denied +
    r.summary.failed = r.summary.total := by
  rw [summary_eq]
  induction r.entries with
  | nil => rfl
  | cons e es ih =>
    simp only [List.countP_cons, List.length_cons] at ih ⊢
    cases e.outcome <;> simp <;> omega

theorem success_iff (r : Report) : r.success = true ↔ ∀ e ∈ r.entries,
    ¬ (e.outcome matches .denied _) ∧ ¬ (e.outcome matches .failed ..) := by
  rw [success, summary_eq, Bool.and_eq_true, beq_iff_eq, beq_iff_eq, List.countP_eq_zero,
    List.countP_eq_zero]
  exact ⟨fun h e he => ⟨h.2 e he, h.1 e he⟩, fun h => ⟨fun e he => (h e he).2, fun e he => (h e he).1⟩⟩

end Report

/-! ## Checking -/

namespace CommandLine

theorem SessionM.run_bind {α β : Type} {m : SessionM α} {x x' : Session} {a : α}
    (h : m.run.run x = (.ok a, x')) (f : α → SessionM β) :
    (m >>= f).run.run x = (f a).run.run x' := by
  have hbind : (m >>= f).run.run x =
      (ExceptT.bindCont f (m.run.run x).1).run (m.run.run x).2 := rfl
  rw [hbind, h]
  rfl

/-- What `check` answers for a project that can be planned. -/
theorem check_of_openProject {o : ProjectOptions} {x x' : Session} {project : Project}
    (hopen : (openProject o).run.run x = (.ok project, x')) {plan : Plan}
    (hplan : Plan.make x'.world.files project.settings.policy project.lockfile
      project.settings.dialect = .ok plan) :
    ((check o).run.run x).1 = .ok (if plan.entries.any isBlocked then 1 else 0) := by
  let es := Plan.events x'.world.files project.settings.policy project.lockfile
    project.settings.dialect
  have hfiles : SessionM.files.run.run x' = (.ok x'.world.files, x') := rfl
  have htold : (SessionM.tellAll es).run.run x' =
      (.ok (), { x' with world := x'.world.tellAll es }) := rfl
  rw [check, SessionM.run_bind hopen, SessionM.run_bind hfiles, SessionM.run_bind htold, hplan]
  rfl

end CommandLine

/-! ## The report of a run -/

/-- The report of a finished run has an entry for each entry of the plan, with what its slot holds. -/
theorem Run.Over.reported {r : Run} {es : List PlannedEntry} (h : r.Over)
    (hjobs : r.jobs = es.map fun e => (e, e.pending?)) (dialect : Nat) (root : Path) {i : Nat}
    {e : PlannedEntry} (he : es[i]? = some e) :
    ∃ out, (Run.report dialect root r.slots).entries[i]? = some (.make e.raw e.locator? out) ∧
      r.filled? i = some out ∧ ∀ d, e.outcome? = some d → out = d := by
  obtain ⟨s, out, hs, rfl, hfilled, hdecided⟩ := h.filled hjobs he
  refine ⟨out, ?_, by rw [Run.filled?, hs]; exact hfilled, hdecided⟩
  simp [Run.report, hs, Slot.reportEntry, Slot.outcome_of_filled? hfilled]

/-- A run that succeeds has no entry that blocks. -/
theorem Run.Over.none_blocked {r : Run} {es : List PlannedEntry} (h : r.Over)
    (hjobs : r.jobs = es.map fun e => (e, e.pending?)) {dialect : Nat} {root : Path}
    (hsuccess : (Run.report dialect root r.slots).success = true) :
    ∀ e ∈ es, ¬ CommandLine.isBlocked e = true := by
  intro e he hblocked
  obtain ⟨i, hi⟩ := List.mem_iff_getElem?.mp he
  obtain ⟨out, hout, -, hdecided⟩ := h.reported hjobs dialect root hi
  obtain ⟨d, hd, hbad⟩ := PlannedEntry.outcome?_of_isBlocked hblocked
  obtain rfl := hdecided d hd
  obtain ⟨hdenied, hfailed⟩ := (Report.success_iff _).mp hsuccess _ (List.mem_of_getElem? hout)
  exact hbad.elim hdenied hfailed

/-- **Every planned entry gets one outcome.**  Without a plan the error of the planning is the answer,
nothing is called and no file changes. With one, a prefetch is a run that ends, every run can be
brought to its end whatever the schedule so far, and the report of each that has ended has the
entries of the plan in their order. What the plan decided stands there unchanged; each slot has been
filled once, by the plan or by one move. The counts are those of the outcomes and add up, success
means that nothing is denied and nothing failed, and then `check` finds nothing that blocks. -/
theorem prefetch_outcomes (p : Policy) (o : Options) (t : Transport) (f : Lockfile) (w : World) :
    (∀ e, Plan.make w.files p f o.dialect = .error e → (prefetch p o t f w).2 = .error e ∧
      (prefetch p o t f w).1.calls = w.calls ∧ (prefetch p o t f w).1.files = w.files) ∧
    ∀ plan, Plan.make w.files p f o.dialect = .ok plan →
      (w.locked = [] → ∃ before after schedule,
        ((Run.start (w.tellAll before) plan).follow (o.workplace p t) schedule).Over ∧
        prefetch p o t f w =
          (((Run.start (w.tellAll before) plan).follow (o.workplace p t) schedule).world.tellAll
              after,
            .ok (Run.report plan.dialect.major o.cacheRoot
              ((Run.start (w.tellAll before) plan).follow (o.workplace p t) schedule).slots))) ∧
      ∀ (w' : World) (schedule : List Move),
        (w'.locked = [] → ∃ rest,
          ((Run.start w' plan).follow (o.workplace p t) (schedule ++ rest)).Over) ∧
        ∀ r report, (Run.start w' plan).follow (o.workplace p t) schedule = r → r.Over →
          Run.report plan.dialect.major o.cacheRoot r.slots = report →
          report.entries.length = plan.entries.length ∧
          (∀ i e, plan.entries[i]? = some e →
            ∃ out, report.entries[i]? = some (.make e.raw e.locator? out) ∧
              (∀ d, e.outcome? = some d → out = d) ∧
              (Run.start w' plan).filled? i = e.outcome? ∧ r.filled? i = some out ∧
              e.outcome?.toList.length +
                (Run.start w' plan).fillings (o.workplace p t) i schedule = 1) ∧
          report.summary = ⟨plan.entries.length,
            report.entries.countP (·.outcome matches .fetched ..),
            report.entries.countP (·.outcome matches .skipped _),
            report.entries.countP (·.outcome matches .denied _),
            report.entries.countP (·.outcome matches .failed ..)⟩ ∧
          report.summary.fetched + report.summary.skipped + report.summary.denied +
            report.summary.failed = report.summary.total ∧
          (report.success = true ↔ ∀ e ∈ report.entries,
            ¬ (e.outcome matches .denied _) ∧ ¬ (e.outcome matches .failed ..)) ∧
          (report.success = true → plan.entries.countP CommandLine.isBlocked = 0 ∧
            ∀ c x x' project, (CommandLine.openProject c).run.run x = (.ok project, x') →
              x'.world.files = w.files → project.lockfile = f → project.settings.policy = p →
              project.settings.dialect = o.dialect →
              ((CommandLine.check c).run.run x).1 = .ok 0) := by
  refine ⟨fun e he => ?_, fun plan hplan => ⟨fun hw => ?_, fun w' schedule => ⟨fun hw => ?_, ?_⟩⟩⟩
  · rw [prefetch_eq_error he]
    exact ⟨rfl, rfl, rfl⟩
  · obtain ⟨before, after, schedule, -, hover, hrun⟩ := prefetch_eq_follow (t := t) hplan hw
    exact ⟨before, after, schedule, hover, hrun⟩
  · obtain ⟨rest, -, hover⟩ :=
      ((Run.locked_start hw plan).follow (p := o.workplace p t) schedule).can_end
    exact ⟨rest, by rwa [Run.follow_append]⟩
  · rintro r report hr hover rfl
    have hjobs : r.jobs = plan.entries.map fun e => (e, e.pending?) := by
      rw [← hr, Run.jobs_follow, Run.jobs_start]
    have hlength : (Run.report plan.dialect.major o.cacheRoot r.slots).entries.length =
        plan.entries.length := by
      simpa [Run.report, Run.jobs] using congrArg List.length hjobs
    refine ⟨hlength, fun i e he => ?_, ?_, Report.summary_total _, Report.success_iff _,
      fun hsuccess => ?_⟩
    · obtain ⟨out, hout, hfilled, hdecided⟩ :=
        hover.reported hjobs plan.dialect.major o.cacheRoot he
      have hstart : (Run.start w' plan).filled? i = e.outcome? := by
        rw [Run.filled?_start, he]
        rfl
      refine ⟨out, hout, hdecided, hstart, hfilled, ?_⟩
      rw [← hstart]
      exact Run.fillings_eq (o.workplace p t) (hr ▸ hfilled)
    · rw [Report.summary_eq, hlength]
    · have hnone := hover.none_blocked hjobs hsuccess
      refine ⟨List.countP_eq_zero.mpr hnone, ?_⟩
      rintro c x x' project hopen hfiles rfl rfl hdialect
      have hmake : Plan.make x'.world.files project.settings.policy project.lockfile
          project.settings.dialect = .ok plan := by
        rw [hfiles, hdialect]
        exact hplan
      have hcheck := CommandLine.check_of_openProject hopen hmake
      rw [hcheck, if_neg fun hany => ?_]
      obtain ⟨e, he, hblocked⟩ := List.any_eq_true.mp hany
      exact hnone e he hblocked

/-- A package, a script, a part of the project, and what is no locator. -/
def mixedLockfile : Lockfile :=
  ⟨8, none, ["nonsense", "b@exec:./b.js", "c@workspace:.", "a@npm:1.0.0"].map fun l =>
    ⟨[l], none, none, none, none⟩⟩

def lenient : Policy := { Policy.ofRoot ⟨['/']⟩ with strict := false }

def notFound : Transport := fun _ _ => ⟨.error (.status "https://registry.yarnpkg.com" 404), false⟩

def mixedRun (plan : Plan) : Run :=
  (Run.start (.ofFiles ⟨[], []⟩) plan).follow (plainOptions.workplace lenient notFound)
    (List.replicate 8 (.work 3 none))

theorem prefetch_outcomes_mixed :
    ∃ plan, Plan.make ⟨[], []⟩ lenient mixedLockfile none = .ok plan ∧ (mixedRun plan).Over ∧
      (Run.report plan.dialect.major ⟨['/', 'c']⟩ (mixedRun plan).slots).summary =
        ⟨4, 0, 1, 1, 2⟩ ∧
      ∀ i e, plan.entries[i]? = some e → e.outcome?.toList.length +
        (Run.start (.ofFiles ⟨[], []⟩) plan).fillings (plainOptions.workplace lenient notFound) i
          (List.replicate 8 (.work 3 none)) = 1 := by
  have hd : (Plan.make ⟨[], []⟩ lenient mixedLockfile none).toOption.any (fun plan =>
      (mixedRun plan).Over ∧ (Run.report plan.dialect.major ⟨['/', 'c']⟩
        (mixedRun plan).slots).summary = ⟨4, 0, 1, 1, 2⟩) = true := by
    decide +kernel
  cases h : Plan.make ⟨[], []⟩ lenient mixedLockfile none with
  | error e =>
    rw [h] at hd
    cases hd
  | ok plan =>
    rw [h] at hd
    obtain ⟨hover, hsummary⟩ := of_decide_eq_true hd
    have hall := (((prefetch_outcomes lenient plainOptions notFound mixedLockfile
      (.ofFiles ⟨[], []⟩)).2 plan h).2 (.ofFiles ⟨[], []⟩) (List.replicate 8 (.work 3 none))).2
      (mixedRun plan) _ rfl hover rfl
    refine ⟨plan, rfl, hover, hsummary, fun i e he => ?_⟩
    obtain ⟨-, -, -, -, -, hfilled⟩ := hall.2.1 i e he
    exact hfilled

end OfflineCache
