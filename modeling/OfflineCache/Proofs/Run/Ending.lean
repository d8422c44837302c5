import OfflineCache.Proofs.Run.Contents
import OfflineCache.Proofs.Store.Locks

/-! How a run ends. Each step of a worker brings its end nearer unless the worker waits for a locked path,
and a path is locked only while another worker goes on. So every run can be brought to its end
(`Run.can_end`), and the one that lets the workers finish in turn comes to it (`Run.finishAll_over`). -/

namespace OfflineCache

/-! ## One worker -/

/-- How many stages of a replacement are left at most. -/
def Replacement.stagesLeft : Replacement → Nat
  | .preparing => 5
  | .creating => 4
  | .writing => 3
  | .renaming => 2
  | .abandoning _ => 1
  | .done _ => 0

theorem Replacement.stagesLeft_attempt (m : Option Mishap) (t : FileTree)
    (change : Except FileTree.Fault FileTree) (next : Replacement) :
    (attempt m t change next .abandoning).2 = next ∨
      ∃ f, (attempt m t change next .abandoning).2 = .abandoning f := by
  unfold attempt
  split
  · exact Or.inr ⟨_, rfl⟩
  · exact Or.inl rfl
  · exact Or.inr ⟨_, rfl⟩

theorem Replacement.stagesLeft_step (dest tmp : Path) (b : Bytes) (m : Option Mishap) (t : FileTree)
    {r : Replacement} (h : ∀ x, r ≠ .done x) :
    (r.step dest tmp b m t).2.stagesLeft < r.stagesLeft := by
  cases r with
  | preparing =>
    simp only [step]
    split
    · simp [stagesLeft]
    · split <;> simp [stagesLeft]
  | creating =>
    rcases stagesLeft_attempt m t (t.createFile tmp) .writing with he | ⟨f, he⟩ <;>
      simp [step, he, stagesLeft]
  | writing =>
    cases m with
    | some x => simp [step, stagesLeft]
    | none =>
      rcases stagesLeft_attempt none t (t.writeFile tmp b) .renaming with he | ⟨f, he⟩ <;>
        simp [step, he, stagesLeft]
  | «renaming» =>
    rcases stagesLeft_attempt m t (t.renameFile tmp dest) (.done (.ok ())) with he | ⟨f, he⟩ <;>
      simp [step, he, stagesLeft]
  | abandoning f => cases m <;> simp [step, stagesLeft]
  | done x => exact absurd rfl (h x)

namespace Storing

/-- How many steps are left at most, the waiting aside. -/
def stepsLeft : Storing → Nat
  | .starting => 10
  | .locking _ => 9
  | .comparing _ => 8
  | .replacing _ _ r => r.stagesLeft + 2
  | .unlocking _ _ => 1
  | .done _ => 0

theorem stepsLeft_step (s : Store) (l : Locator) (a : Artifact) (m : Option Mishap) (w : World)
    {st : Storing} (h : ∀ r, st ≠ .done r) (hfree : ∀ c, st.awaits? = some c → c ∉ w.locked) :
    (st.step s l a m w).2.stepsLeft < st.stepsLeft := by
  cases st with
  | starting =>
    simp only [step]
    split <;> simp [stepsLeft]
  | locking e =>
    have hnot := hfree e.path.components rfl
    simp only [step]
    split
    · rename_i hin
      exact absurd (by simpa using hin) hnot
    · simp [stepsLeft]
  | comparing e =>
    simp only [step, compare]
    split
    · split <;> simp [stepsLeft, Replacement.stagesLeft]
    · simp [stepsLeft, Replacement.stagesLeft]
  | replacing e tmp r =>
    by_cases hd : ∃ x, r = .done x
    · obtain ⟨x, rfl⟩ := hd
      cases x <;> simp [step, stepsLeft]
    · have hr : ∀ x, r ≠ .done x := fun x he => hd ⟨x, he⟩
      have hless := Replacement.stagesLeft_step e.path tmp a.bytes m w.files hr
      rw [step_replacing s l a m w e tmp hr]
      simp only [stepsLeft]
      omega
  | unlocking e r => simp [step, stepsLeft]
  | done r => exact absurd rfl (h r)

end Storing

namespace Worker

def lock? : Worker → Option Lock
  | .storing _ s => s.lock?
  | _ => none

def awaits? : Worker → Option Lock
  | .storing _ s => s.awaits?
  | _ => none

/-- How many steps are left at most, the waiting aside. -/
def stepsLeft (f : Fetcher) : Worker → Nat
  | .waiting => Fetching.starting.stepsLeft f + Storing.maxSteps + 2
  | .fetching s => s.stepsLeft f + Storing.maxSteps + 1
  | .storing _ s => s.stepsLeft + 1
  | .finished _ => 0

theorem isFinished_iff {k : Worker} : k.isFinished = true ↔ ∃ o, k = .finished o := by
  cases k <;> simp [isFinished, outcome?]

theorem lock?_of_awaits? {k : Worker} {c : Lock} (h : k.awaits? = some c) : k.lock? = none := by
  cases k with
  | storing a s => cases s <;> first | rfl | cases h
  | _ => cases h

variable (p : Workplace) (l : Locator) (m : Option Mishap) (w : World)

theorem locking_step (k : Worker) :
    Locking w.locked k.lock? (k.step p l m w).1.locked (k.step p l m w).2.lock? := by
  cases k using stages with
  | waiting =>
    simp only [step]
    split <;> exact .same
  | fetching s hs =>
    rw [step_fetching p l m w hs]
    have hlocked : (s.step p.fetcher p.transport l w).1.locked = w.locked :=
      (Fetching.frame_step p.fetcher p.transport l w s).locked
    simp only [hlocked]
    exact .same
  | fetched a => exact .same
  | failed e =>
    simp only [step, afterFailure]
    split <;> exact .same
  | storing a s hs =>
    rw [step_storing p l m w a hs]
    exact Storing.locking_step p.store l a m w s
  | stored a r => cases r <;> exact .same
  | finished o => exact .same

theorem stepsLeft_step {k : Worker} (h : k.isFinished = false)
    (hfree : ∀ c, k.awaits? = some c → c ∉ w.locked) :
    (k.step p l m w).2.stepsLeft p.fetcher < k.stepsLeft p.fetcher := by
  cases k using stages with
  | waiting =>
    simp only [step]
    split <;> simp [stepsLeft, Storing.maxSteps]
  | fetching s hs =>
    have hless := Fetching.stepsLeft_step p.fetcher p.transport l w hs
    rw [step_fetching p l m w hs]
    simp only [stepsLeft]
    omega
  | fetched a => simp [step, stepsLeft, Fetching.stepsLeft, Storing.stepsLeft, Storing.maxSteps]
  | failed e =>
    simp only [step, afterFailure]
    split <;> simp [stepsLeft, Storing.maxSteps]
  | storing a s hs =>
    have hless := Storing.stepsLeft_step p.store l a m w hs hfree
    rw [step_storing p l m w a hs]
    simp only [stepsLeft]
    omega
  | stored a r => cases r <;> simp [step, stepsLeft]
  | finished o => cases h

theorem isFinished_of_stepsLeft {f : Fetcher} {k : Worker} (h : k.stepsLeft f = 0) :
    k.isFinished = true := by
  cases k with
  | finished o => rfl
  | _ => simp [stepsLeft] at h

variable {p l w}

theorem steps_succ {k : Worker} (h : k.isFinished = false) (n : Nat) :
    k.steps p l (n + 1) w = (k.step p l none w).2.steps p l n (k.step p l none w).1 := by
  cases k with
  | finished o => cases h
  | _ => rfl

/-- Where no path is locked but its own, a worker comes to its end, and nothing stays locked. -/
theorem finished_of_steps {k : Worker} (h : Locks.Owned w.locked fun _ : Unit => k.lock?) {n : Nat}
    (hn : k.stepsLeft p.fetcher ≤ n) :
    (k.steps p l n w).2.isFinished = true ∧ (k.steps p l n w).1.locked = [] := by
  have hend : ∀ {w : World} {k : Worker}, (Locks.Owned w.locked fun _ : Unit => k.lock?) →
      k.lock? = none → w.locked = [] := by
    intro w k h hnone
    refine List.eq_nil_iff_forall_not_mem.mpr fun c hc => ?_
    obtain ⟨-, hi⟩ := h.owned c hc
    rw [hnone] at hi
    cases hi
  have hover : ∀ {w : World} {k : Worker}, (Locks.Owned w.locked fun _ : Unit => k.lock?) →
      k.isFinished = true → w.locked = [] := by
    intro w k h hk
    obtain ⟨o, rfl⟩ := isFinished_iff.mp hk
    exact hend h rfl
  induction n generalizing w k with
  | zero =>
    have hk := isFinished_of_stepsLeft (Nat.le_zero.mp hn)
    exact ⟨hk, hover h hk⟩
  | succ n ih =>
    by_cases hk : k.isFinished = true
    · obtain ⟨o, rfl⟩ := isFinished_iff.mp hk
      exact ⟨rfl, hover h rfl⟩
    · rw [Bool.not_eq_true] at hk
      have hless := stepsLeft_step p l none w hk fun c hc => by
        simp [hend h (lock?_of_awaits? hc)]
      rw [steps_succ hk]
      exact ih (h.step (i := ()) (locking_step p l none w k) fun j hj => absurd rfl hj) (by omega)

end Worker

/-! ## Runs -/

namespace Run

variable {p : Workplace}

/-- The lock that the worker of a slot holds. -/
def lock? (r : Run) (i : Nat) : Option Lock := (r.worker? i).bind (·.2.lock?)

/-- Every lock of the run is held by one of its workers. -/
abbrev Locked (r : Run) : Prop := Locks.Owned r.world.locked r.lock?

theorem locked_start {w : World} (h : w.locked = []) (plan : Plan) : (start w plan).Locked := by
  have hw : (start w plan).world.locked = [] := h
  rw [Locked, hw]
  refine .nil fun i => ?_
  unfold lock?
  cases hk : (start w plan).worker? i with
  | none => rfl
  | some lk =>
    obtain ⟨l, k⟩ := lk
    rw [worker?_start hk]
    rfl

theorem Locked.move {r : Run} (h : r.Locked) (m : Move) : (r.move p m).Locked := by
  cases m with
  | stop => exact h
  | work i x =>
    cases hk : r.worker? i with
    | none =>
      rw [move_of_none hk x]
      exact h
    | some lk =>
      obtain ⟨l, k⟩ := lk
      obtain ⟨hw, hi, hother⟩ := move_worker (p := p) hk x
      refine h.step (i := i) ?_ fun j hj => by rw [lock?, hother j hj, lock?]
      rw [lock?, lock?, hk, hi, hw]
      exact k.locking_step p l x r.world

theorem Locked.follow {r : Run} (h : r.Locked) (schedule : List Move) :
    (r.follow p schedule).Locked := by
  induction schedule generalizing r with
  | nil => exact h
  | cons m ms ih => exact ih (h.move m)

theorem over_iff {r : Run} :
    r.Over ↔ r.slots.all (fun s => s.task.all (·.2.isFinished)) = true := by
  rw [List.all_eq_true]
  constructor
  · intro h s hs
    obtain ⟨i, hi⟩ := List.mem_iff_getElem?.mp hs
    cases ht : s.task with
    | none => rfl
    | some lk => exact h i lk.1 lk.2 (by rw [worker?, hi]; exact ht)
  · intro h i l k hk
    obtain ⟨s, hs, ht⟩ := Option.bind_eq_some_iff.mp hk
    have hs' := h s (List.mem_of_getElem? hs)
    rw [ht] at hs'
    exact hs'

instance (r : Run) : Decidable r.Over := decidable_of_iff _ over_iff.symm

/-! ## Measures of the work that is left -/

theorem foldr_set_add {α : Type} (f : α → Nat) {xs : List α} {i : Nat} {x : α} (h : xs[i]? = some x)
    (y : α) : (xs.set i y).foldr (fun z n => f z + n) 0 + f x =
      xs.foldr (fun z n => f z + n) 0 + f y := by
  induction xs generalizing i with
  | nil => cases h
  | cons z zs ih =>
    cases i with
    | zero =>
      obtain rfl : z = x := by simpa using h
      simp only [List.set_cons_zero, List.foldr_cons]
      omega
    | succ i =>
      have hrest := ih (by simpa using h)
      simp only [List.set_cons_succ, List.foldr_cons]
      omega

/-- What the worker of a slot has left by a measure, nothing without a worker. -/
def share (f : Worker → Nat) (s : Slot) : Nat := s.task.elim 0 fun lk => f lk.2

/-- What all workers have left. -/
def total (f : Worker → Nat) (r : Run) : Nat := r.slots.foldr (fun s n => share f s + n) 0

/-- A move changes what its worker has left. -/
theorem total_move (f : Worker → Nat) {r : Run} {i : Nat} {l : Locator} {k : Worker}
    (h : r.worker? i = some (l, k)) (x : Option Mishap) :
    (r.move p (.work i x)).total f + f k = r.total f + f (k.step p l x r.world).2 := by
  obtain ⟨⟨e, task⟩, hs, ht⟩ := Option.bind_eq_some_iff.mp h
  obtain rfl : task = some (l, k) := ht
  simp only [move, hs]
  exact foldr_set_add (share f) hs ⟨e, some (l, (k.step p l x r.world).2)⟩

theorem le_total (f : Worker → Nat) {r : Run} {i : Nat} {l : Locator} {k : Worker}
    (h : r.worker? i = some (l, k)) : f k ≤ r.total f := by
  obtain ⟨⟨e, task⟩, hs, ht⟩ := Option.bind_eq_some_iff.mp h
  obtain rfl : task = some (l, k) := ht
  have hrest := foldr_set_add (share f) hs ⟨e, none⟩
  simp only [share, Option.elim_some, Option.elim_none] at hrest
  exact Nat.le.intro ((Nat.add_comm _ _).trans hrest)

/-- How many steps all workers have left at most, the waiting aside. -/
def stepsLeft (p : Workplace) (r : Run) : Nat := r.total (·.stepsLeft p.fetcher)

theorem stepsLeft_move {r : Run} {i : Nat} {l : Locator} {k : Worker}
    (h : r.worker? i = some (l, k)) (x : Option Mishap)
    (hless : (k.step p l x r.world).2.stepsLeft p.fetcher < k.stepsLeft p.fetcher) :
    (r.move p (.work i x)).stepsLeft p < r.stepsLeft p := by
  have hmove := total_move (p := p) (·.stepsLeft p.fetcher) h x
  unfold stepsLeft
  omega

/-- **Some worker can go on** as long as not all are through. -/
theorem Locked.progress {r : Run} (h : r.Locked) (hover : ¬ r.Over) :
    ∃ i, (r.move p (.work i none)).stepsLeft p < r.stepsLeft p := by
  have hmove : ∀ i l k, r.worker? i = some (l, k) → k.isFinished = false →
      (∀ c, k.awaits? = some c → c ∉ r.world.locked) →
        ∃ i, (r.move p (.work i none)).stepsLeft p < r.stepsLeft p :=
    fun i l k hk hfin hfree =>
      ⟨i, stepsLeft_move hk none (Worker.stepsLeft_step p l none r.world hfin hfree)⟩
  simp only [Over, not_forall, Bool.not_eq_true] at hover
  obtain ⟨i, l, k, hk, hfin⟩ := hover
  by_cases hfree : ∀ c, k.awaits? = some c → c ∉ r.world.locked
  · exact hmove i l k hk hfin hfree
  · -- the path is locked by a worker that does not wait itself
    push Not at hfree
    obtain ⟨c, -, hc⟩ := hfree
    obtain ⟨j, hj⟩ := h.owned c hc
    obtain ⟨⟨l', k'⟩, hk', hlock⟩ := Option.bind_eq_some_iff.mp hj
    refine hmove j l' k' hk' ?_ fun d hd => ?_
    · cases k' with
      | finished o => cases hlock
      | _ => rfl
    · rw [Worker.lock?_of_awaits? hd] at hlock
      cases hlock

/-- **Every run can be brought to its end**, by moves without mishaps. -/
theorem Locked.can_end {r : Run} (h : r.Locked) :
    ∃ schedule, Smooth schedule ∧ (r.follow p schedule).Over := by
  generalize hn : r.stepsLeft p = n
  induction n using Nat.strongRecOn generalizing r with
  | _ n ih =>
    by_cases hover : r.Over
    · exact ⟨[], nofun, hover⟩
    · obtain ⟨i, hless⟩ := h.progress (p := p) hover
      obtain ⟨ms, hms, hend⟩ := ih _ (hn ▸ hless) (h.move (.work i none)) rfl
      exact ⟨.work i none :: ms, hms.cons i, hend⟩

/-- Workers that have not begun finish in turn, and leave no path locked. -/
theorem finished_of_finishAll {w : World} {slots : List Slot} (hw : w.locked = [])
    (hs : ∀ s ∈ slots, ∀ l k, s.task = some (l, k) → k = .waiting) :
    (finishAll p w slots).1.locked = [] ∧
      ∀ s ∈ (finishAll p w slots).2, ∀ l k, s.task = some (l, k) → k.isFinished = true := by
  induction slots generalizing w with
  | nil => exact ⟨hw, fun s hm => absurd hm List.not_mem_nil⟩
  | cons s rest ih =>
    obtain ⟨e, task⟩ := s
    have hrest : ∀ s ∈ rest, ∀ l k, s.task = some (l, k) → k = .waiting :=
      fun s hm => hs s (List.mem_cons_of_mem _ hm)
    cases task with
    | none =>
      obtain ⟨hlocked, hall⟩ := ih hw hrest
      refine ⟨hlocked, fun s hm l k ht => ?_⟩
      rcases List.mem_cons.mp hm with rfl | hm
      · cases ht
      · exact hall s hm l k ht
    | some lk =>
      obtain ⟨l, k⟩ := lk
      obtain rfl := hs _ (List.mem_cons_self) l k rfl
      have hlocks : Locks.Owned w.locked fun _ : Unit => Worker.waiting.lock? := by
        rw [hw]
        exact .nil fun _ => rfl
      obtain ⟨hfin, hfree⟩ := Worker.finished_of_steps (p := p) (l := l) hlocks
        (n := Worker.maxSteps p) (by simp [Worker.stepsLeft, Worker.maxSteps])
      obtain ⟨hlocked, hall⟩ := ih hfree hrest
      refine ⟨hlocked, fun s hm l' k' ht => ?_⟩
      rcases List.mem_cons.mp hm with rfl | hm
      · obtain ⟨rfl, rfl⟩ := Prod.mk.inj (Option.some.inj ht)
        exact hfin
      · exact hall s hm l' k' ht

end Run

/-- **Prefetching is a run that ends.**  Where no path is locked at the start, a prefetch with a plan is a
run by a schedule without mishaps at whose end all workers are through. -/
theorem prefetch_eq_follow {p : Policy} {o : Options} {t : Transport} {f : Lockfile} {w : World}
    {plan : Plan} (h : Plan.make w.files p f o.dialect = .ok plan) (hw : w.locked = []) :
    ∃ before after schedule, Run.Smooth schedule ∧
      ((Run.start (w.tellAll before) plan).follow (o.workplace p t) schedule).Over ∧
      prefetch p o t f w =
        (((Run.start (w.tellAll before) plan).follow (o.workplace p t) schedule).world.tellAll after,
          .ok (Run.report plan.dialect.major o.cacheRoot
            ((Run.start (w.tellAll before) plan).follow (o.workplace p t) schedule).slots)) := by
  let told := (w.tellAll (Plan.events w.files p f o.dialect)).tell (.started plan.dialect.major
    plan.entries.length (plan.entries.countP (·.needsFetch)) o.jobs)
  obtain ⟨before, htold⟩ : ∃ es, told = w.tellAll es :=
    ⟨Plan.events w.files p f o.dialect ++ [.started plan.dialect.major plan.entries.length
      (plan.entries.countP (·.needsFetch)) o.jobs], by simp [told, World.tellAll, World.tell]⟩
  have hwaiting : ∀ s ∈ plan.entries.map Slot.ofEntry, ∀ l k, s.task = some (l, k) →
      k = .waiting := by
    intro s hm l k ht
    obtain ⟨e, -, rfl⟩ := List.mem_map.mp hm
    obtain ⟨l', -, hl⟩ := Option.map_eq_some_iff.mp ht
    exact (Prod.mk.inj hl).2.symm
  obtain ⟨schedule, hsmooth, hs⟩ := Run.finishAll_eq_follow (o.workplace p t) told
    (plan.entries.map Slot.ofEntry)
  have hfinished := (Run.finished_of_finishAll (p := o.workplace p t) (w := told) hw hwaiting).2
  have hfiles : (w.tellAll (Plan.events w.files p f o.dialect)).files = w.files := rfl
  let s := (Run.report plan.dialect.major o.cacheRoot (Run.finishAll (o.workplace p t) told
    (plan.entries.map Slot.ofEntry)).2).summary
  refine ⟨before, [.finished s.fetched s.skipped s.denied s.failed], schedule, hsmooth, ?_, ?_⟩
  · rw [← htold, Run.start, hs]
    intro i l k hk
    obtain ⟨s, hm, ht⟩ := Option.bind_eq_some_iff.mp hk
    exact hfinished s (List.mem_of_getElem? hm) l k ht
  · rw [← htold, Run.start, hs]
    simp only [prefetch, hfiles, h]
    rfl

end OfflineCache
