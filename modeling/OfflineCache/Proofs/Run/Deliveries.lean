import OfflineCache.Proofs.Run.Workers

/-! Who puts what where. All workers of a run write into one cache, each by way of temporary files
that no other uses. `Orderly` is what every run keeps: the files are tended, each worker is honest,
temporary names are told apart, and what is about to be moved to its place is complete. From it,
`Orderly.touched_of_move`: but for new directories, a move changes a place only if it is that of a
temporary file, or if the moved worker delivers its artifact there. -/

namespace OfflineCache

open FileTree Replacement

/-! ## Temporary paths of workers -/

theorem Path.join_name_inj {p : Path} {a b : List Char} (ha : a.head? = some '.')
    (hb : b.head? = some '.') (h : p / (⟨a⟩ : Path) = p / (⟨b⟩ : Path)) : a = b := by
  have habs : ∀ {c : List Char}, c.head? = some '.' → (⟨c⟩ : Path).isAbsolute = false := by
    intro c hc
    simp [isAbsolute, hc]
  have hj : join p ⟨a⟩ = join p ⟨b⟩ := h
  simp only [join, habs ha, habs hb, Bool.false_eq_true, false_or] at hj
  split at hj
  · exact congrArg Path.chars hj
  · split at hj
    · exact List.append_cancel_left (congrArg Path.chars hj)
    · exact List.tail_eq_of_cons_eq (List.append_cancel_left (congrArg Path.chars hj))

theorem Replacement.temporaryFor_inj {dest : Path} {process i j : Nat}
    (h : temporaryFor dest process i = temporaryFor dest process j) : i = j :=
  counter_of_temporaryName (m := dest.fileName?.getD []) (n := dest.fileName?.getD [])
    (Path.join_name_inj rfl rfl h)

namespace Worker

/-- The worker replaces a file by way of the temporary file of use `c`. -/
def Uses (process : Nat) (k : Worker) (c : Nat) : Prop :=
  ∃ a e st, k.replacing? = some (a, e, temporaryFor e.path process c, st)

/-- How the worker does it: below the root of the store, at these names. -/
structure Puts (s : Store) (process : Nat) (k : Worker) (a : Artifact) (e : CacheEntry)
    (site : Target) (c : Nat) (st : Replacement) : Prop where
  replacing : k.replacing? = some (a, e, temporaryFor e.path process c, st)
  root : site.root = s.root
  spells : site.Spells e.path (temporaryFor e.path process c)
  scratch : site.scratch = temporaryName site.name process c
  file : e.path.fileName? = some site.name

variable {s : Store} {process : Nat} {l : Locator} {k : Worker} {a : Artifact} {e : CacheEntry}
  {site : Target} {c : Nat} {st : Replacement}

theorem Puts.uses (h : Puts s process k a e site c st) : k.Uses process c :=
  ⟨a, e, st, h.replacing⟩

theorem Puts.name_ne (h : Puts s process k a e site c st) : site.name ≠ site.scratch := by
  rw [h.scratch]
  exact ne_temporaryName site.name process c

theorem Honest.puts (h : k.Honest s l)
    (hr : k.replacing? = some (a, e, temporaryFor e.path process c, st)) :
    ∃ site, Puts s process k a e site c st := by
  obtain ⟨-, q, names, n, hplain, hpath⟩ := Store.plain_of_entry (h.replacing hr).2
  refine ⟨⟨s.root, names, n, temporaryName n process c⟩, hr, rfl, ?_, rfl, ?_⟩
  · rw [hpath]
    exact spells_temporaryFor hplain s.root process c
  · rw [hpath]
    exact hplain.fileName?_join s.root

end Worker

/-! ## Moves -/

namespace Run

/-- The worker of a slot, with its locator. -/
def worker? (r : Run) (i : Nat) : Option (Locator × Worker) := r.slots[i]?.bind (·.task)

/-- A worker's step, as a move of the run. -/
theorem move_worker {p : Workplace} {r : Run} {i : Nat} {l : Locator} {k : Worker}
    (h : r.worker? i = some (l, k)) (x : Option Mishap) :
    (r.move p (.work i x)).world = (k.step p l x r.world).1 ∧
      (r.move p (.work i x)).worker? i = some (l, (k.step p l x r.world).2) ∧
      ∀ j, j ≠ i → (r.move p (.work i x)).worker? j = r.worker? j := by
  obtain ⟨⟨e, task⟩, hs, ht⟩ := Option.bind_eq_some_iff.mp h
  obtain rfl : task = some (l, k) := ht
  have hi : i < r.slots.length := (List.getElem?_eq_some_iff.mp hs).1
  have hmove : r.move p (.work i x) = ⟨(k.step p l x r.world).1,
      r.slots.set i ⟨e, some (l, (k.step p l x r.world).2)⟩⟩ := by
    simp only [move, hs]
  rw [hmove]
  refine ⟨rfl, ?_, fun j hj => ?_⟩
  · simp [worker?, hi]
  · simp [worker?, hj.symm]

theorem move_of_none {p : Workplace} {r : Run} {i : Nat} (h : r.worker? i = none)
    (x : Option Mishap) : r.move p (.work i x) = r := by
  simp only [move]
  split
  · rename_i hs
    rw [worker?, hs] at h
    cases h
  · rfl

/-- The entries with the locators that are fetched for them. -/
def jobs (r : Run) : List (PlannedEntry × Option Locator) :=
  r.slots.map fun s => (s.entry, s.task.map (·.1))

theorem jobs_start (w : World) (plan : Plan) :
    (start w plan).jobs = plan.entries.map fun e => (e, e.pending?) := by
  simp only [jobs, start, List.map_map]
  refine List.map_congr_left fun e _ => ?_
  simp [Slot.ofEntry, Function.comp_def]

theorem jobs_move (p : Workplace) (r : Run) (m : Move) : (r.move p m).jobs = r.jobs := by
  refine List.ext_getElem? fun i => ?_
  simp only [jobs, List.getElem?_map]
  rcases move_slot p r m i with h | ⟨e, l, k, x, -, hs, h⟩
  · rw [h]
  · rw [h, hs]
    rfl

theorem jobs_follow (p : Workplace) (r : Run) (schedule : List Move) : (r.follow p schedule).jobs = r.jobs := by
  induction schedule generalizing r with
  | nil => rfl
  | cons m ms ih => rw [follow_cons, ih, jobs_move]

/-- A run has the entries of its plan, in their order. -/
theorem entries_follow (p : Workplace) (w : World) (plan : Plan) (schedule : List Move) :
    ((start w plan).follow p schedule).slots.map (·.entry) = plan.entries := by
  have hjobs := congrArg (List.map (·.1)) (jobs_follow p (start w plan) schedule)
  rw [jobs_start] at hjobs
  simpa [jobs, Function.comp_def] using hjobs

/-- What a move does: nothing to files and workers, or one step of one worker. -/
inductive Moves (p : Workplace) (r : Run) : Move → Run → Prop
  | idle {m : Move} {r' : Run} : r'.slots = r.slots → r'.world.files = r.world.files →
      r'.world.process = r.world.process → r'.world.temporaries = r.world.temporaries →
      Moves p r m r'
  | work {i : Nat} {x : Option Mishap} {l : Locator} {k : Worker} {r' : Run} :
      r.worker? i = some (l, k) → r'.world = (k.step p l x r.world).1 →
      r'.worker? i = some (l, (k.step p l x r.world).2) →
      (∀ j, j ≠ i → r'.worker? j = r.worker? j) → Moves p r (.work i x) r'

theorem moves (p : Workplace) (r : Run) (m : Move) : Moves p r m (r.move p m) := by
  cases m with
  | stop => exact .idle rfl rfl rfl rfl
  | work i x =>
    cases hs : r.worker? i with
    | some lk =>
      obtain ⟨hw, hi, hother⟩ := move_worker (p := p) hs x
      exact .work hs hw hi hother
    | none =>
      rw [move_of_none hs]
      exact .idle rfl rfl rfl rfl

/-- Only a stage of a replacement touches the files. -/
theorem files_of_move (p : Workplace) (r : Run) (m : Move) :
    (r.move p m).world.files = r.world.files ∨
      ∃ i x l a e tmp st, m = .work i x ∧
        r.worker? i = some (l, .storing a (.replacing e tmp st)) ∧ (∀ y, st ≠ .done y) ∧
        (r.move p m).world.files = (st.step e.path tmp a.bytes x r.world.files).1 := by
  have hm := moves p r m
  generalize r.move p m = r' at hm ⊢
  cases hm with
  | idle _ hfiles _ _ => exact Or.inl hfiles
  | @work i x l k _ hk hw _ _ =>
    rw [hw]
    have hc := Worker.change_step p x r.world l k
    generalize k.step p l x r.world = y at hc ⊢
    obtain ⟨w', k'⟩ := y
    cases hc with
    | quiet hfiles _ _ _ _ => exact Or.inl hfiles
    | matched hfiles _ _ _ => exact Or.inl hfiles
    | begun hfiles _ => exact Or.inl hfiles
    | @staged a e tmp st hst => exact Or.inr ⟨i, x, l, a, e, tmp, st, rfl, hk, hst, rfl⟩

/-- **Where a worker stands after a move.**  As it stood, and then the move was none of its own; or one
step further. -/
theorem worker_of_move {p : Workplace} {r : Run} {m : Move} {i : Nat} {l : Locator} {k : Worker}
    (h : (r.move p m).worker? i = some (l, k)) :
    (r.worker? i = some (l, k) ∧ ∀ x, m ≠ .work i x) ∨
      ∃ x k', m = .work i x ∧ r.worker? i = some (l, k') ∧
        (r.move p m).world = (k'.step p l x r.world).1 ∧ k = (k'.step p l x r.world).2 := by
  cases m with
  | stop => exact Or.inl ⟨h, nofun⟩
  | work j x =>
    cases hj : r.worker? j with
    | none =>
      rw [move_of_none hj] at h
      refine Or.inl ⟨h, ?_⟩
      rintro y ⟨⟩
      cases hj.symm.trans h
    | some lk =>
      obtain ⟨hworld, hmoved, hother⟩ := move_worker (p := p) hj x
      by_cases hij : i = j
      · subst hij
        obtain ⟨rfl, rfl⟩ := Prod.mk.inj (Option.some.inj (hmoved.symm.trans h))
        exact Or.inr ⟨x, lk.2, rfl, hj, hworld, rfl⟩
      · exact Or.inl ⟨(hother i hij).symm.trans h, fun y hy => hij (Move.work.inj hy).1.symm⟩

/-- What the steps of workers keep, every worker of a run keeps. -/
theorem workers_move {p : Workplace} {P : Locator → Worker → Prop}
    (hP : ∀ l x w k, P l k → P l (k.step p l x w).2) {r : Run}
    (h : ∀ i l k, r.worker? i = some (l, k) → P l k) (m : Move) :
    ∀ i l k, (r.move p m).worker? i = some (l, k) → P l k := by
  intro i l k hk
  rcases worker_of_move hk with ⟨hk, -⟩ | ⟨x, k', -, hk', -, rfl⟩
  · exact h i l k hk
  · exact hP l x r.world k' (h i l k' hk')

/-- The temporary names of this program are not those of entries that were delivered. -/
def Fresh (process : Nat) (r : Run) : Prop :=
  ∀ i l k path digest, r.worker? i = some (l, k) → k.delivered? = some (path, digest) →
    ∀ n c, path.fileName? ≠ some (temporaryName n process c)

/-- What has been delivered stays so. -/
theorem delivers_move {p : Workplace} {r : Run} (m : Move) {i : Nat} {l : Locator} {k : Worker}
    (h : r.worker? i = some (l, k)) : ∃ k', (r.move p m).worker? i = some (l, k') ∧
      ∀ d, k.delivered? = some d → k'.delivered? = some d := by
  have hm := moves p r m
  generalize r.move p m = r' at hm ⊢
  cases hm with
  | idle hs _ _ _ => exact ⟨k, by rw [worker?, hs]; exact h, fun _ hd => hd⟩
  | @work j x l' k' _ hk hw hj hother =>
    by_cases hij : i = j
    · subst hij
      obtain ⟨rfl, rfl⟩ : l' = l ∧ k' = k := by simpa using hk.symm.trans h
      exact ⟨_, hj, fun d hd => Worker.delivered?_step p x r.world hd⟩
    · exact ⟨k, (hother i hij).trans h, fun _ hd => hd⟩

theorem Fresh.of_move {process : Nat} {p : Workplace} {r : Run} {m : Move}
    (h : Fresh process (r.move p m)) : Fresh process r := by
  intro i l k path digest hk hd
  obtain ⟨k', hk', hdel⟩ := delivers_move (p := p) m hk
  exact h i l k' path digest hk' (hdel _ hd)

structure Orderly (p : Workplace) (w : World) (r : Run) : Prop where
  tended : Tended w.files r.world.files
  process : r.world.process = w.process
  honest : ∀ i l k, r.worker? i = some (l, k) → k.Honest p.store l
  scratch : ∀ i l k a e tmp st, r.worker? i = some (l, k) → k.replacing? = some (a, e, tmp, st) →
    ∃ c, tmp = temporaryFor e.path w.process c
  below : ∀ i l k c, r.worker? i = some (l, k) → k.Uses w.process c → c < r.world.temporaries
  apart : ∀ i j l l' k k' c, r.worker? i = some (l, k) → r.worker? j = some (l', k') →
    k.Uses w.process c → k'.Uses w.process c → i = j
  ready : ∀ i l k a e site c, r.worker? i = some (l, k) →
    k.Puts p.store w.process a e site c .renaming → site.Ready a.bytes r.world.files

theorem worker?_start {w : World} {plan : Plan} {i : Nat} {l : Locator} {k : Worker}
    (h : (start w plan).worker? i = some (l, k)) : k = .waiting := by
  obtain ⟨s, hs, ht⟩ := Option.bind_eq_some_iff.mp h
  obtain ⟨e, -, rfl⟩ := List.mem_map.mp (List.mem_of_getElem? hs)
  obtain ⟨l', -, hl⟩ := Option.map_eq_some_iff.mp ht
  exact (Prod.mk.inj hl).2.symm

theorem workers_follow {p : Workplace} {P : Locator → Worker → Prop}
    (hP : ∀ l x w k, P l k → P l (k.step p l x w).2) (hwaiting : ∀ l, P l .waiting) (w : World)
    (plan : Plan) (schedule : List Move) :
    ∀ i l k, ((start w plan).follow p schedule).worker? i = some (l, k) → P l k := by
  induction schedule using List.reverseRecOn with
  | nil =>
    intro i l k h
    rw [worker?_start h]
    exact hwaiting l
  | append_singleton ms m ih =>
    rw [follow_append]
    exact workers_move hP ih m

theorem orderly_start (p : Workplace) (w : World) (plan : Plan) : Orderly p w (start w plan) := by
  refine ⟨.refl _, rfl, ?_, ?_, ?_, ?_, ?_⟩
  · intro i l k h
    rw [worker?_start h]
    trivial
  · intro i l k a e tmp st h hr
    rw [worker?_start h] at hr
    cases hr
  · rintro i l k c h ⟨a, e, st, hr⟩
    rw [worker?_start h] at hr
    cases hr
  · rintro i j l l' k k' c h - ⟨a, e, st, hr⟩ -
    rw [worker?_start h] at hr
    cases hr
  · intro i l k a e site c h hp
    have hr := hp.replacing
    rw [worker?_start h] at hr
    cases hr

/-- What a move does at a place, other than making it a directory. -/
inductive Touched (p : Workplace) (w : World) (r : Run) (q : Place) : Move → Prop
  | scratch {i : Nat} {x : Option Mishap} {l : Locator} {k : Worker} {a : Artifact}
      {e : CacheEntry} {site : Target} {c : Nat} {st : Replacement} {place : Place} :
      r.worker? i = some (l, k) → k.Puts p.store w.process a e site c st →
      q = site.temporary place → Touched p w r q (.work i x)
  | delivered {i : Nat} {x : Option Mishap} {l : Locator} {k : Worker} {a : Artifact}
      {e : CacheEntry} {tmp : Path} {b : Bool} : r.worker? i = some (l, k) →
      k.replacing? = some (a, e, tmp, .renaming) →
      Worker.Delivers p.store l a e (k.step p l x r.world).2 →
      (r.move p (.work i x)).world.files.find e.path = .ok (q, .file a.bytes b) →
      q.getLast? = e.path.fileName? → Touched p w r q (.work i x)

variable {p : Workplace} {w : World} {r : Run}

/-- One stage of a replacement, as it is taken in an orderly run. -/
theorem Orderly.stage (h : Orderly p w r) (hf : LinkFree w.files p.store.root) {i : Nat}
    {l : Locator} {a : Artifact} {e : CacheEntry} {tmp : Path} {st : Replacement}
    (hk : r.worker? i = some (l, .storing a (.replacing e tmp st))) (hst : ∀ x, st ≠ .done x)
    (x : Option Mishap) :
    ∃ site c, tmp = temporaryFor e.path w.process c ∧
      Worker.Puts p.store w.process (.storing a (.replacing e tmp st)) a e site c st ∧
      LinkFree r.world.files site.root ∧
      Effect site e.path tmp a.bytes r.world.files st
        (st.step e.path tmp a.bytes x r.world.files).1
        (st.step e.path tmp a.bytes x r.world.files).2 ∧
      (st = .renaming → site.Ready a.bytes r.world.files) := by
  have hr : (Worker.storing a (.replacing e tmp st)).replacing? = some (a, e, tmp, st) :=
    Worker.replacing?_eq_some_iff.mpr ⟨rfl, hst⟩
  obtain ⟨c, rfl⟩ := h.scratch i l _ a e tmp st hk hr
  obtain ⟨site, hp⟩ := (h.honest i l _ hk).puts hr
  have hf' : LinkFree r.world.files site.root := by
    rw [hp.root]
    exact hf.tended h.tended
  refine ⟨site, c, rfl, hp, hf', effect_step hp.spells hf' x st, ?_⟩
  rintro rfl
  exact h.ready i l _ a e site c hk hp

theorem Orderly.tended_move (h : Orderly p w r) (hf : LinkFree w.files p.store.root) (m : Move) :
    Tended r.world.files (r.move p m).world.files := by
  rcases files_of_move p r m with hsame | ⟨i, x, l, a, e, tmp, st, rfl, hk, hst, hfiles⟩
  · rw [hsame]
    exact .refl _
  · obtain ⟨site, c, rfl, hp, hf', heffect, hready⟩ := h.stage hf hk hst x
    rw [hfiles]
    exact heffect.tended hp.spells hf' hp.name_ne hready

/-- **What a move changes.**  Nothing at a place but that it becomes a directory, unless it is the
place of a temporary file or the worker delivers its artifact there. -/
theorem Orderly.touched_of_move (h : Orderly p w r) (hf : LinkFree w.files p.store.root) (m : Move)
    (q : Place) :
    ((r.move p m).world.files.node? q = r.world.files.node? q ∨
      r.world.files.node? q = none ∧ (r.move p m).world.files.node? q = some .directory) ∨
    Touched p w r q m := by
  rcases files_of_move p r m with hsame | ⟨i, x, l, a, e, tmp, st, rfl, hk, hst, hfiles⟩
  · exact Or.inl (Or.inl (by rw [hsame]))
  obtain ⟨site, c, rfl, hp, hf', heffect, hready⟩ := h.stage hf hk hst x
  by_cases htmp : ∃ place, q = site.temporary place
  · obtain ⟨place, hq⟩ := htmp
    exact Or.inr (.scratch hk hp hq)
  by_cases hfinal : (st.step e.path (temporaryFor e.path w.process c) a.bytes x
      r.world.files).2 = .done (.ok ()) ∧ ∃ place, Leads r.world.files site.root place ∧
        q = site.final place
  · obtain ⟨hdone, place, hl, rfl⟩ := hfinal
    obtain ⟨hv, he⟩ := (h.honest i l _ hk).replacing hp.replacing
    have hdelivers := Worker.step_replacing p x r.world l a e (temporaryFor e.path w.process c) hst
    rw [hdone] at heffect hdelivers
    obtain rfl := heffect.eq_renaming hst
    obtain ⟨place', b, hl', hfind⟩ :=
      heffect.delivered hp.spells hf' hp.name_ne (hready rfl)
    obtain rfl := hl.unique hl'
    refine Or.inr (.delivered hk hp.replacing ⟨hv, he, by rw [hdelivers]; rfl⟩ (hfiles ▸ hfind) ?_)
    rw [hp.file, Target.final, ← List.append_assoc, List.getLast?_concat]
  · rw [hfiles]
    refine Or.inl (heffect.node? (fun place _ hq => htmp ⟨place, hq⟩) fun hdone place hl hq => ?_)
    exact hfinal ⟨hdone, place, hl, hq⟩

/-- A file that is no temporary one of this program stays, unless an artifact is delivered there. -/
theorem Touched.temporary_or {q : Place} {m : Move} (h : Touched p w r q m) :
    (∃ n c, q.getLast? = some (temporaryName n w.process c)) ∨
      ∃ i x l k a e b, m = .work i x ∧ r.worker? i = some (l, k) ∧
        Worker.Delivers p.store l a e (k.step p l x r.world).2 ∧
        (r.move p m).world.files.find e.path = .ok (q, .file a.bytes b) ∧
        ∃ tmp, k.replacing? = some (a, e, tmp, .renaming) := by
  cases h with
  | @scratch _ _ _ _ _ _ site c _ _ _ hp hq =>
    refine Or.inl ⟨site.name, c, ?_⟩
    rw [hq, Target.temporary, ← List.append_assoc, List.getLast?_concat, hp.scratch]
  | delivered hk hr hd hfind _ => exact Or.inr ⟨_, _, _, _, _, _, _, rfl, hk, hd, hfind, _, hr⟩

theorem Orderly.process_move (h : Orderly p w r) (m : Move) :
    (r.move p m).world.process = w.process := by
  have hm := moves p r m
  cases hm with
  | idle _ _ hprocess _ => exact hprocess.trans h.process
  | work _ hworld _ _ => rw [hworld, Worker.process_step, h.process]

theorem temporaries_le_move (p : Workplace) (r : Run) (m : Move) :
    r.world.temporaries ≤ (r.move p m).world.temporaries := by
  have hm := moves p r m
  cases hm with
  | idle _ _ _ htemps => exact Nat.le_of_eq htemps.symm
  | @work _ x l k _ _ hworld _ _ =>
    rw [hworld]
    exact (Worker.change_step p x r.world l k).temporaries_le

/-- Whoever uses a temporary name after a move used it before, or took the next one now. -/
theorem Orderly.uses_of_move (h : Orderly p w r) {m : Move} {i c : Nat} {l : Locator} {k : Worker}
    (hk : (r.move p m).worker? i = some (l, k)) (hu : k.Uses w.process c) :
    (∃ k', r.worker? i = some (l, k') ∧ k'.Uses w.process c) ∨
      (∃ x, m = .work i x) ∧ c = r.world.temporaries ∧
        (r.move p m).world.temporaries = r.world.temporaries + 1 := by
  obtain ⟨a, e, st, hu⟩ := hu
  rcases worker_of_move hk with ⟨hk, -⟩ | ⟨x, k', rfl, hk', hworld, rfl⟩
  · exact Or.inl ⟨k, hk, a, e, st, hu⟩
  · rcases (Worker.change_step p x r.world l k').replacing? p x r.world hu with
      ⟨st', hst⟩ | ⟨-, htmp, htemps⟩
    · exact Or.inl ⟨k', hk', a, e, st', hst⟩
    · rw [h.process] at htmp
      exact Or.inr ⟨⟨x, rfl⟩, temporaryFor_inj htmp, hworld ▸ htemps⟩

/-! ### One move keeps a run orderly -/

theorem Orderly.scratch_move (h : Orderly p w r) {m : Move} {i : Nat} {l : Locator} {k : Worker}
    {a : Artifact} {e : CacheEntry} {tmp : Path} {st : Replacement}
    (hk : (r.move p m).worker? i = some (l, k)) (hr : k.replacing? = some (a, e, tmp, st)) :
    ∃ c, tmp = temporaryFor e.path w.process c := by
  rcases worker_of_move hk with ⟨hk, -⟩ | ⟨x, k', -, hk', -, rfl⟩
  · exact h.scratch i l k a e tmp st hk hr
  · rcases (Worker.change_step p x r.world l k').replacing? p x r.world hr with
      ⟨st', hst⟩ | ⟨-, htmp, -⟩
    · exact h.scratch i l k' a e tmp st' hk' hst
    · exact ⟨_, h.process ▸ htmp⟩

theorem Orderly.below_move (h : Orderly p w r) {m : Move} {i c : Nat} {l : Locator} {k : Worker}
    (hk : (r.move p m).worker? i = some (l, k)) (hu : k.Uses w.process c) :
    c < (r.move p m).world.temporaries := by
  rcases h.uses_of_move hk hu with ⟨k', hk', hu'⟩ | ⟨-, rfl, hnext⟩
  · exact Nat.lt_of_lt_of_le (h.below i l k' c hk' hu') (temporaries_le_move p r m)
  · omega

/-- The next temporary name is new, so no two workers have come to use one. -/
theorem Orderly.apart_move (h : Orderly p w r) {m : Move} {i j c : Nat} {l l' : Locator}
    {k k' : Worker} (hk : (r.move p m).worker? i = some (l, k))
    (hk' : (r.move p m).worker? j = some (l', k')) (hu : k.Uses w.process c)
    (hu' : k'.Uses w.process c) : i = j := by
  rcases h.uses_of_move hk hu with ⟨k₁, hk₁, hu₁⟩ | ⟨⟨x, hm⟩, hc, -⟩ <;>
    rcases h.uses_of_move hk' hu' with ⟨k₂, hk₂, hu₂⟩ | ⟨⟨y, hm'⟩, hc', -⟩
  · exact h.apart i j l l' k₁ k₂ c hk₁ hk₂ hu₁ hu₂
  · exact absurd (hc' ▸ h.below i l k₁ c hk₁ hu₁) (Nat.lt_irrefl _)
  · exact absurd (hc ▸ h.below j l' k₂ c hk₂ hu₂) (Nat.lt_irrefl _)
  · exact (Move.work.inj (hm.symm.trans hm')).1

/-- When a worker comes to the move to the final place, its bytes are in the temporary file. -/
theorem Orderly.ready_step (h : Orderly p w r) (hf : LinkFree w.files p.store.root) {i : Nat}
    {x : Option Mishap} {l : Locator} {k : Worker} {a : Artifact} {e : CacheEntry}
    {site : Target} {c : Nat} (hk : r.worker? i = some (l, k))
    (hp : (k.step p l x r.world).2.Puts p.store w.process a e site c .renaming) :
    site.Ready a.bytes (k.step p l x r.world).1.files := by
  have hc := Worker.change_step p x r.world l k
  obtain ⟨st, hst⟩ : ∃ st, k.replacing? = some (a, e, temporaryFor e.path w.process c, st) := by
    rcases hc.replacing? p x r.world hp.replacing with hst | ⟨hprep, -⟩
    · exact hst
    · cases hprep
  obtain ⟨rfl, hnot⟩ := Worker.replacing?_eq_some_iff.mp hst
  have heffect := effect_step hp.spells (b := a.bytes)
    (hp.root ▸ hf.tended h.tended : LinkFree r.world.files site.root) x st
  have hnext := hp.replacing
  rw [Worker.step_replacing p x r.world l a e _ hnot] at hnext ⊢
  obtain ⟨hnext, -⟩ := Worker.replacing?_eq_some_iff.mp hnext
  simp only [Worker.storing.injEq, Storing.replacing.injEq, true_and] at hnext
  rw [hnext] at heffect
  exact heffect.ready

/-- No other worker takes the bytes away from the temporary file. -/
theorem Orderly.ready_other (h : Orderly p w r) (hf : LinkFree w.files p.store.root) {m : Move}
    (hfresh : Fresh w.process (r.move p m)) {i : Nat} {l : Locator} {k : Worker} {a : Artifact}
    {e : CacheEntry} {site : Target} {c : Nat} (hk : r.worker? i = some (l, k))
    (hm : ∀ x, m ≠ .work i x) (hp : k.Puts p.store w.process a e site c .renaming) :
    site.Ready a.bytes (r.move p m).world.files := by
  refine (h.ready i l k a e site c hk hp).mono (h.tended_move hf m) fun place b y _ hn => ?_
  rcases h.touched_of_move hf m (site.temporary place) with (hsame | ⟨hnone, -⟩) | ht
  · rw [hsame, hn]
  · rw [hnone] at hn
    cases hn
  · cases ht with
    | @scratch j x _ _ _ _ _ _ _ _ hj hp' hq =>
      have hname := last_of_places hq
      rw [hp.scratch, hp'.scratch] at hname
      obtain rfl := counter_of_temporaryName hname
      obtain rfl := h.apart i j _ _ _ _ _ hk hj hp.uses hp'.uses
      exact absurd rfl (hm x)
    | @delivered j x _ _ _ _ _ _ hj _ hd _ hlast =>
      obtain ⟨-, hafter, -⟩ := move_worker (p := p) hj x
      refine absurd ?_ (hfresh j _ _ _ _ hafter hd.delivered site.name c)
      rw [← hlast, Target.temporary, ← List.append_assoc, List.getLast?_concat, hp.scratch]

theorem Orderly.ready_move (h : Orderly p w r) (hf : LinkFree w.files p.store.root) {m : Move}
    (hfresh : Fresh w.process (r.move p m)) {i : Nat} {l : Locator} {k : Worker} {a : Artifact}
    {e : CacheEntry} {site : Target} {c : Nat} (hk : (r.move p m).worker? i = some (l, k))
    (hp : k.Puts p.store w.process a e site c .renaming) :
    site.Ready a.bytes (r.move p m).world.files := by
  rcases worker_of_move hk with ⟨hk, hm⟩ | ⟨x, k', rfl, hk', hworld, rfl⟩
  · exact h.ready_other hf hfresh hk hm hp
  · rw [hworld]
    exact h.ready_step hf hk' hp

theorem Orderly.move (h : Orderly p w r) (hf : LinkFree w.files p.store.root) {m : Move}
    (hfresh : Fresh w.process (r.move p m)) : Orderly p w (r.move p m) where
  tended := h.tended.trans (h.tended_move hf m)
  process := h.process_move m
  honest := workers_move (fun _ x w' _ => Worker.honest_step p x w') h.honest m
  scratch _ _ _ _ _ _ _ hk hr := h.scratch_move hk hr
  below _ _ _ _ hk hu := h.below_move hk hu
  apart _ _ _ _ _ _ _ hk hk' hu hu' := h.apart_move hk hk' hu hu'
  ready _ _ _ _ _ _ _ hk hp := h.ready_move hf hfresh hk hp

/-- **What holds of every run.**  Orderliness, and whatever the moves of orderly runs keep. -/
theorem follow_orderly (hf : LinkFree w.files p.store.root) {plan : Plan} {P : Run → Prop}
    (hstart : P (start w plan))
    (hmove : ∀ r m, Orderly p w r → Fresh w.process (r.move p m) → P r → P (r.move p m))
    {schedule : List Move} (hfresh : Fresh w.process ((start w plan).follow p schedule)) :
    Orderly p w ((start w plan).follow p schedule) ∧ P ((start w plan).follow p schedule) := by
  induction schedule using List.reverseRecOn with
  | nil => exact ⟨orderly_start p w plan, hstart⟩
  | append_singleton ms m ih =>
    rw [follow_append] at hfresh ⊢
    obtain ⟨ho, hP⟩ := ih (Fresh.of_move hfresh)
    exact ⟨ho.move hf hfresh, hmove _ m ho hfresh hP⟩

end Run

end OfflineCache
