import OfflineCache.Proofs.Run.Courses
import OfflineCache.Proofs.Run.Ending

/-! The course of a run. From a tree of the ground every worker keeps to its course whatever the schedule
(`Ground.Course`), so it ends with what its locator ends with. What is at its path is there to stay,
and what has been delivered is at its path, so when all are through every artifact that can be put in
place is there (`Ground.Completed`). That leaves no choice for the finished files. -/

namespace OfflineCache

open FileTree Replacement

/-! ## Temporary names -/

namespace Worker

/-- How many temporary names the worker may still take. -/
def namesLeft : Worker → Nat
  | .waiting | .fetching _ => 1
  | .storing _ (.starting) | .storing _ (.locking _) | .storing _ (.comparing _) => 1
  | _ => 0

theorem namesLeft_le (k : Worker) : k.namesLeft ≤ 1 := by
  unfold namesLeft
  split <;> omega

/-- A worker that takes a name may take none after. -/
theorem namesLeft_step (p : Workplace) (l : Locator) (m : Option Mishap) (w : World) (k : Worker) :
    (k.step p l m w).1.temporaries + (k.step p l m w).2.namesLeft ≤ w.temporaries + k.namesLeft := by
  have hquiet : ∀ {w' : World} {k' : Worker}, w'.temporaries = w.temporaries → k.namesLeft = 1 →
      w'.temporaries + k'.namesLeft ≤ w.temporaries + k.namesLeft := by
    intro w' k' hw hk
    have hle := namesLeft_le k'
    omega
  cases k using stages with
  | waiting =>
    simp only [step]
    split <;> exact hquiet rfl rfl
  | fetching st hst =>
    rw [step_fetching p l m w hst]
    exact hquiet (Fetching.frame_step p.fetcher p.transport l w st).temporaries rfl
  | fetched a => exact hquiet rfl rfl
  | failed e =>
    simp only [step, afterFailure]
    split <;> exact hquiet rfl rfl
  | storing a st hst =>
    rw [step_storing p l m w a hst]
    cases st with
    | starting =>
      simp only [Storing.step]
      split <;> exact hquiet rfl rfl
    | locking e =>
      simp only [Storing.step]
      split <;> exact hquiet rfl rfl
    | comparing e =>
      simp only [Storing.step, Storing.compare]
      split
      · split
        · exact hquiet rfl rfl
        · exact Nat.le_refl _
      · exact Nat.le_refl _
    | replacing e tmp r =>
      cases r with
      | done x => cases x <;> exact Nat.le_refl _
      | _ => exact Nat.le_refl _
    | unlocking e r => exact Nat.le_refl _
    | done r => exact absurd rfl (hst r)
  | stored a r => cases r <;> exact Nat.le_refl _
  | finished o => exact Nat.le_refl _

end Worker

namespace Run

variable {p : Workplace}

def namesLeft (r : Run) : Nat := r.total (·.namesLeft)

theorem namesLeft_start (w : World) (plan : Plan) :
    (start w plan).namesLeft = plan.entries.countP (·.needsFetch) := by
  simp only [namesLeft, total, start, List.foldr_map]
  induction plan.entries with
  | nil => rfl
  | cons e es ih =>
    rw [List.foldr_cons, ih, List.countP_cons, Nat.add_comm]
    congr 1
    cases hp : e.pending? with
    | none => simp [share, Slot.ofEntry, PlannedEntry.needsFetch, hp]
    | some l => simp [share, Slot.ofEntry, PlannedEntry.needsFetch, hp, Worker.namesLeft]

theorem namesLeft_move (r : Run) (m : Move) :
    (r.move p m).world.temporaries + (r.move p m).namesLeft ≤ r.world.temporaries + r.namesLeft := by
  cases m with
  | stop => exact Nat.le_refl _
  | work i x =>
    cases hk : r.worker? i with
    | none => exact Nat.le_of_eq (by rw [move_of_none hk])
    | some lk =>
      obtain ⟨l, k⟩ := lk
      have hmove := total_move (p := p) (·.namesLeft) hk x
      have hstep := k.namesLeft_step p l x r.world
      rw [(move_worker hk x).1]
      unfold namesLeft
      omega

end Run

/-! ## The course of a run -/

/-- A locator has one artifact and one entry. -/
theorem Outset.Stores.unique {s : Outset} {l : Locator} {a a' : Artifact} {e e' : CacheEntry}
    (h : s.Stores l a e) (h' : s.Stores l a' e') : a = a' ∧ e = e' := by
  have ha : a = a' := Except.ok.inj (h.fetched.symm.trans h'.fetched)
  subst ha
  exact ⟨rfl, Except.ok.inj (h.entry.symm.trans h'.entry)⟩

namespace Ground

/-- A world that a run of the ground may begin in: its tree is one of the ground, nothing is stopped, and
the temporary names that its workers may take are among those of the ground. -/
structure Admits (g : Ground) (w : World) : Prop where
  reached : g.Reached w.files
  calm : w.cancelled = false
  uses : ∀ c, w.temporaries ≤ c → c < w.temporaries + g.plan.entries.countP (·.needsFetch) →
    g.uses w.process c

/-- What every run of the ground keeps. -/
structure Course (g : Ground) (w : World) (r : Run) : Prop where
  orderly : Run.Orderly g.workplace w r
  reached : g.Reached r.world.files
  calm : r.world.cancelled = false
  since : w.temporaries ≤ r.world.temporaries
  names : r.world.temporaries + r.namesLeft ≤
    w.temporaries + g.plan.entries.countP (·.needsFetch)
  follows : ∀ i l k, r.worker? i = some (l, k) →
    Pending g.toOutset l ∧ g.Follows r.world.files l k

variable {g : Ground} {w : World} {r : Run} {t t' : FileTree} {l l' : Locator} {k : Worker}
  {a a' : Artifact} {e e' : CacheEntry}

theorem course_start (h : g.Admits w) : g.Course w (.start w g.plan) := by
  refine ⟨Run.orderly_start _ _ _, h.reached, h.calm, Nat.le_refl _, ?_, fun i l k hk => ?_⟩
  · rw [Run.namesLeft_start]
    exact Nat.le_refl _
  · have hwaiting := Run.worker?_start hk
    obtain ⟨s, hs, ht⟩ := Option.bind_eq_some_iff.mp hk
    obtain ⟨entry, hm, rfl⟩ := List.mem_map.mp (List.mem_of_getElem? hs)
    obtain ⟨l', hl, he⟩ := Option.map_eq_some_iff.mp ht
    obtain ⟨rfl, -⟩ := Prod.mk.inj he
    rw [hwaiting]
    exact ⟨⟨entry, hm, hl⟩, trivial⟩

theorem outcome_eq_fetched {path : Path} {digest : String} (h : g.outcome l = .fetched path digest) :
    ∃ a e, g.fetched l = .ok a ∧ g.workplace.store.entry l a.digest = .ok e ∧
      g.stored a e.path = .ok () ∧ e.path = path ∧ e.digest.render = digest := by
  unfold outcome at h
  cases hf : g.fetched l with
  | error f =>
    rw [hf] at h
    simp only [failure] at h
    split at h
    · cases h
    · cases f <;> cases h
  | ok a =>
    rw [hf] at h
    cases he : g.workplace.store.entry l a.digest with
    | error f =>
      simp only [storeResult, he] at h
      cases h
    | ok e =>
      simp only [storeResult_of_entry he] at h
      cases hst : g.stored a e.path with
      | error f =>
        rw [hst] at h
        cases h
      | ok u =>
        rw [hst] at h
        obtain ⟨hpath, hdigest⟩ := Outcome.fetched.inj h
        exact ⟨a, e, rfl, he, hst, hpath, hdigest⟩

/-- What is delivered in the course of a run is an artifact of the ground. -/
theorem Follows.stores (h : g.Follows t l k) (hp : Pending g.toOutset l) {path : Path}
    {digest : String} (hd : k.delivered? = some (path, digest)) :
    ∃ a e, g.Stores l a e ∧ g.stored a e.path = .ok () ∧ e.path = path ∧
      e.digest.render = digest := by
  cases k with
  | storing a st =>
    obtain ⟨hf, hk⟩ := h
    obtain ⟨e, he, hpd⟩ := Option.map_eq_some_iff.mp hd
    obtain ⟨hpath, hdigest⟩ := Prod.mk.inj hpd
    unfold Storing.delivered? at he
    split at he
    · cases he
      obtain ⟨hentry, hheld, -, hr⟩ := hk
      refine ⟨a, e, ⟨hp, hf, hentry⟩, ?_, hpath, hdigest⟩
      rw [stored, if_neg (by simp [hheld])]
      exact hr.symm
    · cases he
      exact ⟨a, e, ⟨hp, hf, hk.1⟩, hk.2.symm, hpath, hdigest⟩
    · cases he
      have hresult : Except.ok e = g.storeResult l a := hk
      have ho : g.outcome l = .fetched path digest := by
        rw [outcome, hf]
        simp only [← hresult, report, Outcome.ofEntry, hpath, hdigest]
      obtain ⟨a', e', hf', hentry, hst, hpath', hdigest'⟩ := outcome_eq_fetched ho
      exact ⟨a', e', ⟨hp, hf', hentry⟩, hst, hpath', hdigest'⟩
    · cases he
  | finished o =>
    have ho : g.outcome l = .fetched path digest := by
      have hk : o = g.outcome l := h
      rw [← hk]
      cases o <;> simp_all [Worker.delivered?]
    obtain ⟨a, e, hf, hentry, hst, hpath, hdigest⟩ := outcome_eq_fetched ho
    exact ⟨a, e, ⟨hp, hf, hentry⟩, hst, hpath, hdigest⟩
  | _ => cases hd

theorem fileName?_of_stores (h : g.Stores l a e) :
    ∃ n, e.path.fileName? = some n ∧ n ∈ g.names e.path ∧ (g.names e.path).getLast? = some n := by
  obtain ⟨q, names, n, hplain, hpath, hnames⟩ := stores_spelt h
  refine ⟨n, ?_, by simp [hnames], by simp [hnames]⟩
  rw [hpath]
  exact hplain.fileName?_join g.root

theorem fresh_of_follows (h : ∀ i l k, r.worker? i = some (l, k) →
    Pending g.toOutset l ∧ g.Follows t l k) (process : Nat) : Run.Fresh process r := by
  intro i l k path digest hk hd n c hname
  obtain ⟨hp, hf⟩ := h i l k hk
  obtain ⟨a, e, hs, -, rfl, -⟩ := hf.stores hp hd
  obtain ⟨m, hm, hmem, -⟩ := fileName?_of_stores hs
  obtain rfl := Option.some.inj (hm.symm.trans hname)
  exact g.undisturbed.names l a e hs _ hmem n process c rfl

/-- What is about to be moved to its place is complete, whatever its temporary path is read from. -/
theorem Course.ready (h : g.Course w r) {i : Nat} {tmp : Path}
    (hk : r.worker? i = some (l, .storing a (.replacing e tmp .renaming))) {process counter : Nat}
    (htmp : tmp = temporaryFor e.path process counter) {n : List Char}
    (hn : e.path.fileName? = some n) :
    Target.Ready ⟨g.root, (g.names e.path).dropLast, n, temporaryName n process counter⟩ a.bytes
      r.world.files := by
  obtain ⟨hp, hf, hentry, -⟩ := h.follows i l _ hk
  obtain ⟨q, names, m, hplain, hpath, hnames⟩ := stores_spelt (⟨hp, hf, hentry⟩ : g.Stores l a e)
  have hr : (Worker.storing a (.replacing e tmp .renaming)).replacing? =
      some (a, e, tmp, .renaming) := Worker.replacing?_eq_some_iff.mpr ⟨rfl, fun x hx => by cases hx⟩
  obtain ⟨c, hc⟩ := h.orderly.scratch i l _ a e tmp .renaming hk hr
  have hname : temporaryName n process counter = temporaryName n w.process c := by
    have hjoin := Path.join_name_inj rfl rfl (htmp.symm.trans hc)
    rw [hn] at hjoin
    exact hjoin
  refine h.orderly.ready i l _ a e _ c hk ⟨hc ▸ hr, rfl, ?_, hname, hn⟩
  obtain rfl : m = n := by
    rw [hpath, hplain.fileName?_join] at hn
    exact Option.some.inj hn
  have hspells := spells_temporaryFor hplain g.root w.process c
  rw [hnames, List.dropLast_concat, hname]
  rw [← hpath] at hspells
  exact hspells

/-- **One move** keeps the course of a run. -/
theorem Course.move (h : g.Course w r) (hw : g.Admits w) (i : Nat) :
    g.Course w (r.move g.workplace (.work i none)) := by
  cases hk : r.worker? i with
  | none =>
    rw [Run.move_of_none hk]
    exact h
  | some lk =>
    obtain ⟨l, k⟩ := lk
    have hlinks : LinkFree w.files g.root := hw.reached.linkFree
    have ht := h.orderly.tended_move hlinks (.work i none)
    have hnames := Run.namesLeft_move (p := g.workplace) r (.work i none)
    have hmore := (Worker.change_step g.workplace none r.world l k).temporaries_le
    obtain ⟨hworld, -⟩ := Run.move_worker (p := g.workplace) hk none
    obtain ⟨hp, hfollows⟩ := h.follows i l k hk
    have huses : ∀ a e, k = .storing a (.comparing e) →
        g.uses r.world.process r.world.temporaries := by
      rintro a e rfl
      have hone : 1 ≤ r.namesLeft := Run.le_total (·.namesLeft) hk
      have hbound := h.names
      rw [h.orderly.process]
      exact hw.uses _ h.since (by omega)
    obtain ⟨hreached, hfollows', hcalm⟩ := follows_step h.reached h.calm hp hfollows huses
      fun a e tmp process counter n he htmp hn => h.ready (he ▸ hk) htmp hn
    have hall : ∀ j l k, (r.move g.workplace (.work i none)).worker? j = some (l, k) →
        Pending g.toOutset l ∧ g.Follows (r.move g.workplace (.work i none)).world.files l k := by
      intro j l' k' hj
      rcases Run.worker_of_move hj with ⟨hj, -⟩ | ⟨x, k₁, hm, hk₁, -, rfl⟩
      · obtain ⟨hp', hf'⟩ := h.follows j l' k' hj
        exact ⟨hp', hf'.tended ht⟩
      · obtain ⟨rfl, rfl⟩ := Move.work.inj hm
        obtain ⟨rfl, rfl⟩ := Prod.mk.inj (Option.some.inj (hk.symm.trans hk₁))
        rw [hworld]
        exact ⟨hp, hfollows'⟩
    refine ⟨h.orderly.move hlinks (fresh_of_follows hall _), ?_, ?_, ?_, ?_, hall⟩
    · rw [hworld]
      exact hreached
    · rw [hworld]
      exact hcalm
    · rw [hworld]
      exact Nat.le_trans h.since hmore
    · exact Nat.le_trans hnames h.names

/-! ## What is put in place stays -/

theorem accepts_of_stores (h : g.Stores l a e) : a.digest.accepts a.bytes = true :=
  (Fetching.verified_of_run h.fetched).accepts

theorem holds_of_find {path : Path} {q : Place} {b : Bytes} {x : Bool} {digest : Checksum}
    (h : t.find path = .ok (q, .file b x)) (hb : digest.accepts b = true) :
    t.holds path digest = true :=
  holds_eq_true_iff.mpr ⟨b, readBytes_of_find h, hb⟩

/-- What was there from the start is there in every tree of a run. -/
theorem Reached.holds_of_made (h : g.Reached t) (hs : g.Stores l a e)
    (hm : g.made.holds e.path a.digest = true) : t.holds e.path a.digest = true := by
  cases hh : t.holds e.path a.digest with
  | true => rfl
  | false => exact absurd hm (by simp [(h.stored_of_holds hs).2 hh])

/-- What was not there and is now has been put there. -/
theorem Reached.find_of_holds (h : g.Reached t) (hs : g.Stores l a e)
    (hm : g.made.holds e.path a.digest = false) (hh : t.holds e.path a.digest = true) :
    g.Grown t ∧ ∃ x, t.find e.path = .ok (g.final e.path, .file a.bytes x) := by
  cases h with
  | untouched he =>
    rw [he, (g.undisturbed.alike l a e hs _ (parent?_of_stores hs).2).2, hm] at hh
    cases hh
  | grown h =>
    refine ⟨h, ?_⟩
    rcases h.at_final hs with hsame | ⟨-, -, hfind⟩
    · rw [h.holds_eq hs hsame, hm] at hh
      cases hh
    · exact hfind

variable (g) in
/-- The artifact of a locator is at its path. -/
def Settled (t : FileTree) (l : Locator) : Prop :=
  ∀ a e, g.Stores l a e → t.holds e.path a.digest = true

theorem final_inj (h : g.Stores l a e) (h' : g.Stores l' a' e')
    (hf : g.final e.path = g.final e'.path) : a.bytes = a'.bytes :=
  (same_of_names h h' (List.append_cancel_left hf)).2.1

/-- The last name of a place of an artifact is not that of a temporary file. -/
theorem getLast?_final_ne (h : g.Stores l a e) (n : List Char) (process counter : Nat) :
    (g.final e.path).getLast? ≠ some (temporaryName n process counter) := by
  obtain ⟨m, -, hm, hlast⟩ := fileName?_of_stores h
  rw [final, List.getLast?_append, hlast, Option.some_or]
  intro he
  exact g.undisturbed.names l a e h m hm n process counter (Option.some.inj he)

/-- **What is at its path stays there.** -/
theorem Course.settled_move (h : g.Course w r) (hw : g.Admits w)
    (hl : g.Settled r.world.files l) (i : Nat) :
    g.Settled (r.move g.workplace (.work i none)).world.files l := by
  intro a e hs
  have hnext := (h.move hw i).reached
  have hlinks : LinkFree w.files g.root := hw.reached.linkFree
  have ht := h.orderly.tended_move hlinks (.work i none)
  cases hm : g.made.holds e.path a.digest with
  | true => exact hnext.holds_of_made hs hm
  | false =>
    obtain ⟨hgrown, x, hfind⟩ := h.reached.find_of_holds hs hm (hl a e hs)
    have hq := node?_of_find hfind
    rcases h.orderly.touched_of_move hlinks (.work i none) (g.final e.path) with
      (hsame | ⟨hnone, -⟩) | htouched
    · exact holds_of_find (find_tended hfind ht (hsame.trans hq)) (accepts_of_stores hs)
    · rw [hnone] at hq
      cases hq
    · rcases htouched.temporary_or with
        ⟨n, c, hlast⟩ | ⟨j, x', l', k', a', e', y, -, hk', hd, hfind', tmp, hr⟩
      · exact absurd hlast (getLast?_final_ne hs n _ c)
      · -- another delivery to the place brings the same bytes
        obtain ⟨rfl, -⟩ := Worker.replacing?_eq_some_iff.mp hr
        obtain ⟨hp', hf', -⟩ := h.follows j l' _ hk'
        have hs' : g.Stores l' a' e' := ⟨hp', hf', hd.entry⟩
        have hplace := place_of_find (hgrown.leads.tended ht) hnext.linkFree hs' hfind'
        have hfind'' := find_tended hfind ht (node?_of_find hfind')
        rw [← final_inj hs hs' hplace] at hfind''
        exact holds_of_find hfind'' (accepts_of_stores hs)

/-- What has been delivered is at its path. -/
theorem Course.delivered_move (h : g.Course w r) (hw : g.Admits w)
    (hd : ∀ i l k, r.worker? i = some (l, k) → k.delivered? ≠ none → g.Settled r.world.files l)
    (i : Nat) : ∀ j l k, (r.move g.workplace (.work i none)).worker? j = some (l, k) →
      k.delivered? ≠ none → g.Settled (r.move g.workplace (.work i none)).world.files l := by
  intro j l' k' hj hk'
  have hlinks : LinkFree w.files g.root := hw.reached.linkFree
  have hmoved := (h.move hw i).follows j l' k' hj
  have hkeep : ∀ k, r.worker? j = some (l', k) → k.delivered? ≠ none →
      g.Settled (r.move g.workplace (.work i none)).world.files l' :=
    fun k hk hdel => h.settled_move hw (hd j l' k hk hdel) i
  rcases Run.worker_of_move hj with ⟨hk, -⟩ | ⟨x, k, -, hk, hworld, rfl⟩
  · exact hkeep k' hk hk'
  · cases hold : k.delivered? with
    | some d => exact hkeep k hk (by simp [hold])
    | none =>
      obtain ⟨⟨path, digest⟩, hnew⟩ := Option.ne_none_iff_exists'.mp hk'
      obtain ⟨a, e, st, q, b, y, hst, hdel, rfl, -, hfind, hb⟩ :=
        h.orderly.delivered_step hlinks hk x (by simp [hold]) hnew
      rw [hst] at hmoved
      obtain ⟨hp, hf, -⟩ := hmoved
      intro a' e' hs'
      obtain ⟨rfl, rfl⟩ := hs'.unique ⟨hp, hf, hdel.entry⟩
      rw [hworld]
      exact holds_of_find hfind hb

/-! ## What a run ends with -/

/-- **A run of the ground** keeps its course, has what is delivered at its path, and leaves there what was
at its path when it began. -/
theorem course_follow (hw : g.Admits w) {schedule : List Move} (hs : Run.Smooth schedule) :
    g.Course w ((Run.start w g.plan).follow g.workplace schedule) ∧
      (∀ i l k, ((Run.start w g.plan).follow g.workplace schedule).worker? i = some (l, k) →
        k.delivered? ≠ none →
          g.Settled ((Run.start w g.plan).follow g.workplace schedule).world.files l) ∧
      ∀ l, g.Settled w.files l →
        g.Settled ((Run.start w g.plan).follow g.workplace schedule).world.files l := by
  induction schedule using List.reverseRecOn with
  | nil =>
    refine ⟨course_start hw, fun i l k hk hd => ?_, fun l hl => hl⟩
    rw [Run.worker?_start hk] at hd
    exact absurd rfl hd
  | append_singleton ms m ih =>
    obtain ⟨hcourse, hdelivered, hsettled⟩ := ih fun m' hm' => hs m' (List.mem_append_left _ hm')
    obtain ⟨i, rfl⟩ := hs m (by simp)
    rw [Run.follow_append]
    exact ⟨hcourse.move hw i, hcourse.delivered_move hw hdelivered i,
      fun l hl => hcourse.settled_move hw (hsettled l hl) i⟩

variable (g) in
/-- What is reported of an entry. -/
def reportEntry (entry : PlannedEntry) : ReportEntry :=
  .make entry.raw entry.locator? (match entry.pending? with
    | some l => g.outcome l
    | none => entry.outcome?.getD .cancelled)

theorem Course.outcome (h : g.Course w r) (hover : r.Over) {i : Nat}
    (hk : r.worker? i = some (l, k)) : k = .finished (g.outcome l) := by
  obtain ⟨o, rfl⟩ := Worker.isFinished_iff.mp (hover i l k hk)
  exact congrArg Worker.finished (h.follows i l _ hk).2

/-- **The report** of a run of the ground that has ended. -/
theorem Course.report_eq (h : g.Course w r) (hover : r.Over)
    (hjobs : r.jobs = g.plan.entries.map fun e => (e, e.pending?)) :
    r.slots.map (·.reportEntry) = g.plan.entries.map g.reportEntry := by
  refine List.ext_getElem? fun i => ?_
  have hi := congrArg (·[i]?) hjobs
  simp only [Run.jobs, List.getElem?_map] at hi ⊢
  cases hs : r.slots[i]? with
  | none =>
    rw [hs] at hi
    cases he : g.plan.entries[i]? with
    | none => rfl
    | some entry =>
      rw [he] at hi
      cases hi
  | some s =>
    obtain ⟨entry, task⟩ := s
    rw [hs] at hi
    obtain ⟨entry', he, hpair⟩ := Option.map_eq_some_iff.mp hi.symm
    obtain ⟨rfl, hpending⟩ := Prod.mk.inj hpair
    rw [he]
    simp only [Option.map_some, Slot.reportEntry, reportEntry, hpending]
    cases task with
    | none => rfl
    | some lk =>
      obtain ⟨l, k⟩ := lk
      have hk : r.worker? i = some (l, k) := by
        rw [Run.worker?, hs]
        rfl
      rw [h.outcome hover hk]
      rfl

variable (g) in
/-- Every artifact that can be put in place is there. -/
structure Completed (t : FileTree) : Prop where
  reached : g.Reached t
  settled : ∀ l a e, g.Stores l a e → g.stored a e.path = .ok () → g.Settled t l

theorem Course.completed (h : g.Course w r) (hover : r.Over)
    (hjobs : r.jobs = g.plan.entries.map fun e => (e, e.pending?))
    (hd : ∀ i l k, r.worker? i = some (l, k) → k.delivered? ≠ none → g.Settled r.world.files l) :
    g.Completed r.world.files := by
  refine ⟨h.reached, fun l a e hs hst => ?_⟩
  obtain ⟨entry, hm, hp⟩ := hs.pending
  obtain ⟨i, hi⟩ := List.getElem?_of_mem hm
  have hjob : r.jobs[i]? = some (entry, some l) := by simp [hjobs, hi, hp]
  obtain ⟨⟨entry', task⟩, hslot, hpair⟩ := Option.map_eq_some_iff.mp (List.getElem?_map ▸ hjob)
  obtain ⟨-, ht⟩ := Prod.mk.inj hpair
  obtain ⟨⟨l', k⟩, rfl, hl⟩ := Option.map_eq_some_iff.mp ht
  obtain rfl : l' = l := hl
  have hk : r.worker? i = some (l', k) := by
    rw [Run.worker?, hslot]
    rfl
  refine hd i l' k hk ?_
  rw [h.outcome hover hk]
  have ho : g.outcome l' = .fetched e.path e.digest.render := by
    simp only [Ground.outcome, hs.fetched, storeResult_of_entry hs.entry, hst]
    rfl
  rw [ho]
  exact fun hn => by cases hn

/-- A finished file of a run is as it was, or is an artifact that was put in place. -/
theorem Reached.content?_or (h : g.Reached t) {q : Place} (hq : ¬ IsTemporary q) :
    t.content? q = g.tree.content? q ∨ ∃ l a e, g.Stores l a e ∧ q = g.final e.path ∧
      g.stored a e.path = .ok () ∧ g.made.holds e.path a.digest = false ∧
      t.content? q = some a.bytes := by
  cases h with
  | untouched he => exact Or.inl (by rw [he])
  | grown h =>
    have hmade := g.laid_made.content? q
    cases h.cell q with
    | same hs => exact Or.inl (by rw [← hmade]; simp only [content?, hs])
    | laid _ _ _ _ hm ht => exact Or.inl (by rw [← hmade]; simp only [content?, hm, ht])
    | @scratch d n process counter he _ =>
      refine absurd ⟨_, ?_, isTemporaryName_temporaryName n process counter⟩ hq
      rw [he, ← List.append_assoc, List.getLast?_concat]
    | @delivered l a e x hs he hf hh hfind =>
      exact Or.inr ⟨l, a, e, hs, he, by simp [stored, hh, hf, resultOf], hh,
        content?_eq_some_iff.mpr ⟨x, node?_of_find hfind⟩⟩

/-- **The finished files** are the same wherever all that can be is in place. -/
theorem Completed.content?_eq (h : g.Completed t) (h' : g.Completed t') {q : Place}
    (hq : ¬ IsTemporary q) : t.content? q = t'.content? q := by
  have hput : ∀ {t l a e}, g.Completed t → g.Stores l a e → g.stored a e.path = .ok () →
      g.made.holds e.path a.digest = false → t.content? (g.final e.path) = some a.bytes := by
    intro t l a e h hs hst hm
    obtain ⟨-, x, hfind⟩ := h.reached.find_of_holds hs hm (h.settled l a e hs hst a e hs)
    exact content?_eq_some_iff.mpr ⟨x, node?_of_find hfind⟩
  rcases h.reached.content?_or hq with htree | ⟨l, a, e, hs, rfl, hst, hm, hcontent⟩
  · rcases h'.reached.content?_or hq with htree' | ⟨l, a, e, hs, rfl, hst, hm, hcontent⟩
    · rw [htree, htree']
    · rw [hcontent, hput h hs hst hm]
  · rw [hcontent, hput h' hs hst hm]

end Ground

end OfflineCache
