import OfflineCache.Proofs.Run.InPlace

/-! Calls of one store at the same time. They are taken as the workers of a run that has nothing left to
fetch, so what is known of runs holds of them: files are tended, paths are locked by one call at a
time, and what is delivered is complete. `Store.Traffic.Kept` collects what every step of a call keeps;
the main result is `Store.calls_atomic`. -/

namespace OfflineCache

open FileTree Replacement

/-! ## Stages -/

namespace Storing

variable {s : Store} {l : Locator} {a : Artifact} {m : Option Mishap} {w : World} {st : Storing}

/-- Whether the look at the file that is there lies behind. -/
def hasLooked : Storing → Bool
  | .replacing .. | .unlocking .. | .done _ => true
  | _ => false

/-- Whether no file is written any more. -/
def isSettled : Storing → Bool
  | .unlocking .. | .done _ => true
  | _ => false

theorem hasLooked_step (h : st.hasLooked = true) : (st.step s l a m w).2.hasLooked = true := by
  cases st with
  | replacing e tmp r =>
    cases r with
    | done r => cases r <;> rfl
    | _ => rfl
  | unlocking e r => rfl
  | done r => rfl
  | _ => cases h

theorem isSettled_step (h : st.isSettled = true) : (st.step s l a m w).2.isSettled = true := by
  cases st with
  | unlocking e r => rfl
  | done r => rfl
  | _ => cases h

/-- Only a replacement touches files. -/
theorem files_step (h : ∀ e tmp r, st ≠ .replacing e tmp r) :
    (st.step s l a m w).1.files = w.files := by
  have hc := change_step s l a m w st
  revert hc
  generalize st.step s l a m w = y
  obtain ⟨w', st'⟩ := y
  intro hc
  cases hc with
  | quiet hfiles _ _ _ _ _ => exact hfiles
  | matched hfiles _ _ _ => exact hfiles
  | begun hfiles _ => exact hfiles
  | staged _ => exact absurd rfl (h _ _ _)

/-- What ends well ends with the unlocking. -/
theorem eq_unlocking_of_step {e : CacheEntry} (h : (st.step s l a m w).2 = .done (.ok e))
    (hst : ∀ r, st ≠ .done r) : st = .unlocking e (.ok ()) := by
  cases st with
  | starting =>
    simp only [step] at h
    split at h <;> cases h
  | locking e =>
    simp only [step] at h
    split at h <;> cases h
  | comparing e =>
    simp only [step, compare] at h
    split at h
    · split at h <;> cases h
    · cases h
  | replacing e tmp r =>
    cases r with
    | done r => cases r <;> cases h
    | _ => cases h
  | unlocking e r =>
    cases r with
    | ok u =>
      cases h
      rfl
    | error f => cases h
  | done r => exact absurd rfl (hst r)

/-- A look that finds the digest leaves nothing to be written. -/
theorem step_comparing {e : CacheEntry} {b : Bytes} (hb : w.files.readBytes e.path = .ok b)
    (ha : a.digest.accepts b = true) :
    ((Storing.comparing e).step s l a none w).2 = .unlocking e (.ok ()) := by
  simp only [step, compare, hb, ha, if_true]

end Storing

/-! ## Checksums of records -/

theorem Locator.render_withChecksum (l : Locator) (c : Option Checksum) :
    (l.withChecksum c).render = l.render := by
  cases l
  unfold render renderReference
  rfl

theorem Locator.version?_withChecksum (l : Locator) (c : Option Checksum) :
    (l.withChecksum c).version? = l.version? := by
  cases l
  unfold version?
  rfl

theorem Store.entry_withChecksum (s : Store) (l : Locator) (c : Option Checksum)
    (digest : Checksum) : s.entry (l.withChecksum c) digest = s.entry l digest := by
  have hversion : Layout.versionOf (l.withChecksum c) = Layout.versionOf l := by
    rw [Layout.versionOf, Locator.version?_withChecksum, Layout.versionOf]
  have hlookup : Layout.placeholder? (l.withChecksum c) digest = Layout.placeholder? l digest := by
    unfold Layout.placeholder?
    rw [hversion]
    rfl
  simp only [entry, Layout.relativePath, hlookup, hversion]
  rfl

/-! ## Calls -/

/-- A call: what is to be stored, and where the storing stands. -/
structure Store.Call where
  locator : Locator
  artifact : Artifact
  stage : Storing

/-- Calls under way, and the world that they share. -/
structure Store.Traffic where
  world : World
  calls : List Store.Call

namespace Store.Traffic

def start (w : World) (cs : List (Locator × Artifact)) : Traffic :=
  ⟨w, cs.map fun c => ⟨c.1, c.2, .starting⟩⟩

/-- One call takes a step, which may meet a mishap. -/
def move (s : Store) (x : Traffic) (m : Nat × Option Mishap) : Traffic :=
  match x.calls[m.1]? with
  | none => x
  | some c =>
    let (world, stage) := c.stage.step s c.locator c.artifact m.2 x.world
    ⟨world, x.calls.set m.1 { c with stage }⟩

def follow (s : Store) (x : Traffic) (schedule : List (Nat × Option Mishap)) : Traffic :=
  schedule.foldl (move s) x

/-! ### Calls as workers -/

end Store.Traffic

/-- The call as the worker of a record that declares the digest of what is stored. -/
def Store.Call.worker (c : Call) : Locator × Worker :=
  (c.locator.withChecksum (some c.artifact.digest), .storing c.artifact c.stage)

namespace Store.Traffic

def asRun (x : Traffic) : Run :=
  ⟨x.world, x.calls.map fun c => ⟨⟨"", .located c.worker.1 .fetchable⟩, some c.worker⟩⟩

/-- A place where nothing is fetched. -/
def workplace (s : Store) : Workplace :=
  ⟨.make none s.root .standard, s, fun _ _ => ⟨.error .cancelled, false⟩⟩

variable {s : Store} {w : World} {x : Traffic}

theorem worker?_asRun (x : Traffic) (i : Nat) : x.asRun.worker? i = x.calls[i]?.map Call.worker := by
  simp only [asRun, Run.worker?, List.getElem?_map]
  cases x.calls[i]? <;> rfl

theorem of_worker?_asRun {i : Nat} {l : Locator} {k : Worker}
    (h : x.asRun.worker? i = some (l, k)) : ∃ c, x.calls[i]? = some c ∧
      l = c.locator.withChecksum (some c.artifact.digest) ∧ k = .storing c.artifact c.stage := by
  rw [worker?_asRun] at h
  obtain ⟨c, hc, hw⟩ := Option.map_eq_some_iff.mp h
  exact ⟨c, hc, (Prod.mk.inj hw).1.symm, (Prod.mk.inj hw).2.symm⟩

theorem worker?_of_call {i : Nat} {c : Call} (h : x.calls[i]? = some c) :
    x.asRun.worker? i = some c.worker := by
  rw [worker?_asRun, h]
  rfl

/-- What is stored does not depend on the checksum of the record. -/
theorem step_withChecksum (s : Store) (l : Locator) (c : Option Checksum) (a : Artifact)
    (m : Option Mishap) (w : World) (st : Storing) :
    st.step s (l.withChecksum c) a m w = st.step s l a m w := by
  cases st with
  | starting => simp only [Storing.step, entry_withChecksum]
  | replacing e tmp r =>
    cases r with
    | done r => cases r <;> simp only [Storing.step, Locator.render_withChecksum]
    | _ => rfl
  | _ => rfl

/-- A move of a call is one of its worker, unless the call is over. -/
theorem asRun_move (s : Store) (x : Traffic) (m : Nat × Option Mishap) :
    x.move s m = x ∨ (x.move s m).asRun = x.asRun.move (workplace s) (.work m.1 m.2) := by
  simp only [move]
  cases hc : x.calls[m.1]? with
  | none => exact Or.inl rfl
  | some c =>
    by_cases hd : ∃ r, c.stage = .done r
    · obtain ⟨r, hr⟩ := hd
      refine Or.inl ?_
      have hstep : c.stage.step s c.locator c.artifact m.2 x.world = (x.world, c.stage) := by
        rw [hr]
        rfl
      have hset : x.calls.set m.1 c = x.calls :=
        List.ext_getElem? fun j => by
          by_cases hj : m.1 = j
          · subst hj
            rw [List.getElem?_set_self (List.getElem?_eq_some_iff.mp hc).1, hc]
          · exact List.getElem?_set_ne hj
      simp only [hstep, hset]
    · refine Or.inr ?_
      have hstep := Worker.step_storing (workplace s) (c.locator.withChecksum (some c.artifact.digest))
        m.2 x.world c.artifact fun r hr => hd ⟨r, hr⟩
      simp only [Run.move, asRun, List.getElem?_map, hc, Option.map_some, Call.worker, hstep,
        List.map_set]
      simp only [workplace, step_withChecksum]

/-! ### Steps of calls -/

theorem move_of_none {m : Nat × Option Mishap} (h : x.calls[m.1]? = none) : x.move s m = x := by
  simp only [move, h]

theorem move_of_some {i : Nat} {c : Call} (h : x.calls[i]? = some c) (y : Option Mishap) :
    x.move s (i, y) = ⟨(c.stage.step s c.locator c.artifact y x.world).1, x.calls.set i
      { c with stage := (c.stage.step s c.locator c.artifact y x.world).2 }⟩ := by
  simp only [move, h]

theorem call_move {i : Nat} {c : Call} (h : x.calls[i]? = some c) (y : Option Mishap) :
    (x.move s (i, y)).calls[i]? =
      some { c with stage := (c.stage.step s c.locator c.artifact y x.world).2 } := by
  rw [move_of_some h, List.getElem?_set_self (List.getElem?_eq_some_iff.mp h).1]

/-- What the steps of storing keep, every call keeps. -/
theorem stage_move {P : Storing → Prop}
    (hP : ∀ l a y w st, P st → P (Storing.step s l a y w st).2) {i : Nat} {c : Call}
    (h : x.calls[i]? = some c) (hc : P c.stage) (m : Nat × Option Mishap) :
    ∃ st, (x.move s m).calls[i]? = some { c with stage := st } ∧ P st := by
  obtain ⟨j, y⟩ := m
  cases hj : x.calls[j]? with
  | none =>
    rw [move_of_none hj]
    exact ⟨c.stage, h, hc⟩
  | some d =>
    by_cases hij : j = i
    · subst hij
      obtain rfl : d = c := Option.some.inj (hj.symm.trans h)
      exact ⟨_, call_move h y, hP _ _ _ _ _ hc⟩
    · rw [move_of_some hj, List.getElem?_set_ne hij]
      exact ⟨c.stage, h, hc⟩

theorem stage_follow {P : Storing → Prop}
    (hP : ∀ l a y w st, P st → P (Storing.step s l a y w st).2) {i : Nat} {c : Call}
    (h : x.calls[i]? = some c) (hc : P c.stage) (schedule : List (Nat × Option Mishap)) :
    ∃ st, (x.follow s schedule).calls[i]? = some { c with stage := st } ∧ P st := by
  induction schedule generalizing x c with
  | nil => exact ⟨c.stage, h, hc⟩
  | cons m ms ih =>
    obtain ⟨st, hst, hP'⟩ := stage_move hP h hc m
    exact ih (c := { c with stage := st }) hst hP'

theorem follow_append (x : Traffic) (a b : List (Nat × Option Mishap)) :
    x.follow s (a ++ b) = (x.follow s a).follow s b := by
  simp only [follow, List.foldl_append]

/-- What every traffic keeps. -/
structure Kept (s : Store) (w : World) (x : Traffic) : Prop where
  orderly : Run.Orderly (workplace s) w x.asRun
  locked : x.asRun.Locked
  inPlace : x.asRun.InPlace
  /-- Finished files that are not as they were hold what a call has put there. -/
  accounted : ∀ q, ¬ IsTemporary q → x.world.files.content? q ≠ w.files.content? q →
    ∃ c ∈ x.calls, ∃ e b, c.stage.delivered? = some e ∧
      x.world.files.find e.path = .ok (q, .file c.artifact.bytes b)

/-- No call stores at a path with the name of a temporary file. -/
def Named (s : Store) (process : Nat) (x : Traffic) : Prop :=
  ∀ c ∈ x.calls, ∀ e, s.entry c.locator c.artifact.digest = .ok e →
    ∀ n i, e.path.fileName? ≠ some (temporaryName n process i)

theorem Named.move {process : Nat} (h : x.Named s process) (m : Nat × Option Mishap) :
    (x.move s m).Named s process := by
  intro c hc
  obtain ⟨j, y⟩ := m
  cases hj : x.calls[j]? with
  | none =>
    rw [move_of_none hj] at hc
    exact h c hc
  | some d =>
    rw [move_of_some hj] at hc
    rcases List.mem_or_eq_of_mem_set hc with hc | rfl
    · exact h c hc
    · exact h d (List.mem_of_getElem? hj)

theorem verified_withChecksum {a : Artifact} (h : a.digest.accepts a.bytes = true) (l : Locator) :
    Verified (l.withChecksum (some a.digest)) a := by
  have hd : a.digest.algorithm.digest a.bytes = a.digest.digest := by simpa [Checksum.accepts] using h
  obtain ⟨b, ⟨algorithm, digest⟩, n⟩ := a
  simp only at hd
  simp [Verified, Fetcher.verify, Locator.withChecksum, Checksum.compute, hd]

theorem fresh_of_honest {process : Nat} (hnamed : x.Named s process)
    (h : ∀ i l k, x.asRun.worker? i = some (l, k) → k.Honest s l) : Run.Fresh process x.asRun := by
  intro i l k path digest hk hd
  obtain ⟨c, hc, rfl, rfl⟩ := of_worker?_asRun hk
  obtain ⟨e, he, hpath⟩ := Option.map_eq_some_iff.mp hd
  obtain ⟨rfl, -⟩ := Prod.mk.inj hpath
  have hentry := (h i _ _ hk).2 e (Storing.known?_of_delivered? he)
  rw [entry_withChecksum] at hentry
  exact hnamed c (List.mem_of_getElem? hc) e hentry

theorem kept_start {cs : List (Locator × Artifact)} (hw : w.locked = [])
    (hdigest : ∀ c ∈ cs, c.2.digest.accepts c.2.bytes = true) : Kept s w (start w cs) := by
  have hstart : ∀ {i l k}, (start w cs).asRun.worker? i = some (l, k) →
      ∃ c ∈ cs, l = c.1.withChecksum (some c.2.digest) ∧ k = .storing c.2 .starting := by
    intro i l k hk
    obtain ⟨c, hc, rfl, rfl⟩ := of_worker?_asRun hk
    obtain ⟨d, hd, rfl⟩ := List.mem_map.mp (List.mem_of_getElem? hc)
    exact ⟨d, hd, rfl, rfl⟩
  have hnone : ∀ {i l k}, (start w cs).asRun.worker? i = some (l, k) → k.replacing? = none := by
    intro i l k hk
    obtain ⟨c, -, -, rfl⟩ := hstart hk
    rfl
  refine ⟨⟨.refl _, rfl, ?_, ?_, ?_, ?_, ?_⟩, ?_, ?_, fun q _ hne => ?_⟩
  · intro i l k hk
    obtain ⟨c, hc, rfl, rfl⟩ := hstart hk
    exact ⟨verified_withChecksum (hdigest c hc) c.1, nofun⟩
  · intro i l k a e tmp st hk hr
    exact nomatch (hnone hk).symm.trans hr
  · rintro i l k c hk ⟨a, e, st, hr⟩
    exact nomatch (hnone hk).symm.trans hr
  · rintro i j l l' k k' c hk - ⟨a, e, st, hr⟩ -
    exact nomatch (hnone hk).symm.trans hr
  · intro i l k a e site c hk hp
    exact nomatch (hnone hk).symm.trans hp.replacing
  · have hlocked : (start w cs).asRun.world.locked = [] := hw
    rw [Run.Locked, hlocked]
    refine .nil fun i => ?_
    unfold Run.lock?
    cases hk : (start w cs).asRun.worker? i with
    | none => rfl
    | some lk =>
      obtain ⟨c, -, -, hlk⟩ := hstart (i := i) (l := lk.1) (k := lk.2) hk
      simp [hlk, Worker.lock?, Storing.lock?]
  · intro i l a st e c hk hd
    obtain ⟨d, -, -, hst⟩ := hstart hk
    obtain ⟨-, rfl⟩ := Worker.storing.inj hst
    cases hd
  · exact absurd rfl hne

/-- A move that changes a finished file puts the bytes of the call there. -/
theorem Kept.delivery_of_content (h : Kept s w x) (hf : LinkFree w.files s.root) {i : Nat}
    {y : Option Mishap} {q : Place} (hq : ¬ IsTemporary q)
    (hne : (x.move s (i, y)).world.files.content? q ≠ x.world.files.content? q) :
    ∃ c e b, (x.move s (i, y)).calls[i]? = some c ∧ c.stage.delivered? = some e ∧
      (x.move s (i, y)).world.files.find e.path = .ok (q, .file c.artifact.bytes b) := by
  rcases asRun_move s x (i, y) with hsame | hrun
  · rw [hsame] at hne
    exact absurd rfl hne
  · have hworld : (x.move s (i, y)).world = (x.asRun.move (workplace s) (.work i y)).world :=
      congrArg Run.world hrun
    rw [hworld] at hne ⊢
    rcases h.orderly.touched_of_move hf (.work i y) q with (hsame | ⟨hnone, hdir⟩) | ht
    · exact absurd (by simp only [content?, hsame]; rfl) hne
    · exact absurd (by simp only [content?, hdir]; rw [show x.world.files.node? q = none from hnone]) hne
    · rcases ht.temporary_or with ⟨n, c, hlast⟩ | ⟨j, y', l, k, a, e, b, hm, hk, hd, hfind, tmp, hr⟩
      · exact absurd hlast (Run.not_temporaryName_of_not_isTemporary hq n w.process c)
      · obtain ⟨rfl, rfl⟩ := Move.work.inj hm
        obtain ⟨c, hc, rfl, rfl⟩ := of_worker?_asRun hk
        obtain ⟨hstage, hnot⟩ := Worker.replacing?_eq_some_iff.mp hr
        obtain ⟨rfl, hreplacing⟩ := Worker.storing.inj hstage
        have hdel := hd.delivered
        rw [hstage, Worker.step_replacing (workplace s) y _ _ c.artifact e tmp hnot] at hdel
        obtain ⟨hdone, -⟩ := Worker.of_delivered?_replacing hdel
        refine ⟨_, e, b, call_move hc y, ?_, hfind⟩
        simp only
        rw [hreplacing, Storing.step_replacing s c.locator c.artifact y x.world e tmp hnot]
        exact congrArg (Storing.delivered? ∘ Storing.replacing e tmp) hdone

theorem Kept.move (h : Kept s w x) (hf : LinkFree w.files s.root)
    (hnamed : x.Named s w.process) (m : Nat × Option Mishap) : Kept s w (x.move s m) := by
  obtain ⟨i, y⟩ := m
  rcases asRun_move s x (i, y) with hsame | hrun
  · rwa [hsame]
  have hworld : (x.move s (i, y)).world = (x.asRun.move (workplace s) (.work i y)).world :=
    congrArg Run.world hrun
  have hfresh : Run.Fresh w.process x.asRun := fresh_of_honest hnamed h.orderly.honest
  have hhonest : ∀ j l k, (x.move s (i, y)).asRun.worker? j = some (l, k) → k.Honest s l := by
    rw [hrun]
    exact Run.workers_move (fun l y w k => Worker.honest_step (workplace s) y w) h.orderly.honest
      (.work i y)
  have hfresh' : Run.Fresh w.process (x.asRun.move (workplace s) (.work i y)) :=
    hrun ▸ fresh_of_honest (hnamed.move (i, y)) hhonest
  refine ⟨hrun ▸ h.orderly.move hf hfresh', hrun ▸ h.locked.move (.work i y),
    hrun ▸ h.inPlace.move h.orderly hf h.locked.toLocks hfresh (.work i y), fun q hq hne => ?_⟩
  by_cases hsame : (x.move s (i, y)).world.files.content? q = x.world.files.content? q
  · rw [hsame] at hne
    obtain ⟨c, hc, e, b, hd, hfind⟩ := h.accounted q hq hne
    obtain ⟨j, hj⟩ := List.mem_iff_getElem?.mp hc
    obtain ⟨st, hst, hd'⟩ := stage_move (s := s) (P := fun st => st.delivered? = some e)
      (fun l a y w st hd => Storing.delivered?_step hd) hj hd (i, y)
    have htended := h.orderly.tended_move hf (.work i y)
    have hcontent : x.world.files.content? q = some c.artifact.bytes :=
      content?_eq_some_iff.mpr ⟨b, node?_of_find hfind⟩
    obtain ⟨b', hnode⟩ := content?_eq_some_iff.mp (hsame.trans hcontent)
    refine ⟨_, List.mem_of_getElem? hst, e, b', hd', ?_⟩
    rw [hworld] at hnode ⊢
    exact find_tended hfind htended hnode
  · obtain ⟨c, e, b, hc, hd, hfind⟩ := h.delivery_of_content hf hq hsame
    exact ⟨c, List.mem_of_getElem? hc, e, b, hd, hfind⟩

theorem Kept.follow (h : Kept s w x) (hf : LinkFree w.files s.root)
    (hnamed : x.Named s w.process) (schedule : List (Nat × Option Mishap)) :
    Kept s w (x.follow s schedule) := by
  induction schedule generalizing x with
  | nil => exact h
  | cons m ms ih => exact ih (h.move hf hnamed m) (hnamed.move m)

theorem calls_move (s : Store) (x : Traffic) (m : Nat × Option Mishap) :
    (x.move s m).calls.map (fun c => (c.locator, c.artifact)) =
      x.calls.map fun c => (c.locator, c.artifact) := by
  obtain ⟨i, y⟩ := m
  cases hi : x.calls[i]? with
  | none => rw [move_of_none hi]
  | some c =>
    rw [move_of_some hi, List.map_set]
    refine List.ext_getElem? fun j => ?_
    by_cases hij : i = j
    · subst hij
      obtain ⟨hlt, rfl⟩ := List.getElem?_eq_some_iff.mp hi
      simp [hlt]
    · rw [List.getElem?_set_ne hij]

theorem calls_follow (s : Store) (x : Traffic) (schedule : List (Nat × Option Mishap)) :
    (x.follow s schedule).calls.map (fun c => (c.locator, c.artifact)) =
      x.calls.map fun c => (c.locator, c.artifact) := by
  induction schedule generalizing x with
  | nil => rfl
  | cons m ms ih => exact (ih (x.move s m)).trans (calls_move s x m)

theorem files_move {i : Nat} (h : ∀ c, x.calls[i]? = some c → ∀ e tmp r, c.stage ≠ .replacing e tmp r)
    (y : Option Mishap) : (x.move s (i, y)).world.files = x.world.files := by
  cases hi : x.calls[i]? with
  | none => rw [move_of_none hi]
  | some c =>
    rw [move_of_some hi]
    exact Storing.files_step (h c hi)

/-- A call whose look finds the digest changes no file by any of its moves. -/
theorem files_of_look {before after : List (Nat × Option Mishap)} {i : Nat} {c : Call}
    {e : CacheEntry} {b : Bytes} (hc : (x.follow s before).calls[i]? = some c)
    (hstage : c.stage = .comparing e)
    (hb : (x.follow s before).world.files.readBytes e.path = .ok b)
    (ha : c.artifact.digest.accepts b = true) {pre post : List (Nat × Option Mishap)}
    {y : Option Mishap} (hsplit : before ++ (i, none) :: after = pre ++ (i, y) :: post) :
    (x.follow s (pre ++ [(i, y)])).world.files = (x.follow s pre).world.files := by
  -- before the look the call is at an earlier stage, after it there is nothing left to write
  have hearly : ∀ rest, before = pre ++ rest → ∀ d, (x.follow s pre).calls[i]? = some d →
      ∀ e tmp r, d.stage ≠ .replacing e tmp r := by
    rintro rest rfl d hd e' tmp r hr
    obtain ⟨st, hst, hlooked⟩ := stage_follow (s := s) (P := fun st => st.hasLooked = true)
      (fun _ _ _ _ _ h => Storing.hasLooked_step h) hd (by rw [hr]; rfl) rest
    rw [← follow_append, hc] at hst
    obtain rfl := Option.some.inj hst
    obtain rfl : st = .comparing e := hstage
    cases hlooked
  have hlate : ∀ rest, pre = before ++ (i, none) :: rest →
      ∀ d, (x.follow s pre).calls[i]? = some d → ∀ e tmp r, d.stage ≠ .replacing e tmp r := by
    rintro rest rfl d hd e' tmp r hr
    have hnext := call_move (s := s) hc none
    have hsettled : (c.stage.step s c.locator c.artifact none
        (x.follow s before).world).2.isSettled = true := by
      rw [hstage, Storing.step_comparing hb ha]
      rfl
    obtain ⟨st, hst, hsettled'⟩ := stage_follow (s := s) (P := fun st => st.isSettled = true)
      (fun _ _ _ _ _ h => Storing.isSettled_step h) hnext hsettled rest
    have hfollow : x.follow s (before ++ (i, none) :: rest) =
        ((x.follow s before).move s (i, none)).follow s rest := follow_append x before _
    rw [hfollow, hst] at hd
    obtain rfl := Option.some.inj hd
    obtain rfl : st = .replacing e' tmp r := hr
    cases hsettled'
  rw [follow_append]
  refine files_move ?_ y
  rcases List.append_eq_append_iff.mp hsplit with ⟨rest, hpre, hrest⟩ | ⟨rest, hbefore, -⟩
  · cases rest with
    | nil => exact hearly [] (by simpa using hpre.symm)
    | cons m rest =>
      obtain ⟨rfl, -⟩ := List.cons.inj hrest
      exact hlate rest hpre
  · exact hearly rest hbefore

/-! ### How calls end -/

theorem Kept.entry_of_known (h : Kept s w x) {c : Call} (hc : c ∈ x.calls) {e : CacheEntry}
    (he : c.stage.known? = some e) : s.entry c.locator c.artifact.digest = .ok e := by
  obtain ⟨i, hi⟩ := List.mem_iff_getElem?.mp hc
  rw [← entry_withChecksum]
  exact (h.orderly.honest i _ _ (worker?_of_call hi)).2 e he

/-- A call that ends well leaves its digest at its path when it lets the lock go. -/
theorem Kept.accepted_of_ended (h : Kept s w x) {i : Nat} {c c' : Call} {e : CacheEntry}
    (hc : x.calls[i]? = some c) (hnot : ∀ r, c.stage ≠ .done r) {y : Option Mishap}
    (hc' : (x.move s (i, y)).calls[i]? = some c') (hdone : c'.stage = .done (.ok e)) :
    ∃ b, (x.move s (i, y)).world.files.readBytes e.path = .ok b ∧
      c.artifact.digest.accepts b = true := by
  obtain rfl := Option.some.inj (hc'.symm.trans (call_move hc y))
  have hstage := Storing.eq_unlocking_of_step hdone hnot
  obtain ⟨q, b, x', hfind, ha⟩ := h.inPlace i _ c.artifact c.stage e e.path.components
    (worker?_of_call hc) (by rw [hstage]; rfl) (by rw [hstage]; rfl)
  have hfiles : (x.move s (i, y)).world.files = x.world.files :=
    files_move (fun d hd e' tmp r hr => by
      obtain rfl := Option.some.inj (hd.symm.trans hc)
      rw [hstage] at hr
      cases hr) y
  refine ⟨b, ?_, ha⟩
  rw [hfiles]
  exact readBytes_eq_ok_iff.mpr ⟨q, x', hfind⟩

/-- No move of a call that fails in the end changes a finished file: a call that has put its bytes in
place can only end well. -/
theorem Kept.content_of_failed (h : Kept s w x) (hf : LinkFree w.files s.root) {i : Nat}
    {y : Option Mishap} {rest : List (Nat × Option Mishap)} {c : Call} {f : Error}
    (hc : ((x.move s (i, y)).follow s rest).calls[i]? = some c) (hstage : c.stage = .done (.error f))
    {q : Place} (hq : ¬ IsTemporary q) :
    (x.move s (i, y)).world.files.content? q = x.world.files.content? q := by
  by_contra hne
  obtain ⟨d, e, b, hd, hdel, -⟩ := h.delivery_of_content hf hq hne
  obtain ⟨st, hst, hdel'⟩ := stage_follow (s := s) (P := fun st => st.delivered? = some e)
    (fun _ _ _ _ _ h => Storing.delivered?_step h) hd hdel rest
  obtain rfl := Option.some.inj (hst.symm.trans hc)
  obtain rfl : st = .done (.error f) := hstage
  cases hdel'

end Store.Traffic

namespace Store

/-- **Storing is atomic.**  Calls of one store go on at the same time, step by step, and any step may meet
a fault of the files. At every moment each finished file is as it was, or holds the complete bytes of
a call that has begun and whose path leads there. A call whose look finds its digest at its path writes
nothing; one that ends well leaves its digest at its path when it lets the lock go; one that fails
changes no finished file. No call stores under the name of a temporary file. -/
theorem calls_atomic (s : Store) (w : World) (cs : List (Locator × Artifact))
    (hlinks : LinkFree w.files s.root) (hfree : w.locked = [])
    (hdigests : ∀ c ∈ cs, c.2.digest.accepts c.2.bytes = true)
    (hnames : ∀ c ∈ cs, ∀ e, s.entry c.1 c.2.digest = .ok e →
      ∀ n i, e.path.fileName? ≠ some (temporaryName n w.process i))
    (schedule : List (Nat × Option Mishap)) :
    ((Traffic.start w cs).follow s schedule).calls.map (fun c => (c.locator, c.artifact)) = cs ∧
    (∀ q, ¬ IsTemporary q →
      ((Traffic.start w cs).follow s schedule).world.files.content? q = w.files.content? q ∨
      ∃ c ∈ ((Traffic.start w cs).follow s schedule).calls, ∃ e b, c.stage.known? = some e ∧
        s.entry c.locator c.artifact.digest = .ok e ∧
        ((Traffic.start w cs).follow s schedule).world.files.find e.path =
          .ok (q, .file c.artifact.bytes b)) ∧
    (∀ before i after c e b, schedule = before ++ (i, none) :: after →
      ((Traffic.start w cs).follow s before).calls[i]? = some c → c.stage = .comparing e →
      ((Traffic.start w cs).follow s before).world.files.readBytes e.path = .ok b →
      c.artifact.digest.accepts b = true →
      ∀ pre y post, schedule = pre ++ (i, y) :: post →
        ((Traffic.start w cs).follow s (pre ++ [(i, y)])).world.files =
          ((Traffic.start w cs).follow s pre).world.files) ∧
    (∀ pre i y post c c' e, schedule = pre ++ (i, y) :: post →
      ((Traffic.start w cs).follow s pre).calls[i]? = some c → (∀ r, c.stage ≠ .done r) →
      ((Traffic.start w cs).follow s (pre ++ [(i, y)])).calls[i]? = some c' →
      c'.stage = .done (.ok e) →
      ∃ b, ((Traffic.start w cs).follow s (pre ++ [(i, y)])).world.files.readBytes e.path = .ok b ∧
        c.artifact.digest.accepts b = true) ∧
    ∀ i c f, ((Traffic.start w cs).follow s schedule).calls[i]? = some c →
      c.stage = .done (.error f) →
      ∀ pre y post, schedule = pre ++ (i, y) :: post → ∀ q, ¬ IsTemporary q →
        ((Traffic.start w cs).follow s (pre ++ [(i, y)])).world.files.content? q =
          ((Traffic.start w cs).follow s pre).world.files.content? q := by
  have hnamed : (Traffic.start w cs).Named s w.process := by
    intro c hc
    obtain ⟨d, hd, rfl⟩ := List.mem_map.mp hc
    exact hnames d hd
  have hkept : ∀ ms, Traffic.Kept s w ((Traffic.start w cs).follow s ms) :=
    (Traffic.kept_start hfree hdigests).follow hlinks hnamed
  refine ⟨?_, fun q hq => ?_, ?_, ?_, ?_⟩
  · rw [Traffic.calls_follow]
    simp [Traffic.start, Function.comp_def]
  · by_cases hsame :
        ((Traffic.start w cs).follow s schedule).world.files.content? q = w.files.content? q
    · exact Or.inl hsame
    · obtain ⟨c, hc, e, b, hd, hfind⟩ := (hkept schedule).accounted q hq hsame
      have hknown := Storing.known?_of_delivered? hd
      exact Or.inr ⟨c, hc, e, b, hknown, (hkept schedule).entry_of_known hc hknown, hfind⟩
  · rintro before i after c e b rfl hc hstage hb ha pre y post hsplit
    exact Traffic.files_of_look hc hstage hb ha hsplit
  · rintro pre i y post c c' e rfl hc hnot hc' hdone
    rw [Traffic.follow_append] at hc' ⊢
    exact (hkept pre).accepted_of_ended hc hnot hc' hdone
  · rintro i c f hc hstage pre y post rfl q hq
    rw [Traffic.follow_append] at hc ⊢
    exact (hkept pre).content_of_failed hlinks hc hstage hq

/-- Two artifacts for one path. -/
def rivals : List (Locator × Artifact) :=
  [[1], [2]].map fun b =>
    (.simple ⟨none, "a"⟩ .registry "1.0.0".toList [], ⟨b, .compute .sha256 b, 1⟩)

/-- The second call waits while the first one stores. -/
def firstBeforeSecond : List (Nat × Option Mishap) :=
  [(0, none), (1, none), (0, none), (1, none)] ++ List.replicate 8 (0, none)

theorem calls_atomic_rivals :
    LinkFree ⟨[], []⟩ byName.cacheRoot ∧
    (∀ c ∈ rivals, c.2.digest.accepts c.2.bytes = true) ∧
    (∀ c ∈ rivals, ∀ e, (Store.mk byName.cacheRoot byName.layout).entry c.1 c.2.digest = .ok e →
      ∀ n i, e.path.fileName? ≠ some (temporaryName n 1 i)) ∧
    ((Traffic.start (.ofFiles ⟨[], []⟩) rivals).follow ⟨byName.cacheRoot, byName.layout⟩
      firstBeforeSecond).world.files.content? archivePlace = some [1] ∧
    ∃ c ∈ ((Traffic.start (.ofFiles ⟨[], []⟩) rivals).follow ⟨byName.cacheRoot, byName.layout⟩
      firstBeforeSecond).calls, c.artifact.bytes = [1] ∧ ∃ e, c.stage.known? = some e := by
  have hd : ((Traffic.start (.ofFiles ⟨[], []⟩) rivals).follow ⟨byName.cacheRoot, byName.layout⟩
      firstBeforeSecond).world.files.content? archivePlace = some [1] := by
    decide +kernel
  have hpath : rivals.all (fun c => ((Store.mk byName.cacheRoot byName.layout).entry c.1
      c.2.digest).toOption.all (·.path == archivePath)) = true := by
    decide +kernel
  have hdigests : ∀ c ∈ rivals, c.2.digest.accepts c.2.bytes = true := by
    intro c hc
    obtain ⟨b, -, rfl⟩ := List.mem_map.mp hc
    simp [Checksum.accepts, Checksum.compute]
  have hnames : ∀ c ∈ rivals, ∀ e, (Store.mk byName.cacheRoot byName.layout).entry c.1
      c.2.digest = .ok e → ∀ n i, e.path.fileName? ≠ some (temporaryName n 1 i) := by
    intro c hc e he n i
    have hc' := List.all_eq_true.mp hpath c hc
    rw [he] at hc'
    have hp : e.path = archivePath := by simpa [Except.toOption] using hc'
    rw [hp]
    exact fresh_archivePath n 1 i
  have hlinks := linkFree_empty [] byName.cacheRoot
  refine ⟨hlinks, hdigests, hnames, hd, ?_⟩
  rcases (calls_atomic ⟨byName.cacheRoot, byName.layout⟩ (.ofFiles ⟨[], []⟩) rivals hlinks rfl
    hdigests hnames firstBeforeSecond).2.1 archivePlace not_isTemporary_archivePlace with
    hsame | ⟨c, hc, e, b, hknown, -, hfind⟩
  · rw [hd] at hsame
    cases hsame
  · have hcontent := content?_eq_some_iff.mpr ⟨b, node?_of_find hfind⟩
    exact ⟨c, hc, (Option.some.inj (hd.symm.trans hcontent)).symm, e, hknown⟩

end Store

end OfflineCache
