import OfflineCache.Proofs.Fetch.Steady
import OfflineCache.Proofs.Run.Calls
import OfflineCache.Proofs.Store.Replacing

/-! What a worker holds and what its step changes. An artifact in its hands has been verified for its
locator, and the entry it stores is the one of the layout (`Honest`). Only the stages of a
replacement touch files; every other step leaves them as they are. Once an entry is delivered it
stays so to the end. -/

namespace OfflineCache

/-- The artifact passed the check against the checksum of the record. -/
def Verified (l : Locator) (a : Artifact) : Prop := Fetcher.verify l a.bytes = .ok a.digest

/-! ## Verification -/

/-- The text is that of a digest of these bytes. -/
def Attests (digest : String) (b : Bytes) : Prop :=
  ∃ algorithm, (Checksum.compute algorithm b).render = digest

theorem Checksum.eq_compute_of_accepts {c : Checksum} {b : Bytes} (h : c.accepts b = true) :
    c = compute c.algorithm b := by
  have hd : c.algorithm.digest b = c.digest := by simpa [accepts] using h
  obtain ⟨a, d⟩ := c
  simp only at hd
  simp [compute, hd]

theorem attests_of_accepts {c : Checksum} {b : Bytes} (h : c.accepts b = true) :
    Attests c.render b :=
  ⟨c.algorithm, congrArg Checksum.render (Checksum.eq_compute_of_accepts h).symm⟩

theorem Verified.accepts {l : Locator} {a : Artifact} (h : Verified l a) :
    a.digest.accepts a.bytes = true := by
  unfold Verified Fetcher.verify at h
  split at h
  · have hd := Except.ok.inj h
    rw [← hd]
    simp [Checksum.accepts, Checksum.compute]
  · simp only at h
    split at h
    · have hd := Except.ok.inj h
      rw [← hd]
      simp [Checksum.accepts, Checksum.compute]
    · cases h

/-- A checksum that is declared is the one that was verified. -/
theorem Verified.digest_eq {l : Locator} {a : Artifact} (h : Verified l a) {c : Checksum}
    (hc : l.checksum = some c) : a.digest = c := by
  unfold Verified Fetcher.verify at h
  rw [hc] at h
  simp only at h
  split at h
  · rename_i hd
    have he := Except.ok.inj h
    rw [← he]
    obtain ⟨algorithm, digest⟩ := c
    simp only [Checksum.compute] at hd ⊢
    rw [hd]
  · cases h

namespace Fetching

/-- What is done has been verified. -/
def Honest (l : Locator) : Fetching → Prop
  | .done (.ok a) => Verified l a
  | _ => True

theorem honest_begin (f : Fetcher) (l : Locator) (t : FileTree) : (begin f l t).Honest l := by
  unfold begin
  split
  · trivial
  · trivial
  · split <;> trivial

theorem honest_step (f : Fetcher) (t : Transport) (l : Locator) (w : World) {s : Fetching}
    (h : s.Honest l) : (s.step f t l w).2.Honest l := by
  cases s with
  | starting => exact honest_begin f l w.files
  | retrying target q r =>
    cases r with
    | done r =>
      cases r with
      | ok bn => trivial
      | error e => trivial
    | _ => trivial
  | verifying b n =>
    simp only [step]
    split
    · trivial
    · rename_i d hd
      exact hd
  | done r => exact h

/-- What a fetch gives has been verified. -/
theorem verified_of_run {f : Fetcher} {t : Transport} {l : Locator} {w : World} {a : Artifact}
    (h : (run f t l w).2 = .ok a) : Verified l a := by
  obtain ⟨-, hend⟩ := run_induction f t l (P := fun _ s => s.Honest l)
    (fun w _ => honest_step f t l w) (w := w) trivial
  rw [h] at hend
  exact hend

end Fetching

/-! ## Storing -/

namespace Storing

/-- The entry that is being stored, from the moment it is known. -/
def known? : Storing → Option CacheEntry
  | .starting => none
  | .locking e | .comparing e | .replacing e _ _ | .unlocking e _ => some e
  | .done (.ok e) => some e
  | .done (.error _) => none

/-- The entry, once it is at its path. -/
def delivered? : Storing → Option CacheEntry
  | .replacing e _ (.done (.ok ())) => some e
  | .unlocking e (.ok ()) => some e
  | .done (.ok e) => some e
  | _ => none

/-- The stage of a replacement that is not over, with its entry and its temporary path. -/
def replacing? : Storing → Option (CacheEntry × Path × Replacement)
  | .replacing _ _ (.done _) => none
  | .replacing e tmp r => some (e, tmp, r)
  | _ => none

theorem replacing?_of_not_done (e : CacheEntry) (tmp : Path) {r : Replacement}
    (h : ∀ x, r ≠ .done x) : (Storing.replacing e tmp r).replacing? = some (e, tmp, r) := by
  cases r with
  | done x => exact absurd rfl (h x)
  | _ => rfl

theorem replacing?_eq_some_iff {st : Storing} {e : CacheEntry} {tmp : Path} {r : Replacement} :
    st.replacing? = some (e, tmp, r) ↔ st = .replacing e tmp r ∧ ∀ x, r ≠ .done x := by
  constructor
  · intro h
    unfold replacing? at h
    split at h
    · cases h
    · rename_i hnot
      cases h
      refine ⟨rfl, fun x hx => ?_⟩
      subst hx
      exact hnot x rfl
    · cases h
  · rintro ⟨rfl, h⟩
    exact replacing?_of_not_done e tmp h

theorem of_delivered?_replacing {e e' : CacheEntry} {tmp : Path} {r : Replacement}
    (h : (Storing.replacing e tmp r).delivered? = some e') : r = .done (.ok ()) ∧ e = e' := by
  unfold delivered? at h
  split at h <;> simp_all

variable (s : Store) (l : Locator) (a : Artifact) (m : Option Mishap) (w : World)

/-- What a step of storing does to what all share. Only a stage of a replacement touches files, and
only the beginning of a replacement uses up a temporary name. -/
inductive Change (s : Store) (l : Locator) (a : Artifact) (m : Option Mishap) (w : World) :
    Storing → World → Storing → Prop
  | quiet {st st' : Storing} {w' : World} : w'.files = w.files → w'.temporaries = w.temporaries →
      st.replacing? = none → st'.replacing? = none → st'.delivered? = st.delivered? →
      (∀ e, st'.known? = some e → st.known? = some e ∨ s.entry l a.digest = .ok e) →
      Change s l a m w st w' st'
  | matched {e : CacheEntry} {w' : World} {b : Bytes} : w'.files = w.files →
      w'.temporaries = w.temporaries → w.files.readBytes e.path = .ok b →
      a.digest.accepts b = true → Change s l a m w (.comparing e) w' (.unlocking e (.ok ()))
  | begun {e : CacheEntry} {w' : World} : w'.files = w.files →
      w'.temporaries = w.temporaries + 1 → Change s l a m w (.comparing e) w'
        (.replacing e (Replacement.temporaryFor e.path w.process w.temporaries) .preparing)
  | staged {e : CacheEntry} {tmp : Path} {r : Replacement} : (∀ x, r ≠ .done x) →
      Change s l a m w (.replacing e tmp r)
        { w with files := (r.step e.path tmp a.bytes m w.files).1 }
        (.replacing e tmp (r.step e.path tmp a.bytes m w.files).2)

theorem step_replacing (e : CacheEntry) (tmp : Path) {r : Replacement} (h : ∀ x, r ≠ .done x) :
    step s l a m w (.replacing e tmp r) =
      ({ w with files := (r.step e.path tmp a.bytes m w.files).1 },
        .replacing e tmp (r.step e.path tmp a.bytes m w.files).2) := by
  cases r with
  | done x => exact absurd rfl (h x)
  | _ => rfl

theorem change_step (st : Storing) :
    Change s l a m w st (st.step s l a m w).1 (st.step s l a m w).2 := by
  cases st with
  | starting =>
    simp only [step]
    split
    · exact .quiet rfl rfl rfl rfl rfl fun e he => by cases he
    · rename_i e he
      refine .quiet rfl rfl rfl rfl rfl fun e' he' => Or.inr ?_
      obtain rfl : e = e' := by simpa [known?] using he'
      exact he
  | locking e =>
    simp only [step]
    split <;> exact .quiet rfl rfl rfl rfl rfl fun _ h => Or.inl h
  | comparing e =>
    simp only [step, compare]
    split
    · rename_i b hb
      split
      · rename_i ha
        exact .matched rfl rfl hb ha
      · exact .begun rfl rfl
    · exact .begun rfl rfl
  | replacing e tmp r =>
    by_cases h : ∃ x, r = .done x
    · obtain ⟨x, rfl⟩ := h
      cases x <;> exact .quiet rfl rfl rfl rfl rfl fun _ h => Or.inl h
    · have hr : ∀ x, r ≠ .done x := fun x he => h ⟨x, he⟩
      rw [step_replacing s l a m w e tmp hr]
      exact .staged hr
  | unlocking e r =>
    cases r with
    | ok u => exact .quiet rfl rfl rfl rfl rfl fun _ h => Or.inl h
    | error f => exact .quiet rfl rfl rfl rfl rfl fun e he => by cases he
  | done r => exact .quiet rfl rfl rfl rfl rfl fun _ h => Or.inl h

theorem known?_change {st st' : Storing} {w' : World} (h : Change s l a m w st w' st')
    {e : CacheEntry} (he : st'.known? = some e) :
    st.known? = some e ∨ s.entry l a.digest = .ok e := by
  cases h with
  | quiet _ _ _ _ _ hentry => exact hentry e he
  | matched => exact Or.inl he
  | begun => exact Or.inl he
  | staged => exact Or.inl he

theorem known?_of_delivered? {st : Storing} {e : CacheEntry} (h : st.delivered? = some e) :
    st.known? = some e := by
  unfold delivered? at h
  split at h <;> first | exact h | cases h

end Storing

/-! ## Workers -/

namespace Worker

/-- The artifact that is being put in place, with its entry, its temporary path and the stage. -/
def replacing? : Worker → Option (Artifact × CacheEntry × Path × Replacement)
  | .storing a s => s.replacing?.map (a, ·)
  | _ => none

theorem replacing?_eq_some_iff {k : Worker} {a : Artifact} {e : CacheEntry} {tmp : Path}
    {r : Replacement} : k.replacing? = some (a, e, tmp, r) ↔
      k = .storing a (.replacing e tmp r) ∧ ∀ x, r ≠ .done x := by
  constructor
  · intro h
    cases k with
    | storing a' st =>
      obtain ⟨etr, he, hp⟩ := Option.map_eq_some_iff.mp h
      obtain ⟨rfl, rfl⟩ : a' = a ∧ etr = (e, tmp, r) := by simpa using hp
      obtain ⟨rfl, hr⟩ := Storing.replacing?_eq_some_iff.mp he
      exact ⟨rfl, hr⟩
    | _ => cases h
  · rintro ⟨rfl, h⟩
    simp [replacing?, Storing.replacing?_of_not_done e tmp h]

/-- The path and digest of what has been delivered. -/
def delivered? : Worker → Option (Path × String)
  | .storing _ s => s.delivered?.map fun e => (e.path, e.digest.render)
  | .finished (.fetched path digest) => some (path, digest)
  | _ => none

theorem of_delivered?_replacing {a : Artifact} {e : CacheEntry} {tmp : Path} {r : Replacement}
    {path : Path} {digest : String}
    (h : (Worker.storing a (.replacing e tmp r)).delivered? = some (path, digest)) :
    r = .done (.ok ()) ∧ e.path = path ∧ e.digest.render = digest := by
  obtain ⟨e', he, hp⟩ := Option.map_eq_some_iff.mp h
  obtain ⟨hr, rfl⟩ := Storing.of_delivered?_replacing he
  exact ⟨hr, (Prod.mk.inj hp).1, (Prod.mk.inj hp).2⟩

/-- What is delivered is a verified artifact at the path of its entry. -/
structure Delivers (s : Store) (l : Locator) (a : Artifact) (e : CacheEntry) (k : Worker) :
    Prop where
  verified : Verified l a
  entry : s.entry l a.digest = .ok e
  delivered : k.delivered? = some (e.path, e.digest.render)

def Honest (s : Store) (l : Locator) : Worker → Prop
  | .waiting => True
  | .fetching st => st.Honest l
  | .storing a st => Verified l a ∧ ∀ e, st.known? = some e → s.entry l a.digest = .ok e
  | .finished o => ∀ path digest, o = .fetched path digest →
      ∃ a e, Delivers s l a e (.finished o)

variable {s : Store} {l : Locator}

theorem Honest.delivers {k : Worker} (h : k.Honest s l) {path : Path} {digest : String}
    (hd : k.delivered? = some (path, digest)) : ∃ a e, Delivers s l a e k ∧
      e.path = path ∧ e.digest.render = digest := by
  cases k with
  | waiting => cases hd
  | fetching st => cases hd
  | storing a st =>
    obtain ⟨e, he, hpd⟩ := Option.map_eq_some_iff.mp hd
    obtain ⟨rfl, rfl⟩ : e.path = path ∧ e.digest.render = digest := by simpa using hpd
    exact ⟨a, e, ⟨h.1, h.2 e (Storing.known?_of_delivered? he), hd⟩, rfl, rfl⟩
  | finished o =>
    have ho : o = .fetched path digest := by
      cases o <;> simp_all [delivered?]
    obtain ⟨a, e, hdel⟩ := h path digest ho
    have hpd := hdel.delivered.symm.trans hd
    obtain ⟨hp, hg⟩ : e.path = path ∧ e.digest.render = digest := by simpa using hpd
    exact ⟨a, e, hdel, hp, hg⟩

theorem Honest.replacing {k : Worker} (h : k.Honest s l) {a : Artifact} {e : CacheEntry}
    {tmp : Path} {r : Replacement} (hr : k.replacing? = some (a, e, tmp, r)) :
    Verified l a ∧ s.entry l a.digest = .ok e := by
  obtain ⟨rfl, -⟩ := replacing?_eq_some_iff.mp hr
  exact ⟨h.1, h.2 e rfl⟩

/-- What a step of a worker does to what all share. -/
inductive Change (p : Workplace) (l : Locator) (m : Option Mishap) (w : World) :
    Worker → World → Worker → Prop
  | quiet {k k' : Worker} {w' : World} : w'.files = w.files → w'.temporaries = w.temporaries →
      k.replacing? = none → k'.replacing? = none → k'.delivered? = k.delivered? →
      Change p l m w k w' k'
  | matched {a : Artifact} {e : CacheEntry} {w' : World} {b : Bytes} : w'.files = w.files →
      w'.temporaries = w.temporaries → w.files.readBytes e.path = .ok b →
      a.digest.accepts b = true →
      Change p l m w (.storing a (.comparing e)) w' (.storing a (.unlocking e (.ok ())))
  | begun {a : Artifact} {e : CacheEntry} {w' : World} : w'.files = w.files →
      w'.temporaries = w.temporaries + 1 → Change p l m w (.storing a (.comparing e)) w' (.storing a
        (.replacing e (Replacement.temporaryFor e.path w.process w.temporaries) .preparing))
  | staged {a : Artifact} {e : CacheEntry} {tmp : Path} {r : Replacement} : (∀ x, r ≠ .done x) →
      Change p l m w (.storing a (.replacing e tmp r))
        { w with files := (r.step e.path tmp a.bytes m w.files).1 }
        (.storing a (.replacing e tmp (r.step e.path tmp a.bytes m w.files).2))

variable (p : Workplace) (m : Option Mishap) (w : World)

theorem step_replacing (l : Locator) (a : Artifact) (e : CacheEntry) (tmp : Path) {r : Replacement}
    (h : ∀ x, r ≠ .done x) : step p l m w (.storing a (.replacing e tmp r)) =
      ({ w with files := (r.step e.path tmp a.bytes m w.files).1 },
        .storing a (.replacing e tmp (r.step e.path tmp a.bytes m w.files).2)) := by
  have hnot : ∀ x, Storing.replacing e tmp r ≠ .done x := fun x hx => by cases hx
  rw [step_storing p l m w a hnot, Storing.step_replacing p.store l a m w e tmp h]

theorem change_step (l : Locator) (k : Worker) :
    Change p l m w k (k.step p l m w).1 (k.step p l m w).2 := by
  cases k using stages with
  | waiting =>
    simp only [step]
    split <;> exact .quiet rfl rfl rfl rfl rfl
  | fetching st hst =>
    rw [step_fetching p l m w hst]
    have hf := Fetching.frame_step p.fetcher p.transport l w st
    exact .quiet hf.files hf.temporaries rfl rfl rfl
  | fetched a => exact .quiet rfl rfl rfl rfl rfl
  | failed e =>
    simp only [step, afterFailure]
    split
    · exact .quiet rfl rfl rfl rfl rfl
    · refine .quiet rfl rfl rfl rfl ?_
      cases e <;> rfl
  | storing a st hst =>
    rw [step_storing p l m w a hst]
    have hc := Storing.change_step p.store l a m w st
    revert hc
    generalize st.step p.store l a m w = x
    obtain ⟨w', st'⟩ := x
    intro hc
    cases hc with
    | quiet hf ht hr hr' hdel _ =>
      exact .quiet hf ht (by simp [replacing?, hr]) (by simp [replacing?, hr'])
        (by simp [delivered?, hdel])
    | matched hf ht hb ha => exact .matched hf ht hb ha
    | begun hf ht => exact .begun hf ht
    | staged hr => exact .staged hr
  | stored a r => cases r <;> exact .quiet rfl rfl rfl rfl rfl
  | finished o => exact .quiet rfl rfl rfl rfl rfl

/-- A replacement under way was so before the step, or it begins with it. -/
theorem Change.replacing? {k k' : Worker} {w' : World} (h : Change p l m w k w' k') {a : Artifact}
    {e : CacheEntry} {tmp : Path} {r : Replacement} (hr : k'.replacing? = some (a, e, tmp, r)) :
    (∃ r, k.replacing? = some (a, e, tmp, r)) ∨
      r = .preparing ∧ tmp = Replacement.temporaryFor e.path w.process w.temporaries ∧
        w'.temporaries = w.temporaries + 1 := by
  cases h with
  | quiet _ _ _ hnone _ =>
    rw [hnone] at hr
    cases hr
  | matched => cases hr
  | begun _ ht =>
    cases hr
    exact Or.inr ⟨rfl, rfl, ht⟩
  | @staged a' e' tmp' r' hnot =>
    obtain ⟨he, -⟩ := replacing?_eq_some_iff.mp hr
    cases he
    exact Or.inl ⟨r', replacing?_eq_some_iff.mpr ⟨rfl, hnot⟩⟩

theorem Change.temporaries_le {k k' : Worker} {w' : World} (h : Change p l m w k w' k') :
    w.temporaries ≤ w'.temporaries := by
  cases h with
  | quiet _ ht _ _ _ => exact Nat.le_of_eq ht.symm
  | matched _ ht _ _ => exact Nat.le_of_eq ht.symm
  | begun _ ht => omega
  | staged _ => exact Nat.le_refl _

theorem process_step (l : Locator) (k : Worker) : (k.step p l m w).1.process = w.process := by
  cases k using stages with
  | waiting =>
    simp only [step]
    split <;> rfl
  | fetching st hst =>
    rw [step_fetching p l m w hst]
    exact (Fetching.frame_step p.fetcher p.transport l w st).process
  | fetched a => rfl
  | failed e =>
    simp only [step, afterFailure]
    split <;> rfl
  | storing a st hst =>
    rw [step_storing p l m w a hst]
    exact (Storing.frame_step p.store l a m w st).process
  | stored a r => cases r <;> rfl
  | finished o => rfl

theorem honest_step {k : Worker} (h : k.Honest p.store l) :
    (k.step p l m w).2.Honest p.store l := by
  cases k using stages with
  | waiting =>
    simp only [step]
    split
    · exact fun path digest ho => by cases ho
    · trivial
  | fetching st hst =>
    rw [step_fetching p l m w hst]
    exact Fetching.honest_step p.fetcher p.transport l w h
  | fetched a => exact ⟨h, fun e he => by cases he⟩
  | failed e =>
    simp only [step, afterFailure]
    split
    · exact fun path digest ho => by cases ho
    · intro path digest ho
      cases e <;> cases ho
  | storing a st hst =>
    rw [step_storing p l m w a hst]
    refine ⟨h.1, fun e he => ?_⟩
    rcases Storing.known?_change p.store l a m w (Storing.change_step p.store l a m w st) he with
      he | he
    · exact h.2 e he
    · exact he
  | stored a r =>
    cases r with
    | ok e =>
      intro path digest ho
      exact ⟨a, e, h.1, h.2 e rfl, rfl⟩
    | error e => exact fun path digest ho => by cases ho
  | finished o => exact h

/-- What is delivered stays so. -/
theorem delivered?_step {k : Worker} {d : Path × String} (h : k.delivered? = some d) :
    (k.step p l m w).2.delivered? = some d := by
  have hc := change_step p m w l k
  revert hc
  generalize k.step p l m w = x
  obtain ⟨w', k'⟩ := x
  intro hc
  cases hc with
  | quiet _ _ _ _ hdel => exact hdel.trans h
  | matched => cases h
  | begun => cases h
  | @staged a e tmp r hr =>
    cases r with
    | done x => exact absurd rfl (hr x)
    | _ => cases h

theorem Delivers.step {a : Artifact} {e : CacheEntry} {k : Worker} (h : Delivers p.store l a e k) :
    Delivers p.store l a e (k.step p l m w).2 :=
  ⟨h.verified, h.entry, delivered?_step p m w h.delivered⟩

end Worker

end OfflineCache
