import OfflineCache.Proofs.Run.Ending

/-! Hardened runs. What is fetched in hardened mode is pinned: its record declares a checksum, which the
stored bytes have, or every export from git that was made for it names a full commit hash. -/

namespace OfflineCache

/-! ## What the policy saw -/

namespace Policy

theorem mem_digits_of_value? {c : Char} (h : (Text.Hex.value? c).isSome = true) :
    c ∈ "0123456789abcdefABCDEF".toList := by
  have hall : ∀ n < 0x67, (Text.Hex.value? (Char.ofNat n)).isSome = true →
      Char.ofNat n ∈ "0123456789abcdefABCDEF".toList := by decide
  have hc : c.toNat < 0x67 := by
    by_contra hnot
    have hlarge : ¬ c.toNat ≤ 0x39 ∧ ¬ c.toNat ≤ 0x66 ∧ ¬ c.toNat ≤ 0x46 := by omega
    simp [Text.Hex.value?, hlarge] at h
  rw [← Char.ofNat_toNat c] at h ⊢
  exact hall c.toNat hc h

/-- Forty digits, of either case. -/
theorem of_isCommitHash {rev : String} (h : isCommitHash rev = true) :
    rev.toList.length = 40 ∧ ∀ c ∈ rev.toList, c ∈ "0123456789abcdefABCDEF".toList := by
  simp only [isCommitHash, Bool.and_eq_true, beq_iff_eq, List.all_eq_true] at h
  exact ⟨h.1, fun c hc => mem_digits_of_value? (h.2 c hc)⟩

/-- What hardened mode lets through is pinned. -/
theorem pinned_of_fetchable {p : Policy} {l : Locator} (h : p.classify l = .fetchable)
    (hp : p.hardened = true) : unpinned? l = none := by
  unfold classify at h
  split at h
  · cases h
  · cases h
  · cases h
  · cases h
  · split at h
    · cases h
    · split at h
      · cases h
      · assumption

theorem checksum_of_pinned {l : Locator} (h : unpinned? l = none)
    (hl : l.protocol = .registry ∨ l.protocol = .http ∨ l.protocol = .file) :
    ∃ c, l.checksum = some c := by
  rw [← Option.isSome_iff_exists]
  rcases hl with hl | hl | hl <;> simpa [unpinned?, hl, Option.isSome_iff_ne_none] using h

theorem revision_of_pinned {l : Locator} (h : unpinned? l = none) (hl : l.protocol = .git)
    {url : String} {revision : Option String} (hs : l.gitSource? = some (url, revision)) :
    ∃ rev, revision = some rev ∧ isCommitHash rev = true := by
  cases revision with
  | none => simp [unpinned?, hl, hs] at h
  | some rev => exact ⟨rev, rfl, by simpa [unpinned?, hl, hs] using h⟩

end Policy

/-! ## Records of entries -/

namespace Plan

/-- A locator has the checksum that its record declares. -/
theorem checksum_of_readRecord {d : Dialect} {r : LockRecord} {l : Locator}
    (h : readRecord d r = .ok l) {c : Checksum} (hc : l.checksum = some c) :
    ∃ text, r.checksum = some text ∧ d.parseChecksum text = .ok c := by
  unfold readRecord at h
  cases hl : d.parseLocator r.locatorText with
  | error e =>
    rw [hl] at h
    cases h
  | ok first =>
    rw [hl] at h
    cases hr : r.checksum with
    | none =>
      rw [hr] at h
      obtain rfl := Except.ok.inj h
      cases hc
    | some text =>
      rw [hr] at h
      cases hp : d.parseChecksum text with
      | error e =>
        simp only [hp] at h
        cases h
      | ok c' =>
        simp only [hp] at h
        obtain rfl := Except.ok.inj h
        obtain rfl := Option.some.inj hc
        exact ⟨text, rfl, hp⟩

theorem mem_trace {d : Dialect} {seen : List Locator} {rs : List LockRecord} {r : LockRecord}
    {v : Verdict} (h : (r, v) ∈ trace d seen rs) : r ∈ rs ∧ ∃ before, v = judge d before r := by
  induction rs generalizing seen with
  | nil => cases h
  | cons first rest ih =>
    rcases List.mem_cons.mp h with he | hm
    · obtain ⟨rfl, rfl⟩ := Prod.mk.inj he
      exact ⟨List.mem_cons_self, seen, rfl⟩
    · obtain ⟨hr, hv⟩ := ih hm
      exact ⟨List.mem_cons_of_mem _ hr, hv⟩

theorem readRecord_of_fresh {d : Dialect} {seen : List Locator} {r : LockRecord} {l : Locator}
    (h : judge d seen r = .fresh l) : readRecord d r = .ok l := by
  unfold judge at h
  split at h
  · cases h
  · split at h
    · cases h
      assumption
    · split at h <;> cases h

/-- The record of an entry with a locator. -/
theorem record_of_make {t : FileTree} {p : Policy} {f : Lockfile} {declared : Option Nat}
    {plan : Plan} (h : make t p f declared = .ok plan) {e : PlannedEntry} (he : e ∈ plan.entries)
    {l : Locator} (hl : e.locator? = some l) :
    ∃ r ∈ f.records, r.locatorText = e.raw ∧ readRecord plan.dialect r = .ok l := by
  obtain ⟨⟨r, v⟩, hv, hentry⟩ := mem_entriesOf (make_eq_ok_iff.mp h).2 he
  obtain ⟨hr, before, rfl⟩ := mem_trace hv
  refine ⟨r, hr, ?_⟩
  cases hj : judge plan.dialect before r with
  | malformed m =>
    rw [hj] at hentry
    simp only [entryOf?] at hentry
    split at hentry
    · cases hentry
    · cases hentry
      cases hl
  | fresh l' =>
    rw [hj] at hentry
    cases hentry
    cases hl
    exact ⟨rfl, readRecord_of_fresh hj⟩
  | duplicate l' =>
    rw [hj] at hentry
    cases hentry
  | conflict l' =>
    rw [hj] at hentry
    cases hentry

/-- What a hardened plan wants fetched is pinned. -/
theorem pinned_of_make {t : FileTree} {p : Policy} {f : Lockfile} {declared : Option Nat}
    {plan : Plan} (h : make t p f declared = .ok plan) (hp : p.hardened = true) {e : PlannedEntry}
    (he : e ∈ plan.entries) {l : Locator} (hl : e.pending? = some l) : Policy.unpinned? l = none := by
  rw [PlannedEntry.pending?_eq_some_iff.mp hl] at he
  exact Policy.pinned_of_fetchable (classify_eq_fetchable (classify_of_make h he).symm) hp

end Plan

/-! ## What workers fetch -/

/-- The protocols by which something is fetched. -/
def Locator.Sourced (l : Locator) : Prop :=
  (l.protocol = .registry ∨ l.protocol = .http ∨ l.protocol = .file) ∨ l.protocol = .git

theorem Fetcher.sourced_of_source {f : Fetcher} {t : FileTree} {l : Locator} {src : Source}
    (h : f.source t l = .ok src) : l.Sourced := by
  unfold source at h
  split at h
  · rename_i hp
    exact Or.inl (Or.inl hp)
  · rename_i hp
    exact Or.inl (Or.inr (Or.inl hp))
  · rename_i hp
    exact Or.inr hp
  · rename_i hp
    exact Or.inl (Or.inr (Or.inr hp))
  · cases h

/-- What is pinned is exported from git at a full commit hash. -/
theorem Fetcher.Asks.revision_of_pinned {f : Fetcher} {l : Locator} {q : Request} (h : f.Asks l q)
    (hl : l.protocol = .git) (hpinned : Policy.unpinned? l = none) :
    ∃ url rev, q = .gitExport url (some rev) ∧ Policy.isCommitHash rev = true := by
  cases h with
  | registry hp => exact nomatch hl.symm.trans hp
  | http hp => exact nomatch hl.symm.trans hp
  | git _ hsource =>
    obtain ⟨rev, rfl, hrev⟩ := Policy.revision_of_pinned hpinned hl hsource
    exact ⟨_, rev, rfl, hrev⟩

namespace Fetching

/-- What has been begun and has not failed has a source. -/
def HasSource (l : Locator) : Fetching → Prop
  | .starting | .done (.error _) => True
  | _ => l.Sourced

theorem hasSource_step (f : Fetcher) (t : Transport) {l : Locator} (w : World) {s : Fetching}
    (h : s.HasSource l) : (s.step f t l w).2.HasSource l := by
  cases s with
  | starting =>
    simp only [step, begin]
    split
    · trivial
    · rename_i hs
      exact Fetcher.sourced_of_source hs
    · rename_i hs
      split
      · exact Fetcher.sourced_of_source hs
      · trivial
  | retrying target q r =>
    cases r with
    | done r => cases r <;> first | exact h | trivial
    | _ => exact h
  | verifying b n =>
    simp only [step]
    split
    · trivial
    · exact h
  | done r => exact h

end Fetching

namespace Worker

def HasSource (l : Locator) : Worker → Prop
  | .waiting => True
  | .fetching s => s.HasSource l
  | .storing _ _ => l.Sourced
  | .finished _ => True

theorem hasSource_step (p : Workplace) (l : Locator) (m : Option Mishap) (w : World) (k : Worker)
    (h : k.HasSource l) : (k.step p l m w).2.HasSource l := by
  cases k using stages with
  | waiting =>
    simp only [step]
    split <;> trivial
  | fetching s hs =>
    rw [step_fetching p l m w hs]
    exact Fetching.hasSource_step p.fetcher p.transport w h
  | fetched a => exact h
  | failed e =>
    simp only [step, afterFailure]
    split <;> trivial
  | storing a s hs =>
    rw [step_storing p l m w a hs]
    exact h
  | stored a r => cases r <;> trivial
  | finished o => trivial

/-- Who is through with an artifact was so before, or has stored it. -/
theorem stored_of_step {p : Workplace} {l : Locator} {m : Option Mishap} {w : World} {k : Worker}
    {path : Path} {digest : String}
    (h : (k.step p l m w).2 = .finished (.fetched path digest)) :
    k = .finished (.fetched path digest) ∨
      ∃ a e, k = .storing a (.done (.ok e)) ∧ e.path = path ∧ e.digest.render = digest := by
  cases k using stages with
  | waiting =>
    simp only [step] at h
    split at h <;> cases h
  | fetching s hs =>
    rw [step_fetching p l m w hs] at h
    cases h
  | fetched a => cases h
  | failed e =>
    simp only [step, afterFailure] at h
    split at h
    · cases h
    · cases e <;> cases h
  | storing a s hs =>
    rw [step_storing p l m w a hs] at h
    cases h
  | stored a r =>
    cases r with
    | ok e =>
      cases h
      exact Or.inr ⟨a, e, rfl, rfl, rfl⟩
    | error e => cases h
  | finished o => exact Or.inl h

end Worker

namespace Run

variable {p : Workplace} {w : World} {plan : Plan}

/-- A worker has the locator of the plan's entry at his place, which is to be fetched. -/
theorem entry_of_task {schedule : List Move} {i : Nat} {s : Slot} {l : Locator} {k : Worker}
    (hs : ((start w plan).follow p schedule).slots[i]? = some s) (ht : s.task = some (l, k)) :
    plan.entries[i]? = some s.entry ∧ s.entry.pending? = some l := by
  refine ⟨?_, ((follow_sound schedule (start_sound p.fetcher w plan)) s
    (List.mem_of_getElem? hs) l k ht).1⟩
  rw [← entries_follow p w plan schedule, List.getElem?_map, hs]
  rfl

/-- What is called for an entry is what its locator asks. -/
theorem asks_of_entry {schedule : List Move} {i : Nat} {e : PlannedEntry} {l : Locator} {q : Request}
    (hi : plan.entries[i]? = some e) (hl : e.pending? = some l)
    (hq : (i, q) ∈ (start w plan).trail p schedule) : p.fetcher.Asks l q := by
  obtain ⟨e', l', hi', hl', ha⟩ := asks_of_mem_trail p (start_sound _ w plan) hq
  rw [start_entries, hi] at hi'
  obtain rfl := Option.some.inj hi'
  obtain rfl := Option.some.inj (hl.symm.trans hl')
  exact ha

/-- Before an entry ends fetched, its worker has stored what is reported. -/
theorem stored_of_fetched {schedule : List Move} {i : Nat} {l : Locator} {path : Path}
    {digest : String}
    (h : ((start w plan).follow p schedule).worker? i =
      some (l, .finished (.fetched path digest))) :
    ∃ before after a e, schedule = before ++ after ∧
      ((start w plan).follow p before).worker? i = some (l, .storing a (.done (.ok e))) ∧
      e.path = path ∧ e.digest.render = digest := by
  induction schedule using List.reverseRecOn with
  | nil => cases worker?_start h
  | append_singleton ms m ih =>
    rw [follow_append] at h
    have hearlier : ((start w plan).follow p ms).worker? i =
        some (l, .finished (.fetched path digest)) → ∃ before after a e,
          ms ++ [m] = before ++ after ∧
          ((start w plan).follow p before).worker? i = some (l, .storing a (.done (.ok e))) ∧
          e.path = path ∧ e.digest.render = digest := by
      intro hk
      obtain ⟨before, after, a, e, rfl, hstored⟩ := ih hk
      exact ⟨before, after ++ [m], a, e, List.append_assoc before after [m], hstored⟩
    rcases worker_of_move h with ⟨hk, -⟩ | ⟨x, k, rfl, hk, -, hk'⟩
    · exact hearlier hk
    · rcases Worker.stored_of_step hk'.symm with rfl | ⟨a, e, rfl, hpath, hdigest⟩
      · exact hearlier hk
      · exact ⟨ms, [.work i x], a, e, rfl, hk, hpath, hdigest⟩

end Run

/-- **Hardened runs fetch what is pinned.**  Whatever the answers, the files and the schedule, an entry
that a hardened run reports as fetched has a record with its text that declares a checksum, the
checksum is the one that is reported, and the bytes that the entry's worker stored at the reported
path have it; or it is an entry from git, and every call that was made for it is an export of a
revision of forty hexadecimal digits. The run that is carried out is one of these. -/
theorem hardened_pinned (p : Policy) (o : Options) (t : Transport) (f : Lockfile) (w : World)
    (hhard : p.hardened = true) {plan : Plan} (hplan : Plan.make w.files p f o.dialect = .ok plan) :
    (w.locked = [] → ∃ before after schedule, prefetch p o t f w =
      (((Run.start (w.tellAll before) plan).follow (o.workplace p t) schedule).world.tellAll after,
        .ok (Run.report plan.dialect.major o.cacheRoot
          ((Run.start (w.tellAll before) plan).follow (o.workplace p t) schedule).slots))) ∧
    ∀ (w' : World) (schedule : List Move),
      ((Run.start w' plan).follow (o.workplace p t) schedule).world.calls =
        w'.calls ++ ((Run.start w' plan).trail (o.workplace p t) schedule).map (·.2) ∧
      ∀ i s path digest,
        ((Run.start w' plan).follow (o.workplace p t) schedule).slots[i]? = some s →
        s.outcome = .fetched path digest →
        ∃ r ∈ f.records, ∃ l, r.locatorText = s.entry.raw ∧
          Plan.readRecord plan.dialect r = .ok l ∧ s.entry.locator? = some l ∧
          (((l.protocol = .registry ∨ l.protocol = .http ∨ l.protocol = .file) ∧
            ∃ text c, r.checksum = some text ∧ plan.dialect.parseChecksum text = .ok c ∧
              digest = c.render ∧
              ∃ before after a e, schedule = before ++ after ∧
                ((Run.start w' plan).follow (o.workplace p t) before).worker? i =
                  some (l, .storing a (.done (.ok e))) ∧
                e.path = path ∧ c.accepts a.bytes = true) ∨
          (l.protocol = .git ∧
            ∀ q, (i, q) ∈ (Run.start w' plan).trail (o.workplace p t) schedule →
              ∃ url rev, q = .gitExport url (some rev) ∧ rev.toList.length = 40 ∧
                ∀ c ∈ rev.toList, c ∈ "0123456789abcdefABCDEF".toList)) := by
  refine ⟨fun hw => ?_, fun w' schedule => ⟨Run.follow_calls _ _ _, ?_⟩⟩
  · obtain ⟨before, after, schedule, -, -, hrun⟩ := prefetch_eq_follow (t := t) hplan hw
    exact ⟨before, after, schedule, hrun⟩
  intro i s path digest hs hout
  obtain ⟨l, ht⟩ := Run.outcome_eq_fetched_iff.mp hout
  have hk : ((Run.start w' plan).follow (o.workplace p t) schedule).worker? i =
      some (l, .finished (.fetched path digest)) := by
    rw [Run.worker?, hs]
    exact ht
  -- the entry is one of the plan, and the policy lets it through
  obtain ⟨hi, hpending⟩ := Run.entry_of_task hs ht
  have hmem := List.mem_of_getElem? hi
  have hlocator := PlannedEntry.locator?_of_pending? hpending
  have hpinned := Plan.pinned_of_make hplan hhard hmem hpending
  obtain ⟨r, hr, hraw, hread⟩ := Plan.record_of_make hplan hmem hlocator
  obtain ⟨before, after, a, e, hsplit, hstored, rfl, rfl⟩ := Run.stored_of_fetched hk
  have hsourced : l.Sourced := Run.workers_follow
    (fun l x w k => Worker.hasSource_step (o.workplace p t) l x w k) (fun _ => trivial) w' plan
    before i l _ hstored
  have hhonest : (Worker.storing a (.done (.ok e))).Honest (o.workplace p t).store l :=
    Run.workers_follow (P := fun l k => k.Honest (o.workplace p t).store l)
      (fun l x w k => Worker.honest_step (o.workplace p t) x w) (fun _ => trivial) w' plan
      before i l _ hstored
  refine ⟨r, hr, l, hraw, hread, hlocator, ?_⟩
  rcases hsourced with hdirect | hgit
  · obtain ⟨c, hc⟩ := Policy.checksum_of_pinned hpinned hdirect
    obtain ⟨text, htext, hparse⟩ := Plan.checksum_of_readRecord hread hc
    have hdigest : a.digest = c := hhonest.1.digest_eq hc
    have hentry := (Store.plain_of_entry (hhonest.2 e rfl)).1
    refine Or.inl ⟨hdirect, text, c, htext, hparse, by rw [hentry, hdigest], ?_⟩
    exact ⟨before, after, a, e, hsplit, hstored, rfl, hdigest ▸ hhonest.1.accepts⟩
  · refine Or.inr ⟨hgit, fun q hq => ?_⟩
    obtain ⟨url, rev, rfl, hrev⟩ := (Run.asks_of_entry hi hpending hq).revision_of_pinned hgit hpinned
    exact ⟨url, rev, rfl, Policy.of_isCommitHash hrev⟩

/-- A package from git, at a full commit hash. -/
def pinnedExport : Lockfile :=
  ⟨8, none, [⟨["a@https://e.org/a.git#commit=0123456789abcdef0123456789abcdef01234567"],
    none, none, none, none⟩]⟩

def hardened : Policy := { Policy.ofRoot ⟨['/']⟩ with hardened := true }

def oneByte : Transport := fun _ _ => ⟨.ok [1], false⟩

theorem hardened_pinned_export :
    hardened.hardened = true ∧
    ∃ plan, Plan.make ⟨[], []⟩ hardened pinnedExport none = .ok plan ∧
      ∃ s path digest, ((Run.start (.ofFiles ⟨[], []⟩) plan).follow
          (byName.workplace hardened oneByte) (List.replicate 20 (.work 0 none))).slots[0]? = some s ∧
        s.outcome = .fetched path digest ∧
        ∃ r ∈ pinnedExport.records, ∃ l, Plan.readRecord plan.dialect r = .ok l ∧
          l.protocol = .git ∧
          ∀ q, (0, q) ∈ (Run.start (.ofFiles ⟨[], []⟩) plan).trail
            (byName.workplace hardened oneByte) (List.replicate 20 (.work 0 none)) →
            ∃ url rev, q = .gitExport url (some rev) ∧ rev.toList.length = 40 ∧
              ∀ c ∈ rev.toList, c ∈ "0123456789abcdefABCDEF".toList := by
  have hd : (Plan.make ⟨[], []⟩ hardened pinnedExport none).toOption.any (fun plan =>
      ((Run.start (.ofFiles ⟨[], []⟩) plan).follow (byName.workplace hardened oneByte)
        (List.replicate 20 (.work 0 none))).slots[0]?.any (·.outcome.status == "fetched")) = true := by
    decide +kernel
  refine ⟨rfl, ?_⟩
  cases h : Plan.make ⟨[], []⟩ hardened pinnedExport none with
  | error e =>
    rw [h] at hd
    cases hd
  | ok plan =>
    simp only [h, Except.toOption, Option.any_some] at hd
    obtain ⟨s, hs, hout⟩ := (Option.any_eq_true _ _).mp hd
    obtain ⟨path, digest, ho⟩ : ∃ path digest, s.outcome = .fetched path digest := by
      cases hs' : s.outcome with
      | fetched path digest => exact ⟨path, digest, rfl⟩
      | _ => simp [hs', Outcome.status] at hout
    obtain ⟨r, hr, l, -, hread, -, hpinned⟩ := ((hardened_pinned hardened byName oneByte pinnedExport
      (.ofFiles ⟨[], []⟩) rfl h).2 (.ofFiles ⟨[], []⟩) (List.replicate 20 (.work 0 none))).2
      0 s path digest hs ho
    refine ⟨plan, rfl, s, path, digest, hs, ho, r, hr, l, hread, ?_⟩
    rcases hpinned with ⟨-, text, c, htext, -⟩ | hgit
    · obtain rfl := List.mem_singleton.mp hr
      cases htext
    · exact hgit

end OfflineCache
