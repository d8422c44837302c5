import OfflineCache.Proofs.Run.Deliveries

/-! What a run leaves in the cache. A finished file changes only by the delivery of a verified artifact,
and only to its complete bytes. What an entry is reported to have at its path is what the last
delivery to that path brought, which is its own if no other entry comes to the same place. -/

namespace OfflineCache

open FileTree Replacement

namespace Run

variable {p : Workplace} {w : World} {r : Run}

/-! ## Reported entries -/

/-- Every worker is through. -/
def Over (r : Run) : Prop := ∀ i l k, r.worker? i = some (l, k) → k.isFinished = true

theorem outcome_eq_fetched_iff {s : Slot} {path : Path} {digest : String} :
    s.outcome = .fetched path digest ↔ ∃ l, s.task = some (l, .finished (.fetched path digest)) := by
  obtain ⟨e, task⟩ := s
  cases task with
  | none =>
    have hne : (⟨e, none⟩ : Slot).outcome ≠ .fetched path digest := by
      unfold Slot.outcome PlannedEntry.outcome?
      obtain ⟨raw, subject⟩ := e
      cases subject with
      | malformed m => simp
      | located l c => cases c <;> simp [Outcome.cancelled]
    simp [hne]
  | some lk =>
    obtain ⟨l, k⟩ := lk
    cases k <;> simp [Slot.outcome, Worker.outcome?, Outcome.cancelled]

/-- The worker of the slot has fetched an artifact: it passed the check of the entry's locator and
is reported at the path that the store has for it. -/
structure Fetched (p : Workplace) (r : Run) (i : Nat) (l : Locator) (a : Artifact)
    (e : CacheEntry) : Prop where
  slot : ∃ s, r.slots[i]? = some s ∧ s.entry.pending? = some l ∧ s.outcome = .ofEntry e
  verified : Verified l a
  entry : p.store.entry l a.digest = .ok e

theorem Over.finished (h : r.Over) {i : Nat} {l : Locator} {k : Worker} {path : Path}
    {digest : String} (hk : r.worker? i = some (l, k))
    (hd : k.delivered? = some (path, digest)) : k = .finished (.fetched path digest) := by
  have hfin := h i l k hk
  cases k with
  | finished o =>
    cases o with
    | fetched path' digest' =>
      obtain ⟨rfl, rfl⟩ : path' = path ∧ digest' = digest := by simpa [Worker.delivered?] using hd
      rfl
    | _ => cases hd
  | _ => cases hfin

theorem Over.fetched (h : r.Over) (hsound : ∀ s ∈ r.slots, Sound p.fetcher s) {i : Nat}
    {l : Locator} {k : Worker} {a : Artifact} {e : CacheEntry} (hk : r.worker? i = some (l, k))
    (hd : Worker.Delivers p.store l a e k) : Fetched p r i l a e := by
  obtain rfl := h.finished hk hd.delivered
  obtain ⟨s, hs, ht⟩ := Option.bind_eq_some_iff.mp hk
  refine ⟨⟨s, hs, (hsound s (List.mem_of_getElem? hs) l _ ht).1, ?_⟩, hd.verified, hd.entry⟩
  exact outcome_eq_fetched_iff.mpr ⟨l, ht⟩

theorem Over.fresh (h : r.Over) {process : Nat}
    (hfresh : ∀ s ∈ r.slots, ∀ path digest, s.outcome = .fetched path digest →
      ∀ n c, path.fileName? ≠ some (temporaryName n process c)) : Fresh process r := by
  intro i l k path digest hk hd
  obtain rfl := h.finished hk hd
  obtain ⟨s, hs, ht⟩ := Option.bind_eq_some_iff.mp hk
  exact hfresh s (List.mem_of_getElem? hs) path digest (outcome_eq_fetched_iff.mpr ⟨l, ht⟩)

theorem follow_sound (schedule : List Move) (h : ∀ s ∈ r.slots, Sound p.fetcher s) :
    ∀ s ∈ (r.follow p schedule).slots, Sound p.fetcher s := by
  induction schedule generalizing r with
  | nil => exact h
  | cons m ms ih => exact ih (move_slots p r m h).2

/-- A replacement that succeeds leaves the bytes at the path. -/
theorem Orderly.find_of_replaced (h : Orderly p w r) (hf : LinkFree w.files p.store.root) {i : Nat}
    {l : Locator} {a : Artifact} {e : CacheEntry} {tmp : Path} {st : Replacement}
    (hk : r.worker? i = some (l, .storing a (.replacing e tmp st))) (hst : ∀ x, st ≠ .done x)
    {x : Option Mishap} (hdone : (st.step e.path tmp a.bytes x r.world.files).2 = .done (.ok ())) :
    ∃ q y, (st.step e.path tmp a.bytes x r.world.files).1.find e.path =
      .ok (q, .file a.bytes y) := by
  obtain ⟨site, c, rfl, hp, hf', heffect, hready⟩ := h.stage hf hk hst x
  rw [hdone] at heffect
  obtain rfl := heffect.eq_renaming hst
  obtain ⟨place, y, -, hfind⟩ := heffect.delivered hp.spells hf' hp.name_ne (hready rfl)
  exact ⟨_, y, hfind⟩

/-- What a step delivers is at its path, and has its digest. -/
theorem Orderly.delivered_step (h : Orderly p w r) (hf : LinkFree w.files p.store.root) {i : Nat}
    {l : Locator} {k : Worker} (hk : r.worker? i = some (l, k)) (x : Option Mishap) {path : Path}
    {digest : String} (hold : k.delivered? ≠ some (path, digest))
    (hnew : (k.step p l x r.world).2.delivered? = some (path, digest)) :
    ∃ a e st q b y, (k.step p l x r.world).2 = .storing a st ∧
      Worker.Delivers p.store l a e (k.step p l x r.world).2 ∧ e.path = path ∧
      e.digest.render = digest ∧ (k.step p l x r.world).1.files.find path = .ok (q, .file b y) ∧
      a.digest.accepts b = true := by
  have hhonest := h.honest i l k hk
  have hc := Worker.change_step p x r.world l k
  revert hc hnew
  generalize k.step p l x r.world = y
  intro hnew hc
  obtain ⟨w', k'⟩ := y
  cases hc with
  | quiet _ _ _ _ hsame => exact absurd (hsame ▸ hnew) hold
  | @matched a e _ b hfiles _ hb ha =>
    obtain ⟨rfl, rfl⟩ : e.path = path ∧ e.digest.render = digest := by
      simpa [Worker.delivered?, Storing.delivered?] using hnew
    obtain ⟨q, y, hfind⟩ := readBytes_eq_ok_iff.mp hb
    exact ⟨a, e, _, q, b, y, rfl, ⟨hhonest.1, hhonest.2 e rfl, rfl⟩, rfl, rfl,
      by rw [hfiles, hfind], ha⟩
  | begun => cases hnew
  | @staged a e tmp st hst =>
    obtain ⟨hdone, rfl, rfl⟩ := Worker.of_delivered?_replacing hnew
    obtain ⟨q, y, hfind⟩ := h.find_of_replaced hf hk hst hdone
    exact ⟨a, e, _, q, a.bytes, y, rfl, ⟨hhonest.1, hhonest.2 e rfl, hnew⟩, rfl, rfl, hfind,
      hhonest.1.accepts⟩

/-! ## Only verified bytes -/

theorem not_temporaryName_of_not_isTemporary {q : Place} (hq : ¬ IsTemporary q) (n : List Char)
    (process c : Nat) : q.getLast? ≠ some (temporaryName n process c) := fun h =>
  hq ⟨_, h, isTemporaryName_temporaryName n process c⟩

/-- A move that changes a finished file delivers an artifact there. -/
theorem Orderly.delivery_of_content (h : Orderly p w r) (hf : LinkFree w.files p.store.root)
    {m : Move} {q : Place} (hq : ¬ IsTemporary q)
    (hne : (r.move p m).world.files.content? q ≠ r.world.files.content? q) :
    ∃ i x l k a e b, m = .work i x ∧ (r.move p m).worker? i = some (l, k) ∧
      Worker.Delivers p.store l a e k ∧
      (r.move p m).world.files.find e.path = .ok (q, .file a.bytes b) := by
  rcases h.touched_of_move hf m q with (hsame | ⟨hnone, hdir⟩) | ht
  · exact absurd (by simp only [content?, hsame]) hne
  · exact absurd (by simp only [content?, hnone, hdir]) hne
  · rcases ht.temporary_or with ⟨n, c, hlast⟩ | ⟨i, x, l, k, a, e, b, rfl, hk, hd, hfind, -⟩
    · exact absurd hlast (not_temporaryName_of_not_isTemporary hq n w.process c)
    · exact ⟨i, x, l, _, a, e, b, rfl, (move_worker hk x).2.1, hd, hfind⟩

/-- Finished files that are not as they were hold what was delivered there. -/
def Accounted (p : Workplace) (w : World) (r : Run) : Prop :=
  ∀ q, ¬ IsTemporary q → r.world.files.content? q ≠ w.files.content? q →
    ∃ i l k a e b, r.worker? i = some (l, k) ∧ Worker.Delivers p.store l a e k ∧
      r.world.files.find e.path = .ok (q, .file a.bytes b)

theorem Accounted.move (h : Accounted p w r) (ho : Orderly p w r)
    (hf : LinkFree w.files p.store.root) (m : Move) : Accounted p w (r.move p m) := by
  intro q hq hne
  by_cases hsame : (r.move p m).world.files.content? q = r.world.files.content? q
  · rw [hsame] at hne
    obtain ⟨i, l, k, a, e, b, hk, hd, hfind⟩ := h q hq hne
    obtain ⟨k', hk', hkeep⟩ := delivers_move (p := p) m hk
    have hcontent : r.world.files.content? q = some a.bytes :=
      content?_eq_some_iff.mpr ⟨b, node?_of_find hfind⟩
    obtain ⟨b', hnode⟩ := content?_eq_some_iff.mp (hsame.trans hcontent)
    exact ⟨i, l, k', a, e, b', hk', ⟨hd.verified, hd.entry, hkeep _ hd.delivered⟩,
      find_tended hfind (ho.tended_move hf m) hnode⟩
  · obtain ⟨i, x, l, k, a, e, b, -, hk, hd, hfind⟩ := ho.delivery_of_content hf hq hsame
    exact ⟨i, l, k, a, e, b, hk, hd, hfind⟩

end Run

/-- Versions of one package. -/
def versions (vs : List String) : Lockfile :=
  ⟨8, none, vs.map fun v => ⟨["a@npm:" ++ v], none, none, none, none⟩⟩

/-- Archives by the names of their packages alone. -/
def byName : Options :=
  ⟨none, ⟨['/', 'c']⟩, ⟨"flat", "\x7bname\x7d.tgz"⟩, 1, .standard, none⟩

/-- The archives of the first version and of all others differ. -/
def firstOrOther : Transport := fun _ q =>
  ⟨.ok (if q = .get "https://registry.yarnpkg.com/a/-/a-1.0.0.tgz" then [1] else [2]), false⟩

/-- The first worker comes before the second. -/
def inTurn : List Move := List.replicate 20 (.work 0 none) ++ List.replicate 20 (.work 1 none)

def versionsRun (plan : Plan) : Run :=
  (Run.start (.ofFiles ⟨[], []⟩) plan).follow
    (byName.workplace (.ofRoot ⟨['/']⟩) firstOrOther) inTurn

def archivePath : Path := ⟨"/c/a.tgz".toList⟩

def archivePlace : Place := [['c'], "a.tgz".toList]

/-- All is through, every entry is reported at the path of the archive, and these bytes are there. -/
def Run.archived (r : Run) (b : Bytes) : Bool :=
  r.slots.all (fun s => s.task.all (·.2.isFinished)) &&
    r.slots.all (fun s => match s.outcome with
      | .fetched path _ => path == archivePath
      | _ => true) &&
    r.world.files.find archivePath == .ok (archivePlace, .file b false)

theorem Run.of_archived {r : Run} {b : Bytes} (h : r.archived b = true) : r.Over ∧
    (∀ s ∈ r.slots, ∀ path digest, s.outcome = .fetched path digest → path = archivePath) ∧
    r.world.files.find archivePath = .ok (archivePlace, .file b false) := by
  simp only [archived, Bool.and_eq_true, List.all_eq_true, beq_iff_eq] at h
  obtain ⟨⟨hover, hpaths⟩, hfind⟩ := h
  refine ⟨fun i l k hk => ?_, fun s hs path digest ho => ?_, hfind⟩
  · obtain ⟨s, hs, ht⟩ := Option.bind_eq_some_iff.mp hk
    have hs' := hover s (List.mem_of_getElem? hs)
    rw [ht] at hs'
    exact hs'
  · have hs' := hpaths s hs
    rw [ho] at hs'
    simpa using hs'

/-- The name of the archive does not begin as those of temporary files do. -/
theorem fresh_archivePath (n : List Char) (process c : Nat) :
    archivePath.fileName? ≠ some (temporaryName n process c) := by
  have hname : archivePath.fileName? = some "a.tgz".toList := by decide +kernel
  rw [hname]
  intro h
  have hhead := congrArg List.head? (Option.some.inj h)
  simp [temporaryName] at hhead

theorem not_isTemporary_archivePlace : ¬ IsTemporary archivePlace := by
  rintro ⟨n, hl, ht⟩
  obtain rfl : "a.tgz".toList = n := Option.some.inj hl
  revert ht
  decide +kernel

end OfflineCache
