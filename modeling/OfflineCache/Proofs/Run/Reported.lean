import OfflineCache.Proofs.Run.Contents

/-! What the report says about the cache. At the path of an entry that is reported as fetched there is
a file, and its digest is that of an entry whose path leads to the same place: of the one that was
delivered there last. So the report is true of all entries of a place if they have one digest,
and false of some if they have more. -/

namespace OfflineCache

open FileTree Replacement

namespace Run

variable {p : Workplace} {w : World} {r : Run}

/-- Where the path leads there is a file, and an entry that was delivered there has its digest. -/
def Backed (r : Run) (path : Path) : Prop :=
  ∃ q b x, r.world.files.find path = .ok (q, .file b x) ∧
    ∃ i l k path' digest, r.worker? i = some (l, k) ∧ k.delivered? = some (path', digest) ∧
      r.world.files.find path' = .ok (q, .file b x) ∧ Attests digest b

def Truthful (r : Run) : Prop :=
  ∀ i l k path digest, r.worker? i = some (l, k) → k.delivered? = some (path, digest) →
    r.Backed path

theorem Backed.move (h : Backed r path) (ho : Orderly p w r) (hf : LinkFree w.files p.store.root)
    {m : Move} (hfresh : Fresh w.process (r.move p m)) {i : Nat} {l : Locator} {k : Worker}
    {a : Artifact} {e : CacheEntry} (hk : r.worker? i = some (l, k))
    (hd : Worker.Delivers p.store l a e k) (hpath : e.path = path) : Backed (r.move p m) path := by
  subst hpath
  obtain ⟨q, b, x, hfind, j, l', k', path', digest, hk', hd', hfind', hattests⟩ := h
  have ht := ho.tended_move hf m
  rcases ho.touched_of_move hf m q with (hsame | ⟨hnone, -⟩) | htouched
  · have hnode := hsame.trans (node?_of_find hfind)
    obtain ⟨k'', hk'', hkeep⟩ := delivers_move (p := p) m hk'
    exact ⟨q, b, x, find_tended hfind ht hnode, j, l', k'', path', digest, hk'', hkeep _ hd',
      find_tended hfind' ht hnode, hattests⟩
  · rw [node?_of_find hfind] at hnone
    cases hnone
  · rcases htouched.temporary_or with ⟨n, c, hlast⟩ | ⟨j', x', l₁, k₁, a₁, e₁, y, rfl, hk₁, hd₁, hfind₁, -⟩
    · have hname := Store.getLast?_of_find hd.entry (hf.tended ho.tended) hfind
      obtain ⟨k'', hk'', hkeep⟩ := delivers_move (p := p) m hk
      exact absurd (hname.symm.trans hlast) (hfresh i l k'' _ _ hk'' (hkeep _ hd.delivered) n c)
    · have hnode := node?_of_find hfind₁
      have hdigest := (Store.plain_of_entry hd₁.entry).1
      refine ⟨q, a₁.bytes, y, find_tended hfind ht hnode, j', l₁, _, e₁.path, e₁.digest.render,
        (move_worker hk₁ x').2.1, hd₁.delivered, hfind₁, ?_⟩
      rw [hdigest]
      exact attests_of_accepts hd₁.verified.accepts

theorem Truthful.move (h : Truthful r) (ho : Orderly p w r) (hf : LinkFree w.files p.store.root)
    {m : Move} (hfresh : Fresh w.process (r.move p m)) : Truthful (r.move p m) := by
  intro i l k path digest hk hd
  -- either the entry was delivered before, or the moved worker delivers it now
  by_cases hbefore : ∃ k', r.worker? i = some (l, k') ∧ k'.delivered? = some (path, digest)
  · obtain ⟨k', hk', hd'⟩ := hbefore
    obtain ⟨a, e, hdel, hpath, -⟩ := (ho.honest i l k' hk').delivers hd'
    exact (h i l k' path digest hk' hd').move ho hf hfresh hk' hdel hpath
  · rcases worker_of_move hk with ⟨hk', -⟩ | ⟨x, k', rfl, hk', hworld, rfl⟩
    · exact absurd ⟨k, hk', hd⟩ hbefore
    · obtain ⟨a, e, -, q, b, y, -, hdel, rfl, rfl, hfind, ha⟩ :=
        ho.delivered_step hf hk' x (fun hold => hbefore ⟨k', hk', hold⟩) hd
      rw [← hworld] at hfind
      refine ⟨q, b, y, hfind, i, l, _, e.path, e.digest.render, hk, hd, hfind, ?_⟩
      rw [(Store.plain_of_entry hdel.entry).1]
      exact attests_of_accepts ha

theorem follow_truthful (hf : LinkFree w.files p.store.root) {plan : Plan} {schedule : List Move}
    (hfresh : Fresh w.process ((start w plan).follow p schedule)) :
    Truthful ((start w plan).follow p schedule) := by
  refine (follow_orderly hf ?_ (fun _ m ho hfresh h => h.move ho hf hfresh) hfresh).2
  intro i l k path digest hk hd
  rw [worker?_start hk] at hd
  cases hd

end Run

/-- **What the report is worth.**  Whatever the schedule, the answers and the mishaps, once all workers
are through every entry that is reported as fetched has a file at its path. The file has the digest
of an entry that is reported at the same place, and so the digest that is reported if all entries
of the place have one. The names of temporary files must be fresh. -/
theorem reported_digest (p : Policy) (o : Options) (t : Transport) (w : World) (plan : Plan)
    (schedule : List Move) (hf : LinkFree w.files o.cacheRoot)
    (hover : ((Run.start w plan).follow (o.workplace p t) schedule).Over)
    (hfresh : ∀ s ∈ ((Run.start w plan).follow (o.workplace p t) schedule).slots, ∀ path digest,
      s.outcome = .fetched path digest → ∀ n c, path.fileName? ≠ some (temporaryName n w.process c))
    {s : Slot} (hs : s ∈ ((Run.start w plan).follow (o.workplace p t) schedule).slots) {path : Path}
    {digest : String} (ho : s.outcome = .fetched path digest) :
    ∃ q b x, ((Run.start w plan).follow (o.workplace p t) schedule).world.files.find path =
        .ok (q, .file b x) ∧
      (∃ s' ∈ ((Run.start w plan).follow (o.workplace p t) schedule).slots, ∃ path' digest',
        s'.outcome = .fetched path' digest' ∧
        ((Run.start w plan).follow (o.workplace p t) schedule).world.files.find path' =
          .ok (q, .file b x) ∧ Attests digest' b) ∧
      ((∀ s' ∈ ((Run.start w plan).follow (o.workplace p t) schedule).slots, ∀ path' digest',
        s'.outcome = .fetched path' digest' →
        ((Run.start w plan).follow (o.workplace p t) schedule).world.files.find path' =
          .ok (q, .file b x) → digest' = digest) → Attests digest b) := by
  have htrue := Run.follow_truthful (p := o.workplace p t) hf (hover.fresh hfresh)
  obtain ⟨l, ht⟩ := Run.outcome_eq_fetched_iff.mp ho
  obtain ⟨i, hi⟩ := List.getElem?_of_mem hs
  have hk : ((Run.start w plan).follow (o.workplace p t) schedule).worker? i =
      some (l, .finished (.fetched path digest)) := by
    rw [Run.worker?, hi]
    exact ht
  obtain ⟨q, b, x, hfind, j, l', k, path', digest', hk', hd', hfind', hattests⟩ :=
    htrue i l _ path digest hk rfl
  obtain rfl := hover.finished hk' hd'
  obtain ⟨s', hs', ht'⟩ := Option.bind_eq_some_iff.mp hk'
  have hm := List.mem_of_getElem? hs'
  have ho' : s'.outcome = .fetched path' digest' := Run.outcome_eq_fetched_iff.mpr ⟨l', ht'⟩
  refine ⟨q, b, x, hfind, ⟨s', hm, path', digest', ho', hfind', hattests⟩, fun hsame => ?_⟩
  exact hsame s' hm path' digest' ho' hfind' ▸ hattests

/-- The digest that the first entry is reported with. -/
def Run.firstDigest? (r : Run) : Option String :=
  r.slots.head?.bind fun s => match s.outcome with
    | .fetched _ digest => some digest
    | _ => none

theorem Run.of_firstDigest? {r : Run} {digest : String} (h : r.firstDigest? = some digest) :
    ∃ s rest path, r.slots = s :: rest ∧ s.outcome = .fetched path digest := by
  obtain ⟨s, hs, hd⟩ := Option.bind_eq_some_iff.mp h
  obtain ⟨rest, hslots⟩ := List.head?_eq_some_iff.mp hs
  cases ho : s.outcome with
  | fetched path digest' =>
    simp only [ho, Option.some.injEq] at hd
    exact ⟨s, rest, path, hslots, by rw [ho, hd]⟩
  | _ =>
    rw [ho] at hd
    cases hd

theorem reported_digest_archive :
    ∃ plan, Plan.make ⟨[], []⟩ (.ofRoot ⟨['/']⟩) (versions ["1.0.0"]) none = .ok plan ∧
      LinkFree ⟨[], []⟩ byName.cacheRoot ∧ (versionsRun plan).Over ∧
      (∀ s ∈ (versionsRun plan).slots, ∀ path digest, s.outcome = .fetched path digest →
        ∀ n c, path.fileName? ≠ some (temporaryName n 1 c)) ∧
      ∃ s ∈ (versionsRun plan).slots, ∃ path digest, s.outcome = .fetched path digest ∧
        ∃ q b x, (versionsRun plan).world.files.find path = .ok (q, .file b x) ∧
          Attests digest b := by
  have hd : (Plan.make ⟨[], []⟩ (.ofRoot ⟨['/']⟩) (versions ["1.0.0"]) none).toOption.any
      (fun plan => (versionsRun plan).archived [1] && (versionsRun plan).slots.length == 1) =
        true := by
    decide +kernel
  have hdigest : (Plan.make ⟨[], []⟩ (.ofRoot ⟨['/']⟩) (versions ["1.0.0"]) none).toOption.any
      (fun plan => (versionsRun plan).firstDigest?.isSome) = true := by
    decide +kernel
  cases h : Plan.make ⟨[], []⟩ (.ofRoot ⟨['/']⟩) (versions ["1.0.0"]) none with
  | error e =>
    rw [h] at hd
    cases hd
  | ok plan =>
    simp only [h, Except.toOption, Option.any_some] at hd hdigest
    simp only [Bool.and_eq_true, beq_iff_eq] at hd
    obtain ⟨harchived, hone⟩ := hd
    obtain ⟨hover, hpaths, -⟩ := Run.of_archived harchived
    have hfresh : ∀ s ∈ (versionsRun plan).slots, ∀ path digest,
        s.outcome = .fetched path digest → ∀ n c, path.fileName? ≠ some (temporaryName n 1 c) := by
      intro s hs path digest ho n c
      rw [hpaths s hs path digest ho]
      exact fresh_archivePath n 1 c
    obtain ⟨digest, hdigest⟩ := Option.isSome_iff_exists.mp hdigest
    obtain ⟨s, rest, path, hslots, ho⟩ := Run.of_firstDigest? hdigest
    obtain rfl : rest = [] := by simpa [hslots] using hone
    have hs : s ∈ (versionsRun plan).slots := by simp [hslots]
    have hlinks := linkFree_empty [] byName.cacheRoot
    have hrun : (Run.start (.ofFiles ⟨[], []⟩) plan).follow
        (byName.workplace (.ofRoot ⟨['/']⟩) firstOrOther) inTurn = versionsRun plan := rfl
    have hall := @reported_digest (.ofRoot ⟨['/']⟩) byName firstOrOther (.ofFiles ⟨[], []⟩) plan
      inTurn hlinks
    rw [hrun] at hall
    obtain ⟨q, b, x, hfind, -, htrue⟩ := hall hover hfresh hs ho
    refine ⟨plan, rfl, hlinks, hover, hfresh, s, hs, path, digest, ho, q, b, x, hfind, ?_⟩
    refine htrue fun s' hs' path' digest' ho' _ => ?_
    obtain rfl : s' = s := by simpa using (show s' ∈ [s] from hslots ▸ hs')
    obtain ⟨-, rfl⟩ := Outcome.fetched.inj (ho.symm.trans ho')
    rfl

/-- Two versions whose paths are one: the report has a digest for each, and the bytes of the second
are there. -/
theorem reported_digest_replaced :
    ∃ plan, Plan.make ⟨[], []⟩ (.ofRoot ⟨['/']⟩) (versions ["1.0.0", "2.0.0"]) none = .ok plan ∧
      LinkFree ⟨[], []⟩ byName.cacheRoot ∧ (versionsRun plan).Over ∧
      ∃ s ∈ (versionsRun plan).slots, ∃ path digest, s.outcome = .fetched path digest ∧
        ∀ q b x, (versionsRun plan).world.files.find path = .ok (q, .file b x) →
          ¬ Attests digest b := by
  have hd : (Plan.make ⟨[], []⟩ (.ofRoot ⟨['/']⟩) (versions ["1.0.0", "2.0.0"]) none).toOption.any
      (fun plan => (versionsRun plan).archived [2] &&
        (versionsRun plan).firstDigest?.any fun digest =>
          digest != (Checksum.compute .sha512 [2]).render &&
            digest != (Checksum.compute .sha256 [2]).render) = true := by
    decide +kernel
  cases h : Plan.make ⟨[], []⟩ (.ofRoot ⟨['/']⟩) (versions ["1.0.0", "2.0.0"]) none with
  | error e =>
    rw [h] at hd
    cases hd
  | ok plan =>
    simp only [h, Except.toOption, Option.any_some] at hd
    obtain ⟨harchived, htwo⟩ := Bool.and_eq_true_iff.mp hd
    obtain ⟨hover, hpaths, hfind⟩ := Run.of_archived harchived
    refine ⟨plan, rfl, linkFree_empty [] byName.cacheRoot, hover, ?_⟩
    cases hdigest : (versionsRun plan).firstDigest? with
    | none =>
      rw [hdigest] at htwo
      cases htwo
    | some digest =>
      rw [hdigest, Option.any_some, Bool.and_eq_true, bne_iff_ne, bne_iff_ne] at htwo
      obtain ⟨s, rest, path, hslots, ho⟩ := Run.of_firstDigest? hdigest
      have hs : s ∈ (versionsRun plan).slots := by simp [hslots]
      refine ⟨s, hs, path, digest, ho, fun q b x hq => ?_⟩
      obtain rfl := hpaths s hs path digest ho
      obtain ⟨-, hb⟩ := Prod.mk.inj (Except.ok.inj (hfind.symm.trans hq))
      obtain ⟨rfl, -⟩ := Node.file.inj hb
      rintro ⟨algorithm, hattests⟩
      cases algorithm with
      | sha512 => exact htwo.1 hattests.symm
      | sha256 => exact htwo.2 hattests.symm

end OfflineCache
