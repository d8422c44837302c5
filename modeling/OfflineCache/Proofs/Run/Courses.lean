import OfflineCache.Proofs.Run.Deliveries
import OfflineCache.Proofs.Run.Growth

/-! The course of one worker among others. From each stage on it is settled what the worker ends with:
a fetch ends as it ends alone, and an artifact is put at its path unless the fault is in the way
that was in the way at the start. Each step keeps to this course, and leaves a tree of the run. -/

namespace OfflineCache

open OfflineCache.Path FileTree Replacement

namespace Ground

variable (g : Ground)

/-- The directories of a path are there. -/
structure Way (t : FileTree) (path : Path) : Prop where
  lay : g.layFault? path = none
  leads : Leads t g.root g.place
  paved : Paved t g.place (g.names path).dropLast

/-- What a replacement has found out at each stage about how it will end. -/
def Replaces (t : FileTree) (path : Path) : Replacement → Prop
  | .preparing => True
  | .creating => g.Way t path
  | .writing | .renaming => g.Way t path ∧ g.writeFault? path = none
  | .abandoning f => g.layFault? path = none ∧ g.fault? path = some f
  | .done r => r = resultOf (g.fault? path)

variable {g} {t t' : FileTree} {l : Locator} {a : Artifact} {e : CacheEntry}

theorem Way.tended {path : Path} (h : g.Way t path) (ht : Tended t t') : g.Way t' path :=
  ⟨h.lay, h.leads.tended ht, h.paved.tended ht⟩

theorem Replaces.tended {path : Path} {r : Replacement} (h : g.Replaces t path r)
    (ht : Tended t t') : g.Replaces t' path r := by
  cases r with
  | creating => exact Way.tended h ht
  | writing => exact ⟨h.1.tended ht, h.2⟩
  | «renaming» => exact ⟨h.1.tended ht, h.2⟩
  | _ => exact h

/-! ## Stages of a replacement -/

theorem fault?_of_lay {path : Path} {f : Fault} (h : g.layFault? path = some f) :
    g.fault? path = some f := by
  unfold fault?
  rw [h]
  rfl

theorem fault?_of_write {path : Path} {f : Fault} (hl : g.layFault? path = none)
    (h : g.writeFault? path = some f) : g.fault? path = some f := by
  unfold fault?
  rw [hl, h]
  rfl

theorem fault?_of_move {path : Path} (hl : g.layFault? path = none)
    (hw : g.writeFault? path = none) :
    g.fault? path = moveFault? path (g.made.node? (g.final path)) := by
  unfold fault?
  rw [hl, hw]
  rfl

theorem replaces_preparing (h : g.Reached t) (hs : g.Stores l a e) (tmp : Path) :
    g.Reached (step e.path tmp a.bytes none t .preparing).1 ∧
      g.Replaces (step e.path tmp a.bytes none t .preparing).1 e.path
        (step e.path tmp a.bytes none t .preparing).2 := by
  obtain ⟨hresult, hreached, hway⟩ := h.lays hs
  simp only [step, (parent?_of_stores hs).2]
  generalize t.layDirectories (g.root.under (g.names e.path).dropLast) = x at hresult hreached hway
  obtain ⟨t', r⟩ := x
  obtain rfl : r = resultOf (g.layFault? e.path) := hresult
  cases hf : g.layFault? e.path with
  | none =>
    obtain ⟨hl, hp⟩ := hway hf
    exact ⟨hreached, hf, hl, hp⟩
  | some f => exact ⟨hreached, congrArg resultOf (fault?_of_lay hf).symm⟩

variable {process counter : Nat}

/-- The temporary file is written unless its path does not allow it. -/
theorem Grown.writeFile (h : g.Grown t) (hs : g.Stores l a e) (hw : g.Way t e.path)
    (hu : g.uses process counter) (b : Bytes) :
    (∃ t', t.writeFile (temporaryFor e.path process counter) b = .ok t' ∧ g.Grown t' ∧
      Tended t t' ∧ g.writeFault? e.path = none) ∨
    ∃ f, t.writeFile (temporaryFor e.path process counter) b = .error f ∧
      g.writeFault? e.path = some f := by
  obtain ⟨q, names, n, hplain, hpath, hnames⟩ := stores_spelt hs
  have hp := hw.paved
  rw [hnames, List.dropLast_concat] at hp
  have hresult := writeFile_temporary hplain hw.leads h.unlinked hp b
    (h.at_scratch names n process counter)
  rw [← hpath, g.even hs hu] at hresult
  change _ = resultOf (g.writeFault? e.path) at hresult
  rcases of_map_eq_resultOf hresult with ⟨t', hwrite, hnone⟩ | ⟨f, hwrite, hsome⟩
  · have hspells := spells_temporaryFor hplain g.root process counter
    rw [← hpath] at hspells
    obtain ⟨place, x, hl, rfl, ht⟩ := put_of_writeFile hspells h.linkFree hwrite
    obtain rfl := hw.leads.unique hl
    exact Or.inl ⟨_, hwrite, h.put_scratch hp ht, ht, hnone⟩
  · exact Or.inr ⟨f, hwrite, hsome⟩

theorem replaces_creating (h : g.Reached t) (hs : g.Stores l a e) (hu : g.uses process counter)
    (hw : g.Way t e.path) :
    g.Reached (step e.path (temporaryFor e.path process counter) a.bytes none t .creating).1 ∧
      g.Replaces (step e.path (temporaryFor e.path process counter) a.bytes none t .creating).1
        e.path (step e.path (temporaryFor e.path process counter) a.bytes none t .creating).2 := by
  have hgrown := h.grown_of_leads hs hw.lay hw.leads
  simp only [step, createFile_eq]
  rcases hgrown.writeFile hs hw hu [] with ⟨t', hwrite, hgrown', ht, hnone⟩ | ⟨f, hwrite, hsome⟩
  · rw [hwrite]
    exact ⟨.grown hgrown', hw.tended ht, hnone⟩
  · rw [hwrite]
    exact ⟨h, hw.lay, fault?_of_write hw.lay hsome⟩

theorem replaces_writing (h : g.Reached t) (hs : g.Stores l a e) (hu : g.uses process counter)
    (hw : g.Way t e.path) (hnone : g.writeFault? e.path = none) :
    g.Reached (step e.path (temporaryFor e.path process counter) a.bytes none t .writing).1 ∧
      g.Replaces (step e.path (temporaryFor e.path process counter) a.bytes none t .writing).1
        e.path (step e.path (temporaryFor e.path process counter) a.bytes none t .writing).2 := by
  have hgrown := h.grown_of_leads hs hw.lay hw.leads
  simp only [step]
  rcases hgrown.writeFile hs hw hu a.bytes with ⟨t', hwrite, hgrown', ht, -⟩ | ⟨f, -, hsome⟩
  · rw [hwrite]
    exact ⟨.grown hgrown', hw.tended ht, hnone⟩
  · rw [hnone] at hsome
    cases hsome

/-- What keeps the artifact from its place is what was there at the start. -/
theorem Grown.moveFault?_eq (h : g.Grown t) (hs : g.Stores l a e) (hl : g.layFault? e.path = none)
    (hw : g.writeFault? e.path = none) :
    moveFault? e.path (t.node? (g.final e.path)) = g.fault? e.path := by
  rcases h.at_final hs with hsame | ⟨hf, -, x, hfind⟩
  · rw [hsame, fault?_of_move hl hw]
  · rw [node?_of_find hfind, hf]
    rw [fault?_of_move hl hw] at hf
    exact moveFault?_file hf a.bytes x

/-- What was written to the temporary file is found there. -/
theorem Grown.spot_scratch (h : g.Grown t) {path q : Path} {names : List (List Char)}
    {n : List Char} (hq : Plain q (names ++ [n])) (hpath : path = g.root / q)
    (hp : Paved t g.place names) (hfree : scratchFault? path process counter = none) {node : Node}
    (hnode : t.node? (g.place ++ (names ++ [temporaryName n process counter])) = some node) :
    t.spot (temporaryFor path process counter) false =
      .ok (.present (g.place ++ (names ++ [temporaryName n process counter])) node) := by
  obtain ⟨hopen, hfits⟩ := Option.or_eq_none_iff.mp hfree
  rw [hpath] at hopen ⊢
  rw [hpath, hq.fileName?_join, Option.getD_some] at hfits
  have hfits' : fitsName (temporaryName n process counter) = true := by
    by_contra hnot
    rw [if_neg hnot] at hfits
    cases hfits
  rw [spot_temporary hq h.leads h.unlinked hp false (openFault?_eq_none_iff.mp hopen), descend,
    List.append_assoc, hfits', hnode]
  cases node <;> rfl

/-- The temporary file is moved to the path unless what is there does not allow it. -/
theorem Grown.renameFile (h : g.Grown t) (hs : g.Stores l a e)
    (hheld : g.made.holds e.path a.digest = false) (hw : g.Way t e.path)
    (hnone : g.writeFault? e.path = none) (hu : g.uses process counter) {n : List Char}
    (hn : e.path.fileName? = some n)
    (hready : Target.Ready ⟨g.root, (g.names e.path).dropLast, n,
      temporaryName n process counter⟩ a.bytes t) :
    (∃ t', t.renameFile (temporaryFor e.path process counter) e.path = .ok t' ∧ g.Grown t' ∧
      g.fault? e.path = none) ∨
    ∃ f, t.renameFile (temporaryFor e.path process counter) e.path = .error f ∧
      g.fault? e.path = some f := by
  obtain ⟨q, names, m, hplain, hpath, hnames⟩ := stores_spelt hs
  obtain rfl : m = n := by
    rw [hpath, hplain.fileName?_join] at hn
    exact Option.some.inj hn
  have hp := hw.paved
  rw [hnames, List.dropLast_concat] at hp hready
  obtain ⟨place, x, hl, hfile⟩ := id hready
  obtain rfl := hw.leads.unique hl
  have hsource := h.spot_scratch hplain hpath hp ((g.even hs hu).trans hnone) hfile
  have hresult := renameFile_result hplain hw.leads h.unlinked hp hsource
  rw [← hpath, ← hnames] at hresult
  change _ = resultOf (moveFault? e.path (t.node? (g.final e.path))) at hresult
  rw [h.moveFault?_eq hs hw.lay hnone] at hresult
  rcases of_map_eq_resultOf hresult with ⟨t', hmove, hf⟩ | ⟨f, hmove, hf⟩
  · refine Or.inl ⟨t', hmove, ?_, hf⟩
    have hspells := spells_temporaryFor hplain g.root process counter
    rw [← hpath] at hspells
    have heffect := effect_step hspells (b := a.bytes) h.linkFree none .renaming
    simp only [step, hmove] at heffect
    change Effect _ _ _ _ _ _ t' (.done (.ok ())) at heffect
    have hne := ne_temporaryName m process counter
    have ht := Effect.tended hspells h.linkFree heffect hne fun _ => hready
    obtain ⟨place, y, hl', hfind⟩ := Effect.delivered hspells h.linkFree heffect hne hready
    obtain rfl := hw.leads.unique hl'
    cases heffect with
    | @moved place node old hl'' _ _ _ _ _ =>
      obtain rfl := hw.leads.unique hl''
      exact h.deliver hs hf hheld hnames hp ht hfind
  · exact Or.inr ⟨f, hmove, hf⟩

theorem replaces_renaming (h : g.Reached t) (hs : g.Stores l a e)
    (hheld : g.made.holds e.path a.digest = false) (hw : g.Way t e.path)
    (hnone : g.writeFault? e.path = none) (hu : g.uses process counter) {n : List Char}
    (hn : e.path.fileName? = some n)
    (hready : Target.Ready ⟨g.root, (g.names e.path).dropLast, n,
      temporaryName n process counter⟩ a.bytes t) :
    g.Reached (step e.path (temporaryFor e.path process counter) a.bytes none t .renaming).1 ∧
      g.Replaces (step e.path (temporaryFor e.path process counter) a.bytes none t .renaming).1
        e.path (step e.path (temporaryFor e.path process counter) a.bytes none t .renaming).2 := by
  have hgrown := h.grown_of_leads hs hw.lay hw.leads
  simp only [step]
  rcases hgrown.renameFile hs hheld hw hnone hu hn hready with ⟨t', hmove, hgrown', hf⟩ | ⟨f, hmove, hf⟩
  · rw [hmove]
    exact ⟨.grown hgrown', congrArg resultOf hf.symm⟩
  · rw [hmove]
    exact ⟨h, hw.lay, hf⟩

theorem replaces_abandoning (h : g.Reached t) (hs : g.Stores l a e) {f : Fault}
    (hl : g.layFault? e.path = none) (hf : g.fault? e.path = some f) :
    g.Reached (step e.path (temporaryFor e.path process counter) a.bytes none t
        (.abandoning f)).1 ∧
      g.Replaces (step e.path (temporaryFor e.path process counter) a.bytes none t
        (.abandoning f)).1 e.path
        (step e.path (temporaryFor e.path process counter) a.bytes none t (.abandoning f)).2 := by
  obtain ⟨q, names, n, hplain, hpath, hnames⟩ := stores_spelt hs
  have hspells := spells_temporaryFor hplain g.root process counter
  rw [← hpath] at hspells
  have heffect := effect_step hspells (b := a.bytes) h.linkFree none (.abandoning f)
  generalize step e.path (temporaryFor e.path process counter) a.bytes none t (.abandoning f) = y
    at heffect ⊢
  obtain ⟨t', r'⟩ := y
  have hdone : resultOf (g.fault? e.path) = .error f := congrArg resultOf hf
  cases heffect with
  | failed hr => rcases hr with hr | hr | hr <;> cases hr
  | dropped => exact ⟨h, hdone.symm⟩
  | @removed place c x f hleads hn =>
    have hgrown := h.grown_of_leads hs hl hleads
    obtain rfl := hgrown.leads.unique hleads
    exact ⟨.grown (hgrown.erase_scratch hn), hdone.symm⟩

/-- **One stage of a replacement** keeps to its course. -/
theorem replaces_step (h : g.Reached t) (hs : g.Stores l a e)
    (hheld : g.made.holds e.path a.digest = false) (hu : g.uses process counter) {r : Replacement}
    (hr : ∀ x, r ≠ .done x) (hc : g.Replaces t e.path r) {n : List Char}
    (hn : e.path.fileName? = some n)
    (hready : r = .renaming → Target.Ready ⟨g.root, (g.names e.path).dropLast, n,
      temporaryName n process counter⟩ a.bytes t) :
    g.Reached (step e.path (temporaryFor e.path process counter) a.bytes none t r).1 ∧
      g.Replaces (step e.path (temporaryFor e.path process counter) a.bytes none t r).1 e.path
        (step e.path (temporaryFor e.path process counter) a.bytes none t r).2 := by
  cases r with
  | preparing => exact replaces_preparing h hs _
  | creating => exact replaces_creating h hs hu hc
  | writing => exact replaces_writing h hs hu hc.1 hc.2
  | «renaming» => exact replaces_renaming h hs hheld hc.1 hc.2 hu hn (hready rfl)
  | abandoning f => exact replaces_abandoning h hs hc.1 hc.2
  | done x => exact absurd rfl (hr x)

/-! ## Fetching -/

/-- Only file references are read from files. -/
theorem source_congr {f : Fetcher} (hp : l.protocol ≠ .file) :
    f.source t l = f.source t' l ∧ ∀ path, f.source t l ≠ .ok (.local path) := by
  unfold Fetcher.source
  cases hprotocol : l.protocol with
  | file => exact absurd hprotocol hp
  | registry =>
    refine ⟨rfl, fun path h => ?_⟩
    simp only at h
    cases hurl : f.tarballUrl l <;> rw [hurl] at h <;> cases h
  | git =>
    refine ⟨rfl, fun path h => ?_⟩
    simp only at h
    split at h <;> cases h
  | _ => exact ⟨rfl, fun path h => by cases h⟩

/-- What there is to do for a locator. -/
def Pending (s : Outset) (l : Locator) : Prop := ∃ entry ∈ s.plan.entries, entry.pending? = some l

theorem Reached.begin_eq (h : g.Reached t) (hp : Pending g.toOutset l) :
    Fetching.begin g.workplace.fetcher l t = Fetching.begin g.workplace.fetcher l g.tree := by
  unfold Fetching.begin
  by_cases hfile : l.protocol = .file
  · obtain ⟨entry, hm, hentry⟩ := hp
    obtain ⟨hc, hr⟩ := g.undisturbed.references entry hm l
      (PlannedEntry.locator?_of_pending? hentry) hfile t h.aside
    unfold Fetcher.source
    rw [hfile]
    simp only [hc]
    cases ht : Containment.contained? g.tree l g.workplace.fetcher.root with
    | none => rfl
    | some target => simp only [hr target ht]
  · obtain ⟨hsame, hremote⟩ : g.workplace.fetcher.source t l = g.workplace.fetcher.source g.tree l ∧
        ∀ path, g.workplace.fetcher.source t l ≠ .ok (.local path) := source_congr hfile
    rw [← hsame]
    cases hs : g.workplace.fetcher.source t l with
    | error e => rfl
    | ok source =>
      cases source with
      | remote url q => rfl
      | «local» path => exact absurd hs (hremote path)

/-! ## Workers -/

variable (g) in
/-- What comes of storing what was fetched. -/
def storeResult (l : Locator) (a : Artifact) : Except Store.Error CacheEntry :=
  match g.workplace.store.entry l a.digest with
  | .error e => .error (.layout e)
  | .ok e => ((g.stored a e.path).map fun _ => e).mapError (.io e.path)

/-- What is reported of a failed fetch. -/
def failure (e : Fetch.Error) : Outcome := if e = .cancelled then .cancelled else .ofFetchError e

/-- What is reported of a stored artifact. -/
def report : Except Store.Error CacheEntry → Outcome
  | .ok e => .ofEntry e
  | .error e => .ofStoreError e

variable (g) in
/-- What a pending locator ends with. -/
def outcome (l : Locator) : Outcome :=
  match g.fetched l with
  | .error e => failure e
  | .ok a => report (g.storeResult l a)

variable (g) in
/-- What the storing of an artifact has found out at each stage. -/
def Keeps (t : FileTree) (l : Locator) (a : Artifact) : Storing → Prop
  | .starting => True
  | .locking e | .comparing e => g.workplace.store.entry l a.digest = .ok e
  | .replacing e tmp r => g.workplace.store.entry l a.digest = .ok e ∧
      g.made.holds e.path a.digest = false ∧
      (∃ process counter, g.uses process counter ∧ tmp = temporaryFor e.path process counter) ∧
      g.Replaces t e.path r
  | .unlocking e r => g.workplace.store.entry l a.digest = .ok e ∧ r = g.stored a e.path
  | .done r => r = g.storeResult l a

variable (g) in
/-- What a worker has found out at each stage. -/
def Follows (t : FileTree) (l : Locator) : Worker → Prop
  | .waiting => True
  | .fetching st => Fetching.EndsWith g.workplace.fetcher g.workplace.transport l (.ofFiles g.tree)
      st (g.fetched l)
  | .storing a st => g.fetched l = .ok a ∧ g.Keeps t l a st
  | .finished o => o = g.outcome l

theorem Follows.tended {k : Worker} (h : g.Follows t l k) (ht : Tended t t') :
    g.Follows t' l k := by
  cases k with
  | storing a st =>
    refine ⟨h.1, ?_⟩
    cases st with
    | replacing e tmp r => exact ⟨h.2.1, h.2.2.1, h.2.2.2.1, h.2.2.2.2.tended ht⟩
    | _ => exact h.2
  | _ => exact h

theorem storeResult_of_entry {e : CacheEntry} (h : g.workplace.store.entry l a.digest = .ok e) :
    g.storeResult l a = ((g.stored a e.path).map fun _ => e).mapError (.io e.path) := by
  unfold storeResult
  rw [h]

variable {w : World}

/-- Whether the artifact is there already is seen when the path is locked. -/
theorem keeps_comparing (h : g.Reached w.files) (hs : g.Stores l a e)
    (hu : g.uses w.process w.temporaries) :
    g.Reached (Storing.compare a e none w).1.files ∧
      g.Keeps (Storing.compare a e none w).1.files l a (Storing.compare a e none w).2 := by
  obtain ⟨hthere, hnot⟩ := h.stored_of_holds hs
  have hreplace : w.files.holds e.path a.digest = false →
      g.Keeps w.files l a (.replacing e (temporaryFor e.path w.process w.temporaries)
        .preparing) :=
    fun hh => ⟨hs.entry, hnot hh, ⟨_, _, hu, rfl⟩, trivial⟩
  unfold Storing.compare
  cases hb : w.files.readBytes e.path with
  | error f =>
    refine ⟨h, hreplace ?_⟩
    simp [FileTree.holds, hb, Except.toOption]
  | ok b =>
    by_cases ha : a.digest.accepts b = true
    · simp only [ha, if_true]
      exact ⟨h, hs.entry, (hthere (holds_eq_true_iff.mpr ⟨b, hb, ha⟩)).symm⟩
    · simp only [ha]
      refine ⟨h, hreplace ?_⟩
      simpa [FileTree.holds, hb, Except.toOption] using ha

/-- **One step of storing** keeps to its course. -/
theorem keeps_step (h : g.Reached w.files) (hp : Pending g.toOutset l) (ha : g.fetched l = .ok a)
    {st : Storing} (hk : g.Keeps w.files l a st)
    (hu : ∀ e, st = .comparing e → g.uses w.process w.temporaries)
    (hready : ∀ e tmp process counter n, st = .replacing e tmp .renaming →
      tmp = temporaryFor e.path process counter → e.path.fileName? = some n →
        Target.Ready ⟨g.root, (g.names e.path).dropLast, n, temporaryName n process counter⟩
          a.bytes w.files) :
    g.Reached (st.step g.workplace.store l a none w).1.files ∧
      g.Keeps (st.step g.workplace.store l a none w).1.files l a
        (st.step g.workplace.store l a none w).2 := by
  cases st with
  | starting =>
    simp only [Storing.step]
    cases he : g.workplace.store.entry l a.digest with
    | error f =>
      refine ⟨h, ?_⟩
      simp only [Keeps, storeResult, he]
    | ok e => exact ⟨h, he⟩
  | locking e =>
    simp only [Storing.step]
    split <;> exact ⟨h, hk⟩
  | comparing e => exact keeps_comparing h ⟨hp, ha, hk⟩ (hu e rfl)
  | replacing e tmp r =>
    obtain ⟨he, hheld, ⟨process, counter, huse, rfl⟩, hr⟩ := hk
    by_cases hd : ∃ x, r = .done x
    · obtain ⟨x, rfl⟩ := hd
      have hstored : x = g.stored a e.path := by
        rw [stored, if_neg (by simp [hheld])]
        exact hr
      cases x <;> exact ⟨h, he, hstored⟩
    · have hnot : ∀ x, r ≠ .done x := fun x hx => hd ⟨x, hx⟩
      have hs : g.Stores l a e := ⟨hp, ha, he⟩
      obtain ⟨q, names, n, hplain, hpath, -⟩ := stores_spelt hs
      have hn : e.path.fileName? = some n := by rw [hpath, hplain.fileName?_join]
      obtain ⟨hreached, hreplaces⟩ := replaces_step h hs hheld huse hnot hr hn
        fun hren => hready e _ process counter n (by rw [hren]) rfl hn
      rw [Storing.step_replacing _ _ _ _ _ _ _ hnot]
      exact ⟨hreached, he, hheld, ⟨process, counter, huse, rfl⟩, hreplaces⟩
  | unlocking e r =>
    obtain ⟨he, hr⟩ := hk
    refine ⟨h, ?_⟩
    simp only [Storing.step, Keeps, storeResult_of_entry he, hr]
  | done r => exact ⟨h, hk⟩

/-- One step of a fetch among others leads to the same end. -/
theorem follows_fetching (h : g.Reached w.files) (hw : w.cancelled = false)
    (hp : Pending g.toOutset l) {st : Fetching} (hk : g.Follows w.files l (.fetching st)) :
    g.Follows t' l (.fetching (st.step g.workplace.fetcher g.workplace.transport l w).2) := by
  have hends : Fetching.EndsWith g.workplace.fetcher g.workplace.transport l (.ofFiles g.tree) st
      (g.fetched l) := hk
  have hcalm : (World.ofFiles g.tree).cancelled = false := rfl
  have hbegin : Fetching.begin g.workplace.fetcher l (World.ofFiles g.tree).files =
      Fetching.begin g.workplace.fetcher l w.files := (h.begin_eq hp).symm
  have hstep := hends.step g.undisturbed.steady hcalm hw hbegin
  exact hstep

/-- What is reported of a fetch that failed. -/
theorem follows_failure {e : Fetch.Error} (hr : g.fetched l = .error e) :
    g.Follows t l (.finished (if e = .cancelled then .cancelled else .ofFetchError e)) := by
  simp only [Follows, outcome, hr, failure]

/-- **One step of a worker** keeps to its course. -/
theorem follows_step (h : g.Reached w.files) (hw : w.cancelled = false)
    (hp : Pending g.toOutset l) {k : Worker} (hk : g.Follows w.files l k)
    (hu : ∀ a e, k = .storing a (.comparing e) → g.uses w.process w.temporaries)
    (hready : ∀ a e tmp process counter n, k = .storing a (.replacing e tmp .renaming) →
      tmp = temporaryFor e.path process counter → e.path.fileName? = some n →
        Target.Ready ⟨g.root, (g.names e.path).dropLast, n, temporaryName n process counter⟩
          a.bytes w.files) :
    g.Reached (k.step g.workplace l none w).1.files ∧
      g.Follows (k.step g.workplace l none w).1.files l (k.step g.workplace l none w).2 ∧
      (k.step g.workplace l none w).1.cancelled = false := by
  cases k using Worker.stages with
  | waiting =>
    simp only [Worker.step, hw]
    exact ⟨h, Fetching.endsWith_run _ _ _ _, hw⟩
  | fetching st hst =>
    have hframe := Fetching.frame_step g.workplace.fetcher g.workplace.transport l w st
    rw [Worker.step_fetching _ _ _ _ hst]
    exact ⟨hframe.files ▸ h, follows_fetching h hw hp hk,
      Fetching.cancelled_step _ _ g.undisturbed.steady hw st⟩
  | fetched a => exact ⟨h, ⟨(Fetching.EndsWith.eq hk).symm, trivial⟩, hw⟩
  | failed e =>
    have hfailure := follows_failure (t := w.files) (Fetching.EndsWith.eq hk).symm
    simp only [Worker.step, Worker.afterFailure]
    split at hfailure
    · rename_i hc
      rw [if_pos hc]
      exact ⟨h, hfailure, hw⟩
    · rename_i hc
      rw [if_neg hc]
      exact ⟨h, hfailure, hw⟩
  | storing a st hst =>
    obtain ⟨ha, hkeeps⟩ := hk
    rw [Worker.step_storing _ _ _ _ _ hst]
    obtain ⟨hreached, hkeeps⟩ := keeps_step h hp ha hkeeps (fun e he => hu a e (by rw [he]))
      fun e tmp process counter n he => hready a e tmp process counter n (by rw [he])
    exact ⟨hreached, ⟨ha, hkeeps⟩, (Storing.frame_step _ _ _ _ _ st).cancelled.trans hw⟩
  | stored a r =>
    obtain ⟨ha, hkeeps⟩ := hk
    have hr : r = g.storeResult l a := hkeeps
    have hout : g.outcome l = report r := by rw [outcome, ha, hr]
    cases r with
    | ok e => exact ⟨h, hout.symm, hw⟩
    | error e => exact ⟨h, hout.symm, hw⟩
  | finished o => exact ⟨h, hk, hw⟩

end Ground

end OfflineCache
