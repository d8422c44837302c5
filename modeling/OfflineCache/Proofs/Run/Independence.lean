import OfflineCache.Proofs.Layout.Template
import OfflineCache.Proofs.Run.Settled

/-! The order of the work makes no difference. Every run of a lockfile that ends comes to one report and to
one set of finished files, whatever the schedule (`prefetch_independent`), and a run on the files that
it leaves changes none of them and reports the same. All that is asked is that nothing disturbs the
run; a name that leaves the temporary file no room does (`prefetch_order_matters`). -/

namespace OfflineCache

open FileTree Replacement

/-! ## Runs of a lockfile -/

/-- A world with these files where a run may begin: nothing is stopped, and the temporary names that the
workers of the plan may take are among those of `uses`. -/
structure Outset.Begins (s : Outset) (uses : Nat → Nat → Prop) (t : FileTree) (w : World) : Prop where
  files : w.files = t
  calm : w.cancelled = false
  uses : ∀ c, w.temporaries ≤ c → c < w.temporaries + s.plan.entries.countP (·.needsFetch) →
    uses w.process c

namespace Ground

variable {g : Ground} {w : World} {t : FileTree}

theorem admits_of_begins (h : g.Begins g.uses t w) (ht : g.Reached t) : g.Admits w :=
  ⟨h.files ▸ ht, h.calm, h.uses⟩

/-- **A run that has ended**: its report, and that every artifact that can be is in place. -/
theorem Admits.ends (hw : g.Admits w) {schedule : List Move} (hs : Run.Smooth schedule)
    (hover : ((Run.start w g.plan).follow g.workplace schedule).Over) :
    ((Run.start w g.plan).follow g.workplace schedule).slots.map (·.reportEntry) =
        g.plan.entries.map g.reportEntry ∧
      g.Completed ((Run.start w g.plan).follow g.workplace schedule).world.files := by
  obtain ⟨hcourse, hdelivered, -⟩ := course_follow hw hs
  have hjobs : ((Run.start w g.plan).follow g.workplace schedule).jobs =
      g.plan.entries.map fun e => (e, e.pending?) := by
    rw [Run.jobs_follow, Run.jobs_start]
  exact ⟨hcourse.report_eq hover hjobs, hcourse.completed hover hjobs hdelivered⟩

/-- What is in place when a run begins is in place at every moment. -/
theorem Completed.follow (hc : g.Completed w.files) (hw : g.Admits w) {schedule : List Move}
    (hs : Run.Smooth schedule) :
    g.Completed ((Run.start w g.plan).follow g.workplace schedule).world.files := by
  obtain ⟨hcourse, -, hsettled⟩ := course_follow hw hs
  exact ⟨hcourse.reached, fun l a e hst hstored => hsettled l (hc.settled l a e hst hstored)⟩

variable (g) in
theorem exists_finished : ∃ finished : Place → Option Bytes, ∀ t, g.Completed t →
    ∀ q, ¬ IsTemporary q → t.content? q = finished q := by
  by_cases hc : ∃ t, g.Completed t
  · obtain ⟨t, ht⟩ := hc
    exact ⟨t.content?, fun t' ht' q hq => ht'.content?_eq ht hq⟩
  · exact ⟨fun _ => none, fun t ht => absurd ⟨t, ht⟩ hc⟩

/-- A lockfile has one plan in all trees of a run. -/
theorem Reached.make_eq {p : Policy} {f : Lockfile} {declared : Option Nat} (h : g.Reached t)
    (hroot : g.workplace.fetcher.root = p.root)
    (hplan : Plan.make g.tree p f declared = .ok g.plan) :
    Plan.make t p f declared = .ok g.plan := by
  refine Plan.make_congr hplan fun entry hm l hl hfile => ?_
  rw [← hroot]
  exact (g.undisturbed.references entry hm l hl hfile t h.aside).1

end Ground

/-- **The order of the work makes no difference, nor does a second run.**  Where nothing disturbs it
(`Outset.Undisturbed`), there are one report and one set of finished files that every run to the end
comes to, whatever the schedule and the number of workers. A run on the files that such a run leaves
has the same plan, changes no finished file at any moment, and comes to the same report. -/
theorem prefetch_independent {p : Policy} {o : Options} {t : Transport} {f : Lockfile}
    {files : FileTree} {plan : Plan} {uses : Nat → Nat → Prop}
    (hplan : Plan.make files p f o.dialect = .ok plan)
    (h : (Outset.mk (o.workplace p t) files plan).Undisturbed uses) :
    ∃ (report : Report) (finished : Place → Option Bytes),
      (∀ w schedule r, (Outset.mk (o.workplace p t) files plan).Begins uses files w →
        Run.Smooth schedule → (Run.start w plan).follow (o.workplace p t) schedule = r → r.Over →
        Run.report plan.dialect.major o.cacheRoot r.slots = report ∧
        (∀ q, ¬ IsTemporary q → r.world.files.content? q = finished q) ∧
        Plan.make r.world.files p f o.dialect = .ok plan ∧
        ∀ w' schedule' r', (Outset.mk (o.workplace p t) files plan).Begins uses r.world.files w' →
          Run.Smooth schedule' → (Run.start w' plan).follow (o.workplace p t) schedule' = r' →
          (∀ q, ¬ IsTemporary q → r'.world.files.content? q = r.world.files.content? q) ∧
          (r'.Over → Run.report plan.dialect.major o.cacheRoot r'.slots = report)) ∧
      ∀ w, (Outset.mk (o.workplace p t) files plan).Begins uses files w → w.locked = [] → ∀ jobs,
        (prefetch p { o with jobs := jobs } t f w).2 = .ok report ∧
        (∀ q, ¬ IsTemporary q →
          (prefetch p { o with jobs := jobs } t f w).1.files.content? q = finished q) ∧
        ∀ w', (Outset.mk (o.workplace p t) files plan).Begins uses
            (prefetch p { o with jobs := jobs } t f w).1.files w' → w'.locked = [] → ∀ jobs',
          (prefetch p { o with jobs := jobs' } t f w').2 = .ok report ∧
          ∀ q, ¬ IsTemporary q →
            (prefetch p { o with jobs := jobs' } t f w').1.files.content? q = finished q := by
  obtain ⟨⟨s, uses, place, process, counter, hfree, hseat, heven⟩, rfl, rfl⟩ := h.ground
  let g : Ground := ⟨⟨o.workplace p t, files, plan⟩, uses, place, process, counter, hfree, hseat,
    heven⟩
  obtain ⟨finished, hfinished⟩ := g.exists_finished
  -- a prefetch is a run that ends
  have hprefetch : ∀ w jobs, Plan.make w.files p f o.dialect = .ok plan → g.Admits w →
      w.locked = [] →
        (prefetch p { o with jobs := jobs } t f w).2 = .ok ⟨plan.dialect.major,
          plan.entries.map g.reportEntry, o.cacheRoot⟩ ∧
        g.Completed (prefetch p { o with jobs := jobs } t f w).1.files := by
    intro w jobs hmake hw hfree
    obtain ⟨before, after, schedule, hs, hover, hrun⟩ :=
      prefetch_eq_follow (t := t) (o := { o with jobs := jobs }) hmake hfree
    have hw' : g.Admits (w.tellAll before) := ⟨hw.reached, hw.calm, hw.uses⟩
    obtain ⟨hreport, hc⟩ := hw'.ends hs hover
    rw [hrun]
    exact ⟨congrArg (fun es => Except.ok (Report.mk _ es _)) hreport, hc⟩
  refine ⟨⟨plan.dialect.major, plan.entries.map g.reportEntry, o.cacheRoot⟩, finished, ?_, ?_⟩
  · rintro w schedule r hw hs rfl hover
    have hadmits : g.Admits w := Ground.admits_of_begins (g := g) hw (.untouched rfl)
    obtain ⟨hreport, hc⟩ := hadmits.ends hs hover
    refine ⟨congrArg (Report.mk _ · _) hreport, fun q hq => hfinished _ hc q hq,
      hc.reached.make_eq rfl hplan, ?_⟩
    rintro w' schedule' r' hw' hs' rfl
    have hadmits' : g.Admits w' := Ground.admits_of_begins (g := g) hw' hc.reached
    have hc' := Ground.Completed.follow (g := g) (hw'.files ▸ hc) hadmits' hs'
    exact ⟨fun q hq => hc'.content?_eq hc hq,
      fun hover' => congrArg (Report.mk _ · _) (hadmits'.ends hs' hover').1⟩
  · intro w hw hfree jobs
    have hadmits : g.Admits w := Ground.admits_of_begins (g := g) hw (.untouched rfl)
    obtain ⟨hreport, hc⟩ := hprefetch w jobs (hw.files ▸ hplan) hadmits hfree
    refine ⟨hreport, fun q hq => hfinished _ hc q hq, fun w' hw' hfree' jobs' => ?_⟩
    have hadmits' : g.Admits w' := Ground.admits_of_begins (g := g) hw' hc.reached
    have hmake : Plan.make w'.files p f o.dialect = .ok plan := by
      rw [hw'.files]
      exact hc.reached.make_eq rfl hplan
    obtain ⟨hreport', hc'⟩ := hprefetch w' jobs' hmake hadmits' hfree'
    exact ⟨hreport', fun q hq => hfinished _ hc' q hq⟩

/-! ## Paths that do not tell the digest -/

/-- What a placeholder stands for that has nothing to do with the digest. -/
def Layout.plainPlaceholder? (l : Locator) (key : List Char) : Option (List Char) :=
  if key = "name".toList then some l.ident.render.toList
  else if key = "version".toList then some (versionOf l).toList
  else none

/-- The path of an artifact, if its digest has no part in it. -/
def Layout.plainPath? (y : Layout) (l : Locator) : Option Path :=
  match Template.render (plainPlaceholder? l) y.template.toList with
  | .ok s => if s ≠ [] ∧ isPlain ⟨s⟩ then some ⟨s⟩ else none
  | .error _ => none

theorem Layout.relativePath_of_plainPath? {y : Layout} {l : Locator} {q : Path}
    (h : y.plainPath? l = some q) (digest : Checksum) : y.relativePath l digest = .ok q := by
  unfold plainPath? at h
  cases hr : Template.render (plainPlaceholder? l) y.template.toList with
  | error f =>
    rw [hr] at h
    cases h
  | ok s =>
    rw [hr] at h
    have hle : ∀ key v, plainPlaceholder? l key = some v → placeholder? l digest key = some v := by
      intro key v hv
      unfold plainPlaceholder? at hv
      split at hv
      · rename_i hkey
        rw [← hv, hkey]
        simp [placeholder?]
      · split at hv
        · rename_i hkey
          rw [← hv, hkey]
          simp [placeholder?]
        · cases hv
    rw [relativePath, Template.render_of_le hle hr]
    simp only at h ⊢
    split at h
    · rename_i hs
      rw [if_pos hs, Option.some.inj h]
    · cases h

/-! ## A run into an empty cache -/

/-- The first two temporary files of a program. -/
def firstUses (process counter : Nat) : Prop := process = 1 ∧ counter < 2

def archiveOutset (plan : Plan) : Outset :=
  ⟨byName.workplace (.ofRoot ⟨['/']⟩) firstOrOther, ⟨[], []⟩, plan⟩

/-- The tree once the cache root has been made. -/
def archiveTree : FileTree := ⟨[([['c']], .directory)], []⟩

theorem temporaryName_ne_of_head {m : List Char} (h : m.head? ≠ some '.') (n : List Char)
    (process counter : Nat) : m ≠ temporaryName n process counter := by
  rintro rfl
  exact h rfl

theorem node?_archiveTree {q : Place} (h : archiveTree.node? q = some .directory) :
    q = [] ∨ q = [['c']] := by
  unfold node? at h
  split at h
  · exact Or.inl ‹_›
  · refine Or.inr ?_
    simp only [archiveTree, List.lookup_cons, List.lookup_nil] at h
    split at h
    · rename_i hq
      exact beq_iff_eq.mp hq
    · cases h

theorem leads_archiveTree : (⟨[], []⟩ : FileTree).layDirectories ⟨['/', 'c']⟩ = (archiveTree, .ok ()) ∧
    Leads archiveTree ⟨['/', 'c']⟩ [['c']] := ⟨rfl, rfl⟩

theorem holds_archive (digest : Checksum) :
    (⟨[], []⟩ : FileTree).holds archivePath digest = false ∧
      archiveTree.holds archivePath digest = false := ⟨rfl, rfl⟩

theorem scratchFault?_archive {counter : Nat} (h : counter < 2) :
    scratchFault? archivePath 1 counter = none := by
  match counter, h with
  | 0, _ => rfl
  | 1, _ => rfl

theorem namesBelow_archive : archivePath.namesBelow ⟨['/', 'c']⟩ = ["a.tgz".toList] := rfl

/-- One archive is to be fetched, for `a.tgz`, and no entry is read from the project. -/
def Plan.oneArchive (plan : Plan) : Bool :=
  plan.entries.all (fun entry => entry.locator?.all (·.protocol != .file)) &&
    match plan.entries.filterMap (·.pending?) with
    | [l] => byName.layout.plainPath? l == some ⟨"a.tgz".toList⟩
    | _ => false

theorem Plan.of_oneArchive {plan : Plan} (h : plan.oneArchive = true) :
    (∀ entry ∈ plan.entries, ∀ l, entry.locator? = some l → l.protocol ≠ .file) ∧
      ∃ l, plan.entries.filterMap (·.pending?) = [l] ∧
        byName.layout.plainPath? l = some ⟨"a.tgz".toList⟩ := by
  obtain ⟨hfiles, hone⟩ := Bool.and_eq_true_iff.mp h
  refine ⟨fun entry hm l hl => ?_, ?_⟩
  · have hentry := List.all_eq_true.mp hfiles entry hm
    rw [hl] at hentry
    exact bne_iff_ne.mp hentry
  · split at hone
    · rename_i l hl
      exact ⟨l, hl, beq_iff_eq.mp hone⟩
    · cases hone

theorem archive_begins {plan : Plan} (h : plan.oneArchive = true) (files : FileTree) {n : Nat}
    (hn : n ≤ 1) :
    (archiveOutset plan).Begins firstUses files { World.ofFiles files with temporaries := n } := by
  obtain ⟨-, l, hl, -⟩ := Plan.of_oneArchive h
  have hcount : plan.entries.countP (·.needsFetch) = 1 := by
    rw [show (·.needsFetch) = fun e : PlannedEntry => e.pending?.isSome from rfl,
      ← List.length_filterMap_eq_countP, hl]
    rfl
  refine ⟨rfl, rfl, fun c _ hc => ⟨rfl, ?_⟩⟩
  have hless : c < n + plan.entries.countP (·.needsFetch) := hc
  omega

theorem archive_undisturbed {plan : Plan} (h : plan.oneArchive = true) :
    (archiveOutset plan).Undisturbed firstUses := by
  obtain ⟨hfile, l, hl, hpath⟩ := Plan.of_oneArchive h
  have hone : ∀ {l' a e}, (archiveOutset plan).Stores l' a e → l' = l ∧ e.path = archivePath := by
    intro l' a e hs
    obtain ⟨entry', hm, hp⟩ := hs.pending
    obtain rfl : l' = l := List.mem_singleton.mp (hl ▸ List.mem_filterMap.mpr ⟨entry', hm, hp⟩)
    have he := hs.entry
    rw [Store.entry] at he
    change (Layout.relativePath byName.layout l' a.digest).map _ = _ at he
    rw [Layout.relativePath_of_plainPath? hpath] at he
    exact ⟨rfl, by rw [← Except.ok.inj he]; rfl⟩
  have hmade : (archiveOutset plan).made = archiveTree := congrArg Prod.fst leads_archiveTree.1
  refine ⟨⟨fun _ _ _ => rfl, fun _ _ => rfl⟩, ?_, linkFree_empty [] _, ?_, ?_, ?_, ?_, ?_, ?_, ?_, ?_⟩
  · exact ⟨rfl, fun q n hn => absurd (by simp [archiveOutset, node?]) hn⟩
  · refine Or.inl ⟨[['c']], ?_, ?_⟩
    · rw [hmade]
      exact leads_archiveTree.1
    · rw [hmade]
      exact leads_archiveTree.2
  · intro entry' hm l' hl' hprotocol
    exact absurd hprotocol (hfile entry' hm l' hl')
  · intro l' a e hs directory hd
    rw [(hone hs).2] at hd ⊢
    obtain rfl : ⟨['/', 'c']⟩ = directory := Option.some.inj hd
    rw [hmade, show (archiveOutset plan).tree = ⟨[], []⟩ from rfl, (holds_archive a.digest).1,
      (holds_archive a.digest).2, leads_archiveTree.1]
    exact ⟨rfl, rfl⟩
  · intro l₁ a₁ e₁ l₂ a₂ e₂ h₁ h₂ _
    obtain rfl := (hone h₁).1
    obtain rfl := (hone h₂).1
    obtain ⟨rfl, rfl⟩ := h₁.unique h₂
    exact ⟨rfl, rfl, rfl⟩
  · intro l₁ a₁ e₁ l₂ a₂ e₂ h₁ h₂ _
    rw [(hone h₁).2, (hone h₂).2]
  · intro l' a e hs m hm n process counter
    rw [(hone hs).2] at hm
    obtain rfl : m = "a.tgz".toList := List.mem_singleton.mp (namesBelow_archive ▸ hm)
    exact temporaryName_ne_of_head (by decide) n process counter
  · intro place _ q _ n process counter hd
    rw [hmade] at hd
    rcases node?_archiveTree hd with he | he
    · simp at he
    · have hlast := congrArg List.getLast? he
      rw [List.getLast?_concat] at hlast
      exact temporaryName_ne_of_head (m := ['c']) (by decide) n process counter
        (Option.some.inj hlast).symm
  · rintro l' a e hs process counter process' counter' ⟨rfl, hc⟩ ⟨rfl, hc'⟩
    rw [(hone hs).2, scratchFault?_archive hc, scratchFault?_archive hc']

theorem prefetch_independent_archive :
    ∃ plan, Plan.make ⟨[], []⟩ (.ofRoot ⟨['/']⟩) (versions ["1.0.0"]) none = .ok plan ∧
      (archiveOutset plan).Undisturbed firstUses ∧
      ∃ report w, w = (prefetch (.ofRoot ⟨['/']⟩) byName firstOrOther (versions ["1.0.0"])
          (.ofFiles ⟨[], []⟩)).1.files ∧
        (prefetch (.ofRoot ⟨['/']⟩) byName firstOrOther (versions ["1.0.0"])
          (.ofFiles ⟨[], []⟩)).2 = .ok report ∧
        (prefetch (.ofRoot ⟨['/']⟩) byName firstOrOther (versions ["1.0.0"])
          { World.ofFiles w with temporaries := 1 }).2 = .ok report := by
  have hd : (Plan.make ⟨[], []⟩ (.ofRoot ⟨['/']⟩) (versions ["1.0.0"]) none).toOption.any
      (·.oneArchive) = true := by
    decide +kernel
  cases h : Plan.make ⟨[], []⟩ (.ofRoot ⟨['/']⟩) (versions ["1.0.0"]) none with
  | error e =>
    rw [h] at hd
    cases hd
  | ok plan =>
    rw [h] at hd
    have hfree := archive_undisturbed hd
    obtain ⟨report, finished, -, hall⟩ := prefetch_independent h hfree
    obtain ⟨hreport, -, hagain⟩ := hall _ (archive_begins hd _ (Nat.zero_le 1)) rfl byName.jobs
    exact ⟨plan, rfl, hfree, report, _, rfl, hreport,
      (hagain _ (archive_begins hd _ (Nat.le_refl 1)) rfl byName.jobs).1⟩

/-! ## A run where the order matters -/

/-- Two versions of a package with a long name. -/
def longNamed : Lockfile :=
  ⟨8, none, ["1.0.0", "2.0.0"].map fun v =>
    ⟨[String.ofList (List.replicate 60 'n') ++ "@npm:" ++ v], none, none, none, none⟩⟩

/-- Names of 246 bytes: with a counter of one digit the temporary name has 255, the most there may be. -/
def byLongName : Options :=
  { byName with
    layout := ⟨"long", "n\x7bname\x7d\x7bname\x7d\x7bname\x7d\x7bname\x7d\x7bversion\x7d"⟩ }

def longOutset (plan : Plan) : Outset :=
  ⟨byLongName.workplace (.ofRoot ⟨['/']⟩) firstOrOther, ⟨[], []⟩, plan⟩

/-- Nine temporary names have been used. -/
def longRun (plan : Plan) (schedule : List Move) : Run :=
  (Run.start { World.ofFiles ⟨[], []⟩ with temporaries := 9 } plan).follow
    (byLongName.workplace (.ofRoot ⟨['/']⟩) firstOrOther) schedule

/-- The second worker comes before the first. -/
def inReverse : List Move := List.replicate 20 (.work 1 none) ++ List.replicate 20 (.work 0 none)

/-- Which entries are reported as failed. -/
def Run.failed (r : Run) : List Bool :=
  (r.slots.map (·.reportEntry)).map (·.outcome matches .failed ..)

/-- All is through, and these entries have failed. -/
def Run.endsWith (r : Run) (failed : List Bool) : Bool :=
  r.slots.all (fun s => s.task.all (·.2.isFinished)) && r.failed == failed

theorem Run.of_endsWith {r : Run} {failed : List Bool} (h : r.endsWith failed = true) :
    r.Over ∧ r.failed = failed := by
  simp only [endsWith, Bool.and_eq_true, beq_iff_eq] at h
  exact ⟨over_iff.mpr h.1, h.2⟩

/-- No artifact of the plan is at or above the path of another. -/
def Layout.separates (y : Layout) (root : Path) (ls : List Locator) : Bool :=
  ls.all fun l => ls.all fun l' => match y.plainPath? l, y.plainPath? l' with
    | some q, some q' => decide ((root / q).components <+: (root / q').components → l = l')
    | _, _ => false

/-- The plan of the two versions, and its runs in both orders. -/
theorem longNamed_runs : (Plan.make ⟨[], []⟩ (.ofRoot ⟨['/']⟩) longNamed none).toOption.any
    (fun plan => plan.entries.all (fun entry => entry.locator?.all (·.protocol != .file)) &&
      byLongName.layout.separates byLongName.cacheRoot (plan.entries.filterMap (·.pending?)) &&
      (longRun plan inTurn).endsWith [false, true] &&
      (longRun plan inReverse).endsWith [true, false]) = true := by
  decide +kernel

/-- **The order can matter** where the temporary name may or may not be too long. Whoever comes second is
given a counter of two digits, and its temporary file has no room for it. -/
theorem prefetch_order_matters :
    ∃ plan, Plan.make ⟨[], []⟩ (.ofRoot ⟨['/']⟩) longNamed none = .ok plan ∧
      firstOrOther.Steady ∧ LinkFree ⟨[], []⟩ byLongName.cacheRoot ∧
      (∀ entry ∈ plan.entries, ∀ l, entry.locator? = some l → l.protocol ≠ .file) ∧
      (∀ l a e l' a' e', (longOutset plan).Stores l a e → (longOutset plan).Stores l' a' e' →
        e.path.components <+: e'.path.components → a = a' ∧ e = e') ∧
      Run.Smooth inTurn ∧ Run.Smooth inReverse ∧
      (longRun plan inTurn).Over ∧ (longRun plan inReverse).Over ∧
      Run.report plan.dialect.major byLongName.cacheRoot (longRun plan inTurn).slots ≠
        Run.report plan.dialect.major byLongName.cacheRoot (longRun plan inReverse).slots := by
  have hd := longNamed_runs
  have hsmooth : ∀ m n i j, Run.Smooth
      (List.replicate m (.work i none) ++ List.replicate n (.work j none)) := by
    intro m n i j move hm
    rcases List.mem_append.mp hm with hm | hm
    · exact ⟨i, List.eq_of_mem_replicate hm⟩
    · exact ⟨j, List.eq_of_mem_replicate hm⟩
  cases h : Plan.make ⟨[], []⟩ (.ofRoot ⟨['/']⟩) longNamed none with
  | error e =>
    rw [h] at hd
    cases hd
  | ok plan =>
    rw [h, Except.toOption, Option.any_some, Bool.and_eq_true, Bool.and_eq_true,
      Bool.and_eq_true] at hd
    obtain ⟨⟨⟨hfile, hpaths⟩, hfirst⟩, hsecond⟩ := hd
    obtain ⟨hover, hturn⟩ := Run.of_endsWith hfirst
    obtain ⟨hover', hreverse⟩ := Run.of_endsWith hsecond
    refine ⟨plan, rfl, ⟨fun _ _ _ => rfl, fun _ _ => rfl⟩, linkFree_empty [] _, ?_, ?_,
      hsmooth _ _ _ _, hsmooth _ _ _ _, hover, hover', ?_⟩
    · intro entry hm l hl
      have hentry := List.all_eq_true.mp hfile entry hm
      rw [hl] at hentry
      exact bne_iff_ne.mp hentry
    · intro l a e l' a' e' hs hs' hprefix
      have hpath : ∀ {l a e}, (longOutset plan).Stores l a e →
          l ∈ plan.entries.filterMap (·.pending?) ∧ ∀ q, byLongName.layout.plainPath? l = some q →
            e.path = byLongName.cacheRoot / q := by
        intro l a e hs
        obtain ⟨entry, hm, hp⟩ := hs.pending
        refine ⟨List.mem_filterMap.mpr ⟨entry, hm, hp⟩, fun q hq => ?_⟩
        have he := hs.entry
        rw [Store.entry] at he
        change (Layout.relativePath byLongName.layout l a.digest).map _ = _ at he
        rw [Layout.relativePath_of_plainPath? hq] at he
        rw [← Except.ok.inj he]
        rfl
      obtain ⟨hm, hq⟩ := hpath hs
      obtain ⟨hm', hq'⟩ := hpath hs'
      have hsame := List.all_eq_true.mp (List.all_eq_true.mp hpaths l hm) l' hm'
      split at hsame
      · rename_i q q' hl hl'
        rw [hq q hl, hq' q' hl'] at hprefix
        obtain rfl := of_decide_eq_true hsame hprefix
        exact hs.unique hs'
      · cases hsame
    · intro he
      have hentries := (Report.mk.injEq _ _ _ _ _ _ ▸ he).2.1
      have hfailed : (longRun plan inTurn).failed = (longRun plan inReverse).failed := by
        unfold Run.failed
        rw [hentries]
      rw [hturn, hreverse] at hfailed
      cases hfailed

end OfflineCache
