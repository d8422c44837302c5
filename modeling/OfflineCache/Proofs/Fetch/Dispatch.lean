import OfflineCache.Proofs.Fetch.FromFiles
import OfflineCache.Proofs.Locator.WellFormed
import OfflineCache.Proofs.Plan.Collapsing
import OfflineCache.Proofs.Run.Pinned

/-! What a plan wants fetched can be dispatched. The dispatch decides anew, by protocol, where the
bytes of a locator come from, and refuses what it cannot place. Most of its refusals are dead: the
grammar yields known protocols only and checks the package that an alias names, the policy lets no
local protocol through, and the containment check of the plan is that of the dispatch. What is left
is a reference to the registry that pins no version.

Main statement: `fetchable_dispatched`. -/

namespace OfflineCache

open Text Fetch

/-- What the grammar has found out, and the dispatch relies on. -/
structure Locator.Grounded (l : Locator) : Prop where
  known : l.protocol ∈ Protocol.known
  target : l.protocol = .registry → ∃ target, l.registryTarget? = some target

/-- The registry is asked for the package, and the reference leaves its version open. -/
structure Locator.Unpinned (l : Locator) : Prop where
  protocol : l.protocol = .registry
  unbound : l.param? "__archiveUrl" = none
  target : ∃ ident reference, l.registryTarget? = some (ident, reference) ∧
    Locator.exactVersion? reference = none

/-! ## The grammar -/

namespace Locator

theorem Reads.grounded {s : List Char} {l : Locator} (h : Reads s l) : l.Grounded := by
  have hl := h.wellFormed l l.self_mem_chain
  constructor
  · cases hp : l.protocol with
    | other name => exact absurd hp (hl.known name)
    | _ => simp [Protocol.known]
  · intro hp
    obtain ⟨ident, range, htarget, -⟩ := hl.target hp
    exact ⟨(ident, String.ofList range), htarget⟩

theorem Grounded.congr {a b : Locator} (h : a.Grounded) (hi : b.ident = a.ident)
    (hp : b.protocol = a.protocol) (hr : b.reference = a.reference) : b.Grounded := by
  have ht : b.registryTarget? = a.registryTarget? := by
    simp only [registryTarget?, hi, hp, hr]
  exact ⟨hp ▸ h.known, fun hb => ht ▸ h.target (hp ▸ hb)⟩

theorem protocol_markOptional (d : Dialect) (l : Locator) :
    (d.markOptional l).protocol = l.protocol ∧ (d.markOptional l).reference = l.reference := by
  unfold Dialect.markOptional
  split
  · exact ⟨rfl, rfl⟩
  · split
    · exact ⟨rfl, rfl⟩
    · split
      · exact ⟨rfl, rfl⟩
      · split <;> exact ⟨rfl, rfl⟩

theorem grounded_of_parseLocator {d : Dialect} {raw : String} {l : Locator}
    (h : d.parseLocator raw = .ok l) : l.Grounded := by
  unfold Dialect.parseLocator at h
  split at h
  · cases h
  · rename_i first hp
    cases h
    obtain ⟨hprotocol, hreference⟩ := protocol_markOptional d first
    exact (parse_eq_ok_iff.mp hp).grounded.congr (ident_markOptional d first) hprotocol hreference

end Locator

theorem Plan.grounded_of_readRecord {d : Dialect} {r : LockRecord} {l : Locator}
    (h : readRecord d r = .ok l) : l.Grounded := by
  obtain ⟨first, checksum, hp, rfl⟩ := exists_parseLocator h
  exact (Locator.grounded_of_parseLocator hp).congr rfl rfl rfl

/-! ## The dispatch -/

namespace Fetcher

variable {x : Fetcher} {t : FileTree} {l : Locator}

theorem tarballUrl_of_unpinned (x : Fetcher) (h : l.Unpinned) :
    x.tarballUrl l = .error (.unsupported l.render .notPinned) := by
  obtain ⟨ident, reference, ht, hv⟩ := h.target
  rw [tarballUrl, h.unbound]
  simp only [ht, hv]
  rfl

theorem exists_tarballUrl (x : Fetcher) (hl : l.Grounded) (hp : l.protocol = .registry)
    (h : ¬ l.Unpinned) : ∃ url, x.tarballUrl l = .ok url := by
  unfold tarballUrl
  cases hu : l.param? "__archiveUrl" with
  | some text => exact ⟨_, rfl⟩
  | none =>
    obtain ⟨⟨ident, reference⟩, ht⟩ := hl.target hp
    simp only [ht]
    cases hv : Locator.exactVersion? reference with
    | none => exact absurd ⟨hp, hu, ident, reference, ht, hv⟩ h
    | some v => exact ⟨_, rfl⟩

theorem source_of_unpinned (x : Fetcher) (t : FileTree) (h : l.Unpinned) :
    x.source t l = .error (.unsupported l.render .notPinned) := by
  simp only [source, h.protocol, tarballUrl_of_unpinned x h, Except.map]

end Fetcher

theorem Locator.exists_gitSource? {l : Locator} (h : l.protocol = .git) :
    ∃ url revision, l.gitSource? = some (url, revision) := by
  unfold gitSource?
  rw [if_neg (by simp [h])]
  split
  · exact ⟨_, _, rfl⟩
  · exact ⟨_, _, rfl⟩

theorem Containment.exists_contained? {t : FileTree} {c : Classification} {l : Locator}
    {root : Path} (h : guard t c l root = .fetchable) (hp : l.protocol = .file) :
    ∃ target, contained? t l root = some target := by
  have hc := guard_eq_fetchable h
  cases ht : contained? t l root with
  | some target => exact ⟨target, rfl⟩
  | none => simp [guard, escapes, ht, hp, Protocol.bearsPath, hc] at h

/-- What policy and containment let through has a source, unless its version is open. -/
theorem Fetcher.exists_source {x : Fetcher} {t : FileTree} {p : Policy} {l : Locator}
    (hl : l.Grounded) (hc : Plan.classify t p l = .fetchable) (hroot : x.root = p.root)
    (h : ¬ l.Unpinned) : ∃ src, x.source t l = .ok src := by
  obtain ⟨-, hexec, hworkspace, hlink, hpatch⟩ :=
    Policy.classify_eq_fetchable (Plan.classify_eq_fetchable hc)
  unfold source
  cases hp : l.protocol with
  | registry =>
    obtain ⟨url, hurl⟩ := exists_tarballUrl x hl hp h
    exact ⟨.remote url (.get url), by simp only [hurl, Except.map]⟩
  | http => exact ⟨_, rfl⟩
  | git =>
    obtain ⟨url, revision, hs⟩ := Locator.exists_gitSource? hp
    exact ⟨.remote url (.gitExport url revision), by simp only [hs]⟩
  | file =>
    obtain ⟨target, ht⟩ := Containment.exists_contained? hc hp
    exact ⟨.local target, by simp only [hroot, ht]⟩
  | link => exact absurd hp hlink
  | workspace => exact absurd hp hworkspace
  | patch => exact absurd hp hpatch
  | exec => exact absurd hp hexec
  | other name =>
    have hknown := hl.known
    simp [hp, Protocol.known] at hknown

/-! ## A fetch from start to end -/

namespace Fetching

variable {x : Fetcher} {tr : Transport} {l : Locator} {w : World}

theorem run_of_source_error {e : Error} (h : x.source w.files l = .error e) :
    (run x tr l w).2 = .error e := by
  simp only [run, stepsLeft, steps, step, begin, h, steps_done]

/-- If the error is a refusal, it is that of the dispatch, or the transport answers it to a call. -/
def Founded (x : Fetcher) (tr : Transport) (l : Locator) (t : FileTree) (e : Error) : Prop :=
  ∀ name u, e = .unsupported name u →
    x.source t l = .error e ∨ ∃ calls q, (tr calls q).result = .error e

/-- The error that a fetch ends with, or is about to end with, is founded. -/
def FailsFounded (x : Fetcher) (tr : Transport) (l : Locator) (t : FileTree) : Fetching → Prop
  | .retrying _ _ (.done (.error e)) => Founded x tr l t e
  | .done (.error e) => Founded x tr l t e
  | _ => True

variable {t : FileTree}

theorem failsFounded_begin (x : Fetcher) (tr : Transport) (l : Locator) (t : FileTree) :
    (begin x l t).FailsFounded x tr l t := by
  unfold begin
  split
  · rename_i he
    exact fun _ _ _ => Or.inl he
  · trivial
  · split
    · trivial
    · exact nofun

/-- A series of attempts ends with its last answer, or with an error of its own. -/
theorem failsFounded_retry (target : String) (q : Request) (w : World) {r : Retry}
    (h : (Fetching.retrying target q r).FailsFounded x tr l t) :
    (Fetching.retrying target q (r.step x.retry tr target q w).2).FailsFounded x tr l t := by
  cases r with
  | checking n =>
    simp only [Retry.step]
    split
    · intro _ _ he
      cases he
    · trivial
  | calling n =>
    simp only [Retry.step, World.call]
    cases ha : (tr w.calls q).result with
    | ok b => trivial
    | error e =>
      simp only [Retry.judge]
      split
      · trivial
      · intro _ _ he
        cases he
      · exact fun _ _ _ => Or.inr ⟨w.calls, q, ha⟩
  | done r => exact h

theorem failsFounded_step {s : Fetching} (h : s.FailsFounded x tr l w.files) :
    (s.step x tr l w).2.FailsFounded x tr l w.files := by
  cases s with
  | starting => exact failsFounded_begin x tr l w.files
  | retrying target q r =>
    cases r with
    | checking n => exact failsFounded_retry target q w h
    | calling n => exact failsFounded_retry target q w h
    | done r =>
      cases r with
      | ok bn => trivial
      | error e => exact h
  | verifying b n =>
    simp only [step, Fetcher.verify]
    split
    · rename_i he
      split at he
      · cases he
      · split at he
        · cases he
        · cases he
          intro _ _ he
          cases he
    · trivial
  | done r => exact h

/-- A fetch refuses a locator only where the dispatch does, or where the transport does. -/
theorem founded_of_run {e : Error} (h : (run x tr l w).2 = .error e) :
    Founded x tr l w.files e := by
  obtain ⟨-, -, hend⟩ := run_induction x tr l
    (P := fun w' s => w'.files = w.files ∧ s.FailsFounded x tr l w.files)
    (fun w' s ⟨hfiles, hs⟩ => by
      rw [← hfiles] at hs ⊢
      exact ⟨(frame_step x tr l w' s).files, failsFounded_step hs⟩)
    (w := w) ⟨rfl, trivial⟩
  rw [h] at hend
  exact hend

end Fetching

/-! ## Plans -/

namespace Plan

/-- **What is planned to be fetched can be dispatched.**  An entry that is to be fetched has a
locator. A fetcher with the plan's root has a source for it, unless its version is open; then, and
only then, the fetch is refused, and for that reason. A transport may refuse on its own. -/
theorem fetchable_dispatched {t : FileTree} {p : Policy} {f : Lockfile} {declared : Option Nat}
    {plan : Plan} (h : make t p f declared = .ok plan) {e : PlannedEntry} (he : e ∈ plan.entries)
    (hn : e.needsFetch = true) :
    ∃ l, e.locator? = some l ∧ ∀ x : Fetcher, x.root = p.root →
      (l.Unpinned ∨ ∃ src, x.source t l = .ok src) ∧
      ∀ (tr : Transport) (w : World), w.files = t →
        (l.Unpinned → (Fetching.run x tr l w).2 = .error (.unsupported l.render .notPinned)) ∧
        ∀ name u, (Fetching.run x tr l w).2 = .error (.unsupported name u) →
          l.Unpinned ∧ name = l.render ∧ u = .notPinned ∨
            ∃ calls q, (tr calls q).result = .error (.unsupported name u) := by
  obtain ⟨l, hl⟩ := Option.isSome_iff_exists.mp hn
  have hentry := PlannedEntry.pending?_eq_some_iff.mp hl
  have hlocator : e.locator? = some l := by rw [hentry]; rfl
  obtain ⟨r, -, -, hr⟩ := record_of_make h he hlocator
  have hc : classify t p l = .fetchable := (classify_of_make h (hentry ▸ he)).symm
  refine ⟨l, hlocator, fun x hroot => ?_⟩
  have hsource : ¬ l.Unpinned → ∃ src, x.source t l = .ok src :=
    x.exists_source (grounded_of_readRecord hr) hc hroot
  refine ⟨or_iff_not_imp_left.mpr hsource, fun tr w hw => ⟨fun hu => ?_, fun name u hrun => ?_⟩⟩
  · exact Fetching.run_of_source_error (x.source_of_unpinned w.files hu)
  · rcases Fetching.founded_of_run hrun name u rfl with hs | hs
    · rw [hw] at hs
      by_cases hu : l.Unpinned
      · rw [x.source_of_unpinned t hu] at hs
        cases hs
        exact Or.inl ⟨hu, rfl, rfl⟩
      · obtain ⟨src, hsrc⟩ := hsource hu
        cases hsrc.symm.trans hs
    · exact Or.inr hs

/-- A package whose version is left open, and another package under a name of its own. -/
def openAndAlias : Lockfile :=
  ⟨8, none, [⟨["a@npm:^1.0.0"], none, none, none, none⟩,
    ⟨["b@npm:c@1.0.0"], none, none, none, none⟩]⟩

def openLocator : Locator := .simple ⟨none, "a"⟩ .registry "^1.0.0".toList []

def aliasLocator : Locator := .simple ⟨none, "b"⟩ .registry "c@1.0.0".toList []

theorem unpinned_openLocator : openLocator.Unpinned where
  protocol := rfl
  unbound := rfl
  target := ⟨⟨none, "a"⟩, "^1.0.0", by decide +kernel, by decide +kernel⟩

theorem not_unpinned_aliasLocator : ¬ aliasLocator.Unpinned := by
  intro h
  obtain ⟨ident, reference, ht, hv⟩ := h.target
  have hpins : (aliasLocator.registryTarget?.bind (Locator.exactVersion? ·.2)).isSome = true := by
    decide +kernel
  rw [ht, Option.bind_some, hv] at hpins
  cases hpins

theorem fetchable_dispatched_openAndAlias :
    ∃ plan e e', make ⟨[], []⟩ (.ofRoot ⟨['/']⟩) openAndAlias none = .ok plan ∧
      (e ∈ plan.entries ∧ e.needsFetch = true) ∧ (e' ∈ plan.entries ∧ e'.needsFetch = true) ∧
      (∃ l, e.locator? = some l ∧ l.Unpinned ∧ ∀ tr,
        (Fetching.run (.make none ⟨['/']⟩ .standard) tr l (.ofFiles ⟨[], []⟩)).2 =
          .error (.unsupported l.render .notPinned)) ∧
      ∃ l, e'.locator? = some l ∧ ¬ l.Unpinned ∧
        ∃ src, (Fetcher.make none ⟨['/']⟩ .standard).source ⟨[], []⟩ l = .ok src := by
  have hpending : (make ⟨[], []⟩ (.ofRoot ⟨['/']⟩) openAndAlias none).toOption.map
      (·.entries.map (·.pending?)) = some [some openLocator, some aliasLocator] := by
    decide +kernel
  cases hplan : make ⟨[], []⟩ (.ofRoot ⟨['/']⟩) openAndAlias none with
  | error err =>
    rw [hplan] at hpending
    cases hpending
  | ok plan =>
    rw [hplan] at hpending
    obtain ⟨e, rest, hes, he, hrest⟩ := List.map_eq_cons_iff.mp (Option.some.inj hpending)
    obtain ⟨e', others, rfl, he', -⟩ := List.map_eq_cons_iff.mp hrest
    have hmem : e ∈ plan.entries := by simp [hes]
    have hmem' : e' ∈ plan.entries := by simp [hes]
    have hn : e.needsFetch = true := by simp [PlannedEntry.needsFetch, he]
    have hn' : e'.needsFetch = true := by simp [PlannedEntry.needsFetch, he']
    obtain ⟨l, hl, hdispatch⟩ := fetchable_dispatched hplan hmem hn
    obtain ⟨l', hl', hdispatch'⟩ := fetchable_dispatched hplan hmem' hn'
    obtain rfl : openLocator = l :=
      Option.some.inj ((PlannedEntry.locator?_of_pending? he).symm.trans hl)
    obtain rfl : aliasLocator = l' :=
      Option.some.inj ((PlannedEntry.locator?_of_pending? he').symm.trans hl')
    refine ⟨plan, e, e', rfl, ⟨hmem, hn⟩, ⟨hmem', hn'⟩,
      ⟨openLocator, hl, unpinned_openLocator, fun tr => ?_⟩,
      aliasLocator, hl', not_unpinned_aliasLocator, ?_⟩
    · exact ((hdispatch (.make none ⟨['/']⟩ .standard) rfl).2 tr (.ofFiles ⟨[], []⟩) rfl).1
        unpinned_openLocator
    · exact (hdispatch' (.make none ⟨['/']⟩ .standard) rfl).1.resolve_left not_unpinned_aliasLocator

end Plan

end OfflineCache
