import OfflineCache.Fetch.Basic
import OfflineCache.Proofs.FileTree.Prefix
import OfflineCache.Proofs.Locator.RoundTrip
import OfflineCache.Proofs.Plan.FirstOfEach

/-! What is lost when a record is merged with an earlier one of its identity. Identity has the decoded
reference and none of the binding parameters, while the place an artifact comes from depends on the
reference as it is spelt and on two of the parameters. Records of one identity that agree in these
points as well have one source (`merged_sameSource`); others need not, and then one of two artifacts
is dropped, or a sound lockfile refused (`merged_sources_differ`). -/

namespace OfflineCache

/-! ## Identities of read locators -/

namespace Locator

theorem ident_markOptional (d : Dialect) (l : Locator) : (d.markOptional l).ident = l.ident := by
  unfold Dialect.markOptional
  split
  · rfl
  · split
    · rfl
    · split
      · rfl
      · split <;> rfl

theorem leads_of_parseLocator {d : Dialect} {raw : String} {l : Locator}
    (h : d.parseLocator raw = .ok l) : l.ident.Leads := by
  unfold Dialect.parseLocator at h
  split at h
  · cases h
  · rename_i l' hl
    cases h
    rw [ident_markOptional]
    exact (parse_eq_ok_iff.mp hl).leads

/-- What is asked of a registry depends on the identity alone. -/
theorem registryTarget?_congr {a b : Locator} (hi : a.ident = b.ident)
    (h : a.identity = b.identity) : a.registryTarget? = b.registryTarget? := by
  simp only [identity, Identity.mk.injEq] at h
  obtain ⟨-, hp, hr, -⟩ := h
  have hd : Text.Percent.decode a.reference.toList = Text.Percent.decode b.reference.toList := by
    simpa [decodedReference] using congrArg String.toList hr
  simp only [registryTarget?, hi, hp, hd]

end Locator

/-! ## Artifact sources -/

/-- Why there is no address, whatever locator it was asked for. -/
def Fetch.Error.unsupported? : Fetch.Error → Option Fetch.Unsupported
  | .unsupported _ u => some u
  | _ => none

/-- The locators name one artifact: one address, one repository at one revision, or one place. -/
def SameSource (f : Fetcher) (t : FileTree) (a b : Locator) : Prop :=
  match a.protocol with
  | .registry => (f.tarballUrl a).mapError (·.unsupported?) =
      (f.tarballUrl b).mapError (·.unsupported?)
  | .http => a.reference = b.reference
  | .git => a.gitSource? = b.gitSource?
  | .file => Containment.target? t a f.root = Containment.target? t b f.root
  | _ => True

/-- The locators agree in what a source depends on and identity leaves out. -/
structure BoundAlike (a b : Locator) : Prop where
  archive : a.protocol = .registry → a.param? "__archiveUrl" = b.param? "__archiveUrl"
  spelling : a.protocol = .http ∨ a.protocol = .git →
    a.reference = b.reference ∨ '%' ∉ a.reference.toList ∧ '%' ∉ b.reference.toList
  base : a.protocol = .file → a.param? "locator" = b.param? "locator"

variable {a b : Locator}

theorem Fetcher.tarballUrl_congr (f : Fetcher)
    (ha : a.param? "__archiveUrl" = b.param? "__archiveUrl")
    (ht : a.registryTarget? = b.registryTarget?) :
    (f.tarballUrl a).mapError (·.unsupported?) = (f.tarballUrl b).mapError (·.unsupported?) := by
  unfold Fetcher.tarballUrl
  rw [ha, ht]
  cases b.param? "__archiveUrl" with
  | some url => rfl
  | none =>
    cases b.registryTarget? with
    | none => rfl
    | some target =>
      obtain ⟨ident, reference⟩ := target
      simp only
      cases Locator.exactVersion? reference with
      | none => rfl
      | some v => rfl

/-- References without escapes that are decoded alike are spelt alike. -/
theorem BoundAlike.reference (h : BoundAlike a b) (hid : a.identity = b.identity)
    (hp : a.protocol = .http ∨ a.protocol = .git) : a.reference = b.reference := by
  rcases h.spelling hp with he | ⟨ha, hb⟩
  · exact he
  · have hr : a.decodedReference = b.decodedReference := congrArg Locator.Identity.reference hid
    simpa [Locator.decodedReference, Text.Percent.decode_of_notMem ha,
      Text.Percent.decode_of_notMem hb] using hr

theorem Locator.gitSource?_congr (hp : a.protocol = b.protocol) (hr : a.reference = b.reference) :
    a.gitSource? = b.gitSource? := by
  simp only [gitSource?, hp, hr]

theorem Containment.target?_congr (t : FileTree) (root : Path) (hp : a.protocol = b.protocol)
    (hr : a.decodedReference = b.decodedReference) (hb : a.param? "locator" = b.param? "locator") :
    target? t a root = target? t b root := by
  simp only [target?, baseDirectory, hp, hr, hb]

theorem BoundAlike.sameSource (h : BoundAlike a b) (hi : a.ident = b.ident)
    (hid : a.identity = b.identity) (f : Fetcher) (t : FileTree) : SameSource f t a b := by
  have hp : a.protocol = b.protocol := congrArg Locator.Identity.protocol hid
  have hr : a.decodedReference = b.decodedReference := congrArg Locator.Identity.reference hid
  unfold SameSource
  split
  · rename_i hreg
    exact f.tarballUrl_congr (h.archive hreg) (Locator.registryTarget?_congr hi hid)
  · rename_i hhttp
    exact h.reference hid (Or.inl hhttp)
  · rename_i hgit
    exact Locator.gitSource?_congr hp (h.reference hid (Or.inr hgit))
  · rename_i hfile
    exact Containment.target?_congr t f.root hp hr (h.base hfile)
  · trivial

namespace Plan

variable {d : Dialect}

/-- The locator of a record is that of its text, with the checksum and the version of the record. -/
theorem exists_parseLocator {r : LockRecord} {l : Locator} (h : readRecord d r = .ok l) :
    ∃ first checksum, d.parseLocator r.locatorText = .ok first ∧
      l = (first.withChecksum checksum).withResolvedVersion r.version := by
  unfold readRecord at h
  cases hp : d.parseLocator r.locatorText with
  | error e =>
    rw [hp] at h
    cases h
  | ok first =>
    rw [hp] at h
    simp only [bind, Except.bind, pure, Except.pure] at h
    cases hc : r.checksum with
    | none =>
      simp only [hc, Except.ok.injEq] at h
      exact ⟨first, none, rfl, h.symm⟩
    | some c =>
      cases hs : d.parseChecksum c with
      | error e =>
        simp only [hc, hs] at h
        cases h
      | ok c' =>
        simp only [hc, hs, Except.ok.injEq] at h
        exact ⟨first, some c', rfl, h.symm⟩

theorem leads_of_readRecord {r : LockRecord} {l : Locator} (h : readRecord d r = .ok l) :
    l.ident.Leads := by
  obtain ⟨first, checksum, hp, rfl⟩ := exists_parseLocator h
  have hl := Locator.leads_of_parseLocator hp
  exact hl

/-- The verdict puts the record together with an earlier one, to drop it or to refuse both. -/
def Verdict.merges (v : Verdict) (l : Locator) : Prop := v = .duplicate l ∨ v = .conflict l

theorem Judged.merges {seen : List Locator} {r : LockRecord} {v : Verdict} {l : Locator}
    (h : Judged d seen r v) (hv : v.merges l) :
    readRecord d r = .ok l ∧ ∃ first ∈ seen, first.identity = l.identity := by
  rcases hv with rfl | rfl
  · cases h with
    | duplicate hr hm hi _ => exact ⟨hr, _, hm, hi⟩
  · cases h with
    | conflict hr hm hi _ => exact ⟨hr, _, hm, hi⟩

/-- A record is merged with one kept from the start or kept on the way before it. -/
theorem merged_with_earlier {rs : List LockRecord} {r : LockRecord} {v : Verdict} {l : Locator} :
    ∀ seen, (r, v) ∈ trace d seen rs → v.merges l →
      readRecord d r = .ok l ∧ ∃ first, first.identity = l.identity ∧
        (first ∈ seen ∨ ∃ r₀, readRecord d r₀ = .ok first ∧
          [(r₀, .fresh first), (r, v)].Sublist (trace d seen rs)) := by
  induction rs with
  | nil => exact fun seen hm => absurd hm (by simp [trace])
  | cons r' rest ih =>
    intro seen hm hv
    have hj := judged d seen r'
    rw [trace_cons] at hm ⊢
    rcases List.mem_cons.mp hm with he | hm
    · obtain ⟨rfl, rfl⟩ := Prod.mk.inj he
      obtain ⟨hr, first, hs, hi⟩ := hj.merges hv
      exact ⟨hr, first, hi, Or.inl hs⟩
    · obtain ⟨hr, first, hi, hf⟩ := ih _ hm hv
      refine ⟨hr, first, hi, ?_⟩
      rcases hf with hs | ⟨r₀, hr₀, hsub⟩
      · -- kept after the head: it was kept before, or the head is its record
        generalize judge d seen r' = v' at hj hs hm ⊢
        cases hj with
        | malformed => exact Or.inl hs
        | @fresh head hhead =>
          rcases List.mem_append.mp hs with hs | hs
          · exact Or.inl hs
          · obtain rfl : first = head := by simpa using hs
            exact Or.inr ⟨r', hhead, .cons_cons _ (List.singleton_sublist.mpr hm)⟩
        | duplicate => exact Or.inl hs
        | conflict => exact Or.inl hs
      · exact Or.inr ⟨r₀, hr₀, hsub.cons _⟩

/-- **Merged records.** A record that is dropped as a duplicate, or refused as a conflict, has the
identity of an earlier one that is kept; and the two have one source, for every registry and file
tree, if they are bound alike. -/
theorem merged_sameSource {rs : List LockRecord} {r : LockRecord} {v : Verdict} {l : Locator}
    (hm : (r, v) ∈ trace d [] rs) (hv : v.merges l) :
    ∃ r₀ first, readRecord d r₀ = .ok first ∧ readRecord d r = .ok l ∧
      [(r₀, .fresh first), (r, v)].Sublist (trace d [] rs) ∧ first.identity = l.identity ∧
        (BoundAlike first l → ∀ f t, SameSource f t first l) := by
  obtain ⟨hr, first, hi, hs | ⟨r₀, hr₀, hsub⟩⟩ := merged_with_earlier [] hm hv
  · simp at hs
  · have hident : first.ident = l.ident :=
      (leads_of_readRecord hr₀).eq_of_render (leads_of_readRecord hr)
        (congrArg Locator.Identity.name hi)
    exact ⟨r₀, first, hr₀, hr, hsub, hi, fun hb => hb.sameSource hident hi⟩

/-! ### Two records -/

theorem trace_pair {r₁ r₂ : LockRecord} {a b : Locator} (ha : readRecord d r₁ = .ok a)
    (hb : readRecord d r₂ = .ok b) (hi : a.identity = b.identity) :
    trace d [] [r₁, r₂] =
      [(r₁, .fresh a), (r₂, if a.checksum = b.checksum then .duplicate b else .conflict b)] := by
  have hfirst : judge d [] r₁ = .fresh a := by simp [judge, ha]
  have hsecond : judge d [a] r₂ =
      if a.checksum = b.checksum then .duplicate b else .conflict b := by
    simp [judge, hb, hi]
  rw [trace_cons, hfirst, trace_cons]
  simp [seenAfter, hsecond, trace]

theorem readRecord_of_toOption {r : LockRecord} {l : Locator}
    (h : (readRecord d r).toOption = some l) : readRecord d r = .ok l := by
  cases hr : readRecord d r with
  | error e => simp [hr, Except.toOption] at h
  | ok l' => simpa [hr, Except.toOption] using h

/-- A record with nothing but a locator. -/
def bareRecord (locator : String) : LockRecord := ⟨[locator], none, none, none, none⟩

def escapedVersion (reference : String) : Locator :=
  .simple ⟨none, "a"⟩ .registry reference.toList []

def projectFetcher : Fetcher := ⟨"https://r", ⟨['/', 'p']⟩, ⟨1, .ofMillis 0, .ofMillis 0⟩⟩

theorem merged_sameSource_escaped :
    (bareRecord "a@npm:1%2e0.0", Verdict.duplicate (escapedVersion "1%2e0.0")) ∈
        trace .four [] [bareRecord "a@npm:1.0.0", bareRecord "a@npm:1%2e0.0"] ∧
      (Verdict.duplicate (escapedVersion "1%2e0.0")).merges (escapedVersion "1%2e0.0") ∧
      BoundAlike (escapedVersion "1.0.0") (escapedVersion "1%2e0.0") ∧
      SameSource projectFetcher ⟨[], []⟩ (escapedVersion "1.0.0") (escapedVersion "1%2e0.0") := by
  have ha : readRecord .four (bareRecord "a@npm:1.0.0") = .ok (escapedVersion "1.0.0") :=
    readRecord_of_toOption (by decide +kernel)
  have hb : readRecord .four (bareRecord "a@npm:1%2e0.0") = .ok (escapedVersion "1%2e0.0") :=
    readRecord_of_toOption (by decide +kernel)
  have htrace := trace_pair ha hb (by decide +kernel)
  rw [if_pos (by decide +kernel)] at htrace
  have hm : (bareRecord "a@npm:1%2e0.0", Verdict.duplicate (escapedVersion "1%2e0.0")) ∈
      trace .four [] [bareRecord "a@npm:1.0.0", bareRecord "a@npm:1%2e0.0"] := by
    simp [htrace]
  have hbound : BoundAlike (escapedVersion "1.0.0") (escapedVersion "1%2e0.0") :=
    ⟨fun _ => rfl, (by rintro (h | h) <;> cases h), fun _ => rfl⟩
  obtain ⟨r₀, first, -, -, hsub, hi, hsame⟩ := merged_sameSource hm (Or.inl rfl)
  have hfirst : first = escapedVersion "1.0.0" := by
    have hmem := hsub.subset (List.mem_cons_self ..)
    simp only [htrace, List.mem_cons, Prod.mk.injEq, Verdict.fresh.injEq, reduceCtorEq, and_false,
      List.not_mem_nil, or_false] at hmem
    exact hmem.2
  subst hfirst
  exact ⟨hm, Or.inl rfl, hbound, hsame hbound _ _⟩

/-! ### Sources that differ -/

/-- An archive `x.tgz` that belongs to the named workspace. -/
def workspaceArchive (workspace : String) : Locator :=
  .simple ⟨none, "a"⟩ .file "x.tgz".toList [("locator", "w%40workspace%3A" ++ workspace)]

/-- A version that is bound to an archive at the named host, with a digest of one byte repeated. -/
def mirrored (host : String) (b : UInt8) : Locator :=
  (Locator.simple ⟨none, "a"⟩ .registry "1.0.0".toList
    [("__archiveUrl", "https%3A%2F%2F" ++ host)]).withChecksum
      (some ⟨.sha256, List.replicate 32 b⟩)

def mirrorRecord (host : String) (digit : Char) : LockRecord :=
  { bareRecord ("a@npm:1.0.0::__archiveUrl=https%3A%2F%2F" ++ host) with
    checksum := some (String.ofList (List.replicate 64 digit)) }

/-- Archives of one name in two workspaces. -/
def twoWorkspaces : List LockRecord :=
  [bareRecord "a@file:x.tgz::locator=w%40workspace%3Av",
    bareRecord "a@file:x.tgz::locator=w%40workspace%3Aw"]

/-- One version at two hosts. -/
def twoMirrors : List LockRecord := [mirrorRecord "x" '0', mirrorRecord "y" '1']

theorem trace_twoWorkspaces :
    ∃ r₁ r₂, trace .four [] twoWorkspaces =
      [(r₁, .fresh (workspaceArchive "v")), (r₂, .duplicate (workspaceArchive "w"))] := by
  have hv : readRecord .four (bareRecord "a@file:x.tgz::locator=w%40workspace%3Av") =
      .ok (workspaceArchive "v") := readRecord_of_toOption (by decide +kernel)
  have hw : readRecord .four (bareRecord "a@file:x.tgz::locator=w%40workspace%3Aw") =
      .ok (workspaceArchive "w") := readRecord_of_toOption (by decide +kernel)
  have htrace := trace_pair hv hw (by decide +kernel)
  rw [if_pos (by decide +kernel)] at htrace
  exact ⟨_, _, htrace⟩

theorem trace_twoMirrors :
    ∃ r₁ r₂, trace .four [] twoMirrors =
      [(r₁, .fresh (mirrored "x" 0)), (r₂, .conflict (mirrored "y" 17))] := by
  have hx : readRecord .four (mirrorRecord "x" '0') = .ok (mirrored "x" 0) :=
    readRecord_of_toOption (by decide +kernel)
  have hy : readRecord .four (mirrorRecord "y" '1') = .ok (mirrored "y" 17) :=
    readRecord_of_toOption (by decide +kernel)
  have htrace := trace_pair hx hy (by decide +kernel)
  rw [if_neg (by decide +kernel)] at htrace
  exact ⟨_, _, htrace⟩

/-- **One identity, two sources.** Of archives in two workspaces only one is planned for, and a
version at two hosts is refused as one with two checksums. -/
theorem merged_sources_differ :
    (∃ r₁ r₂ plan, trace .four [] twoWorkspaces =
        [(r₁, .fresh (workspaceArchive "v")), (r₂, .duplicate (workspaceArchive "w"))] ∧
      make ⟨[], []⟩ (.ofRoot projectFetcher.root) ⟨8, none, twoWorkspaces⟩ none = .ok plan ∧
      plan.entries.map (·.locator?) = [some (workspaceArchive "v")] ∧
      ¬ SameSource projectFetcher ⟨[], []⟩ (workspaceArchive "v") (workspaceArchive "w")) ∧
    ∃ r₁ r₂, trace .four [] twoMirrors =
        [(r₁, .fresh (mirrored "x" 0)), (r₂, .conflict (mirrored "y" 17))] ∧
      make ⟨[], []⟩ (.ofRoot projectFetcher.root) ⟨8, none, twoMirrors⟩ none =
        .error (.corrupted (mirrored "y" 17)) ∧
      ¬ SameSource projectFetcher ⟨[], []⟩ (mirrored "x" 0) (mirrored "y" 17) := by
  have hd : dialectOf ⟨8, none, twoWorkspaces⟩ none = .ok .four := rfl
  have hd' : dialectOf ⟨8, none, twoMirrors⟩ none = .ok .four := rfl
  obtain ⟨r₁, r₂, hw⟩ := trace_twoWorkspaces
  obtain ⟨s₁, s₂, hm⟩ := trace_twoMirrors
  refine ⟨⟨r₁, r₂, ⟨.four, [⟨r₁.locatorText, .located (workspaceArchive "v") (classify _ _ _)⟩]⟩, hw,
    make_eq_ok_iff.mpr ⟨hd, congrArg (entriesOf _ _) hw⟩, rfl, ?_⟩, s₁, s₂, hm, ?_, ?_⟩
  · show Containment.target? _ _ _ ≠ Containment.target? _ _ _
    decide +kernel
  · rw [make_of_dialectOf hd']
    show (entriesOf _ _ (trace .four [] twoMirrors)).map _ = _
    rw [hm]
    rfl
  · show Except.mapError _ _ ≠ Except.mapError _ _
    have he : ((projectFetcher.tarballUrl (mirrored "x" 0)).mapError (·.unsupported?)).toOption ≠
        ((projectFetcher.tarballUrl (mirrored "y" 17)).mapError (·.unsupported?)).toOption := by
      decide +kernel
    exact fun h => he (congrArg Except.toOption h)

end Plan

end OfflineCache
