import OfflineCache.Proofs.Locator.Names
import OfflineCache.Proofs.Plan.Collapsing
import OfflineCache.Proofs.Run.Pinned

/-! The components of a report. Each fetched entry has one, in the order of the entries, and it has
the name, the version and the declared checksum of the entry's locator. A package address is the
name, with the mark of a scope encoded, and behind an at sign the version as it is spelt. No name has
an at sign behind its first character, so the first one of an address ends the name; and only a name
with a scope has a slash, so an encoded mark is told from a name that is spelt like one. Thus
`Report.components_faithful`: addresses are equal exactly for equal names and versions. -/

namespace OfflineCache

open Text

/-! ## Package addresses -/

namespace Ident

variable {i j : Ident}

/-- A name without a scope has no mark and no slash; the slash of another one is behind its mark. -/
theorem Leads.cases (h : i.Leads) :
    ('@' ∉ i.render.toList ∧ '/' ∉ i.render.toList) ∨
      ∃ r, i.render.toList = '@' :: r ∧ '@' ∉ r ∧ '/' ∈ r := by
  have hp := h.parse
  have hat := h.noAt
  unfold parse? at hp
  split at hp
  · rename_i r hr
    obtain ⟨⟨scope, name⟩, hc, -⟩ := Option.bind_eq_some_iff.mp hp
    rw [hr] at hat
    refine Or.inr ⟨r, hr, hat, ?_⟩
    rw [(eq_append_of_cut hc).1]
    simp
  · split at hp
    · rename_i hname
      have hnone : ∀ c ∈ i.render.toList, isSeparator c = false := by
        simpa [isName] using (Bool.and_eq_true_iff.mp (Bool.and_eq_true_iff.mp
          (Bool.and_eq_true_iff.mp hname).1).1).2
      exact Or.inl ⟨fun hm => absurd (hnone _ hm) (by decide),
        fun hm => absurd (hnone _ hm) (by decide)⟩
    · cases hp

end Ident

namespace Component

variable {i j : Ident}

theorem addressName_of_scope {name : String} {r : List Char} (h : name.toList = '@' :: r) :
    (addressName name).toList = "%40".toList ++ r := by
  simp only [addressName, h, String.toList_append, String.toList_ofList]

theorem addressName_of_notMem {name : String} (h : '@' ∉ name.toList) :
    addressName name = name := by
  unfold addressName
  split
  · rename_i r hr
    exact absurd (by rw [hr]; exact List.mem_cons_self ..) h
  · rfl

theorem at_notMem_addressName (h : i.Leads) : '@' ∉ (addressName i.render).toList := by
  rcases h.cases with ⟨hat, -⟩ | ⟨r, hr, hat, -⟩
  · rwa [addressName_of_notMem hat]
  · rw [addressName_of_scope hr, List.mem_append, not_or]
    exact ⟨by decide, hat⟩

/-- A slash is the sign of a scope. -/
theorem addressName_inj (hi : i.Leads) (hj : j.Leads)
    (h : (addressName i.render).toList = (addressName j.render).toList) : i.render = j.render := by
  rcases hi.cases with ⟨hi, hslash⟩ | ⟨r, hr, -, hslash⟩ <;>
    rcases hj.cases with ⟨hj, hslash'⟩ | ⟨r', hr', -, hslash'⟩
  · rw [addressName_of_notMem hi, addressName_of_notMem hj] at h
    exact String.toList_injective h
  · rw [addressName_of_notMem hi, addressName_of_scope hr'] at h
    exact absurd (h ▸ List.mem_append_right _ hslash') hslash
  · rw [addressName_of_scope hr, addressName_of_notMem hj] at h
    exact absurd (h ▸ List.mem_append_right _ hslash) hslash'
  · rw [addressName_of_scope hr, addressName_of_scope hr', List.append_cancel_left_eq] at h
    exact String.toList_injective (by rw [hr, hr', h])

/-- The name as far as the first at sign, and the version behind it. -/
theorem toList_addressOf (name : String) (version : Option String) :
    (addressOf name version).toList = "pkg:npm/".toList ++ ((addressName name).toList ++
      version.elim [] ('@' :: ·.toList)) := by
  cases version with
  | none =>
    show ("pkg:npm/" ++ addressName name).toList = _
    simp
  | some v =>
    show ("pkg:npm/" ++ addressName name ++ "@" ++ v).toList = _
    simp

theorem addressOf_eq_iff (hi : i.Leads) (hj : j.Leads) {v w : Option String} :
    addressOf i.render v = addressOf j.render w ↔ i.render = j.render ∧ v = w := by
  refine ⟨fun h => ?_, fun ⟨hn, hv⟩ => by rw [hn, hv]⟩
  have hl := congrArg String.toList h
  rw [toList_addressOf, toList_addressOf, List.append_cancel_left_eq] at hl
  have hcut := congrArg (cut '@') hl
  have hin := at_notMem_addressName hi
  have hjn := at_notMem_addressName hj
  cases v with
  | none =>
    cases w with
    | none =>
      simp only [Option.elim_none, List.append_nil] at hl
      exact ⟨addressName_inj hi hj hl, rfl⟩
    | some w =>
      simp only [Option.elim_none, Option.elim_some, List.append_nil, cut_append hjn,
        cut_eq_none_iff.mpr hin] at hcut
      cases hcut
  | some v =>
    cases w with
    | none =>
      simp only [Option.elim_none, Option.elim_some, List.append_nil, cut_append hin,
        cut_eq_none_iff.mpr hjn] at hcut
      cases hcut
    | some w =>
      simp only [Option.elim_some, cut_append hin, cut_append hjn, Option.some_inj,
        Prod.mk.injEq] at hcut
      exact ⟨addressName_inj hi hj hcut.1, by rw [String.toList_injective hcut.2]⟩

end Component

/-! ## What a report is made from -/

/-- What came of a record: its locator, if it has one, and the outcome. -/
structure Resolution where
  raw : String
  locator : Option Locator
  outcome : Outcome

namespace Resolution

def entry (s : Resolution) : ReportEntry := .make s.raw s.locator s.outcome

def isFetched (s : Resolution) : Bool := s.outcome matches .fetched ..

/-- The locator was read from a text, whatever checksum and version a record has added to it; and
nothing is fetched without one. -/
structure Sound (s : Resolution) : Prop where
  read : ∀ l, s.locator = some l → l.ident.Occurs
  located : s.isFetched = true → ∃ l, s.locator = some l

end Resolution

def Report.ofResolutions (dialect : Nat) (cacheRoot : Path) (ss : List Resolution) : Report :=
  ⟨dialect, ss.map (·.entry), cacheRoot⟩

/-- The component has what the locator says. -/
def Component.Describes (c : Component) (s : Resolution) : Prop :=
  ∃ l, s.locator = some l ∧ c = ⟨l.ident.render, l.version?,
    Component.addressOf l.ident.render l.version?, l.checksum.map (·.render)⟩

namespace Resolution

variable {s : Resolution}

theorem make?_of_isFetched (h : s.Sound) (hf : s.isFetched = true) :
    ∃ c, Component.make? s.entry = some c ∧ c.Describes s := by
  obtain ⟨l, hl⟩ := h.located hf
  obtain ⟨raw, locator, outcome⟩ := s
  obtain rfl : locator = some l := hl
  cases outcome with
  | fetched path digest => exact ⟨_, rfl, l, rfl, rfl⟩
  | _ => cases hf

theorem make?_of_not_isFetched (hf : s.isFetched = false) : Component.make? s.entry = none := by
  obtain ⟨raw, locator, outcome⟩ := s
  cases outcome with
  | fetched path digest => cases hf
  | _ => rfl

theorem forall₂_components {ss : List Resolution} (h : ∀ s ∈ ss, s.Sound) :
    List.Forall₂ (fun s c => c.Describes s) (ss.filter (·.isFetched))
      ((ss.map (·.entry)).filterMap Component.make?) := by
  induction ss with
  | nil => exact .nil
  | cons s ss ih =>
    have hrest := ih fun s' hs => h s' (List.mem_cons_of_mem s hs)
    rw [List.map_cons, List.filterMap_cons]
    cases hf : s.isFetched with
    | true =>
      obtain ⟨c, hc, hdescribes⟩ := make?_of_isFetched (h s (by simp)) hf
      rw [List.filter_cons_of_pos hf, hc]
      exact .cons hdescribes hrest
    | false =>
      rw [List.filter_cons_of_neg (by simp [hf]), make?_of_not_isFetched hf]
      exact hrest

theorem exists_describes {ss : List Resolution} (h : ∀ s ∈ ss, s.Sound) {c : Component}
    (hc : c ∈ (ss.map (·.entry)).filterMap Component.make?) : ∃ s ∈ ss, c.Describes s := by
  obtain ⟨e, he, hmake⟩ := List.mem_filterMap.mp hc
  obtain ⟨s, hs, rfl⟩ := List.mem_map.mp he
  cases hf : s.isFetched with
  | true =>
    obtain ⟨c', hc', hdescribes⟩ := make?_of_isFetched (h s hs) hf
    obtain rfl := Option.some.inj (hc'.symm.trans hmake)
    exact ⟨s, hs, hdescribes⟩
  | false =>
    rw [make?_of_not_isFetched hf] at hmake
    cases hmake

end Resolution

/-! ## The report of a run -/

theorem Locator.occurs_of_parseLocator {d : Dialect} {raw : String} {l : Locator}
    (h : d.parseLocator raw = .ok l) : l.ident.Occurs := by
  unfold Dialect.parseLocator at h
  split at h
  · cases h
  · rename_i l' hl
    cases h
    exact ⟨_, l', hl, (ident_markOptional d l').symm⟩

theorem Plan.occurs_of_readRecord {d : Dialect} {r : LockRecord} {l : Locator}
    (h : readRecord d r = .ok l) : l.ident.Occurs := by
  obtain ⟨first, checksum, hp, rfl⟩ := exists_parseLocator h
  have hl : first.ident.Occurs := Locator.occurs_of_parseLocator hp
  exact hl

def Slot.resolution (s : Slot) : Resolution := ⟨s.entry.raw, s.entry.locator?, s.outcome⟩

/-- What a run reports on comes of the records of a lockfile. -/
theorem Slot.sound_resolution {t : FileTree} {p : Policy} {f : Lockfile} {declared : Option Nat}
    {plan : Plan} (h : Plan.make t p f declared = .ok plan) {place : Workplace} {w : World}
    {schedule : List Move} {s : Slot}
    (hs : s ∈ ((Run.start w plan).follow place schedule).slots) : s.resolution.Sound := by
  obtain ⟨i, hi⟩ := List.getElem?_of_mem hs
  have he : s.entry ∈ plan.entries := by
    rw [← Run.entries_follow place w plan schedule]
    exact List.mem_map_of_mem hs
  constructor
  · intro l hl
    obtain ⟨r, -, -, hread⟩ := Plan.record_of_make h he hl
    exact Plan.occurs_of_readRecord hread
  · intro hf
    obtain ⟨path, digest, ho⟩ : ∃ path digest, s.outcome = .fetched path digest := by
      unfold Resolution.isFetched at hf
      split at hf
      · rename_i path digest ho
        exact ⟨path, digest, ho⟩
      · cases hf
    obtain ⟨l, ht⟩ := Run.outcome_eq_fetched_iff.mp ho
    exact ⟨l, PlannedEntry.locator?_of_pending? (Run.entry_of_task hi ht).2⟩

/-- The report of a run is one of what came of the records, wherever the run stands. -/
theorem Run.report_of_make {t : FileTree} {p : Policy} {f : Lockfile} {declared : Option Nat}
    {plan : Plan} (h : Plan.make t p f declared = .ok plan) (place : Workplace) (w : World)
    (schedule : List Move) (dialect : Nat) (cacheRoot : Path) :
    ∃ ss : List Resolution, (∀ s ∈ ss, s.Sound) ∧
      report dialect cacheRoot ((start w plan).follow place schedule).slots =
        .ofResolutions dialect cacheRoot ss := by
  refine ⟨((start w plan).follow place schedule).slots.map (·.resolution), ?_, ?_⟩
  · intro s hs
    obtain ⟨slot, hslot, rfl⟩ := List.mem_map.mp hs
    exact Slot.sound_resolution h hslot
  · simp only [report, Report.ofResolutions, List.map_map]
    rfl

/-- **Components are faithful and unambiguous.** They correspond one to one and in order to what was
fetched, with the name, version and declared checksum of the locator. Two components, of one report
or of two, have one address exactly if they have one name and one version, or no version at all. -/
theorem Report.components_faithful {dialect dialect' : Nat} {root root' : Path}
    {ss ss' : List Resolution} (h : ∀ s ∈ ss, s.Sound) (h' : ∀ s ∈ ss', s.Sound) :
    List.Forall₂ (fun s c => c.Describes s) (ss.filter (·.isFetched))
      (Report.ofResolutions dialect root ss).components ∧
    ∀ c ∈ (Report.ofResolutions dialect root ss).components,
      ∀ c' ∈ (Report.ofResolutions dialect' root' ss').components,
        c.address = c'.address ↔ c.name = c'.name ∧ c.version = c'.version := by
  refine ⟨Resolution.forall₂_components h, fun c hc c' hc' => ?_⟩
  obtain ⟨s, hs, l, hl, rfl⟩ := Resolution.exists_describes h hc
  obtain ⟨s', hs', l', hl', rfl⟩ := Resolution.exists_describes h' hc'
  exact Component.addressOf_eq_iff ((h s hs).read l hl).leads ((h' s' hs').read l' hl').leads

/-- A package of a scope, and one without that has the encoded scope for its name and the rest in its
version. -/
def lookalikes : List Resolution :=
  [⟨"@s/a@npm:1.0.0", some (.simple ⟨some "s", "a"⟩ .registry ['1', '.', '0', '.', '0'] []),
      .fetched ⟨['/', 'x']⟩ "d"⟩,
    ⟨"%40s@file:./a", some { Locator.simple ⟨none, "%40s"⟩ .file ['.', '/', 'a'] [] with
      resolvedVersion := some "/a@1.0.0" }, .fetched ⟨['/', 'y']⟩ "d"⟩]

theorem sound_lookalikes : ∀ s ∈ lookalikes, s.Sound := by
  have hscoped : Ident.Occurs ⟨some "s", "a"⟩ :=
    Ident.occurs_iff.mpr ⟨⟨by decide +kernel, by decide +kernel⟩, by decide +kernel⟩
  have hencoded : Ident.Occurs ⟨none, "%40s"⟩ :=
    Ident.occurs_iff.mpr ⟨⟨by decide +kernel, by decide +kernel⟩, by decide +kernel⟩
  intro s hs
  rcases List.mem_cons.mp hs with rfl | hs
  · exact ⟨fun l hl => by cases hl; exact hscoped, fun _ => ⟨_, rfl⟩⟩
  · obtain rfl := List.mem_singleton.mp hs
    exact ⟨fun l hl => by cases hl; exact hencoded, fun _ => ⟨_, rfl⟩⟩

theorem Report.components_faithful_lookalikes :
    (∀ s ∈ lookalikes, s.Sound) ∧
      (Report.ofResolutions 4 ⟨['/']⟩ lookalikes).components.map (·.address) =
        ["pkg:npm/%40s/a@1.0.0", "pkg:npm/%40s@/a@1.0.0"] ∧
      ∀ c ∈ (Report.ofResolutions 4 ⟨['/']⟩ lookalikes).components,
        ∀ c' ∈ (Report.ofResolutions 4 ⟨['/']⟩ lookalikes).components,
          c.address = c'.address ↔ c.name = c'.name ∧ c.version = c'.version :=
  ⟨sound_lookalikes, by decide +kernel,
    (Report.components_faithful sound_lookalikes sound_lookalikes).2⟩

end OfflineCache
