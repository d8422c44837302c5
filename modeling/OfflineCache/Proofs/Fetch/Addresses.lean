import OfflineCache.Fetch.Basic
import OfflineCache.Proofs.Dialect.Meaning
import OfflineCache.Proofs.Version.Exact

/-! Addresses of pinned packages. A locator with an exact version, or with another package's name in
front of one, is read by every dialect, asks the registry for that package and version, and has an
address that no other package or version has (`pinned_addressed`): the name and the version stand
behind the last slash, and the whole name before it once more. -/

namespace OfflineCache

open Text

/-! ## Addresses -/

theorem Ident.slash_notMem_name {s : List Char} {i : Ident} (h : parse? s = some i) :
    '/' ∉ i.name.toList := by
  have hname : ∀ name, isName name = true → '/' ∉ name := by
    intro name hn hm
    simp only [isName, Bool.and_eq_true, Bool.not_eq_true', List.any_eq_false] at hn
    exact hn.1.1.2 '/' hm (by decide)
  unfold parse? at h
  split at h
  · obtain ⟨⟨scope, name⟩, -, h⟩ := Option.bind_eq_some_iff.mp h
    simp only at h
    split at h
    · rename_i hn
      cases h
      simpa using hname name hn.2
    · simp at h
  · split at h
    · rename_i hn
      cases h
      simpa using hname s hn
    · simp at h

namespace Fetcher

/-- The address of a version of a package. -/
def address (f : Fetcher) (target : Ident) (v : Version) : String :=
  f.registry ++ "/" ++ target.render ++ "/-/" ++ target.name ++ "-" ++ String.ofList v.render ++
    ".tgz"

theorem toList_address (f : Fetcher) (target : Ident) (v : Version) :
    (f.address target v).toList = (f.registry.toList ++ '/' :: (target.render.toList ++ "/-".toList)) ++
      '/' :: (target.name.toList ++ '-' :: v.render ++ ".tgz".toList) := by
  simp [address]

/-- The last slash stands in front of the target's own name and the version. -/
theorem address_injective {f : Fetcher} {i j : Ident} {v w : Version} (hi : i.Leads) (hj : j.Leads)
    (hv : v.Valid) (hw : w.Valid) (h : f.address i v = f.address j w) : i = j ∧ v = w := by
  have hfile : ∀ (k : Ident) (u : Version), k.Leads → u.Valid →
      '/' ∉ k.name.toList ++ '-' :: u.render ++ ".tgz".toList := by
    intro k u hk hu
    have hrender : '/' ∉ u.render := hu.notMem (by decide)
    simp [Ident.slash_notMem_name hk.parse, hrender]
  have hlist := congrArg String.toList h
  rw [toList_address, toList_address] at hlist
  have hcut := cutLast_append (a := f.registry.toList ++ '/' :: (i.render.toList ++ "/-".toList))
    (hfile i v hi hv)
  rw [hlist, cutLast_append (hfile j w hj hw)] at hcut
  obtain ⟨hfront, hback⟩ := Prod.mk.inj (Option.some.inj hcut)
  have hname : i.render.toList = j.render.toList := by simpa [eq_comm] using hfront
  obtain rfl : i = j := hi.eq_of_render hj (String.toList_inj.mp hname)
  have hversion : v.render = w.render := by simpa [eq_comm] using hback
  refine ⟨rfl, ?_⟩
  have hparse := Version.parse?_render hv
  rw [hversion, Version.parse?_render hw] at hparse
  exact (Option.some.inj hparse).symm

end Fetcher

/-! ## Pins -/

/-- A package with an exact version, its own or that of the package it is an alias of. -/
structure Pin where
  ident : Ident
  original : Option Ident
  version : Version

namespace Pin

def target (p : Pin) : Ident := p.original.getD p.ident

/-- What stands in front of the version. -/
def front (p : Pin) : String :=
  match p.original with
  | none => ""
  | some t => t.render ++ "@"

def reference (p : Pin) : String := p.front ++ String.ofList p.version.render

def text (p : Pin) : String := p.ident.render ++ "@npm:" ++ p.reference

def locator (p : Pin) : Locator := .simple p.ident .registry p.reference.toList []

/-- The locator with what its record adds to it. -/
def recorded (p : Pin) (checksum : Option Checksum) (resolved : Option String) : Locator :=
  { p.locator with checksum := checksum, resolvedVersion := resolved }

/-- The names are such as locators have; that of an original moreover has no character that its
place inside a reference would give a meaning of its own. -/
structure Sound (p : Pin) : Prop where
  ident : p.ident.Occurs
  original : ∀ t, p.original = some t → t.Occurs ∧ '%' ∉ t.render.toList ∧ ':' ∉ t.render.toList
  version : p.version.Valid

variable {p : Pin}

theorem Sound.leads_target (h : p.Sound) : p.target.Leads := by
  unfold target
  cases ho : p.original with
  | none => exact h.ident.leads
  | some t => exact (h.original t ho).1.leads

theorem toList_reference (p : Pin) :
    p.reference.toList = p.front.toList ++ p.version.render := by
  simp [reference]

theorem Sound.notMem_reference (h : p.Sound) {c : Char} (hc : c = '%' ∨ c = ':') :
    c ∉ p.reference.toList := by
  have hversion : c ∉ p.version.render := h.version.notMem (by rcases hc with rfl | rfl <;> decide)
  have hfront : c ∉ p.front.toList := by
    unfold front
    cases ho : p.original with
    | none => simp
    | some t =>
      obtain ⟨-, hpercent, hcolon⟩ := h.original t ho
      rcases hc with rfl | rfl
      · simp [hpercent]
      · simp [hcolon]
  rw [toList_reference]
  simp [hversion, hfront]

theorem Sound.decode_reference (h : p.Sound) :
    Percent.decode p.reference.toList = p.reference.toList :=
  Percent.decode_of_notMem (h.notMem_reference (Or.inl rfl))

/-- A reference is cut behind the original's name, if there is one. -/
theorem Sound.splitIdent_reference (h : p.Sound) :
    Locator.splitIdent p.reference.toList =
      p.original.map fun t => (t.render.toList, p.version.render) := by
  have hat : '@' ∉ p.version.render := h.version.notMem (by decide)
  rw [toList_reference, front]
  cases ho : p.original with
  | none => simp [Locator.splitIdent_eq_none hat]
  | some t =>
    have ht := (h.original t ho).1.leads
    exact Locator.splitIdent_eq_some_iff.mpr ⟨by simp, ht.render_ne_nil, ht.noAt⟩

theorem Sound.checkRegistry (h : p.Sound) : Locator.checkRegistry p.reference.toList = .ok () := by
  have hrange := Version.Range.isRange_render h.version
  simp only [Locator.checkRegistry, h.decode_reference, h.splitIdent_reference]
  cases ho : p.original with
  | none =>
    have hreference : p.reference.toList = p.version.render := by
      rw [toList_reference, front, ho]
      rfl
    simp only [Option.map_none, hreference, hrange]
  | some t =>
    have ht := (h.original t ho).1.leads
    simp only [Option.map_some, if_neg ht.render_ne_nil, ht.parse, Option.isNone_some,
      Bool.false_eq_true, if_false, hrange]

theorem Sound.shape_text (h : p.Sound) : Locator.shape p.text.toList = .ok (.whole p.locator) := by
  have hne : p.reference.toList ≠ [] := by
    simp [toList_reference, Version.render_ne_nil]
  have hlast : ∀ c, ("npm".toList ++ ':' :: p.reference.toList).getLast? = some c →
      isBlank c = false := by
    intro c hc
    rw [toList_reference, ← List.cons_append, ← List.append_assoc,
      List.getLast?_append_of_ne_nil _ (Version.render_ne_nil _)] at hc
    exact Version.not_isBlank_of_isVersionChar (h.version.chars c (List.mem_of_getLast? hc))
  have hform : Locator.Form p.ident ("npm".toList ++ ':' :: p.reference.toList)
      (.whole p.locator) :=
    .plain_tag (p := .registry) (by simp)
      (Locator.splitParams_of_notMem (h.notMem_reference (Or.inr rfl))) hne fun _ => h.checkRegistry
  rw [← Locator.shape_of_form h.ident (by simp) hlast hform]
  simp [text]

variable (checksum : Option Checksum) (resolved : Option String)

theorem Sound.registryTarget? (h : p.Sound) :
    (p.recorded checksum resolved).registryTarget? =
      some (p.target, String.ofList p.version.render) := by
  have hreference : (p.recorded checksum resolved).reference.toList = p.reference.toList := by
    simp [recorded, locator, Locator.simple]
  have hprotocol : ¬(p.recorded checksum resolved).protocol ≠ .registry := not_not.mpr rfl
  simp only [Locator.registryTarget?, if_neg hprotocol, hreference, h.decode_reference,
    h.splitIdent_reference]
  cases ho : p.original with
  | none =>
    simp [toList_reference, front, target, ho, recorded, locator, Locator.simple]
  | some t =>
    have ht := (h.original t ho).1.leads
    simp [ht.render_ne_nil, ht.parse, target, ho]

theorem Sound.exactVersion? (h : p.Sound) :
    Locator.exactVersion? (String.ofList p.version.render) = some p.version := by
  rw [Locator.exactVersion?, String.toList_ofList, Version.Range.pinned?_render h.version]

theorem Sound.version? (h : p.Sound) :
    (p.recorded checksum resolved).version? = some (String.ofList p.version.render) := by
  have hpinned : (p.recorded checksum resolved).pinnedVersion? =
      some (String.ofList p.version.render) := by
    rw [Locator.pinnedVersion?, h.registryTarget?, Option.bind_some, h.exactVersion?,
      Option.map_some]
  show ((p.recorded checksum resolved).pinnedVersion?).or resolved = _
  rw [hpinned, Option.some_or]

theorem Sound.tarballUrl (h : p.Sound) (f : Fetcher) :
    f.tarballUrl (p.recorded checksum resolved) = .ok (f.address p.target p.version) := by
  have hparam : (p.recorded checksum resolved).param? "__archiveUrl" = none := rfl
  simp only [Fetcher.tarballUrl, hparam, h.registryTarget?, h.exactVersion?]
  rfl

end Pin

/-- **Every pinned package is reachable under an address of its own.**  Its locator is read by the
grammar and in each dialect, asks for that package and version whatever the record says of a version
and a checksum, and shares its address with the pins of the same package and version alone. -/
theorem pinned_addressed {p : Pin} (h : p.Sound) :
    Locator.parse p.text = .ok p.locator ∧
      (∀ d ∈ Dialect.supported, d.parseLocator p.text = .ok p.locator) ∧
      (∀ checksum resolved,
        (p.recorded checksum resolved).registryTarget? =
          some (p.target, String.ofList p.version.render) ∧
        (p.recorded checksum resolved).version? = some (String.ofList p.version.render) ∧
        ∀ f : Fetcher, f.tarballUrl (p.recorded checksum resolved) =
          .ok (f.registry ++ "/" ++ p.target.render ++ "/-/" ++ p.target.name ++ "-" ++
            String.ofList p.version.render ++ ".tgz")) ∧
      ∀ q : Pin, q.Sound → ∀ (f : Fetcher) (checksum checksum' : Option Checksum)
        (resolved resolved' : Option String),
        f.tarballUrl (p.recorded checksum resolved) = f.tarballUrl (q.recorded checksum' resolved') ↔
          p.target = q.target ∧ p.version = q.version := by
  refine ⟨Locator.parse_of_shape h.shape_text, fun d _ => Dialect.parseLocator_of_shape h.shape_text,
    fun checksum resolved => ⟨h.registryTarget? checksum resolved, h.version? checksum resolved,
      h.tarballUrl checksum resolved⟩, ?_⟩
  intro q hq f checksum checksum' resolved resolved'
  rw [h.tarballUrl, hq.tarballUrl]
  constructor
  · intro he
    exact Fetcher.address_injective h.leads_target hq.leads_target h.version hq.version
      (Except.ok.inj he)
  · rintro ⟨ht, hv⟩
    rw [ht, hv]

def prerelease : Version := ⟨1, 2, 3, "rc.1".toList, "b-2".toList⟩

theorem valid_prerelease : prerelease.Valid := by
  have hread : Version.parse? "1.2.3-rc.1+b-2".toList = some prerelease := by decide
  exact (Version.parse?_eq_some_iff.mp hread).1

/-- A scoped package, and the same version of it under another name. -/
def scopedPin : Pin := ⟨⟨some "s", "t-1"⟩, none, prerelease⟩

def aliasPin : Pin := ⟨⟨none, "x"⟩, some ⟨some "s", "t-1"⟩, prerelease⟩

theorem sound_scopedPin : scopedPin.Sound where
  ident := Ident.occurs_iff.mpr ⟨⟨by decide, by decide⟩, by decide⟩
  original := nofun
  version := valid_prerelease

theorem sound_aliasPin : aliasPin.Sound where
  ident := Ident.occurs_iff.mpr ⟨⟨by decide, by decide⟩, by decide⟩
  original := by
    rintro t ⟨⟩
    exact ⟨sound_scopedPin.ident, by decide, by decide⟩
  version := valid_prerelease

theorem pinned_addressed_alias :
    aliasPin.Sound ∧ aliasPin.text = "x@npm:@s/t-1@1.2.3-rc.1+b-2" ∧
      Dialect.three.parseLocator aliasPin.text = .ok aliasPin.locator ∧
      (∀ checksum resolved,
        (aliasPin.recorded checksum resolved).version? = some "1.2.3-rc.1+b-2" ∧
        ∀ f : Fetcher, f.registry = "r" →
          f.tarballUrl (aliasPin.recorded checksum resolved) =
            .ok "r/@s/t-1/-/t-1-1.2.3-rc.1+b-2.tgz") ∧
      scopedPin.Sound ∧ ∀ f : Fetcher, f.tarballUrl (aliasPin.recorded none none) =
        f.tarballUrl (scopedPin.recorded none none) := by
  obtain ⟨-, hdialects, hrecorded, haddress⟩ := pinned_addressed sound_aliasPin
  refine ⟨sound_aliasPin, by decide, hdialects _ (by simp [Dialect.supported]),
    fun checksum resolved => ?_, sound_scopedPin,
    fun f => (haddress _ sound_scopedPin f _ _ _ _).mpr ⟨rfl, rfl⟩⟩
  obtain ⟨-, hversion, hurl⟩ := hrecorded checksum resolved
  have htext : String.ofList aliasPin.version.render = "1.2.3-rc.1+b-2" := by decide
  refine ⟨htext ▸ hversion, fun f hf => ?_⟩
  rw [hurl f, hf, htext]
  decide

end OfflineCache
