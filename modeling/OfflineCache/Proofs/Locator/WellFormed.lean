import OfflineCache.Locator.Source
import OfflineCache.Proofs.Locator.RoundTrip

/-! What every locator that can be read is like, and the base of its patch, and the base of that.
Printing, cache paths, addresses and the guard rely on it without asking again. `WellFormed` has all
of it; `wellFormed_of_parse` says that the grammar accepts nothing else. -/

namespace OfflineCache

open Text

/-! ## Names -/

namespace Ident

/-- The name is one path segment, and a locator is not cut inside it. -/
structure WellFormed (i : Ident) : Prop where
  nonempty : i.name ≠ ""
  notRelative : i.name ≠ "." ∧ i.name ≠ ".."
  name : ∀ c ∈ ['/', '\\', '@', ':', '#'], c ∉ i.name.toList
  scope : ∀ scope, i.scope = some scope → scope ≠ "" ∧ '/' ∉ scope.toList ∧ '@' ∉ scope.toList

theorem wellFormed_of_isName {scope : Option String} {name : List Char} (h : isName name = true)
    (hscope : ∀ s, scope = some s → s ≠ "" ∧ '/' ∉ s.toList ∧ '@' ∉ s.toList) :
    (Ident.mk scope (String.ofList name)).WellFormed := by
  have hname : ((name ≠ [] ∧ ∀ c ∈ name, isSeparator c = false) ∧ name ≠ ['.']) ∧
      name ≠ ['.', '.'] := by simpa [isName] using h
  obtain ⟨⟨⟨hne, hsep⟩, hdot⟩, hdots⟩ := hname
  refine ⟨?_, ⟨?_, ?_⟩, ?_, hscope⟩
  · simpa [← String.toList_inj] using hne
  · simpa [← String.toList_inj] using hdot
  · simpa [← String.toList_inj] using hdots
  · intro c hc hmem
    rw [String.toList_ofList] at hmem
    have hnot := hsep c hmem
    simp only [List.mem_cons, List.not_mem_nil, or_false] at hc
    rcases hc with rfl | rfl | rfl | rfl | rfl <;> cases hnot

theorem Leads.wellFormed {i : Ident} (h : i.Leads) : i.WellFormed := by
  have hparse := h.parse
  have hat := h.noAt
  generalize i.render.toList = text at hparse hat
  unfold parse? at hparse
  split at hparse
  · rename_i rest
    obtain ⟨⟨scope, name⟩, hc, hparse⟩ := Option.bind_eq_some_iff.mp hparse
    obtain ⟨hrest, hslash⟩ := eq_append_of_cut hc
    simp only at hparse
    split at hparse
    · rename_i hvalid
      cases hparse
      refine wellFormed_of_isName hvalid.2 ?_
      rintro s ⟨⟩
      rw [List.tail_cons, hrest] at hat
      refine ⟨?_, ?_, ?_⟩
      · simpa [← String.toList_inj] using hvalid.1
      · simpa using hslash
      · rw [String.toList_ofList]
        exact fun hmem => hat (List.mem_append_left _ hmem)
    · cases hparse
  · split at hparse
    · rename_i hname
      cases hparse
      exact wellFormed_of_isName hname nofun
    · cases hparse

end Ident

namespace Locator

/-! ## Binding parameters -/

/-- A parameter as it can stand between others. -/
structure Separable (parameter : String × String) : Prop where
  nonempty : parameter.1 ≠ ""
  key : '=' ∉ parameter.1.toList ∧ '&' ∉ parameter.1.toList
  value : '&' ∉ parameter.2.toList

theorem separable_of_parameter {pair : List Char} {kv : String × String}
    (h : parameter pair = .ok kv) (hpair : '&' ∉ pair) : Separable kv := by
  unfold parameter at h
  split at h
  · cases h
  · cases h
  · rename_i key value hkey hc
    cases h
    obtain ⟨rfl, heq⟩ := eq_append_of_cut hc
    simp only [List.mem_append, List.mem_cons, not_or] at hpair
    refine ⟨?_, ⟨?_, ?_⟩, ?_⟩
    · intro hempty
      exact hkey (by simpa [← String.toList_inj] using hempty)
    · rwa [String.toList_ofList]
    · rw [String.toList_ofList]
      exact hpair.1
    · rw [String.toList_ofList]
      exact hpair.2.2

theorem separable_of_mapM_parameter {pairs : List (List Char)} {params : List (String × String)}
    (h : pairs.mapM parameter = .ok params) (hpairs : ∀ pair ∈ pairs, '&' ∉ pair) :
    ∀ kv ∈ params, Separable kv := by
  induction pairs generalizing params with
  | nil =>
    cases h
    simp
  | cons pair rest ih =>
    obtain ⟨hpair, hrest⟩ := List.forall_mem_cons.mp hpairs
    obtain ⟨kv, kvs, hp, hr, rfl⟩ := of_mapM_parameter_cons h
    exact List.forall_mem_cons.mpr ⟨separable_of_parameter hp hpair, ih hr hrest⟩

theorem parts_of_splitParams {payload body : List Char} {params : List (String × String)}
    (h : splitParams payload = .ok (body, params)) :
    ¬ "::".toList <:+: body ∧ ∀ kv ∈ params, Separable kv := by
  rcases of_splitParams h with ⟨hc, rfl, rfl⟩ | ⟨text, hc, hm⟩
  · exact ⟨not_infix_of_cutText_eq_none hc, by simp⟩
  · exact ⟨not_infix_of_cutText (by decide) hc,
      separable_of_mapM_parameter hm fun _ => notMem_of_mem_splitAll⟩

/-! ## Registry references -/

/-- What stands behind the name that the registry is asked for is a range. -/
theorem exists_registryTarget? {l : Locator} (hp : l.protocol = .registry)
    (h : checkRegistry l.reference.toList = .ok ()) :
    ∃ ident range, l.registryTarget? = some (ident, String.ofList range) ∧
      Version.Range.isRange range = .ok true := by
  simp only [checkRegistry] at h
  split at h
  · rename_i name range hs
    split at h
    · rename_i hname
      refine ⟨l.ident, Percent.decode l.reference.toList,
        by simp [registryTarget?, hp, hs, hname], ?_⟩
      split at h
      · cases h
      · assumption
      · cases h
    · rename_i hname
      split at h
      · cases h
      · rename_i hsome
        obtain ⟨ident, hi⟩ := Option.ne_none_iff_exists'.mp (by simpa using hsome)
        refine ⟨ident, range, by simp [registryTarget?, hp, hs, hname, hi], ?_⟩
        split at h
        · cases h
        · assumption
        · cases h
  · rename_i hs
    refine ⟨l.ident, Percent.decode l.reference.toList, by simp [registryTarget?, hp, hs], ?_⟩
    split at h
    · cases h
    · assumption
    · cases h

/-! ## Locators -/

/-- What holds of a locator that was read, whatever its text. -/
structure WellFormed (l : Locator) : Prop where
  ident : l.ident.WellFormed
  known : ∀ name, l.protocol ≠ .other name
  reference : l.reference ≠ ""
  patch : l.patch.isSome ↔ l.protocol = .patch
  subdirectory : ∀ sub, l.subdirectory = some sub → sub ≠ "" ∧ l.protocol = .file
  address : l.protocol = .git ∨ l.protocol = .http → l.params = []
  params : ∀ kv ∈ l.params, Separable kv
  separator : l.protocol ≠ .git → l.protocol ≠ .http → ¬ "::".toList <:+: l.reference.toList ∧
    ∀ sub, l.subdirectory = some sub → ¬ "::".toList <:+: sub.toList
  target : l.protocol = .registry → ∃ ident range,
    l.registryTarget? = some (ident, String.ofList range) ∧ Version.Range.isRange range = .ok true

/-- The locator of a shape, with the target that a patch has in the end. -/
def Shape.locator (target : PatchTarget Locator) : Shape → Locator
  | .whole l => l
  | .patched ident body params _ _ =>
    { simple ident .patch body params with patch := some target }

section Forms

variable {ident : Ident} {reference body : List Char} {params : List (String × String)}
  {p : Protocol}

theorem ofList_ne_empty {s : List Char} (h : s ≠ []) : String.ofList s ≠ "" := by
  simpa [← String.toList_inj] using h

/-- An address is kept whole. -/
theorem wellFormed_simple_address (hi : ident.WellFormed) (hr : reference ≠ [])
    (hp : p = .git ∨ p = .http) : (simple ident p reference []).WellFormed where
  ident := hi
  known := by rcases hp with rfl | rfl <;> simp [simple]
  reference := ofList_ne_empty hr
  patch := by rcases hp with rfl | rfl <;> simp [simple]
  subdirectory := by simp [simple]
  address _ := rfl
  params := by simp [simple]
  separator hgit hhttp := (hp.elim hgit hhttp).elim
  target := by rcases hp with rfl | rfl <;> simp [simple]

/-- Elsewhere the reference ends in front of the parameters. -/
theorem wellFormed_simple (hi : ident.WellFormed)
    (hp : p ∈ [.registry, .link, .workspace, .exec, .file]) (hb : body ≠ [])
    (hseparator : ¬ "::".toList <:+: body) (hparams : ∀ kv ∈ params, Separable kv)
    (hr : p = .registry → checkRegistry body = .ok ()) :
    (simple ident p body params).WellFormed where
  ident := hi
  known := by rintro name rfl; simp at hp
  reference := ofList_ne_empty hb
  patch := ⟨nofun, by rintro rfl; simp at hp⟩
  subdirectory := nofun
  address := by rintro (rfl | rfl) <;> simp at hp
  params := hparams
  separator _ _ := ⟨by simpa [simple] using hseparator, nofun⟩
  target h := exists_registryTarget? h (by simpa [simple] using hr h)

theorem wellFormed_subdirectory {sub : List Char} (hi : ident.WellFormed) (hb : body ≠ [])
    (hsub : sub ≠ []) (hseparator : ¬ "::".toList <:+: body ++ '#' :: sub)
    (hparams : ∀ kv ∈ params, Separable kv) :
    WellFormed { simple ident .file body params with subdirectory := String.ofList sub } where
  ident := hi
  known := nofun
  reference := ofList_ne_empty hb
  patch := ⟨nofun, nofun⟩
  subdirectory := by
    rintro s ⟨⟩
    exact ⟨ofList_ne_empty hsub, rfl⟩
  address := nofun
  params := hparams
  separator _ _ := by
    refine ⟨fun hin => hseparator ?_, ?_⟩
    · have hstart : (String.ofList body).toList <+: body ++ '#' :: sub := by
        rw [String.toList_ofList]
        exact List.prefix_append _ _
      exact hin.trans hstart.isInfix
    · rintro s ⟨⟩ hin
      rw [String.toList_ofList (l := sub)] at hin
      have hend : sub <:+ body ++ '#' :: sub :=
        (List.suffix_cons '#' sub).trans (List.suffix_append _ _)
      exact hseparator (hin.trans hend.isInfix)
  target := nofun

theorem wellFormed_patch {target : PatchTarget Locator} (hi : ident.WellFormed) (hb : body ≠ [])
    (hseparator : ¬ "::".toList <:+: body) (hparams : ∀ kv ∈ params, Separable kv) :
    WellFormed { simple ident .patch body params with patch := some target } where
  ident := hi
  known := nofun
  reference := ofList_ne_empty hb
  patch := ⟨fun _ => rfl, fun _ => rfl⟩
  subdirectory := nofun
  address := nofun
  params := hparams
  separator _ _ := ⟨by simpa [simple] using hseparator, nofun⟩
  target := nofun

end Forms

theorem Form.wellFormed {ident : Ident} {reference : List Char} {sh : Shape}
    (h : Form ident reference sh) (hi : ident.WellFormed) (hne : reference ≠ [])
    (target : PatchTarget Locator) : (sh.locator target).WellFormed := by
  cases h with
  | scp => exact wellFormed_simple_address hi hne (Or.inl rfl)
  | repository => exact wellFormed_simple_address hi hne (Or.inl rfl)
  | url _ _ hp => exact wellFormed_simple_address hi hne (hp.imp_right And.left)
  | range hr =>
    have hcolon : ':' ∉ reference := fun hm =>
      absurd (Version.Range.ofRange_of_isRange hr ':' hm) (by decide)
    exact wellFormed_simple hi (by simp) hne (fun hin => hcolon (hin.subset (by simp))) nofun
      fun _ => checkRegistry_of_isRange hr
  | plain _ _ hp hs hb hr =>
    obtain ⟨hseparator, hparams⟩ := parts_of_splitParams hs
    refine wellFormed_simple hi ?_ hb hseparator hparams hr
    exact List.mem_append_left [.file] hp
  | file _ _ hs hb =>
    obtain ⟨hseparator, hparams⟩ := parts_of_splitParams hs
    exact wellFormed_simple hi (by simp) hb hseparator hparams nofun
  | subdirectory _ _ hs hc hpath hsub =>
    obtain ⟨hseparator, hparams⟩ := parts_of_splitParams hs
    rw [(eq_append_of_cut hc).1] at hseparator
    exact wellFormed_subdirectory hi hpath hsub hseparator hparams
  | patch _ _ hs hc =>
    obtain ⟨hseparator, hparams⟩ := parts_of_splitParams hs
    exact wellFormed_patch hi (by simp [(eq_append_of_cut hc).1]) hseparator hparams

/-! ## Chains of patches -/

/-- The locator, the base of its patch, the base of that one, and so on. -/
def chain : Locator → List Locator
  | ⟨i, p, r, s, ps, none, c, v⟩ => [⟨i, p, r, s, ps, none, c, v⟩]
  | ⟨i, p, r, s, ps, some ⟨base, source, optional⟩, c, v⟩ =>
    ⟨i, p, r, s, ps, some ⟨base, source, optional⟩, c, v⟩ :: base.chain

theorem chain_of_patch_eq_none {l : Locator} (h : l.patch = none) : l.chain = [l] := by
  obtain ⟨_, _, _, _, _, patch, _, _⟩ := l
  cases h
  rw [chain]

theorem chain_of_patch_eq_some {l : Locator} {p : PatchTarget Locator} (h : l.patch = some p) :
    l.chain = l :: p.base.chain := by
  obtain ⟨_, _, _, _, _, patch, _, _⟩ := l
  cases h
  rw [chain]

theorem self_mem_chain (l : Locator) : l ∈ l.chain := by
  cases h : l.patch with
  | none => simp [chain_of_patch_eq_none h]
  | some p => simp [chain_of_patch_eq_some h]

theorem base_patchTarget (base : Locator) (source : List Char) :
    (patchTarget base source).base = base := by
  unfold patchTarget
  split <;> rfl

theorem Reads.wellFormed {s : List Char} {l : Locator} (h : Reads s l) :
    ∀ b ∈ l.chain, b.WellFormed := by
  induction h with
  | @whole s l hs =>
    obtain ⟨ident, reference, -, hi, hne, hf⟩ := shape_eq_ok_iff.mp hs
    rw [chain_of_patch_eq_none (by cases hf <;> rfl), List.forall_mem_singleton]
    exact hf.wellFormed hi.wellFormed hne ⟨l, "", false⟩
  | @patched s ident body base source params b hs _ ih =>
    obtain ⟨leading, reference, -, hi, hne, hf⟩ := shape_eq_ok_iff.mp hs
    obtain rfl : ident = leading := hf.ident_eq
    rw [chain_of_patch_eq_some (p := patchTarget b source) rfl, List.forall_mem_cons,
      base_patchTarget]
    exact ⟨hf.wellFormed hi.wellFormed hne (patchTarget b source), ih⟩

/-- **What the grammar accepts is well-formed**, at every depth of a nested patch. -/
theorem wellFormed_of_parse {raw : String} {l : Locator} (h : parse raw = .ok l) :
    ∀ b ∈ l.chain, b.WellFormed :=
  (parse_eq_ok_iff.mp h).wellFormed

/-- A patch of a directory inside an archive, which is bound to a workspace. -/
def workspacePatch : String :=
  "@s/a@patch:b@file%3A./c.tgz%23lib%3A%3Alocator=d%2540workspace%253A.#fix.patch::version=1.0.0"

theorem wellFormed_of_parse_workspacePatch :
    ∃ l : Locator, parse workspacePatch = .ok l ∧
      l.chain.map (fun b => (b.protocol, b.subdirectory, b.params)) =
        [(.patch, none, [("version", "1.0.0")]),
          (.file, some "lib", [("locator", "d%40workspace%3A.")])] ∧
        ∀ b ∈ l.chain, b.WellFormed := by
  have hd : (parse workspacePatch).map (fun l =>
      l.chain.map fun b => (b.protocol, b.subdirectory, b.params)) =
        .ok [(.patch, none, [("version", "1.0.0")]),
          (.file, some "lib", [("locator", "d%40workspace%3A.")])] := by
    decide +kernel
  cases hp : parse workspacePatch with
  | error e =>
    rw [hp] at hd
    cases hd
  | ok l =>
    rw [hp] at hd
    exact ⟨l, rfl, Except.ok.inj hd, wellFormed_of_parse hp⟩

end Locator

end OfflineCache
