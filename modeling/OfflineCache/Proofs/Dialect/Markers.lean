import OfflineCache.Proofs.Dialect.Meaning

/-! Markers of optional builtin patches below the outermost one. The grammar takes the newer marker
off at every level of a nested patch, for it reads each base as it reads the whole; the older marker
is taken off afterwards and from the outermost patch alone. So the two spellings of one chain of
patches agree exactly if the chain has one patch (`marks_of_marked`).

`Marked` says that a text spells such a chain, in whatever way its bases are escaped; `spell` writes
one of these texts. -/

namespace OfflineCache

open Text

/-! ## Escapes -/

namespace Text

theorem Utf8.decodeLossy_append_ascii {bs : Bytes} {b : UInt8} (hs : ∀ x ∈ bs, x < 0x80)
    (hb : b < 0x80) : decodeLossy (bs ++ [b]) = decodeLossy bs ++ [Char.ofNat b.toNat] := by
  induction bs with
  | nil => simp [decodeLossy, hb]
  | cons x bs ih =>
    obtain ⟨hx, hs⟩ := List.forall_mem_cons.mp hs
    rw [List.cons_append, decodeLossy, if_pos hx, decodeLossy, if_pos hx, ih hs, List.cons_append]

namespace Percent

/-- The escape of a character that would end the base of a patch, and of the percent sign. -/
def escapeChar (c : Char) : List Char :=
  if c = '%' then ['%', '2', '5']
  else if c = '#' then ['%', '2', '3']
  else if c = ':' then ['%', '3', 'A']
  else [c]

def escape (s : List Char) : List Char := s.flatMap escapeChar

theorem escape_append (s t : List Char) : escape (s ++ t) = escape s ++ escape t :=
  List.flatMap_append

theorem notMem_escapeChar {c : Char} (hc : c = '#' ∨ c = ':') (x : Char) : c ∉ escapeChar x := by
  unfold escapeChar
  split
  · rcases hc with rfl | rfl <;> decide
  · split
    · rcases hc with rfl | rfl <;> decide
    · rename_i hhash
      split
      · rcases hc with rfl | rfl <;> decide
      · rename_i hcolon
        rw [List.mem_singleton]
        rintro rfl
        exact hc.elim hhash hcolon

theorem notMem_escape {c : Char} (hc : c = '#' ∨ c = ':') (s : List Char) : c ∉ escape s := by
  intro h
  obtain ⟨x, -, hx⟩ := List.mem_flatMap.mp h
  exact notMem_escapeChar hc x hx

/-- The escapes that stand together are collected before they are turned into characters. -/
theorem decodeRun_escape {run : Bytes} (h : ∀ b ∈ run, b < 0x80) (s : List Char) :
    decodeRun run (escape s) = Utf8.decodeLossy run ++ s := by
  induction s generalizing run with
  | nil => simp [escape, decodeRun]
  | cons c s ih =>
    have hcollect : ∀ b : UInt8, b < 0x80 → decodeRun (run ++ [b]) (escape s) =
        Utf8.decodeLossy run ++ Char.ofNat b.toNat :: s := by
      intro b hb
      rw [ih (by simpa [or_imp, forall_and] using ⟨h, hb⟩),
        Utf8.decodeLossy_append_ascii h hb, List.append_assoc, List.singleton_append]
    show decodeRun run (escapeChar c ++ escape s) = _
    unfold escapeChar
    split
    · rename_i hc
      subst hc
      exact hcollect 0x25 (by decide)
    · rename_i hpercent
      split
      · rename_i hc
        subst hc
        exact hcollect 0x23 (by decide)
      · split
        · rename_i hc
          subst hc
          exact hcollect 0x3A (by decide)
        · rw [List.singleton_append, decodeRun, ih (by simp), Utf8.decodeLossy, List.nil_append]
          intro a b rest hc _
          exact hpercent hc

theorem decode_escape (s : List Char) : decode (escape s) = s := by
  rw [decode, decodeRun_escape (by simp), Utf8.decodeLossy, List.nil_append]

end Percent

end Text

namespace Locator

/-! ## Chains of patches -/

/-- The source of a patch and whether it is optional, then those of the patches below it. -/
def marks : Locator → List (String × Bool)
  | ⟨_, _, _, _, _, none, _, _⟩ => []
  | ⟨_, _, _, _, _, some ⟨base, source, optional⟩, _, _⟩ => (source, optional) :: base.marks

theorem marks_of_patch_eq_none {l : Locator} (h : l.patch = none) : l.marks = [] := by
  obtain ⟨_, _, _, _, _, patch, _, _⟩ := l
  cases h
  rw [marks]

theorem marks_of_patch_eq_some {l : Locator} {p : PatchTarget Locator} (h : l.patch = some p) :
    l.marks = (p.source, p.optional) :: p.base.marks := by
  obtain ⟨_, _, _, _, _, patch, _, _⟩ := l
  cases h
  rw [marks]

/-- The text spells a chain of patches around something else, the builtin sources outermost first
and each behind the marker. -/
inductive Marked (marker : List Char) : List String → List Char → Prop
  | inner {s : List Char} {l : Locator} : shape s = .ok (.whole l) → Marked marker [] s
  | patch {s : List Char} {ident : Ident} {body base source : List Char}
      {params : List (String × String)} {src : String} {srcs : List String} :
      shape s = .ok (.patched ident body params base source) →
      Percent.decode source = marker ++ src.toList → "builtin<".toList <+: src.toList →
      Marked marker srcs (Percent.decode base) → Marked marker (src :: srcs) s

/-- What the grammar makes of one source it makes of all of them. -/
theorem reads_of_marked {marker : List Char} (mark : String → String × Bool)
    (hmark : ∀ (b : Locator) (source : List Char) (src : String),
      Percent.decode source = marker ++ src.toList → "builtin<".toList <+: src.toList →
      ((patchTarget b source).source, (patchTarget b source).optional) = mark src)
    {srcs : List String} {s : List Char} (h : Marked marker srcs s) :
    ∃ l, Reads s l ∧ l.marks = srcs.map mark := by
  induction h with
  | inner hs => exact ⟨_, .whole hs, marks_of_patch_eq_none (patch_of_whole hs)⟩
  | @patch s ident body base source params src srcs hs hsource hb _ ih =>
    obtain ⟨b, hread, hmarks⟩ := ih
    have hbase : (patchTarget b source).base = b := by
      unfold patchTarget
      split <;> rfl
    refine ⟨_, .patched hs hread, ?_⟩
    rw [marks_of_patch_eq_some rfl, hmark b source src hsource hb, hbase, hmarks, List.map_cons]

theorem patchTarget_newer (b : Locator) {source : List Char} {src : String}
    (h : Percent.decode source = optionalMarker ++ src.toList) :
    patchTarget b source = ⟨b, src, true⟩ := by
  have hrest : optionalMarker.isPrefixOf? (optionalMarker ++ src.toList) = some src.toList :=
    List.isPrefixOf?_eq_some_iff_append_eq.mpr rfl
  rw [patchTarget, h, hrest]
  simp only [String.ofList_toList]

theorem patchTarget_older (b : Locator) {source : List Char} {src : String}
    (h : Percent.decode source = "~".toList ++ src.toList) :
    patchTarget b source = ⟨b, "~" ++ src, false⟩ := by
  have hnone : optionalMarker.isPrefixOf? ('~' :: src.toList) = none := rfl
  have hsource : Percent.decode source = '~' :: src.toList := h
  rw [patchTarget, hsource, hnone]
  have htext : String.ofList ('~' :: src.toList) = "~" ++ src :=
    String.toList_inj.mp (by rw [String.toList_ofList, String.toList_append]; rfl)
  rw [htext]

/-! ## Writing a chain -/

/-- A name and the builtin patch behind it. -/
structure Patching where
  ident : Ident
  builtin : List Char

def Patching.source (k : Patching) : String := "builtin<" ++ String.ofList k.builtin ++ ">"

/-- A chain of patches around the text `inner`, the outermost first. -/
def spell (marker inner : List Char) : List Patching → List Char
  | [] => inner
  | k :: ks => k.ident.render.toList ++ '@' :: ("patch".toList ++ ':' ::
      (Percent.escape (spell marker inner ks) ++ '#' :: Percent.escape (marker ++ k.source.toList)))

/-- A base without the characters that would end it, and a source. -/
theorem shape_patch {i : Ident} {base source : List Char} (hi : i.Occurs) (hhash : '#' ∉ base)
    (hcolon : ':' ∉ base ++ '#' :: source) (hne : source ≠ [])
    (hlast : ∀ c, source.getLast? = some c → isBlank c = false) :
    shape (i.render.toList ++ '@' :: ("patch".toList ++ ':' :: (base ++ '#' :: source))) =
      .ok (.patched i (base ++ '#' :: source) [] base source) := by
  refine shape_of_form hi (by simp) (fun c hc => hlast c ?_)
    (.patch ⟨rfl, by decide⟩ rfl (splitParams_of_notMem hcolon) (cut_append hhash) hne)
  obtain ⟨x, r, rfl⟩ := List.exists_cons_of_ne_nil hne
  simpa [List.getLast?_append, List.getLast?_cons] using hc

theorem marked_spell (marker : List Char) {inner : List Char} {l : Locator}
    (h : shape inner = .ok (.whole l)) {ks : List Patching} (hi : ∀ k ∈ ks, k.ident.Occurs) :
    Marked marker (ks.map (·.source)) (spell marker inner ks) := by
  induction ks with
  | nil => exact .inner h
  | cons k ks ih =>
    obtain ⟨hk, hks⟩ := List.forall_mem_cons.mp hi
    have hescape : Percent.escape (marker ++ k.source.toList) =
        Percent.escape (marker ++ "builtin<".toList ++ k.builtin) ++ ['>'] := by
      simp only [Patching.source, String.toList_append, String.toList_ofList, ← List.append_assoc]
      exact Percent.escape_append _ _
    have hne : Percent.escape (marker ++ k.source.toList) ≠ [] := by
      rw [hescape]
      exact List.concat_ne_nil _ _
    have hlast : ∀ c, (Percent.escape (marker ++ k.source.toList)).getLast? = some c →
        isBlank c = false := by
      intro c hc
      rw [hescape, List.getLast?_concat, Option.some.injEq] at hc
      exact hc ▸ rfl
    have hcolon : ':' ∉ Percent.escape (spell marker inner ks) ++
        '#' :: Percent.escape (marker ++ k.source.toList) := by
      simp [Percent.notMem_escape (Or.inr rfl)]
    have hshape := shape_patch hk (Percent.notMem_escape (Or.inl rfl) _) hcolon hne hlast
    refine .patch hshape (Percent.decode_escape _) ?_ ?_
    · simp [Patching.source]
    · rw [Percent.decode_escape]
      exact ih hks

end Locator

/-! ## Dialects -/

namespace Dialect

open Locator (Marked)

/-- The marker of the older dialect comes off the outermost patch, and off no other. -/
theorem marks_markOptional_three {l : Locator} {src : String} {below : List (String × Bool)}
    (h : l.marks = ("~" ++ src, false) :: below) (hb : "builtin<".toList <+: src.toList) :
    (three.markOptional l).marks = (src, true) :: below := by
  obtain ⟨rest, hrest⟩ := hb
  have hsrc : src = "builtin<" ++ String.ofList rest :=
    String.toList_inj.mp (by simp [← hrest])
  cases hp : l.patch with
  | none =>
    rw [Locator.marks_of_patch_eq_none hp] at h
    cases h
  | some p =>
    rw [Locator.marks_of_patch_eq_some hp] at h
    obtain ⟨hmark, rfl⟩ := List.cons.inj h
    obtain ⟨hs, ho⟩ := Prod.mk.inj hmark
    have hs' : p.source = "~builtin<" ++ String.ofList rest := by
      rw [hs, hsrc, ← String.append_assoc]
      rfl
    rw [(reading_three l).eq (.marked rfl hp ho hs'), Locator.marks_of_patch_eq_some rfl, hsrc]

/-- **The newer marker is recognised at every level, the older one on the outermost patch only.**
Below that it stays part of the source, so the two dialects agree on a chain of builtin patches
exactly if nothing is patched twice. -/
theorem marks_of_marked {src : String} {srcs : List String} {s s' : String}
    (h : Marked "~".toList (src :: srcs) s.toList)
    (h' : Marked "optional!".toList (src :: srcs) s'.toList) :
    ∃ l l', three.parseLocator s = .ok l ∧ four.parseLocator s' = .ok l' ∧
      l'.marks = (src :: srcs).map (·, true) ∧
      l.marks = (src, true) :: srcs.map ("~" ++ ·, false) ∧
      (l.marks = l'.marks ↔ srcs = []) := by
  obtain ⟨l, hl, hm⟩ := Locator.reads_of_marked ("~" ++ ·, false)
    (fun b _ _ hs _ => by rw [Locator.patchTarget_older b hs]) h
  obtain ⟨l', hl', hm'⟩ := Locator.reads_of_marked (·, true)
    (fun b _ _ hs _ => by rw [Locator.patchTarget_newer b hs]) h'
  have hb : "builtin<".toList <+: src.toList := by
    cases h with
    | patch _ _ hb _ => exact hb
  have hthree := marks_markOptional_three hm hb
  refine ⟨three.markOptional l, l', ?_, ?_, hm', hthree, ?_⟩
  · rw [parseLocator_eq_map, Locator.parse_eq_ok_iff.mpr hl, Except.map]
  · rw [parseLocator_eq_map, Locator.parse_eq_ok_iff.mpr hl', Except.map, markOptional_four hl']
  · rw [hthree, hm']
    cases srcs with
    | nil => simp
    | cons below srcs => simp

/-- A builtin patch of `resolve` around a builtin patch of `a`. -/
def patchedTwice : List Locator.Patching := [⟨⟨none, "resolve"⟩, ['y']⟩, ⟨⟨none, "a"⟩, ['x']⟩]

def olderSpelling : String :=
  "resolve@patch:a@patch%3Aa@npm%253A1.0.0%23~builtin<x>#~builtin<y>"

def newerSpelling : String :=
  "resolve@patch:a@patch%3Aa@npm%253A1.0.0%23optional!builtin<x>#optional!builtin<y>"

theorem marked_patchedTwice (marker : List Char) :
    Marked marker ["builtin<y>", "builtin<x>"]
      (Locator.spell marker "a@npm:1.0.0".toList patchedTwice) := by
  have hresolve : (⟨none, "resolve"⟩ : Ident).Occurs :=
    Ident.occurs_iff.mpr ⟨⟨by decide, by decide⟩, by decide⟩
  have ha : (⟨none, "a"⟩ : Ident).Occurs :=
    Ident.occurs_iff.mpr ⟨⟨by decide, by decide⟩, by decide⟩
  have hrange : Version.Range.isRange "1.0.0".toList = .ok true := by decide
  obtain ⟨l, -, -, hl⟩ := Locator.shape_range ha hrange
  rw [Locator.shape_bare_eq_shape_tagged ha.leads.noAt hrange] at hl
  have hi : ∀ k ∈ patchedTwice, k.ident.Occurs := by simp [patchedTwice, hresolve, ha]
  exact Locator.marked_spell marker hl hi

theorem marked_olderSpelling :
    Marked "~".toList ["builtin<y>", "builtin<x>"] olderSpelling.toList := by
  have htext : olderSpelling.toList =
    Locator.spell "~".toList "a@npm:1.0.0".toList patchedTwice := by decide
  rw [htext]
  exact marked_patchedTwice _

theorem marked_newerSpelling :
    Marked "optional!".toList ["builtin<y>", "builtin<x>"] newerSpelling.toList := by
  have htext : newerSpelling.toList =
    Locator.spell "optional!".toList "a@npm:1.0.0".toList patchedTwice := by decide
  rw [htext]
  exact marked_patchedTwice _

theorem marks_of_marked_twice :
    Marked "~".toList ["builtin<y>", "builtin<x>"] olderSpelling.toList ∧
      Marked "optional!".toList ["builtin<y>", "builtin<x>"] newerSpelling.toList ∧
      ∃ l l', three.parseLocator olderSpelling = .ok l ∧
        four.parseLocator newerSpelling = .ok l' ∧
        l'.marks = [("builtin<y>", true), ("builtin<x>", true)] ∧
        l.marks = [("builtin<y>", true), ("~builtin<x>", false)] := by
  obtain ⟨l, l', hl, hl', hm', hm, -⟩ := marks_of_marked marked_olderSpelling marked_newerSpelling
  exact ⟨marked_olderSpelling, marked_newerSpelling, l, l', hl, hl', hm', hm⟩

/-- Two patches, and the dialects disagree about the inner one. -/
theorem nested_marks_differ :
    Marked "~".toList ["builtin<y>", "builtin<x>"] olderSpelling.toList ∧
      Marked "optional!".toList ["builtin<y>", "builtin<x>"] newerSpelling.toList ∧
      (three.parseLocator olderSpelling).toOption.map Locator.marks =
        some [("builtin<y>", true), ("~builtin<x>", false)] ∧
      (four.parseLocator newerSpelling).toOption.map Locator.marks =
        some [("builtin<y>", true), ("builtin<x>", true)] :=
  ⟨marked_olderSpelling, marked_newerSpelling, by decide +kernel, by decide +kernel⟩

end Dialect

end OfflineCache
