import OfflineCache.Proofs.Checksum
import OfflineCache.Proofs.Layout.BelowRoot
import OfflineCache.Proofs.Layout.Template

/-! What a path of a built-in layout tells of the digest. Names and versions may look like anything,
but what a layout puts behind the last of them has a length of its own and no slash within its
parts, so the end of the path gives the digits of the digest back: `Layout.builtin_keyed`. -/

namespace OfflineCache

open Text OfflineCache.Path

/-! ## The end of a path -/

namespace Path

/-- What stands behind the last slash is in the last piece. -/
theorem pieces_append_of_notMem (a : List Char) {b : List Char} (hb : b ≠ []) (hs : '/' ∉ b) :
    ∃ front x, pieces (a ++ b) = front ++ [x ++ b] := by
  have hsplit : ∃ front x, splitAll '/' (a ++ b) = front ++ [x ++ b] := by
    induction a with
    | nil => exact ⟨[], [], splitAll_of_notMem hs⟩
    | cons c a ih =>
      obtain ⟨front, x, hfront⟩ := ih
      rw [List.cons_append, splitAll, hfront]
      by_cases hc : c = '/'
      · exact ⟨[] :: front, x, if_pos hc⟩
      · rw [if_neg hc]
        cases front with
        | nil => exact ⟨[], c :: x, rfl⟩
        | cons w ws => exact ⟨(c :: w) :: ws, x, rfl⟩
  obtain ⟨front, x, hfront⟩ := hsplit
  refine ⟨front.filter (· ≠ []), x, ?_⟩
  rw [pieces, hfront, List.filter_append]
  simp [hb]

end Path

/-! ## Digits of a digest -/

namespace Checksum

variable {d : Checksum}

/-- The first digits of a digest, as many as asked for. -/
def digits (d : Checksum) (n : Nat) : List Char := d.hex.toList.take n

theorem slash_notMem_hex (d : Checksum) : '/' ∉ d.hex.toList := by
  rw [hex, String.toList_ofList]
  intro h
  obtain ⟨v, hv⟩ := Hex.value?_of_mem_encode h
  cases hv

theorem slash_notMem_digits (d : Checksum) (n : Nat) : '/' ∉ d.digits n := fun h =>
  d.slash_notMem_hex (List.mem_of_mem_take h)

theorem length_digits (h : d.Whole) {n : Nat} (hn : n ≤ 64) :
    (d.digits n).length = n := by
  have hsize : 32 ≤ d.algorithm.size := by cases d.algorithm <;> decide
  have hlen : d.digest.length = d.algorithm.size := h
  rw [digits, hex, String.toList_ofList, List.length_take, Hex.length_encode]
  omega

theorem digits_nonempty (h : d.Whole) {n : Nat} (hpos : 0 < n) (hn : n ≤ 64) :
    d.digits n ≠ [] := by
  have hlen := length_digits h hn
  intro he
  rw [he] at hlen
  exact absurd hlen (Nat.ne_of_lt hpos)

theorem hex_injective {x y : Checksum} (ha : x.algorithm = y.algorithm)
    (h : x.hex.toList = y.hex.toList) : x = y := by
  rw [hex, hex, String.toList_ofList, String.toList_ofList] at h
  exact ext ha (Hex.encode_injective h)

end Checksum

namespace Layout

open Template

variable (l : Locator) (d : Checksum)

/-! ## What the built-in layouts render -/

theorem render_yarn : Template.render (placeholder? l d) yarn.template.toList =
    .ok ("cache/".toList ++ l.ident.slug.toList ++ ("-".toList ++ l.protocol.tag.toList ++
      ("-".toList ++ (versionOf l).toList ++ ("-".toList ++ d.digits 10 ++ ".tgz".toList)))) := by
  have htemplate : yarn.template.toList =
      "cache/".toList ++ '\x7b' :: ("slug".toList ++ '\x7d' ::
        ("-".toList ++ '\x7b' :: ("protocol".toList ++ '\x7d' ::
          ("-".toList ++ '\x7b' :: ("version".toList ++ '\x7d' ::
            ("-".toList ++ '\x7b' :: ("hash:10".toList ++ '\x7d' :: ".tgz".toList))))))) := rfl
  rw [htemplate, render_placeholder (by decide) (by decide) (by rfl),
    render_placeholder (by decide) (by decide) (by rfl),
    render_placeholder (by decide) (by decide) (by rfl),
    render_placeholder (by decide) (by decide) (by rfl), render_of_notMem (by decide)]
  rfl

theorem render_npm : Template.render (placeholder? l d) npm.template.toList =
    .ok ("pkgs/".toList ++ l.ident.render.toList ++ ("/".toList ++ (versionOf l).toList ++
      ("/".toList ++ d.digits 16 ++ "/package.tgz".toList))) := by
  have htemplate : npm.template.toList =
      "pkgs/".toList ++ '\x7b' :: ("name".toList ++ '\x7d' ::
        ("/".toList ++ '\x7b' :: ("version".toList ++ '\x7d' ::
          ("/".toList ++ '\x7b' :: ("hash:16".toList ++ '\x7d' :: "/package.tgz".toList))))) := rfl
  rw [htemplate, render_placeholder (by decide) (by decide) (by rfl),
    render_placeholder (by decide) (by decide) (by rfl),
    render_placeholder (by decide) (by decide) (by rfl),
    render_of_notMem (by decide)]
  rfl

theorem render_cas : Template.render (placeholder? l d) cas.template.toList =
    .ok ([] ++ d.algorithm.name.toList ++ ("/".toList ++ d.digits 2 ++
      ("/".toList ++ d.hex.toList ++ ".tgz".toList))) := by
  have htemplate : cas.template.toList =
      [] ++ '\x7b' :: ("algo".toList ++ '\x7d' ::
        ("/".toList ++ '\x7b' :: ("hash:2".toList ++ '\x7d' ::
          ("/".toList ++ '\x7b' :: ("hash".toList ++ '\x7d' :: ".tgz".toList))))) := rfl
  rw [htemplate, render_placeholder (by decide) (by decide) (by rfl),
    render_placeholder (by decide) (by decide) (by rfl),
    render_placeholder (by decide) (by decide) (by rfl),
    render_of_notMem (by decide)]
  rfl

/-! ## The names at the end -/

variable {l d} {l' : Locator} {d' : Checksum} {y y' : Layout} {p p' : Path}

theorem dotless_of_length {ns : List (List Char)} (h : ∀ n ∈ ns, 1 < n.length) :
    dotless ns = ns := by
  rw [dotless, List.filter_eq_self]
  intro n hn
  have hlen := h n hn
  have hne : n ≠ ['.'] := by
    rintro rfl
    exact absurd hlen (by decide)
  simpa using hne

/-- Paths with the same components have the same names in them. -/
theorem names_congr (h : y.relativePath l d = .ok p) (h' : y'.relativePath l' d' = .ok p')
    (hp : p.components = p'.components) : dotless (pieces p.chars) = dotless (pieces p'.chars) := by
  obtain ⟨names, hplain⟩ := plain_of_relativePath h
  obtain ⟨names', hplain'⟩ := plain_of_relativePath h'
  rw [hplain.components, hplain'.components] at hp
  rw [hplain.names_eq, hplain'.names_eq]
  exact List.map_injective_iff.mpr (fun _ _ => Component.name.inj) hp

theorem names_yarn (hd : d.Whole) (h : yarn.relativePath l d = .ok p) :
    ∃ front x, dotless (pieces p.chars) = front ++ [x ++ (d.digits 10 ++ ".tgz".toList)] := by
  have hchars := Except.ok.inj ((render_yarn l d).symm.trans (render_of_relativePath h))
  have hlen := Checksum.length_digits hd (n := 10) (by decide)
  have hslash : '/' ∉ d.digits 10 ++ ".tgz".toList := by
    rw [List.mem_append, not_or]
    exact ⟨d.slash_notMem_digits 10, by decide⟩
  obtain ⟨front, x, hpieces⟩ := pieces_append_of_notMem
    ("cache/".toList ++ l.ident.slug.toList ++ ("-".toList ++ l.protocol.tag.toList ++
      ("-".toList ++ (versionOf l).toList ++ "-".toList)))
    (b := d.digits 10 ++ ".tgz".toList) (by simp) hslash
  have hdotless : dotless [x ++ (d.digits 10 ++ ".tgz".toList)] =
      [x ++ (d.digits 10 ++ ".tgz".toList)] := by
    refine dotless_of_length fun n hn => ?_
    rw [List.mem_singleton.mp hn, List.length_append, List.length_append]
    omega
  refine ⟨dotless front, x, ?_⟩
  rw [← hchars]
  simp only [List.append_assoc] at hpieces ⊢
  rw [hpieces, dotless_append, hdotless]

theorem names_npm (hd : d.Whole) (h : npm.relativePath l d = .ok p) :
    ∃ front, dotless (pieces p.chars) = front ++ [d.digits 16, "package.tgz".toList] := by
  have hchars := Except.ok.inj ((render_npm l d).symm.trans (render_of_relativePath h))
  have hlen := Checksum.length_digits hd (n := 16) (by decide)
  have htext : p.chars = ("pkgs/".toList ++ l.ident.render.toList ++ "/".toList ++
      (versionOf l).toList) ++ '/' :: (d.digits 16 ++ '/' :: "package.tgz".toList) := by
    rw [← hchars]
    simp
  have htail : pieces (d.digits 16 ++ '/' :: "package.tgz".toList) =
      [d.digits 16, "package.tgz".toList] := by
    rw [pieces_append_slash (Checksum.digits_nonempty hd (by decide) (by decide))
      (d.slash_notMem_digits 16), pieces_name (by decide) (by decide)]
  have hdotless : dotless [d.digits 16, "package.tgz".toList] =
      [d.digits 16, "package.tgz".toList] := by
    refine dotless_of_length fun n hn => ?_
    rcases List.mem_pair.mp hn with rfl | rfl
    · omega
    · decide
  exact ⟨_, by rw [htext, pieces_append, htail, dotless_append, hdotless]⟩

theorem names_cas (hd : d.Whole) (h : cas.relativePath l d = .ok p) :
    dotless (pieces p.chars) =
      [d.algorithm.name.toList, d.digits 2, d.hex.toList ++ ".tgz".toList] := by
  have hchars := Except.ok.inj ((render_cas l d).symm.trans (render_of_relativePath h))
  have hlen := Checksum.length_digits hd (n := 2) (by decide)
  have hslash : '/' ∉ d.hex.toList ++ ".tgz".toList := by
    rw [List.mem_append, not_or]
    exact ⟨d.slash_notMem_hex, by decide⟩
  have htext : p.chars = d.algorithm.name.toList ++
      '/' :: (d.digits 2 ++ '/' :: (d.hex.toList ++ ".tgz".toList)) := by
    rw [← hchars]
    simp
  have halgorithm : d.algorithm.name.toList ≠ [] ∧ '/' ∉ d.algorithm.name.toList ∧
      1 < d.algorithm.name.toList.length := by
    cases d.algorithm <;> decide
  rw [htext, pieces_append_slash halgorithm.1 halgorithm.2.1,
    pieces_append_slash (Checksum.digits_nonempty hd (by decide) (by decide))
      (d.slash_notMem_digits 2), pieces_name (by simp) hslash]
  refine dotless_of_length fun n hn => ?_
  simp only [List.mem_cons, List.not_mem_nil, or_false] at hn
  rcases hn with rfl | rfl | rfl
  · exact halgorithm.2.2
  · omega
  · simp

/-! ## What paths with the same components share -/

section Keyed

variable (hd : d.Whole) (hd' : d'.Whole) (hp : p.components = p'.components)

include hd hd' hp

theorem yarn_keyed (h : yarn.relativePath l d = .ok p) (h' : yarn.relativePath l' d' = .ok p') :
    d.digits 10 = d'.digits 10 := by
  have hnames := names_congr h h' hp
  obtain ⟨front, x, hx⟩ := names_yarn hd h
  obtain ⟨front', x', hx'⟩ := names_yarn hd' h'
  rw [hx, hx'] at hnames
  have hlast : x ++ (d.digits 10 ++ ".tgz".toList) = x' ++ (d'.digits 10 ++ ".tgz".toList) :=
    List.singleton_inj.mp (List.append_inj' hnames rfl).2
  -- What stands before the digits in the last name is of any length, the digits are not.
  have hlen : (d.digits 10).length = (d'.digits 10).length := by
    rw [Checksum.length_digits hd (by decide), Checksum.length_digits hd' (by decide)]
  have hend := (List.append_inj' hlast (by simp [hlen])).2
  exact List.append_cancel_right hend

theorem npm_keyed (h : npm.relativePath l d = .ok p) (h' : npm.relativePath l' d' = .ok p') :
    d.digits 16 = d'.digits 16 := by
  have hnames := names_congr h h' hp
  obtain ⟨front, hx⟩ := names_npm hd h
  obtain ⟨front', hx'⟩ := names_npm hd' h'
  rw [hx, hx'] at hnames
  exact (List.cons.inj (List.append_inj' hnames rfl).2).1

theorem cas_keyed (h : cas.relativePath l d = .ok p) (h' : cas.relativePath l' d' = .ok p') :
    d = d' := by
  have hnames := names_congr h h' hp
  rw [names_cas hd h, names_cas hd' h'] at hnames
  obtain ⟨hname, -, hhex⟩ : d.algorithm.name.toList = d'.algorithm.name.toList ∧
      d.digits 2 = d'.digits 2 ∧
      d.hex.toList ++ ".tgz".toList = d'.hex.toList ++ ".tgz".toList := by
    simpa using hnames
  exact Checksum.hex_injective (Algorithm.name_injective hname) (List.append_cancel_right hhex)

end Keyed

/-- **Paths of the built-in layouts are keyed by content.** Where two entries have paths of the same
components, their digests agree in the digits that the layout shows, whatever the names and versions
are; the layout that shows the whole digest with its algorithm tells the checksum. -/
theorem builtin_keyed (hd : d.Whole) (hd' : d'.Whole) (hp : p.components = p'.components) :
    (∀ y, LayoutTable.builtin.get "yarn" = .ok y → y.relativePath l d = .ok p →
      y.relativePath l' d' = .ok p' → d.digits 10 = d'.digits 10) ∧
    (∀ y, LayoutTable.builtin.get "npm" = .ok y → y.relativePath l d = .ok p →
      y.relativePath l' d' = .ok p' → d.digits 16 = d'.digits 16) ∧
    ∀ y, LayoutTable.builtin.get "cas" = .ok y → y.relativePath l d = .ok p →
      y.relativePath l' d' = .ok p' → d = d' := by
  refine ⟨fun y hy h h' => ?_, fun y hy h h' => ?_, fun y hy h h' => ?_⟩
  · obtain rfl : yarn = y := Except.ok.inj hy
    exact yarn_keyed hd hd' hp h h'
  · obtain rfl : npm = y := Except.ok.inj hy
    exact npm_keyed hd hd' hp h h'
  · obtain rfl : cas = y := Except.ok.inj hy
    exact cas_keyed hd hd' hp h h'

def zeros (a : Algorithm) : Checksum := ⟨a, List.replicate a.size 0⟩

/-- Two names with one slug, two spellings with one row of components, and two digests that differ
behind the digits in the path. -/
theorem builtin_keyed_sharedSlug :
    zeros .sha256 ≠ zeros .sha512 ∧
      yarn.relativePath (versioned "a" "b-c" "1/2") (zeros .sha256) =
        .ok ⟨"cache/@a-b-c-git-1/2-0000000000.tgz".toList⟩ ∧
      yarn.relativePath (versioned "a-b" "c" "1/./2") (zeros .sha512) =
        .ok ⟨"cache/@a-b-c-git-1/./2-0000000000.tgz".toList⟩ ∧
      (zeros .sha256).digits 10 = (zeros .sha512).digits 10 := by
  have h : yarn.relativePath (versioned "a" "b-c" "1/2") (zeros .sha256) =
      .ok ⟨"cache/@a-b-c-git-1/2-0000000000.tgz".toList⟩ := by
    rw [relativePath_of_render (render_yarn _ _)]
    decide +kernel
  have h' : yarn.relativePath (versioned "a-b" "c" "1/./2") (zeros .sha512) =
      .ok ⟨"cache/@a-b-c-git-1/./2-0000000000.tgz".toList⟩ := by
    rw [relativePath_of_render (render_yarn _ _)]
    decide +kernel
  have hcomponents : Path.components ⟨"cache/@a-b-c-git-1/2-0000000000.tgz".toList⟩ =
      Path.components ⟨"cache/@a-b-c-git-1/./2-0000000000.tgz".toList⟩ := by decide +kernel
  have hkeyed := @builtin_keyed (versioned "a" "b-c" "1/2") (zeros .sha256)
    (versioned "a-b" "c" "1/./2") (zeros .sha512) _ _ rfl rfl hcomponents
  exact ⟨by decide, h, h', hkeyed.1 yarn rfl h h'⟩

end Layout

end OfflineCache
