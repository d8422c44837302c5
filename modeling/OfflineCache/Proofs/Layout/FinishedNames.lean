import OfflineCache.Proofs.Layout.Keys

/-! Which paths of the built-in layouts pass for those of temporary files. A path does so by the
name it ends in. Those of npm and of the layout by content end in names of their own, but those of
yarn in what the name and the version of the package make of it (`Layout.isTemporary_builtin`). -/

namespace OfflineCache

open OfflineCache.Path

theorem Path.Plain.fileName?_of_pieces {q : Path} {names front : List (List Char)} {n : List Char}
    (h : Plain q names) (hp : pieces q.chars = front ++ [n]) (hn : n ≠ ['.']) :
    q.fileName? = some n := by
  have hnames := h.names_eq
  rw [hp, dotless_append] at hnames
  have hlast : dotless [n] = [n] := by simp [dotless, hn]
  rw [fileName?, h.components, ← hnames, hlast, List.map_append, List.map_singleton,
    List.getLast?_concat]

namespace Layout

variable {l : Locator} {d : Checksum} {q : Path}

theorem isTemporary_of_pieces {y : Layout} (h : y.relativePath l d = .ok q)
    {front : List (List Char)} {n : List Char} (hp : pieces q.chars = front ++ [n])
    (hn : n ≠ ['.']) : q.isTemporary = isTemporaryName n := by
  obtain ⟨names, hplain⟩ := plain_of_relativePath h
  rw [isTemporary, hplain.fileName?_of_pieces hp hn]
  rfl

/-- What yarn's layout puts into its directory. -/
def yarnFile (l : Locator) (d : Checksum) : List Char :=
  l.ident.slug.toList ++ ("-".toList ++ l.protocol.tag.toList ++
    ("-".toList ++ (versionOf l).toList ++ ("-".toList ++ d.digits 10 ++ ".tgz".toList)))

theorem isTemporary_yarn (h : yarn.relativePath l d = .ok q) : q.isTemporary = true ↔
    ∃ n, (pieces (yarnFile l d)).getLast? = some n ∧ isTemporaryName n = true := by
  have hchars := Except.ok.inj ((render_yarn l d).symm.trans (render_of_relativePath h))
  obtain ⟨front, x, hfile⟩ := pieces_append_of_notMem (l.ident.slug.toList ++
    ("-".toList ++ l.protocol.tag.toList ++ ("-".toList ++ (versionOf l).toList ++
      ("-".toList ++ d.digits 10)))) (b := ".tgz".toList) (by simp) (by decide)
  have hpieces : pieces (yarnFile l d) = front ++ [x ++ ".tgz".toList] := by
    rw [← hfile]
    simp [yarnFile]
  have hq : pieces q.chars = (["cache".toList] ++ front) ++ [x ++ ".tgz".toList] := by
    have htext : q.chars = "cache".toList ++ '/' :: yarnFile l d := by
      rw [← hchars]
      simp [yarnFile]
    rw [htext, pieces_append_slash (by decide) (by decide), hpieces]
    rfl
  have hlong : x ++ ".tgz".toList ≠ ['.'] := by
    intro he
    have hlen := congrArg List.length he
    simp at hlen
  rw [isTemporary_of_pieces h hq hlong, hpieces, List.getLast?_concat]
  simp

theorem isTemporary_npm (h : npm.relativePath l d = .ok q) : q.isTemporary = false := by
  have hchars := Except.ok.inj ((render_npm l d).symm.trans (render_of_relativePath h))
  have hq : pieces q.chars = pieces ("pkgs/".toList ++ l.ident.render.toList ++ ("/".toList ++
      (versionOf l).toList ++ ("/".toList ++ d.digits 16))) ++ ["package.tgz".toList] := by
    rw [← pieces_name (a := "package.tgz".toList) (by decide) (by decide), ← pieces_append,
      ← hchars]
    simp
  rw [isTemporary_of_pieces h hq (by decide)]
  decide +kernel

theorem isTemporaryName_hex (d : Checksum) :
    isTemporaryName (d.hex.toList ++ ".tgz".toList) = false := by
  cases hhex : d.hex.toList with
  | nil => decide +kernel
  | cons c r =>
    have hdot : c ≠ '.' := by
      rintro rfl
      rw [Checksum.hex, String.toList_ofList] at hhex
      obtain ⟨v, hv⟩ := Text.Hex.value?_of_mem_encode (hhex ▸ List.mem_cons_self ..)
      cases hv
    simp [isTemporaryName, hdot]

theorem isTemporary_cas (h : cas.relativePath l d = .ok q) : q.isTemporary = false := by
  have hchars := Except.ok.inj ((render_cas l d).symm.trans (render_of_relativePath h))
  have hslash : '/' ∉ d.hex.toList ++ ".tgz".toList := by
    rw [List.mem_append, not_or]
    exact ⟨d.slash_notMem_hex, by decide⟩
  have hq : pieces q.chars = pieces (d.algorithm.name.toList ++ ("/".toList ++ d.digits 2)) ++
      [d.hex.toList ++ ".tgz".toList] := by
    rw [← pieces_name (by simp) hslash, ← pieces_append, ← hchars]
    simp
  have hlong : d.hex.toList ++ ".tgz".toList ≠ ['.'] := by
    intro he
    have hlen := congrArg List.length he
    simp at hlen
  rw [isTemporary_of_pieces h hq hlong, isTemporaryName_hex]

/-- Of the paths of the built-in layouts only those of yarn's can pass for temporary. -/
theorem isTemporary_builtin {y : Layout} (hy : y ∈ LayoutTable.builtin.layouts)
    (h : y.relativePath l d = .ok q) : q.isTemporary = true ↔
      y = yarn ∧ ∃ n, (pieces (yarnFile l d)).getLast? = some n ∧ isTemporaryName n = true := by
  simp only [LayoutTable.builtin, List.mem_cons, List.not_mem_nil, or_false] at hy
  rcases hy with rfl | rfl | rfl
  · have hne : cas ≠ yarn := by decide
    simp [isTemporary_cas h, hne]
  · have hne : npm ≠ yarn := by decide
    simp [isTemporary_npm h, hne]
  · simp [isTemporary_yarn h]

end Layout

end OfflineCache
