import OfflineCache.Proofs.Layout.Template
import OfflineCache.Proofs.Store.Places

/-! Paths of layouts stay below the cache root. Whatever a template and the values put into it say,
there is a path only where what comes out is plain names, and plain names behind a root lie below it
in every spelling: the normal form of the whole is that of the root and then the names
(`Layout.relativePath_below_root`). -/

namespace OfflineCache

open OfflineCache.Path OfflineCache.FileTree

namespace Path

theorem Plain.normalize_join {q : Path} {names : List (List Char)} (h : Plain q names) {p : Path}
    (hp : p.isAbsolute = true) :
    (p / q).normalize.components = p.normalize.components ++ names.map .name := by
  obtain ⟨place, hplace, hcs, hp'⟩ := normalize_eq_placePath hp
  have hall : ∀ n ∈ place ++ names, IsName n := by
    intro n hn
    rcases List.mem_append.mp hn with hn | hn
    · exact hplace n hn
    · exact h.isName n hn
  have hjoin : (p / q).normalize = placePath (place ++ names) := by
    rw [normalize, h.components_join, normalComponents_append_names, hcs, List.cons_append,
      ← List.map_append]
    rfl
  rw [hjoin, hp', components_placePath hall, components_placePath hplace, List.map_append,
    List.cons_append]

end Path

namespace Layout

variable {y : Layout} {l : Locator} {digest : Checksum}

theorem relativePath_of_render {s : List Char}
    (h : Template.render (placeholder? l digest) y.template.toList = .ok s) :
    y.relativePath l digest =
      if s ≠ [] ∧ isPlain ⟨s⟩ then .ok ⟨s⟩ else .error (.unsafePath y.name (String.ofList s)) := by
  rw [relativePath, h]

theorem render_of_relativePath {q : Path} (h : y.relativePath l digest = .ok q) :
    Template.render (placeholder? l digest) y.template.toList = .ok q.chars := by
  cases hr : Template.render (placeholder? l digest) y.template.toList with
  | error f =>
    rw [relativePath, hr] at h
    cases h
  | ok s =>
    rw [relativePath_of_render hr] at h
    split at h
    · cases h
      rfl
    · cases h

theorem exists_not_name_of_not_isPlain {q : Path} (h : ¬ isPlain q = true) :
    ∃ c ∈ q.components, ∀ n, c ≠ .name n := by
  rw [isPlain, Bool.not_eq_true, List.all_eq_false] at h
  obtain ⟨c, hc, hnot⟩ := h
  refine ⟨c, hc, ?_⟩
  rintro n rfl
  exact hnot rfl

/-- **No path leaves the cache root.** The template, the locator and the digest either give a path
of at least one name, each a name that a directory can hold, which taken from any absolute root lies
strictly below it; or the template is at fault; or what comes out of it is unsafe, that is empty or
with a component that is no name. -/
theorem relativePath_below_root (y : Layout) (l : Locator) (digest : Checksum) :
    (∃ q names, y.relativePath l digest = .ok q ∧ names ≠ [] ∧ (∀ n ∈ names, IsName n) ∧
      q.components = names.map .name ∧
      ∀ root : Path, root.isAbsolute = true →
        (root / q).normalize.components = root.normalize.components ++ names.map .name) ∨
    (∃ fault, Template.render (placeholder? l digest) y.template.toList = .error fault ∧
      y.relativePath l digest = .error (.template y.template fault)) ∨
    ∃ s, Template.render (placeholder? l digest) y.template.toList = .ok s ∧
      (s = [] ∨ ∃ c ∈ components ⟨s⟩, ∀ n, c ≠ .name n) ∧
      y.relativePath l digest = .error (.unsafePath y.name (String.ofList s)) := by
  cases hr : Template.render (placeholder? l digest) y.template.toList with
  | error fault => exact Or.inr (Or.inl ⟨fault, rfl, by rw [relativePath, hr]⟩)
  | ok s =>
    have hpath := relativePath_of_render hr
    by_cases hs : s ≠ [] ∧ isPlain ⟨s⟩
    · rw [if_pos hs] at hpath
      obtain ⟨names, hplain⟩ := plain_of_relativePath hpath
      exact Or.inl ⟨_, names, hpath, hplain.nonempty, hplain.isName, hplain.components,
        fun root hroot => hplain.normalize_join hroot⟩
    · rw [if_neg hs] at hpath
      refine Or.inr (Or.inr ⟨s, rfl, ?_, hpath⟩)
      by_cases he : s = []
      · exact Or.inl he
      · exact Or.inr (exists_not_name_of_not_isPlain fun hplain => hs ⟨he, hplain⟩)

/-- A scoped name whose version is what the locator says it is. -/
def versioned (scope name version : String) : Locator :=
  Locator.simple ⟨some scope, name⟩ .git [] [("version", version)]

def versionsOnly : Layout := ⟨"versions", "v/\x7bversion\x7d"⟩

/-- One version becomes several names, below a root that is not spelt in its normal form. -/
theorem relativePath_below_root_spread :
    versionsOnly.relativePath (versioned "s" "x" "1/./2//3") ⟨.sha256, []⟩ =
        .ok ⟨"v/1/./2//3".toList⟩ ∧
      Path.isAbsolute ⟨"/c/../d".toList⟩ = true ∧
      (Path.mk "/c/../d".toList / ⟨"v/1/./2//3".toList⟩).normalize.components =
        (Path.mk "/c/../d".toList).normalize.components ++
          [['v'], ['1'], ['2'], ['3']].map .name := by
  have htemplate : versionsOnly.template.toList =
      "v/".toList ++ '\x7b' :: ("version".toList ++ '\x7d' :: []) := rfl
  have hrender : Template.render (placeholder? (versioned "s" "x" "1/./2//3") ⟨.sha256, []⟩)
      versionsOnly.template.toList = .ok "v/1/./2//3".toList := by
    rw [htemplate, Template.render_placeholder (by decide) (by decide) (by rfl),
      Template.render_of_notMem (by decide)]
    rfl
  have hpath := (relativePath_of_render hrender).trans (if_pos (by decide +kernel))
  refine ⟨hpath, rfl, ?_⟩
  rcases relativePath_below_root versionsOnly (versioned "s" "x" "1/./2//3") ⟨.sha256, []⟩ with
    ⟨q, names, hq, -, -, hnames, hbelow⟩ | ⟨fault, -, hq⟩ | ⟨s, -, -, hq⟩
  · cases hpath.symm.trans hq
    have hwritten : Path.components ⟨"v/1/./2//3".toList⟩ =
        [['v'], ['1'], ['2'], ['3']].map .name := by decide +kernel
    rw [hbelow _ rfl, ← hnames, hwritten]
  · cases hpath.symm.trans hq
  · cases hpath.symm.trans hq

end Layout

end OfflineCache
