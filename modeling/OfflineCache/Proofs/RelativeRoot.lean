import OfflineCache.Proofs.Containment
import OfflineCache.Proofs.FileTree.Home

/-! Containment with a root that is a relative path. What such a root contains, its full path
contains (`contained?_fromHome`), so nothing that lies outside is let through. The exception: a root
that is the working directory in its text alone, such as a dot, resolves to the empty path, and
every path begins with that one, so everything is let through. `relative_root_contained` is the
whole of it. -/

namespace OfflineCache

open OfflineCache.Path OfflineCache.FileTree

/-- The path lies below the base, both taken from the working directory, with the links of the base
resolved. -/
def FileTree.Inside (t : FileTree) (base p : Path) : Prop :=
  ∃ r rest, (∀ n ∈ r ++ rest, IsName n) ∧ t.resolvePrefix (t.fromHome base) = placePath r ∧
    t.fromHome p = placePath (r ++ rest)

namespace Containment

variable {t : FileTree} {l : Locator} {root : Path}

theorem baseDirectory_fromHome (t : FileTree) (l : Locator) (root : Path) :
    baseDirectory l (t.fromHome root) = t.fromHome (baseDirectory l root) := by
  unfold baseDirectory
  split
  · rfl
  · split
    · split
      · exact fromHome_join root _
      · rfl
    · rfl

theorem joined_fromHome (t : FileTree) (l : Locator) (root : Path) :
    joined l (t.fromHome root) = t.fromHome (joined l root) := by
  rw [joined, baseDirectory_fromHome, fromHome_join]
  rfl

/-- **What a relative root contains, its full path contains.** -/
theorem contained?_fromHome (ht : t.AtHome) (hl : l.protocol = .file)
    (hroot : normalComponents root.components ≠ []) {target : Path}
    (h : contained? t l root = some target) :
    contained? t l (t.fromHome root) = some (t.fromHome target) := by
  obtain ⟨rfl, hinside⟩ := (contained?_eq_some_iff hl).mp h
  obtain ⟨hsame, hhome⟩ := ht.startsWith_fromHome hroot hinside
  refine (contained?_eq_some_iff hl).mpr ⟨?_, ?_⟩
  · rw [joined_fromHome, hsame]
  · rwa [hsame]

theorem inside_of_contained? (hl : l.protocol = .file) {target : Path}
    (h : contained? t l (t.fromHome root) = some (t.fromHome target)) : t.Inside root target := by
  obtain ⟨htarget, hinside⟩ := (contained?_eq_some_iff hl).mp h
  obtain ⟨_, r, more, _, hn, -, hres, hr⟩ :=
    resolvePrefix_of_absolute (t := t) (isAbsolute_fromHome (t := t) root)
  obtain ⟨_, q, rest, _, hm, -, hres', hq⟩ := resolvePrefix_of_absolute (t := t)
    (isAbsolute_joined l (isAbsolute_fromHome (t := t) root))
  have hnames := hres'.isName hm
  rw [htarget, hq, hr, startsWith_placePath hnames (hres.isName hn)] at hinside
  obtain ⟨below, hbelow⟩ := hinside
  rw [← hbelow] at hnames hq
  exact ⟨r ++ more, below, hnames, hr, htarget.trans hq⟩

/-- What lies at a contained path lies below the root, unless there are too many links. -/
theorem startsWith_of_contained? (ht : t.AtHome) (hl : l.protocol = .file)
    (hroot : normalComponents root.components ≠ []) {target : Path}
    (h : contained? t l root = some target) {place : Place} {node : Node}
    (hfind : t.find target = .ok (place, node)) :
    (placePath place).startsWith (t.resolvePrefix (t.fromHome root)) = true ∨
      t.locate (t.fromHome (joined l root)).normalize = .error .tooManyLinks := by
  obtain ⟨rfl, hinside⟩ := (contained?_eq_some_iff hl).mp h
  obtain ⟨-, hhome⟩ := ht.startsWith_fromHome hroot hinside
  have hlocate := ht.locate_of_resolvePrefix (find_eq_ok_iff.mp hfind).2
  obtain ⟨-, -, hplace | hmany⟩ := locate_resolvePrefix (isAbsolute_fromHome _) hlocate
  · rw [hplace] at hhome
    exact Or.inl hhome
  · exact Or.inr hmany

theorem escapes_eq_true_iff (hl : l.protocol = .file) :
    escapes t l root = true ↔
      (t.resolvePrefix (joined l root)).startsWith (t.resolvePrefix root) = false := by
  simp [escapes, contained?, target?_of_file hl, hl, Protocol.bearsPath, Option.filter]

/-- **Containment with a relative root.** What is contained lies below the root, both taken from the
working directory, and so does what is found there, unless there are too many links; and an absolute
reference that leads outside is an escape. All this if anything is left of the root in its normal
form: if nothing is, there is no escape. -/
theorem relative_root_contained (ht : t.AtHome) (hl : l.protocol = .file) :
    (normalComponents root.components ≠ [] →
      (∀ target, contained? t l root = some target → t.Inside root target ∧
        ∀ place node, t.find target = .ok (place, node) →
          (placePath place).startsWith (t.resolvePrefix (t.fromHome root)) = true ∨
            t.locate (t.fromHome (joined l root)).normalize = .error .tooManyLinks) ∧
      ((Path.ofString l.decodedReference).isAbsolute = true →
        (t.resolvePrefix (.ofString l.decodedReference)).startsWith
          (t.resolvePrefix (t.fromHome root)) = false → escapes t l root = true)) ∧
    (normalComponents root.components = [] → escapes t l root = false) := by
  refine ⟨fun hroot => ⟨fun target h => ⟨?inside, ?found⟩, ?outside⟩, ?empty⟩
  case inside => exact inside_of_contained? hl (contained?_fromHome ht hl hroot h)
  case found => exact fun place node hfind => startsWith_of_contained? ht hl hroot h hfind
  case outside =>
    intro habs hout
    have hjoined : joined l root = .ofString l.decodedReference := join_of_absolute _ habs
    refine (escapes_eq_true_iff hl).mpr ?_
    by_contra hin
    rw [Bool.not_eq_false] at hin
    have hhome := (ht.startsWith_fromHome hroot hin).2
    rw [hjoined, fromHome_of_absolute habs, hout] at hhome
    cases hhome
  case empty =>
    intro hroot
    rw [← Bool.not_eq_true, escapes_eq_true_iff hl,
      startsWith_of_normalComponents_eq_nil hroot]
    simp

/-- A project with a file, in the working directory. -/
def projectAtHome : FileTree where
  nodes := [
    ([['w']], .directory),
    ([['w'], ['p']], .directory),
    ([['w'], ['p'], ['x']], .file [105, 110] false)]
  home := [['w']]

theorem projectAtHome_atHome : projectAtHome.AtHome := by
  have hw : IsName ['w'] := isName_letter (by decide) (by decide)
  exact ⟨Grounded.into .root hw (by decide) (by decide), by decide⟩

/-- A file reference, as it is written. -/
def fileReference (reference : List Char) : Locator := .simple ⟨none, "a"⟩ .file reference []

theorem relative_root_contained_project :
    projectAtHome.AtHome ∧ (fileReference ['x']).protocol = .file ∧
      normalComponents (components ⟨['p']⟩) ≠ [] ∧
      projectAtHome.Inside ⟨['p']⟩ ⟨"/w/p/x".toList⟩ ∧
      escapes projectAtHome (fileReference "/x".toList) ⟨['p']⟩ = true := by
  have hroot : normalComponents (components ⟨['p']⟩) ≠ [] := by decide
  have hinside := (relative_root_contained projectAtHome_atHome
    (l := fileReference ['x']) rfl).1 hroot
  have houtside := (relative_root_contained projectAtHome_atHome
    (l := fileReference "/x".toList) rfl).1 hroot
  refine ⟨projectAtHome_atHome, rfl, hroot, ?_, ?_⟩
  · exact (hinside.1 ⟨"/w/p/x".toList⟩ (by decide +kernel)).1
  · exact houtside.2 (by decide +kernel) (by decide +kernel)

/-- With a dot for the root, an absolute reference out of the working directory is let through. -/
theorem dot_root_contains_all :
    projectAtHome.AtHome ∧ (fileReference "/x".toList).protocol = .file ∧
      contained? projectAtHome (fileReference "/x".toList) ⟨['.']⟩ = some ⟨"/x".toList⟩ ∧
      ¬projectAtHome.Inside ⟨['.']⟩ ⟨"/x".toList⟩ ∧
      escapes projectAtHome (fileReference "/x".toList) ⟨['.']⟩ = false := by
  refine ⟨projectAtHome_atHome, rfl, by decide +kernel, ?_, by decide +kernel⟩
  rintro ⟨r, rest, hn, hr, hx⟩
  have hw : ∀ n ∈ [['w']], IsName n := by simpa using isName_letter (by decide) (by decide)
  have hx' : ∀ n ∈ [['x']], IsName n := by simpa using isName_letter (by decide) (by decide)
  have hhome : projectAtHome.resolvePrefix (projectAtHome.fromHome ⟨['.']⟩) = placePath [['w']] := by
    decide +kernel
  have hpath : projectAtHome.fromHome ⟨"/x".toList⟩ = placePath [['x']] := by decide
  obtain rfl := placePath_inj hw (fun n hm => hn n (List.mem_append_left rest hm))
    (hhome.symm.trans hr)
  exact absurd (placePath_inj hx' hn (hpath.symm.trans hx)) (by simp)

end Containment

end OfflineCache
