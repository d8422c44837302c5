import OfflineCache.Proofs.Fetch.FromFiles
import OfflineCache.Proofs.FileTree.Prefix

/-! Containment of file references. Bytes that are fetched from the project's files are the content
of a regular file, and as a rule of one below the project root. The exception: there are too many
links on the path of the reference, its resolution leaves names unresolved that exist, and one of
them is a link out of the root. Then the check sees the unresolved path, which lies inside, and the
reading follows the link. -/

namespace OfflineCache

open OfflineCache.Path OfflineCache.FileTree

/-- A regular file at the end of a path without links. -/
structure FileTree.IsRegularFile (t : FileTree) (place : Place) (b : Bytes) : Prop where
  above : ∀ q, q <+: place → q ≠ place → t.node? q = some .directory
  file : ∃ x, t.node? place = some (.file b x)

/-- The place lies below the one that the path resolves to, strictly so if that is a directory. -/
def FileTree.Descends (t : FileTree) (root : Path) (place : Place) : Prop :=
  ∃ r rest, t.resolvePrefix root = placePath r ∧ place = r ++ rest ∧
    (t.node? r = some .directory → rest ≠ [])

namespace Containment

/-- The path of a reference, as it stands before links are resolved. -/
def joined (l : Locator) (root : Path) : Path :=
  baseDirectory l root / .ofString l.decodedReference

theorem isAbsolute_baseDirectory (l : Locator) {root : Path} (h : root.isAbsolute = true) :
    (baseDirectory l root).isAbsolute = true := by
  unfold baseDirectory
  split
  · exact h
  · split
    · split
      · exact isAbsolute_join _ h
      · exact h
    · exact h

theorem isAbsolute_joined (l : Locator) {root : Path} (h : root.isAbsolute = true) :
    (joined l root).isAbsolute = true := by
  rw [joined]
  exact isAbsolute_join _ (isAbsolute_baseDirectory l h)

theorem target?_of_file {t : FileTree} {l : Locator} (h : l.protocol = .file) (root : Path) :
    target? t l root = some (t.resolvePrefix (joined l root)) := by
  simp [target?, joined, h, Protocol.bearsPath]

theorem contained?_eq_some_iff {t : FileTree} {l : Locator} (h : l.protocol = .file)
    {root target : Path} :
    contained? t l root = some target ↔ target = t.resolvePrefix (joined l root) ∧
      target.startsWith (t.resolvePrefix root) = true := by
  rw [contained?, target?_of_file h, Option.filter_eq_some_iff, Option.some_inj]
  constructor
  · rintro ⟨he, hs⟩
    exact ⟨he.symm, hs⟩
  · rintro ⟨he, hs⟩
    exact ⟨he.symm, hs⟩

theorem isRegularFile_of_holds {t : FileTree} {place : Place} {b : Bytes} {x : Bool}
    (h : Holds t place (.file b x)) : t.IsRegularFile place b :=
  ⟨fun _ => h.above, x, h.node?⟩

theorem descends_iff {t : FileTree} {root : Path} (hr : root.isAbsolute = true) {place : Place}
    {b : Bytes} {x : Bool} (h : Holds t place (.file b x)) :
    t.Descends root place ↔ (placePath place).startsWith (t.resolvePrefix root) = true := by
  obtain ⟨names, front, rest, node, hn, -, hres, hgo⟩ := resolvePrefix_of_absolute (t := t) hr
  have hname := hres.isName hn
  rw [hgo, startsWith_placePath h.names hname, Descends, hgo]
  constructor
  · rintro ⟨r, more, he, rfl, -⟩
    have hr : ∀ n ∈ r, IsName n := fun n hm => h.names n (List.mem_append_left more hm)
    obtain rfl := placePath_inj hname hr he
    exact List.prefix_append _ more
  · rintro ⟨more, rfl⟩
    refine ⟨front ++ rest, more, rfl, rfl, ?_⟩
    rintro hd rfl
    rw [List.append_nil] at h
    rw [h.node?] at hd
    cases hd

theorem guard_eq_deny {t : FileTree} {l : Locator} {root target : Path} {reason : DenyReason}
    (h : guard t .fetchable l root = .deny reason) (ht : target? t l root = some target) :
    target.startsWith (t.resolvePrefix root) = false := by
  by_contra hs
  rw [Bool.not_eq_false] at hs
  have hc : contained? t l root = some target := by
    rw [contained?, ht]
    simp [hs]
  simp [guard, escapes, hc] at h

/-- **Containment of file references.**  What is fetched is the content of a regular file, and the
file lies below the root unless there are too many links on the path and what is left of it leads
out. A reference that is denied does not lie below the root. -/
theorem file_run_contained {f : Fetcher} {l : Locator} (hr : f.root.isAbsolute = true)
    (hl : l.protocol = .file) (tr : Transport) (w : World) :
    (∀ a, (Fetching.run f tr l w).2 = .ok a →
      ∃ target place x, contained? w.files l f.root = some target ∧
        w.files.find target = .ok (place, .file a.bytes x) ∧
        w.files.IsRegularFile place a.bytes ∧
        (w.files.Descends f.root place ↔
          (w.files.locate (joined l f.root).normalize = .error .tooManyLinks →
            (w.files.resolvePrefix target).startsWith (w.files.resolvePrefix f.root) = true))) ∧
    ∀ reason target, guard w.files .fetchable l f.root = .deny reason →
      target? w.files l f.root = some target →
      target.startsWith (w.files.resolvePrefix f.root) = false := by
  constructor
  · intro a ha
    obtain ⟨target, hc, hb⟩ := Fetching.readBytes_of_run hl ha
    obtain ⟨place, x, hfind⟩ := readBytes_eq_ok_iff.mp hb
    refine ⟨target, place, x, hc, hfind, ?_⟩
    obtain ⟨htarget, hinside⟩ := (contained?_eq_some_iff hl).mp hc
    rw [htarget] at hfind hinside ⊢
    obtain ⟨hholds, hagain, hplace⟩ := find_resolvePrefix (isAbsolute_joined l hr) hfind
    refine ⟨isRegularFile_of_holds hholds, ?_⟩
    rw [descends_iff hr hholds, hagain]
    constructor
    · exact fun hs _ => hs
    · intro hs
      rcases hplace with hplace | hmany
      · rw [hplace] at hinside
        exact hinside
      · exact hs hmany
  · exact fun _ _ hd ht => guard_eq_deny hd ht

/-- A project with a file, a link to the project itself and a link to a file outside. -/
def linkedProject : FileTree where
  nodes := [
    ([['p']], .directory),
    ([['p'], ['v']], .file [105, 110] false),
    ([['p'], ['l']], .link ⟨['.']⟩),
    ([['p'], ['x']], .link ⟨['.', '.', '/', 's']⟩),
    ([['s']], .file [111, 117, 116] false)]
  home := []

def linkedFetcher : Fetcher := .make none (placePath [['p']]) .standard

/-- No file reference asks anything of it. -/
def unreachable : Transport := fun _ _ => ⟨.error .cancelled, false⟩

/-- A reference that takes the link to the project forty times before it names a file there. -/
def roundabout (name : Char) : Locator :=
  .simple ⟨none, "a"⟩ .file ((List.replicate 40 ['l', '/']).flatten ++ [name]) []

/-- The names on the way of the reference, from the root on. -/
def roundaboutNames (name : Char) : Place := ['p'] :: List.replicate 40 ['l'] ++ [[name]]

theorem isName_letter {c : Char} (hs : c ≠ '/') (hd : c ≠ '.') : IsName [c] :=
  ⟨by simp, by simpa using hs.symm, by simpa using hd, by simp⟩

theorem isName_roundabout {name : Char} (h : IsName [name]) :
    ∀ n ∈ roundaboutNames name, IsName n := by
  intro n hn
  simp only [roundaboutNames, List.cons_append, List.mem_cons, List.mem_append,
    List.mem_replicate, List.not_mem_nil, or_false] at hn
  rcases hn with rfl | ⟨-, rfl⟩ | rfl
  · exact isName_letter (by decide) (by decide)
  · exact isName_letter (by decide) (by decide)
  · exact h

theorem walk_project (ss : List (List Char)) :
    linkedProject.walk true maxLinks [] (['p'] :: ss) =
      linkedProject.walk true maxLinks [['p']] ss :=
  walk_into (isName_letter (by decide) (by decide)) (by decide) (by decide)

/-- Each time around costs one link. -/
theorem walk_roundabout (links n : Nat) (rest : List (List Char)) :
    linkedProject.walk true (links + n) [['p']] (List.replicate n ['l'] ++ rest) =
      linkedProject.walk true links [['p']] rest := by
  induction n with
  | zero => rfl
  | succ n ih =>
    have hl : IsName ['l'] := isName_letter (by decide) (by decide)
    have hn : linkedProject.node? ([['p']] ++ [['l']]) = some (.link ⟨['.']⟩) := by decide
    have hstep : steps ⟨['.']⟩ = [['.']] := by decide
    rw [List.replicate_succ, List.cons_append, ← Nat.add_assoc, walk_link hl (by decide) hn, hstep]
    simp only [show Path.isAbsolute ⟨['.']⟩ = false from rfl, Bool.false_eq_true, if_false]
    rw [List.singleton_append, walk_cons, if_pos rfl, ih]

theorem walk_roundaboutNames (name : Char) :
    linkedProject.walk true maxLinks [] (roundaboutNames name) =
      linkedProject.walk true 0 [['p']] [[name]] := by
  rw [roundaboutNames, List.cons_append, walk_project]
  exact walk_roundabout 0 40 [[name]]

theorem resolvePrefix_linkedProject :
    linkedProject.resolvePrefix (placePath [['p']]) = placePath [['p']] := by
  have hn : ∀ n ∈ [['p']], IsName n := by simpa using isName_letter (by decide) (by decide)
  have hf : linkedProject.locate (placePath [['p']]) = .ok ([['p']], .directory) := by
    refine (locate_placePath_eq_ok_iff hn).mpr ⟨by decide, ?_⟩
    rw [walk_project, walk_nil]
  exact resolvePrefix_of_locate hn hf

theorem contained?_roundabout {name : Char}
    (hj : joined (roundabout name) linkedFetcher.root = placePath (roundaboutNames name))
    (h : linkedProject.resolvePrefix (placePath (roundaboutNames name)) =
      placePath [['p'], [name]])
    (hs : (placePath [['p'], [name]]).startsWith (placePath [['p']]) = true) :
    contained? linkedProject (roundabout name) linkedFetcher.root =
      some (placePath [['p'], [name]]) := by
  refine (contained?_eq_some_iff rfl).mpr ⟨?_, ?_⟩
  · rw [hj, h]
  · show (placePath _).startsWith (linkedProject.resolvePrefix (placePath [['p']])) = true
    rw [resolvePrefix_linkedProject, hs]

theorem file_run_contained_linked :
    linkedFetcher.root.isAbsolute = true ∧ (roundabout 'v').protocol = .file ∧
      ∃ a, (Fetching.run linkedFetcher unreachable (roundabout 'v')
          (.ofFiles linkedProject)).2 = .ok a ∧
        ∃ place, linkedProject.IsRegularFile place a.bytes ∧
          linkedProject.Descends linkedFetcher.root place := by
  have hv : IsName ['v'] := isName_letter (by decide) (by decide)
  have hnames : ∀ n ∈ [['p'], ['v']], IsName n :=
    fun n hm => isName_roundabout hv n (by revert hm; revert n; decide)
  have hn : linkedProject.node? ([['p']] ++ [['v']]) = some (.file [105, 110] false) := by decide
  have hlocate : linkedProject.locate (placePath (roundaboutNames 'v')) =
      .ok ([['p'], ['v']], .file [105, 110] false) := by
    refine (locate_placePath_eq_ok_iff (isName_roundabout hv)).mpr ⟨by decide, ?_⟩
    rw [walk_roundaboutNames, walk_file hv (by decide) hn]
    rfl
  have hread : linkedProject.readBytes (placePath [['p'], ['v']]) = .ok [105, 110] := by
    refine readBytes_placePath [['p'], ['v']] false hnames (by decide) (by decide) ?_
    rw [walk_project, walk_file hv (by decide) hn]
    rfl
  have hj : joined (roundabout 'v') linkedFetcher.root = placePath (roundaboutNames 'v') := by
    decide +kernel
  have hc := contained?_roundabout hj (resolvePrefix_of_locate (isName_roundabout hv) hlocate)
    (by decide)
  have hrun := Fetching.run_of_readBytes (w := .ofFiles linkedProject) rfl rfl hc hread unreachable
  refine ⟨rfl, rfl, _, hrun, ?_⟩
  obtain ⟨_, place, _, -, -, hfile, hiff⟩ :=
    (file_run_contained (f := linkedFetcher) (l := roundabout 'v') rfl rfl unreachable
      (.ofFiles linkedProject)).1 _ hrun
  refine ⟨place, hfile, hiff.mpr fun hmany => ?_⟩
  rw [hj, normalize_placePath (isName_roundabout hv)] at hmany
  cases hlocate.symm.trans hmany

/-! ### One link too many -/

/-- The last name stays unresolved, although it is a link. -/
theorem resolvePrefix_roundabout :
    linkedProject.resolvePrefix (placePath (roundaboutNames 'x')) = placePath [['p'], ['x']] := by
  have hx : IsName ['x'] := isName_letter (by decide) (by decide)
  have hp : ∀ n ∈ [['p']], IsName n := by simpa using isName_letter (by decide) (by decide)
  have hn : linkedProject.node? ([['p']] ++ [['x']]) = some (.link ⟨['.', '.', '/', 's']⟩) := by
    decide
  have hround : ∀ n ∈ ['p'] :: List.replicate 40 ['l'], IsName n :=
    fun n hm => isName_roundabout hx n (List.mem_append_left [['x']] hm)
  have hfront : linkedProject.locate (placePath (['p'] :: List.replicate 40 ['l'])) =
      .ok ([['p']], .directory) := by
    refine (locate_placePath_eq_ok_iff hround).mpr ⟨by decide, ?_⟩
    have hwalk := walk_roundabout 0 40 []
    rw [List.append_nil] at hwalk
    rw [walk_project, show maxLinks = 0 + 40 from rfl, hwalk, walk_nil]
  have hfails : linkedProject.locate (placePath (roundaboutNames 'x')) = .error .tooManyLinks := by
    rw [locate_placePath (isName_roundabout hx) (by decide), walk_roundaboutNames,
      walk_link_zero hx (by decide) hn]
    rfl
  exact resolvePrefix_concat (isName_roundabout hx) hp hfails (resolvePrefix_of_locate hround hfront)

/-- Reading follows it. -/
theorem readBytes_link : linkedProject.readBytes (placePath [['p'], ['x']]) = .ok [111, 117, 116] := by
  have hx : IsName ['x'] := isName_letter (by decide) (by decide)
  have hs : IsName ['s'] := isName_letter (by decide) (by decide)
  have hnames : ∀ n ∈ [['p'], ['x']], IsName n :=
    fun n hm => isName_roundabout hx n (by revert hm; revert n; decide)
  have hn : linkedProject.node? ([['p']] ++ [['x']]) = some (.link ⟨['.', '.', '/', 's']⟩) := by
    decide
  have hns : linkedProject.node? ([] ++ [['s']]) = some (.file [111, 117, 116] false) := by decide
  have hstep : steps ⟨['.', '.', '/', 's']⟩ = [['.', '.'], ['s']] := by decide
  refine readBytes_placePath [['s']] false hnames (by decide) (by decide) ?_
  rw [walk_project, show maxLinks = 39 + 1 from rfl, walk_link hx (by decide) hn, hstep]
  simp only [show Path.isAbsolute ⟨['.', '.', '/', 's']⟩ = false from rfl, Bool.false_eq_true,
    if_false, List.cons_append, List.nil_append]
  rw [walk_cons, if_neg (by decide), if_pos rfl, show [['p']].dropLast = [] from rfl,
    walk_file hs (by decide) hns]
  rfl

theorem place_of_secret {place : Place} {x : Bool}
    (h : linkedProject.node? place = some (.file [111, 117, 116] x)) : place = [['s']] := by
  have hm := mem_nodes_of_node? h (by simp)
  simp [linkedProject] at hm
  exact hm.1

/-- With one link more than are followed, the link out of the project is not seen. -/
theorem roundabout_file_run_escapes :
    ¬ ∀ (f : Fetcher) (l : Locator) (tr : Transport) (w : World) (a : Artifact),
      f.root.isAbsolute = true → l.protocol = .file → (Fetching.run f tr l w).2 = .ok a →
      ∃ place, w.files.IsRegularFile place a.bytes ∧ w.files.Descends f.root place := by
  intro hall
  have hj : joined (roundabout 'x') linkedFetcher.root = placePath (roundaboutNames 'x') := by
    decide +kernel
  have hc := contained?_roundabout hj resolvePrefix_roundabout (by decide)
  have hrun := Fetching.run_of_readBytes (w := .ofFiles linkedProject) rfl rfl hc readBytes_link
  obtain ⟨place, ⟨-, y, hfile⟩, r, rest, hr, rfl, -⟩ :=
    hall linkedFetcher (roundabout 'x') unreachable (.ofFiles linkedProject) _ rfl rfl (hrun _)
  have hr' : placePath [['p']] = placePath r := resolvePrefix_linkedProject.symm.trans hr
  rcases List.append_eq_singleton_iff.mp (place_of_secret hfile) with ⟨rfl, -⟩ | ⟨rfl, -⟩
  · exact absurd hr' (by decide)
  · exact absurd hr' (by decide)

end Containment

end OfflineCache
