import OfflineCache.Proofs.FileTree.Prefix
import OfflineCache.Proofs.Path.Climbing

/-! Relative paths, seen from the working directory. A relative path leads where its normal form
leads from there, so resolving it gives what resolving the whole path gives, unless not even its
first name leads anywhere: then it stays relative (`AtHome.seenFromHome`). -/

namespace OfflineCache.FileTree

open OfflineCache.Path

variable {t : FileTree}

/-- The working directory is a directory, and its path can be written. -/
structure AtHome (t : FileTree) : Prop where
  grounded : Grounded t t.home
  written : ∀ n ∈ t.home, '\x00' ∉ n

/-- The path as it is taken from the working directory. -/
def fromHome (t : FileTree) (p : Path) : Path := placePath t.home / p

theorem isAbsolute_fromHome (p : Path) : (t.fromHome p).isAbsolute = true :=
  isAbsolute_join p (isAbsolute_placePath _)

theorem fromHome_of_absolute {p : Path} (h : p.isAbsolute = true) : t.fromHome p = p :=
  join_of_absolute _ h

theorem fromHome_join (p q : Path) : t.fromHome p / q = t.fromHome (p / q) := join_assoc _ p q

/-! ## Walking up -/

theorem Grounded.above {p : Place} (h : Grounded t p) (k : Nat) : Grounded t (above k p) := by
  induction k with
  | zero => exact h
  | succ k ih =>
    rw [above_succ]
    exact ih.dropLast

theorem walk_up {follow : Bool} {links : Nat} (k : Nat) (origin : Place)
    (ss : List (List Char)) :
    t.walk follow links origin (List.replicate k ['.', '.'] ++ ss) =
      t.walk follow links (above k origin) ss := by
  induction k generalizing origin with
  | zero => rfl
  | succ k ih =>
    rw [List.replicate_succ, List.cons_append, walk_cons, if_neg (by decide), if_pos rfl, ih]
    rfl

/-! ## Resolving from the end -/

/-- What resolving the components gives when names have been put behind them already. -/
def resolveBehind (t : FileTree) (cs : List Component) (rest : Place) : Path :=
  resolvePrefix.go t cs.length cs (rest.map .name)

theorem resolvePrefix_eq (p : Path) :
    t.resolvePrefix p = t.resolveBehind (normalComponents p.components) [] := rfl

theorem resolveBehind_of_locate {cs : List Component} {place rest : Place} {node : Node}
    (h : t.locate (ofComponents cs) = .ok (place, node)) (hp : ∀ n ∈ place, IsName n)
    (hr : ∀ n ∈ rest, IsName n) : t.resolveBehind cs rest = placePath (place ++ rest) := by
  have hc : t.canonicalize (ofComponents cs) = .ok (placePath place) := by
    rw [canonicalize, h]
    rfl
  cases cs with
  | nil => cases h
  | cons c cs =>
    simp only [resolveBehind, List.length_cons, resolvePrefix.go, hc]
    exact normalize_ofComponents hp hr

theorem resolveBehind_concat {cs : List Component} {n : List Char} {fault : Fault}
    (h : t.locate (ofComponents (cs ++ [.name n])) = .error fault) (rest : Place) :
    t.resolveBehind (cs ++ [.name n]) rest = t.resolveBehind cs (n :: rest) := by
  have hc : t.canonicalize (ofComponents (cs ++ [.name n])) = .error fault := by
    rw [canonicalize, h]
    rfl
  rw [resolveBehind, List.length_append, List.length_singleton, resolvePrefix.go]
  simp only [hc, List.getLast?_concat, List.dropLast_concat]
  rfl

section AtHome

variable (ht : t.AtHome) {k : Nat} {ns : Place} (hn : ∀ n ∈ ns, IsName n)

include ht hn

theorem AtHome.names (k : Nat) : ∀ n ∈ above k t.home ++ ns, IsName n := by
  intro n hm
  rcases List.mem_append.mp hm with hm | hm
  · exact (ht.grounded.above k).names n hm
  · exact hn n hm

/-- A relative path in normal form leads where the path from the root leads. -/
theorem AtHome.locate_climbing (hne : climbing k ns ≠ []) :
    t.locate (ofComponents (climbing k ns)) = t.locate (placePath (above k t.home ++ ns)) := by
  have hnames := ht.names hn k
  have hnul : '\x00' ∈ (ofComponents (climbing k ns)).chars ↔
      '\x00' ∈ (placePath (above k t.home ++ ns)).chars := by
    rw [nul_mem_climbing hn, nul_mem_placePath]
    constructor
    · rintro ⟨n, hm, hz⟩
      exact ⟨n, List.mem_append_right _ hm, hz⟩
    · rintro ⟨n, hm, hz⟩
      rcases List.mem_append.mp hm with hm | hm
      · exact absurd hz (ht.written n (above_subset k _ n hm))
      · exact ⟨n, hm, hz⟩
  by_cases hz : '\x00' ∈ (placePath (above k t.home ++ ns)).chars
  · simp [locate, hz, hnul.mpr hz]
  · have hrelative := isAbsolute_ofComponents (of_mem_climbing (k := k) hn)
    have hz' : ¬(ofComponents (climbing k ns)).chars.contains '\x00' = true := by
      simpa [hnul] using hz
    rw [locate_placePath hnames hz, walk_grounded (ht.grounded.above k), locate, if_neg hz',
      if_neg (chars_climbing_ne_nil hn hne), hrelative, steps_climbing hn, walk_up]
    rfl

omit hn in
theorem AtHome.locate_above (k : Nat) :
    t.locate (placePath (above k t.home)) = .ok (above k t.home, .directory) := by
  have hg := ht.grounded.above k
  refine (locate_placePath_eq_ok_iff hg.names).mpr ⟨?_, ?_⟩
  · rw [nul_mem_placePath]
    rintro ⟨n, hm, hz⟩
    exact ht.written n (above_subset k _ n hm) hz
  · rw [← List.append_nil (above k t.home), walk_grounded hg, walk_nil, List.append_nil]

/-- A relative path in normal form is resolved to what the path from the root is resolved to; or
nothing of it leads anywhere, and it is resolved to itself. -/
theorem AtHome.resolveBehind_climbing (rest : Place) (hr : ∀ n ∈ rest, IsName n) :
    t.resolveBehind (climbing k ns) rest =
        t.resolveBehind (.root :: (above k t.home ++ ns).map .name) rest ∨
      k = 0 ∧ t.resolveBehind (climbing k ns) rest = ofComponents ((ns ++ rest).map .name) ∧
        t.resolveBehind (.root :: (above k t.home ++ ns).map .name) rest =
          placePath (t.home ++ (ns ++ rest)) := by
  -- from the end of the names: what both lead to is found at once, or both put a name behind
  induction ns using List.reverseRecOn generalizing rest with
  | nil =>
    have hplace := resolveBehind_of_locate (ht.locate_above k) (ht.grounded.above k).names hr
    rw [List.append_nil]
    cases k with
    | zero => exact Or.inr ⟨rfl, rfl, hplace⟩
    | succ k =>
      have hup := ht.locate_climbing (by simp) (show climbing (k + 1) [] ≠ [] by simp [climbing])
      rw [List.append_nil, ht.locate_above (k + 1)] at hup
      refine Or.inl ?_
      rw [hplace, resolveBehind_of_locate hup (ht.grounded.above (k + 1)).names hr]
  | append_singleton ns n ih =>
    have hfront : ∀ m ∈ ns, IsName m := fun m hm => hn m (List.mem_append_left [n] hm)
    have hrest : ∀ m ∈ n :: rest, IsName m := List.forall_mem_cons.mpr ⟨hn n (by simp), hr⟩
    have hsame := ht.locate_climbing (k := k) hn (by simp [climbing_concat])
    cases hl : t.locate (placePath (above k t.home ++ (ns ++ [n]))) with
    | ok found =>
      obtain ⟨place, node⟩ := found
      have hplace := (holds_of_locate (ht.names hn k) hl).names
      refine Or.inl ?_
      rw [resolveBehind_of_locate (hsame.trans hl) hplace hr, resolveBehind_of_locate hl hplace hr]
    | error fault =>
      have hback : Component.root :: (above k t.home ++ (ns ++ [n])).map .name =
          (.root :: (above k t.home ++ ns).map .name) ++ [.name n] := by simp
      rw [hl, climbing_concat] at hsame
      rw [placePath, hback] at hl
      rw [climbing_concat, hback, resolveBehind_concat hsame, resolveBehind_concat hl,
        List.append_assoc ns]
      exact ih hfront (n :: rest) hrest

end AtHome

/-! ## Resolving -/

/-- What comes of resolving a path, and what of resolving it from the working directory: the same
place; or names that stay relative, because not even the first of them leads anywhere. -/
inductive SeenFromHome (t : FileTree) (p : Path) : Prop
  | place {q : Place} : (∀ n ∈ q, IsName n) → t.resolvePrefix p = placePath q →
      t.resolvePrefix (t.fromHome p) = placePath q → SeenFromHome t p
  | relative {ns : Place} : (∀ n ∈ ns, IsName n) → normalComponents p.components = ns.map .name →
      t.resolvePrefix p = ofComponents (ns.map .name) →
      t.resolvePrefix (t.fromHome p) = placePath (t.home ++ ns) → SeenFromHome t p

theorem seenFromHome_of_eq {p : Path} (h : t.resolvePrefix p = t.resolvePrefix (t.fromHome p)) :
    SeenFromHome t p := by
  obtain ⟨names, place, rest, _, hn, -, hres, hgo⟩ :=
    resolvePrefix_of_absolute (t := t) (isAbsolute_fromHome (t := t) p)
  exact .place (hres.isName hn) (h.trans hgo) hgo

theorem AtHome.seenFromHome (ht : t.AtHome) (p : Path) : SeenFromHome t p := by
  cases hp : p.isAbsolute with
  | true => exact seenFromHome_of_eq (by rw [fromHome_of_absolute hp])
  | false =>
    obtain ⟨k, ns, hn, hnormal, hplace⟩ := normalComponents_of_relative hp
    have hhome := hplace t.home ht.grounded.names
    rcases ht.resolveBehind_climbing (k := k) hn [] (by simp) with hsame | ⟨rfl, hpath, hpath'⟩
    · refine seenFromHome_of_eq ?_
      rw [resolvePrefix_eq, resolvePrefix_eq, fromHome, hnormal, hhome, hsame]
    · rw [List.append_nil] at hpath hpath'
      refine .relative hn hnormal ?_ ?_
      · rw [resolvePrefix_eq, hnormal, hpath]
      · rw [resolvePrefix_eq, fromHome, hhome, hpath']

theorem not_startsWith_placePath {ns place : Place} (hn : ∀ n ∈ ns, IsName n)
    (hp : ∀ n ∈ place, IsName n) :
    ¬(ofComponents (ns.map .name)).startsWith (placePath place) = true := by
  intro h
  rw [startsWith, components_names hn, components_placePath hp, List.isPrefixOf_iff_prefix] at h
  have hm : Component.root ∈ ns.map Component.name := h.subset List.mem_cons_self
  simp at hm

theorem not_placePath_startsWith {ns place : Place} (hn : ∀ n ∈ ns, IsName n)
    (hp : ∀ n ∈ place, IsName n) (hne : ns ≠ []) :
    ¬(placePath place).startsWith (ofComponents (ns.map .name)) = true := by
  intro h
  obtain ⟨n, r, rfl⟩ := List.exists_cons_of_ne_nil hne
  rw [startsWith, components_names hn, components_placePath hp, List.isPrefixOf_iff_prefix,
    List.map_cons, List.cons_prefix_cons] at h
  cases h.1

/-- What lies below a resolved base lies below it when both are taken from the working directory,
if anything is left of the base in its normal form. -/
theorem AtHome.startsWith_fromHome (ht : t.AtHome) {p base : Path}
    (hbase : normalComponents base.components ≠ [])
    (h : (t.resolvePrefix p).startsWith (t.resolvePrefix base) = true) :
    t.fromHome (t.resolvePrefix p) = t.resolvePrefix (t.fromHome p) ∧
      (t.resolvePrefix (t.fromHome p)).startsWith (t.resolvePrefix (t.fromHome base)) = true := by
  cases ht.seenFromHome base with
  | place hr hroot hroot' =>
    cases ht.seenFromHome p with
    | place _ hpath hpath' =>
      rw [hpath', hroot', ← hpath, ← hroot]
      refine ⟨?_, h⟩
      rw [hpath, fromHome_of_absolute (isAbsolute_placePath _)]
    | relative hm _ hpath _ =>
      rw [hpath, hroot] at h
      exact absurd h (not_startsWith_placePath hm hr)
  | @relative ns hn hnormal hroot hroot' =>
    have hne : ns ≠ [] := by
      rintro rfl
      exact hbase hnormal
    cases ht.seenFromHome p with
    | place hq hpath _ =>
      rw [hpath, hroot] at h
      exact absurd h (not_placePath_startsWith hn hq hne)
    | @relative ms hm _ hpath hpath' =>
      rw [hpath, hroot, startsWith, components_names hn, components_names hm,
        List.isPrefixOf_iff_prefix,
        List.prefix_map_iff_of_injective fun _ _ => Component.name.inj] at h
      have hms : ms ≠ [] := by
        rintro rfl
        exact hne (List.prefix_nil.mp h)
      constructor
      · rw [hpath, hpath']
        exact placePath_join_names ht.grounded.names hm hms
      · rw [hpath', hroot']
        exact (startsWith_placePath (ht.names hm 0) (ht.names hn 0)).mpr
          ((List.prefix_append_right_inj _).mpr h)

/-- What is there at a path that was resolved is there from the working directory. -/
theorem AtHome.locate_of_resolvePrefix (ht : t.AtHome) {p : Path} {found : Place × Node}
    (h : t.locate (t.resolvePrefix p) = .ok found) :
    t.locate (t.resolvePrefix (t.fromHome p)) = .ok found := by
  cases ht.seenFromHome p with
  | place _ hpath hpath' => rwa [hpath', ← hpath]
  | @relative ns hn _ hpath hpath' =>
    have hne : climbing 0 ns ≠ [] := by
      intro he
      have hempty : ns.map Component.name = [] := he
      rw [hpath, hempty] at h
      cases h
    rw [hpath']
    rw [hpath] at h
    exact (ht.locate_climbing hn hne).symm.trans h

/-- A base of which nothing is left in its normal form has everything below it. -/
theorem startsWith_of_normalComponents_eq_nil {base : Path}
    (h : normalComponents base.components = []) (p : Path) :
    p.startsWith (t.resolvePrefix base) = true := by
  have hempty : t.resolvePrefix base = ⟨[]⟩ := by
    rw [resolvePrefix, h]
    rfl
  rw [hempty]
  rfl

end OfflineCache.FileTree
