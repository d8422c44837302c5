import Mathlib.Data.List.Induction
import OfflineCache.Proofs.FileTree.Walk

/-! Resolving the part of a path that exists. Either the whole path leads somewhere, and the result
is the path without links to the same node; or a part is put behind unresolved, and then the whole
path leads nowhere. In the second case the result may lead somewhere all the same: this happens
only where the whole path has too many links on its way. -/

namespace OfflineCache.FileTree

open OfflineCache.Path

variable {t : FileTree}

theorem steps_placePath {ns : Place} (h : ∀ n ∈ ns, IsName n) : steps (placePath ns) = ns := by
  have hns : ∀ n ∈ ns, n ≠ [] ∧ '/' ∉ n := fun n hn => ⟨(h n hn).nonempty, (h n hn).noSlash⟩
  have hl : ¬ (ns ≠ [] ∧ (placePath ns).chars.getLast? = some '/') := by
    rintro ⟨hne, hs⟩
    obtain ⟨n, ms, rfl⟩ := List.exists_cons_of_ne_nil hne
    obtain ⟨a, r, hr⟩ := List.exists_cons_of_ne_nil (spell_ne_nil (hns n (by simp)).1 ms)
    have hs' : ('/' :: spell ((n :: ms).map .name)).getLast? = some '/' := hs
    refine getLast?_spell hns ?_
    rw [hr] at hs' ⊢
    rwa [List.getLast?_cons_cons] at hs'
  simp only [steps, pieces_placePath h]
  rw [if_neg hl]

theorem bind_found_eq_ok_iff {s : Except Fault Spot} {place : Place} {node : Node} :
    s.bind Spot.found = .ok (place, node) ↔ s = .ok (.present place node) := by
  cases s with
  | error e => simp [Except.bind]
  | ok s => cases s <;> simp [Except.bind, Spot.found]

theorem locate_placePath {ns : Place} (h : ∀ n ∈ ns, IsName n)
    (hz : '\x00' ∉ (placePath ns).chars) :
    t.locate (placePath ns) = (t.walk true maxLinks [] ns).bind Spot.found := by
  have hz' : ¬ (placePath ns).chars.contains '\x00' = true := by simpa using hz
  have hne : (placePath ns).chars ≠ [] := by simp [placePath, ofComponents, spell]
  rw [locate, if_neg hz', if_neg hne, if_pos (isAbsolute_placePath ns), steps_placePath h]

/-- A path without dots that leads somewhere. -/
theorem locate_placePath_eq_ok_iff {ns place : Place} {node : Node} (h : ∀ n ∈ ns, IsName n) :
    t.locate (placePath ns) = .ok (place, node) ↔
      '\x00' ∉ (placePath ns).chars ∧ t.walk true maxLinks [] ns = .ok (.present place node) := by
  by_cases hz : '\x00' ∈ (placePath ns).chars
  · simp [locate, hz]
  · rw [locate_placePath h hz, bind_found_eq_ok_iff]
    simp [hz]

/-- What is opened is located, and its path is not too long as a whole. -/
theorem find_eq_ok_iff {p : Path} {place : Place} {node : Node} :
    t.find p = .ok (place, node) ↔
      Text.Utf8.length p.chars < maxPath ∧ t.locate p = .ok (place, node) := by
  simp only [find, spot, locate]
  by_cases hz : '\x00' ∈ p.chars
  · simp [hz, Except.bind]
  by_cases hne : p.chars = []
  · simp [hne, Except.bind]
  by_cases hl : maxPath ≤ Text.Utf8.length p.chars
  · simp [hz, hne, hl, Nat.not_lt.mpr hl, Except.bind]
  · simp [hz, hne, hl, Nat.not_le.mp hl]

theorem locate_root : t.locate (placePath []) = .ok ([], .directory) :=
  (locate_placePath_eq_ok_iff (by simp)).mpr ⟨by decide, walk_nil⟩

theorem holds_of_locate {ns place : Place} {node : Node} (h : ∀ n ∈ ns, IsName n)
    (hf : t.locate (placePath ns) = .ok (place, node)) : Holds t place node :=
  holds_of_walk .root (fun n hn => ⟨(h n hn).nonempty, (h n hn).noSlash⟩)
    ((locate_placePath_eq_ok_iff h).mp hf).2

/-- The place of the part of a path that leads somewhere, and the names behind it. -/
structure Resolved (t : FileTree) (names place rest : Place) (node : Node) : Prop where
  leads : ∃ front, front ++ rest = names ∧ t.locate (placePath front) = .ok (place, node)
  fails : rest ≠ [] → ∃ e, t.locate (placePath names) = .error e

theorem normalize_ofComponents {place rest : Place} (hp : ∀ n ∈ place, IsName n)
    (hr : ∀ n ∈ rest, IsName n) :
    (ofComponents ((placePath place).components ++ rest.map .name)).normalize =
      placePath (place ++ rest) := by
  have he : ofComponents ((placePath place).components ++ rest.map .name) =
      placePath (place ++ rest) := by
    rw [components_placePath hp, placePath, List.map_append]
    rfl
  rw [he]
  apply normalize_placePath
  intro n hn
  exact (List.mem_append.mp hn).elim (hp n) (hr n)

theorem canonicalize_placePath (ns : Place) :
    t.canonicalize (ofComponents (.root :: ns.map .name)) =
      (t.locate (placePath ns)).map fun found => placePath found.1 := rfl

theorem resolvePrefix_go_concat {front : Place} {n : List Char} {fault : Fault}
    (he : t.locate (placePath (front ++ [n])) = .error fault) (cs : List Component) :
    resolvePrefix.go t ((front ++ [n]).length + 1) (.root :: (front ++ [n]).map .name) cs =
      resolvePrefix.go t (front.length + 1) (.root :: front.map .name) (.name n :: cs) := by
  have hc : t.canonicalize (ofComponents (.root :: (front ++ [n]).map .name)) = .error fault := by
    rw [canonicalize_placePath, he]
    rfl
  have hlast : (Component.root :: (front ++ [n]).map .name).getLast? = some (.name n) := by
    simp [List.getLast?_cons]
  have hdrop : (Component.root :: (front ++ [n]).map .name).dropLast = .root :: front.map .name := by
    simp [List.dropLast_cons_of_ne_nil]
  rw [List.length_append, resolvePrefix.go]
  simp only [hc, hlast, hdrop]
  rfl

/-- From the longest part down: each part that leads nowhere puts its last name behind. -/
theorem resolvePrefix_go (front : Place) (hf : ∀ n ∈ front, IsName n) :
    ∃ place more node, Resolved t front place more node ∧
      ∀ rest : Place, (∀ n ∈ rest, IsName n) →
        resolvePrefix.go t (front.length + 1) (.root :: front.map .name) (rest.map .name) =
          placePath (place ++ (more ++ rest)) := by
  induction front using List.reverseRecOn with
  | nil =>
    refine ⟨[], [], .directory, ⟨⟨[], rfl, locate_root⟩, by simp⟩, fun rest hr => ?_⟩
    have hc : t.canonicalize (ofComponents (.root :: ([] : Place).map .name)) =
        .ok (placePath []) := by
      rw [canonicalize_placePath, locate_root]
      rfl
    simp only [resolvePrefix.go, hc]
    exact normalize_ofComponents (by simp) hr
  | append_singleton front n ih =>
    cases he : t.locate (placePath (front ++ [n])) with
    | ok found =>
      obtain ⟨place, node⟩ := found
      refine ⟨place, [], node, ⟨⟨front ++ [n], by simp, he⟩, by simp⟩, fun rest hr => ?_⟩
      have hc : t.canonicalize (ofComponents (.root :: (front ++ [n]).map .name)) =
          .ok (placePath place) := by
        rw [canonicalize_placePath, he]
        rfl
      simp only [resolvePrefix.go, hc]
      exact normalize_ofComponents (holds_of_locate hf he).names hr
    | error fault =>
      obtain ⟨place, more, node, ⟨⟨a, ha, hfound⟩, -⟩, hgo⟩ :=
        ih fun m hm => hf m (by simp [hm])
      refine ⟨place, more ++ [n], node,
        ⟨⟨a, by rw [← List.append_assoc, ha], hfound⟩, fun _ => ⟨fault, he⟩⟩, fun rest hr => ?_⟩
      have hrest : ∀ m ∈ n :: rest, IsName m := by
        intro m hm
        rcases List.mem_cons.mp hm with rfl | hm
        · exact hf m (by simp)
        · exact hr m hm
      rw [resolvePrefix_go_concat he, ← List.map_cons, hgo (n :: rest) hrest]
      simp

theorem resolvePrefix_placePath {ns : Place} (h : ∀ n ∈ ns, IsName n) :
    t.resolvePrefix (placePath ns) =
      resolvePrefix.go t (ns.length + 1) (.root :: ns.map .name) [] := by
  rw [resolvePrefix, components_placePath h, normalComponents_names]
  simp

/-- What resolving an absolute path gives. -/
theorem resolvePrefix_of_absolute {p : Path} (h : p.isAbsolute = true) :
    ∃ names place rest node, (∀ n ∈ names, IsName n) ∧ p.normalize = placePath names ∧
      Resolved t names place rest node ∧ t.resolvePrefix p = placePath (place ++ rest) := by
  obtain ⟨names, hn, hc, hnorm⟩ := normalize_eq_placePath h
  obtain ⟨place, rest, node, hres, hgo⟩ := resolvePrefix_go (t := t) names hn
  refine ⟨names, place, rest, node, hn, hnorm, hres, ?_⟩
  rw [resolvePrefix, hc]
  simpa using hgo [] (by simp)

theorem nul_mem_placePath (ns : Place) :
    '\x00' ∈ (placePath ns).chars ↔ ∃ n ∈ ns, '\x00' ∈ n := by
  show '\x00' ∈ '/' :: spell (ns.map .name) ↔ _
  rw [List.mem_cons, mem_spell (by decide)]
  simp

theorem nul_mem_placePath_append (p q : Place) :
    '\x00' ∈ (placePath (p ++ q)).chars ↔
      '\x00' ∈ (placePath p).chars ∨ '\x00' ∈ (placePath q).chars := by
  simp only [nul_mem_placePath, List.mem_append, or_and_right, exists_or]

theorem Resolved.isName {names place rest : Place} {node : Node}
    (hr : Resolved t names place rest node) (hn : ∀ n ∈ names, IsName n) :
    ∀ n ∈ place ++ rest, IsName n := by
  obtain ⟨front, rfl, hfound⟩ := hr.leads
  have hholds := holds_of_locate (fun n hm => hn n (List.mem_append_left rest hm)) hfound
  intro n hm
  rcases List.mem_append.mp hm with hm | hm
  · exact hholds.names n hm
  · exact hn n (List.mem_append_right front hm)

/-- What can be located at a place without links on the way is there. -/
theorem Holds.place_eq {p place : Place} {node found : Node} (h : Holds t p node)
    (hlink : ∀ target, node ≠ .link target) (hl : t.locate (placePath p) = .ok (place, found)) :
    place = p := by
  obtain ⟨-, hwalk⟩ := (locate_placePath_eq_ok_iff h.names).mp hl
  rw [← List.append_nil p] at hwalk
  cases node with
  | link target => exact absurd rfl (hlink target)
  | file b x =>
    rw [walk_of_holds_file h, if_pos rfl] at hwalk
    cases hwalk
    rfl
  | directory =>
    cases h with
    | entry _ _ _ _ hd => exact absurd rfl hd
    | directory hg =>
      rw [walk_grounded hg, walk_nil] at hwalk
      cases hwalk
      rfl

theorem ne_link_of_locate {names place : Place} {node : Node} (hn : ∀ n ∈ names, IsName n)
    (h : t.locate (placePath names) = .ok (place, node)) (target : Path) : node ≠ .link target := by
  rintro rfl
  exact walk_ne_link ((locate_placePath_eq_ok_iff hn).mp h).2

/-- Where names that were put behind lead somewhere after all, links are followed there that were
not followed before, and there were too many on the path as it stood. -/
theorem Resolved.tooManyLinks {names place rest final : Place} {node found : Node}
    (hr : Resolved t names place rest node) (hn : ∀ n ∈ names, IsName n) (hne : rest ≠ [])
    (h : t.locate (placePath (place ++ rest)) = .ok (final, found)) :
    node = .directory ∧ t.locate (placePath names) = .error .tooManyLinks := by
  obtain ⟨hz, hwalk⟩ := (locate_placePath_eq_ok_iff (hr.isName hn)).mp h
  obtain ⟨front, rfl, hfound⟩ := hr.leads
  have hfront : ∀ n ∈ front, IsName n := fun n hm => hn n (List.mem_append_left rest hm)
  have hholds : Holds t place node := holds_of_locate hfront hfound
  obtain ⟨hz', hwalk'⟩ := (locate_placePath_eq_ok_iff hfront).mp hfound
  cases node with
  | link target => exact absurd rfl (ne_link_of_locate hfront hfound target)
  | file c y =>
    rw [walk_of_holds_file hholds, if_neg hne] at hwalk
    cases hwalk
  | directory =>
    cases hholds with
    | entry _ _ _ _ hd => exact absurd rfl hd
    | directory hg =>
      rw [walk_grounded hg] at hwalk
      obtain ⟨e, he⟩ := hr.fails hne
      have hz'' : '\x00' ∉ (placePath (front ++ rest)).chars := by
        rw [nul_mem_placePath_append, not_or] at hz ⊢
        exact ⟨hz', hz.2⟩
      rcases walk_resumed hwalk' hwalk with hmany | hfile
      · rw [locate_placePath hn hz'', hmany]
        exact ⟨rfl, rfl⟩
      · rw [(locate_placePath_eq_ok_iff hn).mpr ⟨hz'', hfile⟩] at he
        cases he

/-- Where the result leads somewhere, it is right there, or there were too many links on the path as
it stood. -/
theorem Resolved.arrived {names place rest final : Place} {node found : Node}
    (hr : Resolved t names place rest node) (hn : ∀ n ∈ names, IsName n)
    (h : t.locate (placePath (place ++ rest)) = .ok (final, found)) :
    final = place ++ rest ∨ t.locate (placePath names) = .error .tooManyLinks := by
  by_cases hne : rest = []
  · obtain ⟨front, hfront, hfound⟩ := hr.leads
    rw [hne, List.append_nil] at hfront h ⊢
    rw [hfront] at hfound
    exact Or.inl ((holds_of_locate hn hfound).place_eq (ne_link_of_locate hn hfound) h)
  · exact Or.inr (hr.tooManyLinks hn hne h).2

theorem placePath_inj {p q : Place} (hp : ∀ n ∈ p, IsName n) (hq : ∀ n ∈ q, IsName n)
    (h : placePath p = placePath q) : p = q := by
  have hc := congrArg components h
  rw [components_placePath hp, components_placePath hq] at hc
  exact (List.map_inj_right fun _ _ => Component.name.inj).mp (List.cons.inj hc).2

/-- A path that leads somewhere resolves to the place it leads to. -/
theorem resolvePrefix_of_locate {ns place : Place} {node : Node} (h : ∀ n ∈ ns, IsName n)
    (hf : t.locate (placePath ns) = .ok (place, node)) :
    t.resolvePrefix (placePath ns) = placePath place := by
  obtain ⟨names, place', rest, node', hn, hnorm, hres, hgo⟩ :=
    resolvePrefix_of_absolute (t := t) (isAbsolute_placePath ns)
  rw [normalize_placePath h] at hnorm
  obtain rfl := placePath_inj h hn hnorm
  have hrest : rest = [] := by
    by_contra hne
    obtain ⟨e, he⟩ := hres.fails hne
    rw [hf] at he
    cases he
  obtain ⟨front, hfront, hfound⟩ := hres.leads
  rw [hrest, List.append_nil] at hfront hgo
  rw [hfront, hf] at hfound
  cases hfound
  exact hgo

/-- A name at the end of a path that leads nowhere stays as it is. -/
theorem resolvePrefix_concat {ns place : Place} {n : List Char} {fault : Fault}
    (hns : ∀ m ∈ ns ++ [n], IsName m) (hp : ∀ m ∈ place, IsName m)
    (hf : t.locate (placePath (ns ++ [n])) = .error fault)
    (h : t.resolvePrefix (placePath ns) = placePath place) :
    t.resolvePrefix (placePath (ns ++ [n])) = placePath (place ++ [n]) := by
  have hn : ∀ m ∈ ns, IsName m := fun m hm => hns m (List.mem_append_left [n] hm)
  have hone : ∀ m ∈ [n], IsName m := fun m hm => hns m (List.mem_append_right ns hm)
  obtain ⟨front, more, node, hres, hgo⟩ := resolvePrefix_go (t := t) ns hn
  have hsame := hgo [] (by simp)
  rw [List.map_nil, ← resolvePrefix_placePath hn, h, List.append_nil] at hsame
  obtain rfl := placePath_inj hp (hres.isName hn) hsame
  have hstep := hgo [n] hone
  rw [List.map_singleton, ← resolvePrefix_go_concat hf, ← resolvePrefix_placePath hns] at hstep
  rw [hstep, List.append_assoc]

theorem readBytes_eq_ok_iff {p : Path} {b : Bytes} :
    t.readBytes p = .ok b ↔ ∃ place x, t.find p = .ok (place, .file b x) := by
  simp only [readBytes]
  cases t.find p with
  | error e => simp [Bind.bind, Except.bind]
  | ok found =>
    obtain ⟨place, node⟩ := found
    cases node <;> simp [Bind.bind, Except.bind]

theorem readBytes_placePath {ns : Place} (place : Place) {b : Bytes} (x : Bool)
    (h : ∀ n ∈ ns, IsName n)
    (hz : '\x00' ∉ (placePath ns).chars) (hl : Text.Utf8.length (placePath ns).chars < maxPath)
    (hw : t.walk true maxLinks [] ns = .ok (.present place (.file b x))) :
    t.readBytes (placePath ns) = .ok b :=
  readBytes_eq_ok_iff.mpr
    ⟨place, x, find_eq_ok_iff.mpr ⟨hl, (locate_placePath_eq_ok_iff h).mpr ⟨hz, hw⟩⟩⟩

/-- What is there at the path that resolving gives. -/
theorem locate_resolvePrefix {p : Path} (hp : p.isAbsolute = true) {place : Place} {node : Node}
    (h : t.locate (t.resolvePrefix p) = .ok (place, node)) :
    Holds t place node ∧ t.resolvePrefix (t.resolvePrefix p) = placePath place ∧
      (t.resolvePrefix p = placePath place ∨ t.locate p.normalize = .error .tooManyLinks) := by
  obtain ⟨names, front, rest, _, hn, hnorm, hres, hgo⟩ := resolvePrefix_of_absolute (t := t) hp
  rw [hgo] at h ⊢
  refine ⟨holds_of_locate (hres.isName hn) h, resolvePrefix_of_locate (hres.isName hn) h, ?_⟩
  rcases hres.arrived hn h with rfl | hmany
  · exact Or.inl rfl
  · exact Or.inr (by rw [hnorm, hmany])

theorem find_resolvePrefix {p : Path} (hp : p.isAbsolute = true) {place : Place} {b : Bytes}
    {x : Bool} (h : t.find (t.resolvePrefix p) = .ok (place, .file b x)) :
    Holds t place (.file b x) ∧ t.resolvePrefix (t.resolvePrefix p) = placePath place ∧
      (t.resolvePrefix p = placePath place ∨ t.locate p.normalize = .error .tooManyLinks) :=
  locate_resolvePrefix hp (find_eq_ok_iff.mp h).2

theorem startsWith_placePath {p q : Place} (hp : ∀ n ∈ p, IsName n) (hq : ∀ n ∈ q, IsName n) :
    (placePath p).startsWith (placePath q) = true ↔ q <+: p := by
  rw [startsWith, components_placePath hp, components_placePath hq, List.isPrefixOf_iff_prefix,
    List.cons_prefix_cons, List.prefix_map_iff_of_injective fun _ _ => Component.name.inj]
  simp

end OfflineCache.FileTree
