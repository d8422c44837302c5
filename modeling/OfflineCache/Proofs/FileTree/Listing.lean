import OfflineCache.FileTree.Listing
import OfflineCache.Proofs.FileTree.Making

/-! What a listing shows. In a `Proper` tree, and trees stay proper when directories are made and
files written, renamed and removed, each file below the directory is listed once, at the names that
lead to it and with its size, unless it goes by a temporary name: `Proper.listFiles_at`. -/

namespace OfflineCache.FileTree

open OfflineCache.Path

variable {t t' : FileTree} {p q root : Path} {place : Place} {b : Bytes} {x : Bool}

/-! ## Proper trees -/

/-- A tree as a disk holds it: one node at each place, and every place is one of names. -/
structure Proper (t : FileTree) : Prop where
  distinct : (t.nodes.map (·.1)).Nodup
  names : ∀ e ∈ t.nodes, ∀ n ∈ e.1, IsName n
  home : ∀ n ∈ t.home, IsName n

theorem proper_empty : Proper ⟨[], []⟩ := ⟨by simp, by simp, by simp⟩

theorem Walks.names {follow : Bool} {links : Nat} {origin : Place} {ss : List (List Char)}
    {s : Spot} (h : Walks t follow links origin ss (.ok s)) (ho : ∀ n ∈ origin, IsName n)
    (hs : ∀ s ∈ ss, s ≠ [] ∧ '/' ∉ s) : ∀ n ∈ s.place, IsName n := by
  generalize hr : Except.ok s = r at h
  induction h with
  | arrived =>
    cases hr
    exact ho
  | here _ ih => exact ih ho (fun x hx => hs x (by simp [hx])) hr
  | up _ ih =>
    exact ih (fun n hn => ho n (List.dropLast_subset _ hn)) (fun x hx => hs x (by simp [hx])) hr
  | free hl _ =>
    cases hr
    exact isName_concat ho (hl.isName (hs _ (by simp)))
  | into hl _ _ ih =>
    exact ih (isName_concat ho (hl.isName (hs _ (by simp)))) (fun x hx => hs x (by simp [hx])) hr
  | file hl _ =>
    cases hr
    exact isName_concat ho (hl.isName (hs _ (by simp)))
  | link hl _ _ =>
    cases hr
    exact isName_concat ho (hl.isName (hs _ (by simp)))
  | @through _ _ _ _ target _ _ _ _ _ ih =>
    refine ih ?_ ?_ hr
    · split
      · simp
      · exact ho
    · intro x hx
      rcases List.mem_append.mp hx with hx | hx
      · exact steps_pieces target x hx
      · exact hs x (by simp [hx])
  | tooLong => cases hr
  | missing => cases hr
  | beyond => cases hr
  | exhausted => cases hr

namespace Proper

variable (h : t.Proper)

include h

theorem spot {follow : Bool} {s : Spot} (hs : t.spot p follow = .ok s) :
    ∀ n ∈ s.place, IsName n := by
  refine (walks_iff.mpr (spot_eq_ok_iff.mp hs).2).names ?_ (steps_pieces p)
  split
  · simp
  · exact h.home

theorem isName_of_node? {node : Node} (hn : t.node? place = some node) : ∀ n ∈ place, IsName n := by
  by_cases he : place = []
  · simp [he]
  · rw [node?_of_ne_nil he] at hn
    obtain ⟨before, after, hnodes, -⟩ := List.lookup_eq_some_iff.mp hn
    exact h.names (place, node) (by simp [hnodes])

theorem erase (place : Place) : (t.erase place).Proper := by
  refine ⟨h.distinct.sublist (List.filter_sublist.map _), fun e he => ?_, h.home⟩
  exact h.names e (List.mem_of_mem_filter he)

theorem put (hp : ∀ n ∈ place, IsName n) (node : Node) : (t.put place node).Proper := by
  refine ⟨?_, fun e he => ?_, h.home⟩
  · have hnew : place ∉ (t.nodes.filter (·.1 ≠ place)).map (·.1) := by simp
    show ((t.nodes.filter (·.1 ≠ place) ++ [(place, node)]).map (·.1)).Nodup
    rw [List.map_append, List.map_singleton]
    refine List.nodup_append.mpr ⟨(h.erase place).distinct, by simp, fun q hq r hr => ?_⟩
    rw [List.mem_singleton.mp hr]
    exact ne_of_mem_of_not_mem hq hnew
  · rcases List.mem_append.mp he with he | he
    · exact h.names e (List.mem_of_mem_filter he)
    · rw [List.mem_singleton.mp he]
      exact hp

theorem layDirectories (p : Path) : (t.layDirectories p).1.Proper := by
  refine layDirectories_induction (fun t t' p ht hm => ?_) h p
  obtain ⟨d, n, hs, rfl⟩ := of_makeDirectory hm
  exact ht.put (ht.spot hs) _

theorem writeFile (hw : t.writeFile p b = .ok t') : t'.Proper := by
  obtain ⟨s, x, hs, -, rfl⟩ := writeFile_eq_ok_iff.mp hw
  exact h.put (h.spot hs) _

theorem renameFile (hr : t.renameFile p q = .ok t') : t'.Proper := by
  obtain ⟨source, node, s, -, hs, -, rfl⟩ := of_renameFile hr
  exact (h.erase source).put (h.spot hs) _

theorem removeFile (hr : t.removeFile p = .ok t') : t'.Proper := by
  obtain ⟨place, node, -, -, rfl⟩ := of_removeFile hr
  exact h.erase place

end Proper

/-! ## Paths of names -/

variable {names : Place}

theorem components_relative (h : ∀ n ∈ names, IsName n) :
    (relative names).components = names.map .name :=
  components_under (p := ⟨[]⟩) h

theorem isTemporary_relative (h : ∀ n ∈ names, IsName n) :
    (relative names).isTemporary = (names.getLast?).any isTemporaryName := by
  rw [isTemporary, fileName?, components_relative h, List.getLast?_map]
  cases names.getLast? <;> rfl

/-! ## The directory -/

/-- A base that can be opened is found where it leads. -/
theorem Leads.find (h : Leads t p place) (ho : Opens p) : t.find p = .ok (place, .directory) := by
  have hdot := (walk_append_dot (dotless (pieces p.chars))).mpr h
  rw [walk_dotless_append _ (by simp)] at hdot
  rw [find_eq_ok_iff_spot, spot_of_opens t ho]
  unfold steps
  by_cases hend : pieces p.chars ≠ [] ∧ p.chars.getLast? = some '/'
  · rw [if_pos hend]
    exact hdot
  · rw [if_neg hend]
    exact (walk_append_dot _).mp hdot

theorem listFiles_of_find (h : t.find root = .ok (place, .directory)) :
    t.listFiles root = (((t.below place).filterMap listed?).mergeSort
      fun a b => placeBefore a.1 b.1).map fun e => ⟨relative e.1, e.2⟩ := by
  unfold listFiles
  split
  · rename_i r b x hs
    have hfile := find_of_spot hs (by simp) (by simp) (.refl t)
      (node?_of_spot_present hs (by simp))
    rw [h] at hfile
    cases hfile
  · rw [h]

/-! ## The files below it -/

theorem of_mem_listed {e : Place × Nat} (h : e ∈ (t.below place).filterMap listed?) :
    ∃ b x, (place ++ e.1, Node.file b x) ∈ t.nodes ∧ e.2 = b.length ∧
      (e.1.getLast?).any isTemporaryName = false := by
  obtain ⟨⟨rest, node⟩, hbelow, hlisted⟩ := List.mem_filterMap.mp h
  obtain ⟨⟨q, node'⟩, hnode, hrest⟩ := List.mem_filterMap.mp hbelow
  obtain ⟨r, hr, he⟩ := Option.bind_eq_some_iff.mp hrest
  obtain rfl := List.isPrefixOf?_eq_some_iff_append_eq.mp hr
  split at he
  · cases he
  · cases he
    unfold listed? at hlisted
    split at hlisted
    · rename_i b x heq
      cases heq
      split at hlisted
      · cases hlisted
      · rename_i hlast
        cases hlisted
        exact ⟨b, x, hnode, rfl, by simpa using hlast⟩
    · cases hlisted

/-- No temporary file is listed. -/
theorem Proper.isTemporary_of_mem_listFiles (h : t.Proper) {f : ListedFile}
    (hf : f ∈ t.listFiles root) : f.path.isTemporary = false := by
  by_cases hd : ∃ place, t.find root = .ok (place, .directory)
  · obtain ⟨place, hd⟩ := hd
    rw [listFiles_of_find hd] at hf
    obtain ⟨e, he, rfl⟩ := List.mem_map.mp hf
    obtain ⟨b, x, hnode, -, hlast⟩ := of_mem_listed ((List.mergeSort_perm _ _).mem_iff.mp he)
    rw [isTemporary_relative fun n hn => h.names _ hnode n (List.mem_append_right place hn)]
    exact hlast
  · unfold listFiles at hf
    split at hf
    · split at hf
      · cases hf
      · rw [List.mem_singleton.mp hf]
        rfl
    · split at hf
      · rename_i place hplace
        exact absurd ⟨place, hplace⟩ hd
      · cases hf

/-- Where keys are distinct there is one entry of a key. -/
theorem filter_key {α β : Type} [DecidableEq α] {l : List (α × β)} (h : (l.map (·.1)).Nodup)
    {k : α} {v : β} (hm : (k, v) ∈ l) : l.filter (·.1 = k) = [(k, v)] := by
  induction l with
  | nil => cases hm
  | cons e l ih =>
    obtain ⟨hnot, hrest⟩ := List.nodup_cons.mp h
    rcases List.mem_cons.mp hm with rfl | hm
    · have hnone : l.filter (·.1 = k) = [] := by
        rw [List.filter_eq_nil_iff]
        intro e he
        have hne : e.1 ≠ k := ne_of_mem_of_not_mem (List.mem_map_of_mem he) hnot
        simpa using hne
      rw [List.filter_cons_of_pos (by simp), hnone]
    · have hne : e.1 ≠ k := (ne_of_mem_of_not_mem (List.mem_map_of_mem hm) hnot).symm
      rw [List.filter_cons_of_neg (by simpa using hne), ih hrest hm]

theorem fst_of_listed? {e : Place × Node} {f : Place × Nat} (h : listed? e = some f) :
    f.1 = e.1 := by
  unfold listed? at h
  split at h
  · split at h <;> cases h
    rfl
  · cases h

theorem Proper.listed_at (h : t.Proper) {names : Place} (hne : names ≠ [])
    (hn : t.node? (place ++ names) = some (.file b x)) :
    ((t.below place).filterMap listed?).filter (·.1 = names) =
      (listed? (names, .file b x)).toList := by
  -- What is listed at the names is listed for the node at their place.
  have hfrom : ∀ e : Place × Node,
      Option.filter (·.1 = names) (((place.isPrefixOf? e.1).bind fun rest =>
        if rest = [] then none else some (rest, e.2)).bind listed?) =
      if e.1 = place ++ names then listed? (names, e.2) else none := by
    rintro ⟨q, node⟩
    cases hq : place.isPrefixOf? q with
    | none =>
      have hother : q ≠ place ++ names := by
        rintro rfl
        rw [List.isPrefixOf?_eq_some_iff_append_eq.mpr rfl] at hq
        cases hq
      simp [hother]
    | some rest =>
      obtain rfl := List.isPrefixOf?_eq_some_iff_append_eq.mp hq
      by_cases hr : rest = names
      · subst hr
        cases hl : listed? (rest, node) with
        | none => simp [hne, hl]
        | some f => simp [hne, hl, fst_of_listed? hl]
      · by_cases he : rest = []
        · simp [he, hne]
        · cases hl : listed? (rest, node) with
          | none => simp [he, hl, hr]
          | some f => simp [he, hl, hr, fst_of_listed? hl]
  have hone := filter_key h.distinct (mem_nodes_of_node? hn (by simp))
  calc ((t.below place).filterMap listed?).filter (·.1 = names)
      = t.nodes.filterMap fun e =>
          if e.1 = place ++ names then listed? (names, e.2) else none := by
        unfold below
        rw [List.filterMap_filterMap, List.filter_filterMap]
        exact congrArg (List.filterMap · t.nodes) (funext hfrom)
    _ = (t.nodes.filter (·.1 = place ++ names)).filterMap fun e => listed? (names, e.2) := by
        rw [List.filterMap_filter]
        simp
    _ = (listed? (names, .file b x)).toList := by
        rw [hone]
        cases hl : listed? (names, .file b x) <;> simp [hl]

/-- **The files of a listing.** A file below the directory is listed once, with its names and its
size, and not at all if it is a temporary one. -/
theorem Proper.listFiles_at (h : t.Proper) (hd : t.find root = .ok (place, .directory))
    {names : Place} (hne : names ≠ []) (hn : t.node? (place ++ names) = some (.file b x)) :
    (t.listFiles root).filter (·.path.components = names.map .name) =
      if (relative names).isTemporary then [] else [⟨relative names, b.length⟩] := by
  have hnames : ∀ n ∈ names, IsName n := fun n hm =>
    h.isName_of_node? hn n (List.mem_append_right place hm)
  have hpath : ∀ e ∈ (t.below place).filterMap listed?,
      ((relative e.1).components = names.map .name ↔ e.1 = names) := by
    intro e he
    obtain ⟨c, y, hnode, -⟩ := of_mem_listed he
    rw [components_relative fun n hm => h.names _ hnode n (List.mem_append_right place hm)]
    exact List.map_inj_right fun _ _ => Component.name.inj
  have hsorted : ((((t.below place).filterMap listed?).mergeSort
      fun a b => placeBefore a.1 b.1).filter fun e =>
        (relative e.1).components = names.map .name) = (listed? (names, .file b x)).toList := by
    have hperm := List.mergeSort_perm ((t.below place).filterMap listed?)
      fun a b => placeBefore a.1 b.1
    have hfilter := hperm.filter (·.1 = names)
    rw [h.listed_at hne hn] at hfilter
    rw [List.filter_congr fun e he => decide_eq_decide.mpr (hpath e (hperm.mem_iff.mp he))]
    cases hl : listed? (names, .file b x) with
    | none =>
      rw [hl] at hfilter
      exact hfilter.eq_nil
    | some f =>
      rw [hl] at hfilter
      exact List.perm_singleton.mp hfilter
  rw [listFiles_of_find hd, List.filter_map]
  refine (congrArg (List.map _) hsorted).trans ?_
  rw [isTemporary_relative hnames, listed?]
  split <;> rfl

end OfflineCache.FileTree
