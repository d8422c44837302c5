import OfflineCache.Proofs.FileTree.Making
import OfflineCache.Proofs.Store.Replacing

/-! The fault that each stage of a replacement ends with, if it has one. Once the directories are there, the
writing of the temporary file fails for its path alone (`scratchFault?`), and the move to the path
of the entry for that path and for what is at its place (`moveFault?`). -/

namespace OfflineCache

open OfflineCache.Path OfflineCache.FileTree

/-- The names of a path behind those of its base. -/
def Path.namesBelow (p base : Path) : List (List Char) :=
  (p.components.drop base.components.length).map Component.chars

theorem Path.Plain.namesBelow_join {q : Path} {names : List (List Char)} (h : Plain q names)
    (p : Path) : (p / q).namesBelow p = names := by
  unfold namesBelow
  rw [h.components_join, List.drop_left, List.map_map]
  exact List.map_id names

/-- The last piece is a dot or the last name. -/
theorem Path.Plain.pieces_concat {q : Path} {names : List (List Char)} {n : List Char}
    (h : Plain q (names ++ [n])) :
    (∃ a, pieces q.chars = a ++ [['.']] ∧ dotless a = names ++ [n]) ∨
      ∃ a, pieces q.chars = a ++ [n] ∧ dotless a = names := by
  have hd := h.names_eq
  rcases List.eq_nil_or_concat (pieces q.chars) with hnil | ⟨a, x, hx⟩
  · rw [hnil] at hd
    simp [dotless] at hd
  · rw [List.concat_eq_append] at hx
    by_cases hdot : x = ['.']
    · subst hdot
      refine Or.inl ⟨a, hx, ?_⟩
      rw [hx] at hd
      simpa [dotless] using hd
    · rw [hx, dotless_append, show dotless [x] = [x] by simp [dotless, hdot]] at hd
      obtain ⟨ha, hxn⟩ := List.append_inj' hd rfl
      obtain rfl : x = n := by simpa using hxn
      exact Or.inr ⟨a, hx, ha⟩

/-! ## Slashes at the end -/

namespace FileTree

theorem pieces_concat_slash (s : List Char) : pieces (s ++ ['/']) = pieces s := by
  rw [pieces_append]
  simp [pieces, Text.splitAll]

theorem pieces_of_slashes {s : List Char} (h : ∀ c ∈ s, c = '/') : pieces s = [] := by
  induction s with
  | nil => rfl
  | cons c s ih =>
    obtain rfl := h c (by simp)
    rw [pieces_slash]
    exact ih fun d hd => h d (List.mem_cons_of_mem _ hd)

theorem withoutEndSlashes_concat {s : List Char} (h : ∃ c ∈ s, c ≠ '/') :
    withoutEndSlashes ⟨s ++ ['/']⟩ = withoutEndSlashes ⟨s⟩ := by
  obtain ⟨c, hc, hne⟩ := h
  have hs : ¬ s.all (· = '/') = true := by
    intro hall
    exact hne (by simpa using List.all_eq_true.mp hall c hc)
  have hs' : ¬ (s ++ ['/']).all (· = '/') = true := by simpa using hs
  unfold withoutEndSlashes
  rw [if_neg hs, if_neg hs', List.reverse_append]
  rfl

/-- Slashes at the end aside, a path keeps its pieces, and ends in no slash. -/
theorem withoutEndSlashes_spec {s : List Char} (h : pieces s ≠ []) :
    pieces (withoutEndSlashes ⟨s⟩).chars = pieces s ∧
      (withoutEndSlashes ⟨s⟩).isAbsolute = isAbsolute ⟨s⟩ ∧
      (withoutEndSlashes ⟨s⟩).chars.getLast? ≠ some '/' := by
  induction s using List.reverseRecOn with
  | nil => exact absurd rfl h
  | append_singleton s c ih =>
    by_cases hc : c = '/'
    · subst hc
      rw [pieces_concat_slash] at h ⊢
      have hsome : ∃ c ∈ s, c ≠ '/' := by
        by_contra hall
        push Not at hall
        exact h (pieces_of_slashes hall)
      rw [withoutEndSlashes_concat hsome]
      obtain ⟨hp, ha, hl⟩ := ih h
      refine ⟨hp, ha.trans ?_, hl⟩
      obtain ⟨x, hx, -⟩ := hsome
      obtain ⟨y, r, rfl⟩ := List.exists_cons_of_ne_nil (List.ne_nil_of_mem hx)
      rfl
    · have hlast : (⟨s ++ [c]⟩ : Path).chars.getLast? ≠ some '/' := by simpa using hc
      rw [withoutEndSlashes_eq hlast]
      exact ⟨rfl, rfl, hlast⟩

end FileTree

/-! ## Faults -/

namespace Replacement

/-- The fault of writing the temporary file in a directory that is there. -/
def scratchFault? (dest : Path) (process counter : Nat) : Option Fault :=
  (openFault? (temporaryFor dest process counter)).or
    (if fitsName (temporaryName (dest.fileName?.getD []) process counter) then none
      else some .nameTooLong)

/-- The fault of moving a file to the path in a directory that is there, from what is at the place
already. A path that ends in a dot or a slash asks for a directory and takes no file. -/
def moveFault? (dest : Path) (there : Option Node) : Option Fault :=
  if (pieces dest.chars).getLast? = some ['.'] then
    (openFault? dest).or <| some <|
      if !fitsName (dest.fileName?.getD []) then .nameTooLong
      else match there with
        | none => .notFound
        | some .directory => .busy
        | some _ => .notDirectory
  else (openFault? (withoutEndSlashes dest)).or <|
    if !fitsName (dest.fileName?.getD []) then some .nameTooLong
    else if dest.chars.getLast? = some '/' then some .notDirectory
    else match there with
      | some .directory => some .isDirectory
      | _ => none

/-- Where a file may be moved to, another may be. -/
theorem moveFault?_file {dest : Path} {there : Option Node} (h : moveFault? dest there = none)
    (b : Bytes) (x : Bool) : moveFault? dest (some (.file b x)) = none := by
  unfold moveFault? at h ⊢
  split at h
  · simp at h
  · rename_i hdot
    rw [if_neg hdot]
    obtain ⟨hopen, hrest⟩ := Option.or_eq_none_iff.mp h
    rw [hopen, Option.none_or]
    split at hrest
    · cases hrest
    · rename_i hfits
      rw [if_neg hfits]
      split at hrest
      · cases hrest
      · rename_i hslash
        rw [if_neg hslash]

variable {t : FileTree} {root q : Path} {place : Place} {names : List (List Char)}
  {n : List Char}

section Paved

variable (hq : Plain q (names ++ [n])) (hl : Leads t root place) (hu : Unlinked t place)
  (hp : Paved t place names)

include hq hl hu hp

theorem spot_temporary (follow : Bool) {process counter : Nat}
    (ho : Opens (temporaryFor (root / q) process counter)) :
    t.spot (temporaryFor (root / q) process counter) follow =
      t.descend (place ++ names) [temporaryName n process counter] := by
  have hnames : ∀ m ∈ names, IsName m := fun m hm => hq.isName m (List.mem_append_left _ hm)
  have hscratch := isName_temporaryName (hq.isName n (by simp)).noSlash process counter
  have hall := isName_concat hnames hscratch
  rw [temporaryFor_join hq] at ho ⊢
  have habs := (isAbsolute_join_of_relative (isAbsolute_name hscratch)).trans
    (isAbsolute_under (p := root) hnames)
  obtain ⟨left, hs⟩ := spot_behind follow habs (steps_under_join hnames hscratch)
    (dotless_body root) (by simp) ho hl
  rw [hs, walk_eq_descend hu hall, hp.descend]

theorem writeFile_temporary {process counter : Nat} (c : Bytes)
    (hfile : ∀ node, t.node? (place ++ (names ++ [temporaryName n process counter])) = some node →
      ∃ b x, node = .file b x) :
    (t.writeFile (temporaryFor (root / q) process counter) c).map (fun _ => ()) =
      resultOf (scratchFault? (root / q) process counter) := by
  unfold scratchFault?
  rw [hq.fileName?_join]
  cases ho : openFault? (temporaryFor (root / q) process counter) with
  | some f =>
    rw [writeFile, writePlace, spot_of_openFault ho]
    rfl
  | none =>
    have hs := spot_temporary hq hl hu hp true (openFault?_eq_none_iff.mp ho)
    rw [← List.append_assoc] at hfile
    rw [writeFile, writePlace, hs, descend, Option.none_or, Option.getD_some]
    by_cases hf : fitsName (temporaryName n process counter) = true
    · cases hn : t.node? (place ++ names ++ [temporaryName n process counter]) with
      | none => simp [hf, resultOf, bind, Except.bind, Except.map]
      | some node =>
        obtain ⟨b, x, rfl⟩ := hfile node hn
        simp [hf, resultOf, bind, Except.bind, Except.map]
    · simp [hf, resultOf, bind, Except.bind, Except.map]

/-- A path that ends in a dot asks for the directory. -/
theorem spot_dotted {ss : List (List Char)} (hss : dotless ss = names ++ [n])
    (hsteps : steps (root / q) = pieces root.chars ++ (ss ++ [['.']])) (ho : Opens (root / q)) :
    t.spot (root / q) false =
      if !fitsName n then .error .nameTooLong
      else match t.node? (place ++ (names ++ [n])) with
        | none => .error .notFound
        | some .directory => .ok (.present (place ++ (names ++ [n])) .directory)
        | some _ => .error .notDirectory := by
  have hnames : ∀ m ∈ names, IsName m := fun m hm => hq.isName m (List.mem_append_left _ hm)
  have hn := hq.isName n (by simp)
  obtain ⟨left, hs⟩ := spot_behind false (isAbsolute_join_of_relative hq.relative) hsteps rfl
    (by simp) ho hl
  rw [hs, ← walk_dotless_append ss (by simp), hss, List.append_assoc, hp.walk hnames,
    List.singleton_append, walk_cons, if_neg hn.notHere, if_neg hn.notUp, List.append_assoc]
  split
  · rfl
  · cases hnode : t.node? (place ++ (names ++ [n])) with
    | none => rfl
    | some node =>
      cases node with
      | directory =>
        simp only
        rw [walk_cons, if_pos rfl, walk_nil]
      | file b x => rfl
      | link target => exact absurd hnode (hu _ target (List.prefix_append _ _) (by simp))

/-- A path that ends in its last name. -/
theorem spot_named {dest : Path} {ss : List (List Char)} (hss : dotless ss = names)
    (habs : dest.isAbsolute = root.isAbsolute)
    (hsteps : steps dest = pieces root.chars ++ (ss ++ [n])) (ho : Opens dest) :
    t.spot dest false = t.descend (place ++ names) [n] := by
  obtain ⟨left, hs⟩ := spot_behind false habs hsteps rfl (by simp) ho hl
  rw [hs, ← walk_dotless_append ss (by simp), hss, walk_eq_descend hu hq.isName, hp.descend]

/-- A file is not moved to a path that ends in a dot. -/
theorem renameFile_dotted {tmp : Path} {source : Place} {node : Node}
    (hsource : t.spot tmp false = .ok (.present source node)) {ss : List (List Char)}
    (hss : pieces q.chars = ss ++ [['.']]) (hdots : dotless ss = names ++ [n]) :
    (t.renameFile tmp (root / q)).map (fun _ => ()) =
      resultOf (moveFault? (root / q) (t.node? (place ++ (names ++ [n])))) := by
  have hpieces := pieces_join (p := root) hq.relative
  have hlast : (pieces (root / q).chars).getLast? = some ['.'] := by
    rw [hpieces, hss, ← List.append_assoc, List.getLast?_concat]
  unfold renameFile moveFault?
  rw [hsource, hq.fileName?_join]
  simp only [bind, Except.bind, Option.getD_some]
  rw [if_pos (Or.inr (Or.inl hlast)), if_pos hlast]
  cases ho : openFault? (root / q) with
  | some f =>
    rw [spot_of_openFault ho]
    rfl
  | none =>
    obtain ⟨ss', hsteps, hss'⟩ : ∃ ss', steps (root / q) =
        pieces root.chars ++ (ss' ++ [['.']]) ∧ dotless ss' = names ++ [n] := by
      by_cases hslash : (root / q).chars.getLast? = some '/'
      · exact ⟨ss ++ [['.']], by simp [steps, hpieces, hss, hslash],
          by simpa [dotless] using hdots⟩
      · exact ⟨ss, by simp [steps, hpieces, hss, hslash], hdots⟩
    rw [spot_dotted hq hl hu hp hss' hsteps (openFault?_eq_none_iff.mp ho)]
    by_cases hf : fitsName n = true
    · cases hnode : t.node? (place ++ (names ++ [n])) with
      | none => simp [hf, resultOf, Except.map]
      | some old => cases old <;> simp [hf, resultOf, Except.map]
    · simp [hf, resultOf, Except.map]

theorem renameFile_named {tmp : Path} {source : Place} {node : Node}
    (hsource : t.spot tmp false = .ok (.present source node)) {ss : List (List Char)}
    (hss : pieces q.chars = ss ++ [n]) (hdots : dotless ss = names) :
    (t.renameFile tmp (root / q)).map (fun _ => ()) =
      resultOf (moveFault? (root / q) (t.node? (place ++ (names ++ [n])))) := by
  have hn := hq.isName n (by simp)
  have hpieces := pieces_join (p := root) hq.relative
  have hlast : (pieces (root / q).chars).getLast? = some n := by
    rw [hpieces, hss, ← List.append_assoc, List.getLast?_concat]
  have hnot : ¬ ((pieces (root / q).chars).getLast? = none ∨
      (pieces (root / q).chars).getLast? = some ['.'] ∨
      (pieces (root / q).chars).getLast? = some ['.', '.']) := by
    rw [hlast]
    simp [hn.notHere, hn.notUp]
  have hdot : ¬ (pieces (root / q).chars).getLast? = some ['.'] :=
    fun h => hnot (Or.inr (Or.inl h))
  unfold renameFile moveFault?
  rw [hsource, hq.fileName?_join]
  simp only [bind, Except.bind, Option.getD_some]
  rw [if_neg hnot, if_neg hdot]
  cases ho : openFault? (withoutEndSlashes (root / q)) with
  | some f =>
    rw [spot_of_openFault ho]
    rfl
  | none =>
    obtain ⟨hsame, habs, hend⟩ :=
      withoutEndSlashes_spec (s := (root / q).chars) (by simp [hpieces, hss])
    have hsteps : steps (withoutEndSlashes (root / q)) = pieces root.chars ++ (ss ++ [n]) := by
      unfold steps
      rw [if_neg fun h => hend h.2, hsame, hpieces, hss]
    rw [spot_named hq hl hu hp hdots (habs.trans (isAbsolute_join_of_relative hq.relative)) hsteps
      (openFault?_eq_none_iff.mp ho), descend, List.append_assoc]
    by_cases hf : fitsName n = true
    · by_cases hslash : (root / q).chars.getLast? = some '/'
      · cases hnode : t.node? (place ++ (names ++ [n])) with
        | none => simp [hf, hslash, resultOf, Except.map]
        | some old => cases old <;> simp [hf, hslash, resultOf, Except.map, descend]
      · cases hnode : t.node? (place ++ (names ++ [n])) with
        | none => simp [hf, hslash, resultOf, Except.map]
        | some old => cases old <;> simp [hf, hslash, resultOf, Except.map, descend]
    · simp [hf, resultOf, Except.map]

/-- **Which fault a move ends with.** -/
theorem renameFile_result {tmp : Path} {source : Place} {node : Node}
    (hsource : t.spot tmp false = .ok (.present source node)) :
    (t.renameFile tmp (root / q)).map (fun _ => ()) =
      resultOf (moveFault? (root / q) (t.node? (place ++ (names ++ [n])))) := by
  rcases hq.pieces_concat with ⟨ss, hss, hdots⟩ | ⟨ss, hss, hdots⟩
  · exact renameFile_dotted hq hl hu hp hsource hss hdots
  · exact renameFile_named hq hl hu hp hsource hss hdots

end Paved

end Replacement

end OfflineCache
