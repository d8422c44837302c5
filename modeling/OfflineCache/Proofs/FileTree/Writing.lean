import OfflineCache.Proofs.FileTree.Change
import OfflineCache.Proofs.FileTree.Prefix

/-! What operations on files do when they succeed: each changes one place, the one that the path
leads to. Making directories only adds directories, also where it fails halfway. -/

namespace OfflineCache.FileTree

open OfflineCache.Path

variable {t t' : FileTree} {p q : Path} {follow : Bool}

/-! ## Opening -/

/-- A path that may be opened, as far as its text goes. -/
structure Opens (p : Path) : Prop where
  noNull : '\x00' ∉ p.chars
  nonempty : p.chars ≠ []
  short : Text.Utf8.length p.chars < maxPath

theorem spot_of_opens (t : FileTree) (h : Opens p) (follow : Bool) :
    t.spot p follow = t.walk follow maxLinks (if p.isAbsolute then [] else t.home) (steps p) := by
  have hn : ¬ p.chars.contains '\x00' = true := by simpa using h.noNull
  unfold spot
  rw [if_neg hn, if_neg h.nonempty, if_neg (Nat.not_le.mpr h.short)]

theorem spot_eq_ok_iff {s : Spot} : t.spot p follow = .ok s ↔
    Opens p ∧
      t.walk follow maxLinks (if p.isAbsolute then [] else t.home) (steps p) = .ok s := by
  constructor
  · intro h
    have hopens : Opens p := by
      unfold spot at h
      split at h
      · cases h
      split at h
      · cases h
      split at h
      · cases h
      · rename_i hn he hl
        exact ⟨by simpa using hn, he, Nat.not_le.mp hl⟩
    rw [spot_of_opens t hopens] at h
    exact ⟨hopens, h⟩
  · rintro ⟨hopens, h⟩
    rw [spot_of_opens t hopens, h]

theorem Walks.node?_free {links : Nat} {origin d : Place} {n : List Char}
    {ss : List (List Char)} (h : Walks t follow links origin ss (.ok (.free d n))) :
    t.node? (d ++ [n]) = none := by
  generalize hr : Except.ok (Spot.free d n) = r at h
  induction h with
  | free _ hn =>
    cases hr
    exact hn
  | here _ ih => exact ih hr
  | up _ ih => exact ih hr
  | into _ _ _ ih => exact ih hr
  | through _ _ _ _ ih => exact ih hr
  | _ => cases hr

theorem Walks.node?_present {links : Nat} {origin place : Place} {node : Node}
    {ss : List (List Char)} (h : Walks t follow links origin ss (.ok (.present place node)))
    (hd : node ≠ .directory) : t.node? place = some node := by
  generalize hr : Except.ok (Spot.present place node) = r at h
  induction h with
  | file _ hn =>
    cases hr
    exact hn
  | link _ hn _ =>
    cases hr
    exact hn
  | arrived =>
    cases hr
    exact absurd rfl hd
  | here _ ih => exact ih hr
  | up _ ih => exact ih hr
  | into _ _ _ ih => exact ih hr
  | through _ _ _ _ ih => exact ih hr
  | _ => cases hr

theorem node?_of_spot_free {d : Place} {n : List Char} (h : t.spot p follow = .ok (.free d n)) :
    t.node? (d ++ [n]) = none := (walks_iff.mpr (spot_eq_ok_iff.mp h).2).node?_free

theorem node?_of_spot_present {place : Place} {node : Node}
    (h : t.spot p follow = .ok (.present place node)) (hd : node ≠ .directory) :
    t.node? place = some node := (walks_iff.mpr (spot_eq_ok_iff.mp h).2).node?_present hd

/-- A path that led to a place where a file is by now leads to the file. -/
theorem find_of_spot {s : Spot} {b : Bytes} {x : Bool} (h : t.spot p false = .ok s)
    (hd : ∀ r, s ≠ .present r .directory) (hl : ∀ r target, s ≠ .present r (.link target))
    (ht : Tended t t') (hn : t'.node? s.place = some (.file b x)) :
    t'.find p = .ok (s.place, .file b x) := by
  obtain ⟨hopens, hwalk⟩ := spot_eq_ok_iff.mp h
  have hthere := ((walks_iff.mpr hwalk).following hl).file_there ht hd hn
  unfold find
  rw [spot_of_opens t' hopens, ht.home, hthere.walk_eq]
  rfl

theorem find_eq_ok_iff_spot {place : Place} {node : Node} :
    t.find p = .ok (place, node) ↔ t.spot p true = .ok (.present place node) :=
  bind_found_eq_ok_iff

theorem find_tended {place : Place} {b c : Bytes} {x y : Bool}
    (h : t.find p = .ok (place, .file b x)) (ht : Tended t t')
    (hn : t'.node? place = some (.file c y)) : t'.find p = .ok (place, .file c y) := by
  obtain ⟨hopens, hwalk⟩ := spot_eq_ok_iff.mp (find_eq_ok_iff_spot.mp h)
  have hthere := (walks_iff.mpr hwalk).file_there ht (by simp) hn
  unfold find
  rw [spot_of_opens t' hopens, ht.home, hthere.walk_eq]
  rfl

theorem node?_of_find {place : Place} {b : Bytes} {x : Bool}
    (h : t.find p = .ok (place, .file b x)) : t.node? place = some (.file b x) :=
  node?_of_spot_present (find_eq_ok_iff_spot.mp h) (by simp)

/-! ## Making directories -/

/-- Directories were added, at free places. -/
structure Laid (t t' : FileTree) : Prop where
  home : t'.home = t.home
  node : ∀ p, t'.node? p = t.node? p ∨ t.node? p = none ∧ t'.node? p = some .directory

theorem Laid.refl (t : FileTree) : Laid t t := ⟨rfl, fun _ => Or.inl rfl⟩

theorem Laid.trans {t'' : FileTree} (h : Laid t t') (h' : Laid t' t'') : Laid t t'' := by
  refine ⟨h'.home.trans h.home, fun p => ?_⟩
  rcases h'.node p with he | ⟨hn, hd⟩
  · rw [he]
    exact h.node p
  · rcases h.node p with he | ⟨-, hd'⟩
    · exact Or.inr ⟨he ▸ hn, hd⟩
    · rw [hn] at hd'
      cases hd'

theorem Laid.of_ne_none (h : Laid t t') {r : Place} {node : Node} (hr : t.node? r = some node) :
    t'.node? r = some node := by
  rcases h.node r with he | ⟨hn, -⟩
  · rw [he, hr]
  · rw [hr] at hn
    cases hn

theorem Laid.tended (h : Laid t t') : Tended t t' := by
  refine ⟨h.home, fun _ hp => h.of_ne_none hp, fun r target => ⟨fun hr => ?_, h.of_ne_none⟩,
    fun _ b x hp => Or.inl ⟨b, x, h.of_ne_none hp⟩⟩
  rcases h.node r with he | ⟨-, hd⟩
  · rw [← he, hr]
  · rw [hr] at hd
    cases hd

theorem Laid.content? (h : Laid t t') (r : Place) : t'.content? r = t.content? r := by
  unfold FileTree.content?
  rcases h.node r with he | ⟨hn, hd⟩
  · rw [he]
  · rw [hn, hd]

theorem laid_put {r : Place} (h : t.node? r = none) : Laid t (t.put r .directory) := by
  have hne : r ≠ [] := ne_nil_of_node? (t := t) (by simp [h])
  refine ⟨rfl, fun s => ?_⟩
  rw [node?_put hne]
  split
  · rename_i he
    exact Or.inr ⟨he ▸ h, rfl⟩
  · exact Or.inl rfl

theorem of_makeDirectory (h : t.makeDirectory p = .ok t') :
    ∃ d n, t.spot (withoutEndSlashes p) false = .ok (.free d n) ∧
      t' = t.put (d ++ [n]) .directory := by
  unfold makeDirectory at h
  cases hs : t.spot (withoutEndSlashes p) false with
  | error f =>
    rw [hs] at h
    cases h
  | ok s =>
    rw [hs] at h
    cases s with
    | present place node => cases h
    | free d n =>
      cases h
      exact ⟨d, n, rfl, rfl⟩

theorem laid_makeDirectory (h : t.makeDirectory p = .ok t') : Laid t t' := by
  obtain ⟨d, n, hs, rfl⟩ := of_makeDirectory h
  exact laid_put (node?_of_spot_free hs)

/-- What is kept whenever one directory is made is kept when those of a path are, and where that
fails halfway. -/
theorem layDirectories_induction {P : FileTree → Prop}
    (hmake : ∀ t t' p, P t → t.makeDirectory p = .ok t' → P t') (h : P t) (p : Path) :
    P (t.layDirectories p).1 := by
  have hfind : ∀ t p, P t → P (t.makeOrFind p).1 := by
    intro t p ht
    unfold makeOrFind
    split
    · rename_i hm
      exact hmake t _ p ht hm
    · exact ht
  have hgo : ∀ n t p, P t → P (layDirectories.go n t p).1 := by
    intro n
    induction n with
    | zero => exact fun _ _ ht => ht
    | succ n ih =>
      intro t p ht
      unfold layDirectories.go
      split
      · exact ht
      · split
        · split
          · exact ht
          · rename_i q _
            have hq := ih t q ht
            split
            · rename_i habove
              rw [habove] at hq
              exact hq
            · rename_i habove
              rw [habove] at hq
              exact hfind _ p hq
        · exact hfind t p ht
  exact hgo _ t p h

theorem laid_layDirectories (t : FileTree) (p : Path) : Laid t (t.layDirectories p).1 :=
  layDirectories_induction (fun _ _ _ h hm => h.trans (laid_makeDirectory hm)) (.refl t) p

/-! ## Writing, renaming and removing -/

/-- Whether what is written at the spot will be executable: as the file that was there. -/
inductive Spot.Writes : Spot → Bool → Prop
  | file {place : Place} {b : Bytes} {x : Bool} : Writes (.present place (.file b x)) x
  | free {d : Place} {n : List Char} : Writes (.free d n) false

theorem writeFile_eq_ok_iff {b : Bytes} : t.writeFile p b = .ok t' ↔
    ∃ s x, t.spot p true = .ok s ∧ s.Writes x ∧ t' = t.put s.place (.file b x) := by
  unfold writeFile writePlace
  constructor
  · intro h
    cases hs : t.spot p true with
    | error f =>
      rw [hs] at h
      cases h
    | ok s =>
      rw [hs] at h
      cases s with
      | free d n =>
        cases h
        exact ⟨_, false, rfl, .free, rfl⟩
      | present place node =>
        cases node with
        | file c x =>
          cases h
          exact ⟨_, x, rfl, .file, rfl⟩
        | directory => cases h
        | link target => cases h
  · rintro ⟨s, x, hs, hw, rfl⟩
    rw [hs]
    cases hw <;> rfl

theorem createFile_eq (t : FileTree) (p : Path) : t.createFile p = t.writeFile p [] := rfl

theorem Tended.write {s : Spot} {x : Bool} (b : Bytes) (h : t.spot p follow = .ok s)
    (hw : s.Writes x) : Tended t (t.put s.place (.file b x)) := by
  cases hw with
  | file => exact .put_file (node?_of_spot_present h (by simp))
  | free => exact .put_free (node?_of_spot_free h) (by simp)

theorem withoutEndSlashes_eq (h : p.chars.getLast? ≠ some '/') : withoutEndSlashes p = p := by
  unfold withoutEndSlashes
  split
  · rfl
  · have hdrop : p.chars.reverse.dropWhile (· = '/') = p.chars.reverse := by
      cases hr : p.chars.reverse with
      | nil => rfl
      | cons c r =>
        have hc : c ≠ '/' := by
          rintro rfl
          rw [← List.head?_reverse, hr] at h
          exact h rfl
        simp [hc]
    rw [hdrop, List.reverse_reverse]

/-- A file or link took the other name, and what was there before is no directory. -/
theorem of_renameFile (h : t.renameFile p q = .ok t') :
    ∃ source node s, t.spot p false = .ok (.present source node) ∧ t.spot q false = .ok s ∧
      (∀ r, s ≠ .present r .directory) ∧ t' = (t.erase source).put s.place node := by
  unfold renameFile at h
  cases hp : t.spot p false with
  | error f =>
    rw [hp] at h
    cases h
  | ok s =>
    rw [hp] at h
    cases s with
    | free d n => cases h
    | present source node =>
      simp only [bind, Except.bind] at h
      split at h
      · split at h <;> cases h
      · split at h
        · cases h
        · rename_i target htarget
          split at h
          · cases h
          · rename_i hlast
            rw [withoutEndSlashes_eq hlast] at htarget
            split at h
            · cases h
            · rename_i place old hold
              cases h
              exact ⟨source, node, _, rfl, htarget, fun r hr => hold ((Spot.present.inj hr).2), rfl⟩
            · cases h
              exact ⟨source, node, _, rfl, htarget, nofun, rfl⟩

theorem of_removeFile (h : t.removeFile p = .ok t') :
    ∃ place node, t.spot p false = .ok (.present place node) ∧ node ≠ .directory ∧
      t' = t.erase place := by
  unfold removeFile at h
  cases hp : t.spot p false with
  | error f =>
    rw [hp] at h
    cases h
  | ok s =>
    rw [hp] at h
    cases s with
    | free d n => cases h
    | present place node =>
      cases node with
      | directory => cases h
      | file b x =>
        cases h
        exact ⟨place, _, rfl, by simp, rfl⟩
      | link target =>
        cases h
        exact ⟨place, _, rfl, by simp, rfl⟩

end OfflineCache.FileTree
