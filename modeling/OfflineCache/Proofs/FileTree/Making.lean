import OfflineCache.Proofs.FileTree.Directories

/-! Making the directories of a path. Below a base that leads to a directory the directories are paved
from there, below one that is missing the base is made first, and both leave the same tree. -/

namespace OfflineCache.FileTree

open OfflineCache.Path

variable {t t' : FileTree} {p q : Path} {place origin : Place} {names : List (List Char)}

/-! ## Below a base that leads to a directory -/

theorem under_ne_empty (hn : ∀ n ∈ names, IsName n) (hne : names ≠ []) :
    (p.under names).chars ≠ [] := by
  intro he
  have hp := pieces_under (p := p) hn
  rw [he] at hp
  exact hne (List.append_eq_nil_iff.mp (hp.symm.trans rfl)).2

theorem getLast?_under (hn : ∀ n ∈ names, IsName n) (hne : names ≠ []) :
    (p.under names).chars.getLast? ≠ some '/' := by
  intro hl
  have hsteps := steps_under (p := p) hn
  unfold steps at hsteps
  rw [pieces_under hn, if_pos ⟨by simp [hne], hl⟩] at hsteps
  simp at hsteps

theorem makeDirectory_under (hn : ∀ n ∈ names, IsName n) (hne : names ≠ [])
    (ho : Opens (p.under names)) (hl : Leads t p place) (hu : Unlinked t place) :
    t.makeDirectory (p.under names) = match t.descend place names with
      | .ok (.present _ _) => .error .exists
      | .ok (.free d n) => .ok (t.put (d ++ [n]) .directory)
      | .error f => .error f := by
  unfold makeDirectory
  rw [withoutEndSlashes_eq (getLast?_under hn hne), spot_under hn hne ho hl hu]
  cases t.descend place names with
  | error f => rfl
  | ok s => cases s <;> rfl

theorem isDirectory_under (hn : ∀ n ∈ names, IsName n) (hne : names ≠ [])
    (ho : Opens (p.under names)) (hl : Leads t p place) (hu : Unlinked t place) :
    t.isDirectory (p.under names) = true ↔
      ∃ r, t.descend place names = .ok (.present r .directory) := by
  unfold isDirectory find
  rw [spot_under hn hne ho hl hu]
  cases t.descend place names with
  | error f => simp [Except.bind]
  | ok s =>
    cases s with
    | free d n => simp [Except.bind, Spot.found]
    | present r node => cases node <;> simp [Except.bind, Spot.found]

/-- Above the last name all is there: only the last is made, or found. -/
theorem makeOrFind_under {s : List Char} (hn : ∀ n ∈ names ++ [s], IsName n)
    (ho : Opens (p.under (names ++ [s]))) (hl : Leads t p place) (hu : Unlinked t place)
    (hp : Paved t place names) :
    t.makeOrFind (p.under (names ++ [s])) = t.pave (place ++ names) [s] ∧
      t.makeDirectory (p.under (names ++ [s])) ≠ .error .notFound := by
  have hmake := makeDirectory_under hn (by simp) ho hl hu
  have hdir := isDirectory_under hn (by simp) ho hl hu
  rw [hp.descend [s]] at hmake hdir
  unfold makeOrFind
  rw [hmake]
  by_cases hf : fitsName s = true
  · cases hnode : t.node? (place ++ (names ++ [s])) with
    | none => simp [descend, pave_cons, hf, hnode]
    | some node =>
      cases node with
      | directory =>
        have hd : t.isDirectory (p.under (names ++ [s])) = true :=
          hdir.mpr ⟨place ++ (names ++ [s]), by simp [descend, hf, hnode]⟩
        simp [descend, pave_cons, hf, hnode, hd]
      | file b x =>
        have hd : t.isDirectory (p.under (names ++ [s])) = false := by
          rw [Bool.eq_false_iff, ne_eq, hdir]
          simp [descend, hf, hnode]
        simp [descend, pave_cons, hf, hnode, hd]
      | link target =>
        exact absurd hnode (hu _ target (by simp) (by simp))
  · have hd : t.isDirectory (p.under (names ++ [s])) = false := by
      rw [Bool.eq_false_iff, ne_eq, hdir]
      simp [descend, hf]
    simp [descend, pave_cons, hf, hd]

theorem Opens.of_prefix (h : Opens q) (hp : p.chars <+: q.chars) (hne : p.chars ≠ []) :
    Opens p := by
  obtain ⟨rest, hq⟩ := hp
  refine ⟨fun hm => h.noNull ?_, hne, ?_⟩
  · rw [← hq]
    exact List.mem_append_left _ hm
  · have hlen := h.short
    rw [← hq, Text.Utf8.length_append] at hlen
    omega

/-- Not following a link at the end makes no difference, or it ends at the link. -/
theorem Walks.not_following {links : Nat} {ss : List (List Char)} {r : Except Fault Spot}
    (h : Walks t true links origin ss r) : Walks t false links origin ss r ∨
      ∃ q target, Walks t false links origin ss (.ok (.present q (.link target))) := by
  induction h with
  | arrived => exact Or.inl .arrived
  | here _ ih => exact ih.imp .here fun ⟨q, target, h⟩ => ⟨q, target, .here h⟩
  | up _ ih => exact ih.imp .up fun ⟨q, target, h⟩ => ⟨q, target, .up h⟩
  | tooLong hd hu hf => exact Or.inl (.tooLong hd hu hf)
  | free hs hn => exact Or.inl (.free hs hn)
  | missing hs hn hr => exact Or.inl (.missing hs hn hr)
  | into hs hn _ ih => exact ih.imp (.into hs hn) fun ⟨q, target, h⟩ => ⟨q, target, .into hs hn h⟩
  | file hs hn => exact Or.inl (.file hs hn)
  | beyond hs hn hr => exact Or.inl (.beyond hs hn hr)
  | link _ _ ho => cases ho
  | @exhausted _ _ rest _ hs hn _ =>
    by_cases hr : rest = []
    · subst hr
      exact Or.inr ⟨_, _, .link hs hn rfl⟩
    · exact Or.inl (.exhausted hs hn fun h => absurd h hr)
  | @through _ _ _ rest _ _ hs hn _ _ ih =>
    by_cases hr : rest = []
    · subst hr
      exact Or.inr ⟨_, _, .link hs hn rfl⟩
    · have hr' : rest = [] → false = true := fun h => absurd h hr
      exact ih.imp (.through hs hn hr') fun ⟨q, target, h⟩ => ⟨q, target, .through hs hn hr' h⟩

/-- Opening the base itself, spelt plainly. -/
theorem spot_base (follow : Bool) (ho : Opens (p.under [])) :
    t.spot (p.under []) follow =
      t.walk follow maxLinks (if p.isAbsolute then [] else t.home) (dotless (pieces p.chars)) := by
  have hnone : ∀ n ∈ ([] : List (List Char)), IsName n := by simp
  have hsteps := steps_under (p := p) hnone
  have hchars : Component.chars ∘ Component.ofPiece = id := funext Component.chars_ofPiece
  rw [spot_of_opens t ho, isAbsolute_under hnone, hsteps, List.append_nil, body, List.map_append,
    List.map_map, hchars, List.map_id]
  by_cases hd : p.isAbsolute = false ∧ (pieces p.chars).head? = some ['.']
  · rw [if_pos hd, List.map_singleton, List.singleton_append]
    exact (walk_cons _ _).trans (if_pos rfl)
  · rw [if_neg hd, List.map_nil, List.nil_append]

theorem withoutEndSlashes_base (p : Path) : withoutEndSlashes (p.under []) = p.under [] := by
  have hnone : ∀ n ∈ ([] : List (List Char)), IsName n := by simp
  by_cases hl : (p.under []).chars.getLast? = some '/'
  · have hsteps := steps_under (p := p) hnone
    have hpieces := pieces_under (p := p) hnone
    have hempty : pieces (p.under []).chars = [] := by
      by_contra hne
      unfold steps at hsteps
      rw [if_pos ⟨hne, hl⟩, hpieces] at hsteps
      simp at hsteps
    have hbody : p.body = [] := by
      rw [hpieces] at hempty
      simpa using hempty
    have hchars := chars_under p []
    rw [hbody] at hchars
    unfold withoutEndSlashes
    rw [if_pos]
    rw [hchars]
    cases p.isAbsolute <;> simp [spell]
  · exact withoutEndSlashes_eq hl

section Missing

variable {n : Nat} {s : List Char} (hn : ∀ m ∈ names ++ [s], IsName m)
  (ho : Opens (p.under (names ++ [s])))
  (hmissing : t.makeDirectory (p.under (names ++ [s])) = .error .notFound)

include hn ho hmissing

/-! Where something above a name is missing it is made first. -/

theorem go_of_above_ok {t₁ : FileTree}
    (habove : layDirectories.go n t (p.under names) = (t₁, .ok ())) :
    layDirectories.go (n + 1) t (p.under (names ++ [s])) =
      t₁.makeOrFind (p.under (names ++ [s])) := by
  unfold layDirectories.go
  rw [if_neg ho.nonempty, hmissing]
  simp only [parent?_under hn, habove]

theorem go_of_above_error {t₁ : FileTree} {f : Fault}
    (habove : layDirectories.go n t (p.under names) = (t₁, .error f)) :
    layDirectories.go (n + 1) t (p.under (names ++ [s])) = (t₁, .error f) := by
  unfold layDirectories.go
  rw [if_neg ho.nonempty, hmissing]
  simp only [parent?_under hn, habove]

/-- What is above was paved, and so is the name. -/
theorem go_of_paved {made : FileTree} (hl : Leads made p place) (hu : Unlinked made place)
    (habove : layDirectories.go n t (p.under names) = ((made.pave place names).1, .ok ()))
    (hok : (made.pave place names).2 = .ok ()) :
    layDirectories.go (n + 1) t (p.under (names ++ [s])) = made.pave place (names ++ [s]) := by
  have hlaid := pave_laid made place names
  rw [go_of_above_ok hn ho hmissing habove, pave_append_of_ok hok [s]]
  exact (makeOrFind_under hn ho (hl.tended hlaid.tended) (hlaid.unlinked hu) (paved_pave hok)).1

end Missing

theorem go_of_ne_notFound {n : Nat} (hne : q.chars ≠ [])
    (h : t.makeDirectory q ≠ .error .notFound) :
    layDirectories.go (n + 1) t q = t.makeOrFind q := by
  unfold layDirectories.go
  rw [if_neg hne]
  split
  · rename_i he
    exact absurd he h
  · rfl

/-- At a base that leads to a directory nothing is made. -/
theorem go_base {n : Nat} (ho : (p.under []).chars = [] ∨ Opens (p.under []))
    (hl : Leads t p place) : layDirectories.go (n + 1) t (p.under []) = (t, .ok ()) := by
  rcases ho with he | ho
  · unfold layDirectories.go
    rw [if_pos he]
  · have hfollow : t.spot (p.under []) true = .ok (.present place .directory) :=
      (spot_base true ho).trans hl
    have hdir : t.isDirectory (p.under []) = true := by
      simp [isDirectory, find, hfollow, Except.bind, Spot.found]
    have hmake : t.makeDirectory (p.under []) = .error .exists := by
      unfold makeDirectory
      rw [withoutEndSlashes_base, spot_base false ho]
      rcases (walks_iff.mpr hl).not_following with h | ⟨r, target, h⟩ <;> rw [h.walk_eq] <;> rfl
    rw [go_of_ne_notFound ho.nonempty (by simp [hmake]), makeOrFind, hmake]
    simp [hdir]

/-- **Making the directories of a path** below a base that leads to a directory. -/
theorem go_of_leads (hl : Leads t p place) (hu : Unlinked t place) (hc : Closed t place)
    (hn : ∀ m ∈ names, IsName m) (ho : (p.under names).chars = [] ∨ Opens (p.under names))
    {n : Nat} (hlen : names.length < n) :
    layDirectories.go n t (p.under names) = t.pave place names := by
  induction names using List.reverseRecOn generalizing n with
  | nil =>
    obtain ⟨n, rfl⟩ := Nat.exists_eq_succ_of_ne_zero (Nat.ne_of_gt hlen)
    exact go_base ho hl
  | append_singleton names s ih =>
    obtain ⟨n, rfl⟩ := Nat.exists_eq_succ_of_ne_zero (Nat.ne_zero_of_lt hlen)
    have ho : Opens (p.under (names ++ [s])) := ho.resolve_left (under_ne_empty hn (by simp))
    have hmake := makeDirectory_under hn (by simp) ho hl hu
    have hdir := isDirectory_under hn (by simp) ho hl hu
    cases extent hc names with
    | all hp =>
      obtain ⟨hfind, hne⟩ := makeOrFind_under hn ho hl hu hp
      rw [go_of_ne_notFound ho.nonempty hne, hfind, pave_of_paved hp]
    | blocked hne hdescend hpave =>
      rw [hdescend s] at hmake hdir
      have hnot : t.isDirectory (p.under (names ++ [s])) = false := by
        rw [Bool.eq_false_iff, ne_eq, hdir]
        simp
      rw [go_of_ne_notFound ho.nonempty (by simpa [hmake] using hne), hpave s, makeOrFind, hmake]
      simp [hnot]
    | missing hdescend hresult =>
      rw [hdescend s] at hmake
      have hnames : ∀ m ∈ names, IsName m := fun m hm => hn m (List.mem_append_left _ hm)
      have habove : (p.under names).chars = [] ∨ Opens (p.under names) := by
        by_cases he : (p.under names).chars = []
        · exact Or.inl he
        · exact Or.inr (ho.of_prefix (chars_under_append p names [s]) he)
      have hmade := ih hnames habove (n := n) (by simpa using hlen)
      generalize hx : t.pave place names = x at hmade hresult
      obtain ⟨t₁, r⟩ := x
      rcases hresult with hok | hlong
      · obtain rfl : r = .ok () := hok
        exact go_of_paved hn ho hmake hl hu (by rw [hmade, hx]) (by rw [hx])
      · obtain rfl : r = .error .nameTooLong := hlong
        rw [go_of_above_error hn ho hmake hmade, pave_append_of_tooLong (by rw [hx]) [s], hx]

theorem layDirectories_of_leads (hl : Leads t p place) (hu : Unlinked t place)
    (hc : Closed t place) (hn : ∀ m ∈ names, IsName m)
    (ho : (p.under names).chars = [] ∨ Opens (p.under names)) :
    t.layDirectories (p.under names) = t.pave place names := by
  refine go_of_leads hl hu hc hn ho ?_
  rw [components_under hn]
  simp only [List.length_append, List.length_map]
  omega

/-! ## A base that is missing -/

/-- A fault that is not for want of a directory above is the end of it. -/
theorem layDirectories_of_stuck {f : Fault} (hne : q.chars ≠ [])
    (hmake : t.makeDirectory q = .error f) (hf : f ≠ .notFound) (hdir : t.isDirectory q = false) :
    t.layDirectories q = (t, .error f) := by
  rw [layDirectories, go_of_ne_notFound hne (by simpa [hmake] using hf), makeOrFind, hmake]
  simp [hdir]

theorem leads_of_empty (he : (p.under []).chars = []) :
    Leads t p (if p.isAbsolute then [] else t.home) := by
  have hnone : ∀ n ∈ ([] : List (List Char)), IsName n := by simp
  have hpieces := pieces_under (p := p) hnone
  rw [he, List.append_nil] at hpieces
  have hbody := dotless_body p
  rw [← hpieces] at hbody
  rw [Leads, ← hbody]
  exact walk_nil

/-- A base that leads nowhere but can be made is missing. -/
theorem onward_of_not_leads (hnot : ∀ r, ¬ Leads t p r) (ho : Opens (p.under []))
    (hmade : (t.layDirectories (p.under [])).2 = .ok ()) :
    onward (t.walk true maxLinks (if p.isAbsolute then [] else t.home)
      (dotless (pieces p.chars))) = .error .notFound := by
  have hfollow := spot_base (t := t) true ho
  have hstay := spot_base (t := t) false ho
  have hw := walks t true maxLinks (if p.isAbsolute then [] else t.home) (dotless (pieces p.chars))
  have hstuck : ∀ f, t.makeDirectory (p.under []) = .error f → f ≠ .notFound →
      t.isDirectory (p.under []) ≠ false := by
    intro f hmake hf hdir
    rw [layDirectories_of_stuck ho.nonempty hmake hf hdir] at hmade
    cases hmade
  have hmake : ∀ s, t.spot (p.under []) false = .ok s → (∀ d n, s ≠ .free d n) →
      t.makeDirectory (p.under []) = .error .exists := by
    intro s hs hfree
    rw [makeDirectory, withoutEndSlashes_base, hs]
    cases s with
    | present q node => rfl
    | free d n => exact absurd rfl (hfree d n)
  generalize hW : t.walk true maxLinks (if p.isAbsolute then [] else t.home)
    (dotless (pieces p.chars)) = W at hw hfollow
  cases W with
  | ok s =>
    cases s with
    | free d n => rfl
    | present q node =>
      cases node with
      | directory => exact absurd hW (hnot q)
      | link target => exact absurd hW walk_ne_link
      | file b x =>
        refine absurd ?_ (hstuck .exists ?_ (by decide))
        · simp [isDirectory, find, hfollow, Except.bind, Spot.found]
        · rcases hw.not_following with h | ⟨r, target, h⟩ <;>
            exact hmake _ (hstay.trans h.walk_eq) (fun _ _ he => by cases he)
  | error f =>
    by_cases hf : f = .notFound
    · rw [hf]
      rfl
    · have hdir : t.isDirectory (p.under []) = false := by
        simp [isDirectory, find, hfollow, Except.bind]
      rcases hw.not_following with h | ⟨r, target, h⟩
      · refine absurd hdir (hstuck f ?_ hf)
        rw [makeDirectory, withoutEndSlashes_base, hstay, h.walk_eq]
        rfl
      · exact absurd hdir
          (hstuck .exists (hmake _ (hstay.trans h.walk_eq) fun _ _ he => by cases he) (by decide))

/-- Below a base that is missing nothing is found. -/
theorem makeDirectory_of_not_leads (hnot : ∀ r, ¬ Leads t p r)
    (hmade : (t.layDirectories (p.under [])).2 = .ok ()) (hn : ∀ m ∈ names, IsName m)
    (hne : names ≠ []) (ho : Opens (p.under names)) :
    t.makeDirectory (p.under names) = .error .notFound := by
  have hbase : Opens (p.under []) := ho.of_prefix (by simpa using chars_under_append p [] names)
    fun he => hnot _ (leads_of_empty he)
  obtain ⟨left, hs⟩ := spot_beyond (t := t) false (isAbsolute_under hn) (steps_under hn)
    (dotless_body p) hne ho
  rw [makeDirectory, withoutEndSlashes_eq (getLast?_under hn hne), hs,
    onward_of_not_leads hnot hbase hmade]
  rfl

/-- **Making directories below a base that is missing** makes the base, and then what is paved from
it. -/
theorem layDirectories_of_not_leads {made : FileTree} (hnot : ∀ r, ¬ Leads t p r)
    (hmade : t.layDirectories (p.under []) = (made, .ok ())) (hl : Leads made p place)
    (hu : Unlinked made place) (hn : ∀ m ∈ names, IsName m)
    (ho : names = [] ∨ Opens (p.under names)) :
    (t.layDirectories (p.under names)).1 = (made.pave place names).1 ∧
      ((t.layDirectories (p.under names)).2 = .ok () ↔ (made.pave place names).2 = .ok ()) := by
  have hfuel : (p.under names).components.length + 1 =
      (p.under []).components.length + 1 + names.length := by
    rw [components_under hn, components_under (by simp)]
    simp only [List.length_append, List.length_map, List.map_nil, List.append_nil]
    omega
  unfold layDirectories at hmade ⊢
  rw [hfuel]
  clear hfuel
  induction names using List.reverseRecOn with
  | nil =>
    rw [List.length_nil, Nat.add_zero, hmade]
    exact ⟨rfl, Iff.rfl⟩
  | append_singleton names s ih =>
    have ho : Opens (p.under (names ++ [s])) := ho.resolve_left (by simp)
    have hnames : ∀ m ∈ names, IsName m := fun m hm => hn m (List.mem_append_left _ hm)
    have habove : names = [] ∨ Opens (p.under names) :=
      or_iff_not_imp_left.mpr fun hne =>
        ho.of_prefix (chars_under_append p names [s]) (under_ne_empty hnames hne)
    have hmissing := makeDirectory_of_not_leads hnot (by rw [layDirectories, hmade]) hn (by simp) ho
    obtain ⟨htree, hiff⟩ := ih hnames habove
    rw [List.length_append, List.length_singleton, ← Nat.add_assoc]
    generalize hx : layDirectories.go ((p.under []).components.length + 1 + names.length) t
      (p.under names) = x at htree hiff
    obtain ⟨t₁, r⟩ := x
    obtain rfl : t₁ = (made.pave place names).1 := htree
    cases r with
    | ok u =>
      rw [go_of_paved hn ho hmissing hl hu hx (hiff.mp rfl)]
      exact ⟨rfl, Iff.rfl⟩
    | error f =>
      rw [go_of_above_error hn ho hmissing hx]
      cases hr : (made.pave place names).2 with
      | ok u => exact absurd (hiff.mpr hr) nofun
      | error g =>
        obtain ⟨hsame, hne⟩ := pave_append_of_error hr [s]
        exact ⟨hsame.symm, iff_of_false nofun hne⟩

/-- Where the text of the path has a fault nothing is made. -/
theorem layDirectories_of_openFault {f : Fault} (hn : ∀ m ∈ names, IsName m)
    (hne : (p.under names).chars ≠ []) (hf : openFault? (p.under names) = some f) :
    t.layDirectories (p.under names) = (t, .error f) := by
  have hplain : withoutEndSlashes (p.under names) = p.under names := by
    by_cases he : names = []
    · subst he
      exact withoutEndSlashes_base p
    · exact withoutEndSlashes_eq (getLast?_under hn he)
  refine layDirectories_of_stuck hne ?_ ?_ ?_
  · rw [makeDirectory, hplain, spot_of_openFault hf]
    rfl
  · rintro rfl
    unfold openFault? at hf
    simp only [hne, if_false] at hf
    split at hf
    · cases hf
    · split at hf <;> cases hf
  · simp [isDirectory, find, spot_of_openFault hf, Except.bind]

/-! ## Trees that hang together -/

/-- Every node lies in a directory, and so does the work. -/
structure Rooted (t : FileTree) : Prop where
  home : t.node? t.home = some .directory
  parent : ∀ q n, t.node? (q ++ [n]) ≠ none → t.node? q = some .directory

theorem Rooted.closed (h : Rooted t) (place : Place) : Closed t place :=
  fun q n _ _ hn => h.parent q n hn

theorem Rooted.dropLast (h : Rooted t) {q : Place} (hq : t.node? q = some .directory) :
    t.node? q.dropLast = some .directory := by
  rcases List.eq_nil_or_concat q with rfl | ⟨d, n, rfl⟩
  · exact hq
  · rw [List.concat_eq_append] at hq ⊢
    rw [List.dropLast_concat]
    exact h.parent d n (by rw [hq]; simp)

/-- A free name at the end of a walk is in a directory. -/
theorem Rooted.node?_of_walks (h : Rooted t) {follow : Bool} {links : Nat} {ss : List (List Char)}
    {d : Place} {n : List Char} (hw : Walks t follow links origin ss (.ok (.free d n)))
    (ho : t.node? origin = some .directory) : t.node? d = some .directory := by
  generalize hr : Except.ok (Spot.free d n) = r at hw
  induction hw with
  | free _ _ =>
    cases hr
    exact ho
  | here _ ih => exact ih ho hr
  | up _ ih => exact ih (h.dropLast ho) hr
  | into _ hn _ ih => exact ih hn hr
  | through _ _ _ _ ih =>
    refine ih ?_ hr
    split
    · rfl
    · exact ho
  | _ => cases hr

theorem Rooted.node?_of_spot (h : Rooted t) {follow : Bool} {d : Place} {n : List Char}
    (hs : t.spot p follow = .ok (.free d n)) : t.node? d = some .directory := by
  refine h.node?_of_walks (walks_iff.mpr (spot_eq_ok_iff.mp hs).2) ?_
  split
  · rfl
  · exact h.home

theorem Rooted.put (h : Rooted t) {d : Place} {n : List Char} (hd : t.node? d = some .directory)
    (hn : t.node? (d ++ [n]) = none) : Rooted (t.put (d ++ [n]) .directory) := by
  have hlaid := laid_put hn
  refine ⟨hlaid.of_ne_none h.home, fun q m hm => hlaid.of_ne_none ?_⟩
  by_cases he : q ++ [m] = d ++ [n]
  · obtain ⟨rfl, -⟩ := List.append_inj' he rfl
    exact hd
  · rw [node?_put_of_ne (by simp) _ he] at hm
    exact h.parent q m hm

theorem Rooted.makeDirectory (h : Rooted t) (hm : t.makeDirectory p = .ok t') : Rooted t' := by
  obtain ⟨d, n, hs, rfl⟩ := of_makeDirectory hm
  exact h.put (h.node?_of_spot hs) (node?_of_spot_free hs)

theorem Rooted.layDirectories (h : Rooted t) (p : Path) : Rooted (t.layDirectories p).1 :=
  layDirectories_induction (fun _ _ _ ht hm => ht.makeDirectory hm) h p

end OfflineCache.FileTree
