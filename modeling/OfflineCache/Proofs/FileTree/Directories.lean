import OfflineCache.Proofs.FileTree.LinkFree
import OfflineCache.Proofs.FileTree.Writing

/-! Below a place without links. A walk there depends on the nodes at its names alone, and goes name by
name (`descend`). Making directories there is making one name after the other (`pave`), until a file
or a name that is too long stands in the way; what stands in the way (`obstacle?`) does not depend
on which of the directories are there already. -/

namespace OfflineCache.FileTree

open OfflineCache.Path

variable {t t' : FileTree} {p q : Path} {place origin : Place} {names : List (List Char)}

/-! ## Descending -/

/-- There is no link below the place. -/
def Unlinked (t : FileTree) (place : Place) : Prop :=
  ∀ q target, place <+: q → q ≠ place → t.node? q ≠ some (.link target)

/-- What is below the place lies in directories. -/
def Closed (t : FileTree) (place : Place) : Prop :=
  ∀ q n, place <+: q → q ≠ place → t.node? (q ++ [n]) ≠ none → t.node? q = some .directory

theorem LinkFree.unlinked (h : LinkFree t p) (hl : Leads t p place) : Unlinked t place :=
  fun _ target hq hne => h.not_link hl hq hne target

theorem prefix_of_concat {q : Place} {s : List Char} (h : origin ++ [s] <+: q) :
    origin <+: q ∧ q ≠ origin := by
  refine ⟨(List.prefix_append _ _).trans h, ?_⟩
  rintro rfl
  have hlen := h.length_le
  simp only [List.length_append, List.length_singleton] at hlen
  omega

theorem Unlinked.into (h : Unlinked t origin) (s : List Char) : Unlinked t (origin ++ [s]) :=
  fun q target hq _ => h q target (prefix_of_concat hq).1 (prefix_of_concat hq).2

theorem Closed.into (h : Closed t origin) (s : List Char) : Closed t (origin ++ [s]) :=
  fun q n hq _ => h q n (prefix_of_concat hq).1 (prefix_of_concat hq).2

/-- Below a place that holds no directory there is nothing. -/
theorem Closed.empty (h : Closed t origin) {s : List Char}
    (hs : t.node? (origin ++ [s]) ≠ some .directory) :
    ∀ a ≠ [], t.node? (origin ++ [s] ++ a) = none := by
  intro a
  induction a using List.reverseRecOn with
  | nil => exact fun hne => absurd rfl hne
  | append_singleton a n ih =>
    intro _
    by_contra hn
    rw [← List.append_assoc] at hn
    have hdir := h (origin ++ [s] ++ a) n (by simp) (by simp) hn
    by_cases ha : a = []
    · subst ha
      exact hs (by simpa using hdir)
    · rw [ih ha] at hdir
      cases hdir

/-- What holds anything is a directory. -/
theorem Closed.above (h : Closed t place) {a b : List (List Char)} (ha : a ≠ []) (hb : b ≠ [])
    (hn : t.node? (place ++ (a ++ b)) ≠ none) : t.node? (place ++ a) = some .directory := by
  induction b using List.reverseRecOn with
  | nil => exact absurd rfl hb
  | append_singleton b n ih =>
    rw [← List.append_assoc a, ← List.append_assoc place] at hn
    have hdir := h _ n (List.prefix_append _ _) (by simp [ha]) hn
    by_cases hb' : b = []
    · subst hb'
      simpa using hdir
    · exact ih hb' (by rw [hdir]; simp)

/-- Where no link is in the way a walk depends on the nodes at its names alone. -/
theorem walk_congr {follow : Bool} {links links' : Nat} {ss : List (List Char)}
    (hu : Unlinked t origin) (hup : ['.', '.'] ∉ ss)
    (h : ∀ a, a ≠ [] → a <+: dotless ss → t.node? (origin ++ a) = t'.node? (origin ++ a)) :
    t.walk follow links origin ss = t'.walk follow links' origin ss := by
  induction ss generalizing origin with
  | nil => rw [walk_nil, walk_nil]
  | cons s rest ih =>
    have hrest : ['.', '.'] ∉ rest := fun hm => hup (List.mem_cons_of_mem s hm)
    have hs : s ≠ ['.', '.'] := by
      rintro rfl
      exact hup (by simp)
    rw [walk_cons, walk_cons]
    by_cases hd : s = ['.']
    · subst hd
      rw [if_pos rfl, if_pos rfl]
      exact ih hu hrest (by simpa [dotless] using h)
    · have hdot : dotless (s :: rest) = s :: dotless rest := by simp [dotless, hd]
      rw [hdot] at h
      have hinto : t.walk follow links (origin ++ [s]) rest =
          t'.walk follow links' (origin ++ [s]) rest := by
        refine ih (hu.into s) hrest fun a _ ha => ?_
        rw [List.append_assoc]
        exact h ([s] ++ a) (by simp) (by simpa using ha)
      have hnode := h [s] (by simp) (by simp)
      rw [if_neg hd, if_neg hs, if_neg hd, if_neg hs, ← hnode]
      split
      · rfl
      · cases hn : t.node? (origin ++ [s]) with
        | none => rfl
        | some node =>
          cases node with
          | directory => exact hinto
          | file b x => rfl
          | link target => exact absurd hn (hu _ target (List.prefix_append _ _) (by simp))

/-- A walk along names where no link is in the way. -/
def descend (t : FileTree) : Place → List (List Char) → Except Fault Spot
  | origin, [] => .ok (.present origin .directory)
  | origin, s :: rest =>
    if !fitsName s then .error .nameTooLong
    else match t.node? (origin ++ [s]) with
      | none => if rest = [] then .ok (.free origin s) else .error .notFound
      | some .directory => t.descend (origin ++ [s]) rest
      | some n => if rest = [] then .ok (.present (origin ++ [s]) n) else .error .notDirectory

theorem walk_eq_descend {follow : Bool} {links : Nat} (hu : Unlinked t origin)
    (hn : ∀ n ∈ names, IsName n) :
    t.walk follow links origin names = t.descend origin names := by
  induction names generalizing origin with
  | nil => exact walk_nil
  | cons s rest ih =>
    have hs := hn s (by simp)
    rw [walk_cons, if_neg hs.notHere, if_neg hs.notUp, descend]
    split
    · rfl
    · have hlink : ∀ target, t.node? (origin ++ [s]) ≠ some (.link target) :=
        fun target => hu _ target (List.prefix_append _ _) (by simp)
      cases hnode : t.node? (origin ++ [s]) with
      | none => rfl
      | some node =>
        cases node with
        | directory => exact ih (hu.into s) fun n hm => hn n (List.mem_cons_of_mem s hm)
        | file b x => rfl
        | link target => exact absurd hnode (hlink target)

/-- Directories stand at all the names. -/
def Paved (t : FileTree) : Place → List (List Char) → Prop
  | _, [] => True
  | origin, s :: rest =>
    fitsName s = true ∧ t.node? (origin ++ [s]) = some .directory ∧ Paved t (origin ++ [s]) rest

theorem Paved.tended (h : Paved t origin names) (ht : Tended t t') : Paved t' origin names := by
  induction names generalizing origin with
  | nil => trivial
  | cons s rest ih => exact ⟨h.1, ht.directory _ h.2.1, ih h.2.2⟩

theorem Paved.append_iff {more : List (List Char)} :
    Paved t origin (names ++ more) ↔ Paved t origin names ∧ Paved t (origin ++ names) more := by
  induction names generalizing origin with
  | nil => simp [Paved]
  | cons s rest ih => simp [Paved, ih, and_assoc]

theorem Paved.last (h : Paved t origin names) :
    names = [] ∨ t.node? (origin ++ names) = some .directory := by
  rcases List.eq_nil_or_concat names with rfl | ⟨front, n, rfl⟩
  · exact Or.inl rfl
  · rw [List.concat_eq_append] at h ⊢
    refine Or.inr ?_
    have hn := (Paved.append_iff.mp h).2.2.1
    rwa [List.append_assoc] at hn

theorem Paved.walk {follow : Bool} {links : Nat} (h : Paved t origin names)
    (hn : ∀ n ∈ names, IsName n) (more : List (List Char)) :
    t.walk follow links origin (names ++ more) = t.walk follow links (origin ++ names) more := by
  induction names generalizing origin with
  | nil => simp
  | cons s rest ih =>
    rw [List.cons_append, walk_into (hn s (by simp)) h.1 h.2.1,
      ih h.2.2 fun n hm => hn n (List.mem_cons_of_mem s hm), List.append_assoc,
      List.singleton_append]

theorem Paved.descend (h : Paved t origin names) (more : List (List Char)) :
    t.descend origin (names ++ more) = t.descend (origin ++ names) more := by
  induction names generalizing origin with
  | nil => simp
  | cons s rest ih =>
    rw [List.cons_append, FileTree.descend, h.1, h.2.1]
    simpa using ih h.2.2

/-! ## Looking up below a base -/

/-- The fault in the text of a path, if it has one. -/
def openFault? (p : Path) : Option Fault :=
  if p.chars.contains '\x00' then some .nullInName
  else if p.chars = [] then some .notFound
  else if maxPath ≤ Text.Utf8.length p.chars then some .nameTooLong
  else none

theorem openFault?_eq_none_iff : openFault? p = none ↔ Opens p := by
  constructor
  · intro h
    unfold openFault? at h
    split at h
    · cases h
    split at h
    · cases h
    split at h
    · cases h
    · rename_i hn he hl
      exact ⟨by simpa using hn, he, Nat.not_le.mp hl⟩
  · intro h
    have hn : ¬ p.chars.contains '\x00' = true := by simpa using h.noNull
    rw [openFault?, if_neg hn, if_neg h.nonempty, if_neg (Nat.not_le.mpr h.short)]

theorem spot_of_openFault {f : Fault} (h : openFault? p = some f) (t : FileTree) (follow : Bool) :
    t.spot p follow = .error f := by
  unfold openFault? at h
  unfold spot
  split at h
  · rw [if_pos ‹_›]
    exact congrArg Except.error (Option.some.inj h)
  split at h
  · rw [if_neg ‹_›, if_pos ‹_›]
    exact congrArg Except.error (Option.some.inj h)
  split at h
  · rw [if_neg ‹_›, if_neg ‹_›, if_pos ‹_›]
    exact congrArg Except.error (Option.some.inj h)
  · cases h

/-- Behind a base the walk goes on from where the base leads. -/
theorem spot_beyond (follow : Bool) {ss rest : List (List Char)}
    (habs : q.isAbsolute = p.isAbsolute) (hsteps : steps q = ss ++ rest)
    (hss : dotless ss = dotless (pieces p.chars)) (hne : rest ≠ []) (ho : Opens q) :
    ∃ left, t.spot q follow = (onward (t.walk true maxLinks
      (if p.isAbsolute then [] else t.home) (dotless (pieces p.chars)))).bind fun place =>
        t.walk follow left place rest := by
  obtain ⟨left, -, happ⟩ := walk_append_eq t follow maxLinks
    (if p.isAbsolute then [] else t.home) (dotless (pieces p.chars)) hne
  refine ⟨left, ?_⟩
  rw [spot_of_opens t ho, habs, hsteps, ← walk_dotless_append ss hne, hss, happ]

theorem spot_behind (follow : Bool) {ss rest : List (List Char)}
    (habs : q.isAbsolute = p.isAbsolute) (hsteps : steps q = ss ++ rest)
    (hss : dotless ss = dotless (pieces p.chars)) (hne : rest ≠ []) (ho : Opens q)
    (hl : Leads t p place) :
    ∃ left, t.spot q follow = t.walk follow left place rest := by
  obtain ⟨left, hs⟩ := spot_beyond (t := t) follow habs hsteps hss hne ho
  refine ⟨left, ?_⟩
  rw [hs, show t.walk true maxLinks (if p.isAbsolute then [] else t.home)
    (dotless (pieces p.chars)) = .ok (.present place .directory) from hl]
  rfl

/-- What a path below a base finds depends on the nodes at its names alone. -/
theorem spot_congr {follow : Bool} (hb : Below p names q) (hn : ∀ n ∈ names, IsName n)
    (hl : Leads t p place) (hl' : Leads t' p place) (hu : Unlinked t place)
    (h : ∀ a, a ≠ [] → a <+: names → t.node? (place ++ a) = t'.node? (place ++ a)) :
    t.spot q follow = t'.spot q follow := by
  cases hf : openFault? q with
  | some f => rw [spot_of_openFault hf, spot_of_openFault hf]
  | none =>
    have ho := openFault?_eq_none_iff.mp hf
    obtain @⟨ss, rest, habs, hsteps, hss, hrest, hne⟩ := hb
    obtain ⟨left, hs⟩ := spot_behind follow habs hsteps hss hne ho hl
    obtain ⟨left', hs'⟩ := spot_behind follow habs hsteps hss hne ho hl'
    rw [hs, hs']
    refine walk_congr hu (fun hm => ?_) (hrest ▸ h)
    have hm' : ['.', '.'] ∈ dotless rest := List.mem_filter.mpr ⟨hm, by decide⟩
    exact (hn _ (hrest ▸ hm')).notUp rfl

theorem spot_under {follow : Bool} (hn : ∀ n ∈ names, IsName n) (hne : names ≠ [])
    (ho : Opens (p.under names)) (hl : Leads t p place) (hu : Unlinked t place) :
    t.spot (p.under names) follow = t.descend place names := by
  obtain ⟨left, hs⟩ := spot_behind follow (isAbsolute_under hn) (steps_under hn)
    (dotless_body p) hne ho hl
  rw [hs, walk_eq_descend hu hn]

/-! ## Making directories one after the other -/

/-- Makes a directory at each of the names, below the last. -/
def pave : FileTree → Place → List (List Char) → FileTree × Except Fault Unit
  | t, _, [] => (t, .ok ())
  | t, origin, s :: rest =>
    if !fitsName s then (t, .error .nameTooLong)
    else match t.node? (origin ++ [s]) with
      | none => (t.put (origin ++ [s]) .directory).pave (origin ++ [s]) rest
      | some .directory => t.pave (origin ++ [s]) rest
      | some _ => (t, .error (if rest = [] then .exists else .notDirectory))

@[simp] theorem pave_nil (t : FileTree) (origin : Place) : t.pave origin [] = (t, .ok ()) := rfl

/-- One name of what is made. -/
theorem pave_cons (t : FileTree) (origin : Place) (s : List Char) (rest : List (List Char)) :
    t.pave origin (s :: rest) =
      if !fitsName s then (t, .error .nameTooLong)
      else match t.node? (origin ++ [s]) with
        | none => (t.put (origin ++ [s]) .directory).pave (origin ++ [s]) rest
        | some .directory => t.pave (origin ++ [s]) rest
        | some _ => (t, .error (if rest = [] then .exists else .notDirectory)) := rfl

/-- What keeps directories from being at all the names. -/
def obstacle? (t : FileTree) : Place → List (List Char) → Option Fault
  | _, [] => none
  | origin, s :: rest =>
    if !fitsName s then some .nameTooLong
    else match t.node? (origin ++ [s]) with
      | none => t.obstacle? (origin ++ [s]) rest
      | some .directory => t.obstacle? (origin ++ [s]) rest
      | some _ => some (if rest = [] then .exists else .notDirectory)

/-- Nothing, or a directory. -/
def Passes (node : Option Node) : Prop := node = none ∨ node = some .directory

theorem obstacle?_congr (h : ∀ a, a ≠ [] → a <+: names →
    (Passes (t.node? (origin ++ a)) ↔ Passes (t'.node? (origin ++ a)))) :
    t.obstacle? origin names = t'.obstacle? origin names := by
  induction names generalizing origin with
  | nil => rfl
  | cons s rest ih =>
    have hrest : t.obstacle? (origin ++ [s]) rest = t'.obstacle? (origin ++ [s]) rest := by
      refine ih fun a _ ha => ?_
      have hs := h (s :: a) (by simp) (by simpa using ha)
      simpa using hs
    have hs := h [s] (by simp) (by simp)
    simp only [obstacle?]
    split
    · rfl
    · cases hn : t.node? (origin ++ [s]) with
      | none =>
        rcases hs.mp (Or.inl hn) with hn' | hn' <;> rw [hn'] <;> exact hrest
      | some node =>
        by_cases hd : node = .directory
        · subst hd
          rcases hs.mp (Or.inr hn) with hn' | hn' <;> rw [hn'] <;> exact hrest
        · have hnot : ¬ Passes (t'.node? (origin ++ [s])) := by
            intro hp
            rcases hs.mpr hp with h' | h'
            · rw [hn] at h'
              cases h'
            · exact hd (Option.some.inj (hn.symm.trans h'))
          cases hn' : t'.node? (origin ++ [s]) with
          | none => exact absurd (Or.inl hn') hnot
          | some node' =>
            have hd' : node' ≠ .directory := by
              rintro rfl
              exact hnot (Or.inr hn')
            cases node <;> cases node' <;> simp_all

/-- The result of what fails by this fault or not at all. -/
def resultOf : Option Fault → Except Fault Unit
  | none => .ok ()
  | some f => .error f

theorem resultOf_inj {f g : Option Fault} : resultOf f = resultOf g ↔ f = g := by
  cases f <;> cases g <;> simp [resultOf]

theorem of_map_eq_resultOf {α : Type} {r : Except Fault α} {f : Option Fault}
    (h : r.map (fun _ => ()) = resultOf f) :
    (∃ x, r = .ok x ∧ f = none) ∨ ∃ c, r = .error c ∧ f = some c := by
  cases r with
  | ok x => exact Or.inl ⟨x, rfl, (resultOf_inj (f := none).mp h).symm⟩
  | error c => exact Or.inr ⟨c, rfl, (resultOf_inj (f := some c).mp h).symm⟩

theorem pave_result (t : FileTree) (origin : Place) (names : List (List Char)) :
    (t.pave origin names).2 = resultOf (t.obstacle? origin names) := by
  induction names generalizing t origin with
  | nil => rfl
  | cons s rest ih =>
    simp only [pave_cons, obstacle?]
    split
    · rfl
    · cases hn : t.node? (origin ++ [s]) with
      | none =>
        have hsame : (t.put (origin ++ [s]) .directory).obstacle? (origin ++ [s]) rest =
            t.obstacle? (origin ++ [s]) rest := by
          refine obstacle?_congr fun a ha _ => ?_
          rw [node?_put_of_ne (by simp) _ (by simpa using ha)]
        simp only [ih, hsame]
      | some node => cases node <;> first | exact ih t (origin ++ [s]) | rfl

theorem pave_laid (t : FileTree) (origin : Place) (names : List (List Char)) :
    Laid t (t.pave origin names).1 := by
  induction names generalizing t origin with
  | nil => exact .refl t
  | cons s rest ih =>
    simp only [pave_cons]
    split
    · exact .refl t
    · split
      · rename_i hn
        exact (laid_put hn).trans (ih _ _)
      · exact ih _ _
      · exact .refl t

/-- Only what the names lead to is made. -/
theorem node?_pave (t : FileTree) (origin : Place) (names : List (List Char)) (q : Place) :
    (t.pave origin names).1.node? q = t.node? q ∨
      ∃ a, a ≠ [] ∧ a <+: names ∧ q = origin ++ a := by
  induction names generalizing t origin with
  | nil => exact Or.inl rfl
  | cons s rest ih =>
    have hdeeper : ∀ t : FileTree, (t.pave (origin ++ [s]) rest).1.node? q = t.node? q ∨
        ∃ a, a ≠ [] ∧ a <+: s :: rest ∧ q = origin ++ a := by
      intro t
      rcases ih t (origin ++ [s]) with he | ⟨a, -, ha, rfl⟩
      · exact Or.inl he
      · exact Or.inr ⟨s :: a, by simp, by simpa using ha, by simp⟩
    simp only [pave_cons]
    split
    · exact Or.inl rfl
    · split
      · by_cases hq : q = origin ++ [s]
        · exact Or.inr ⟨[s], by simp, by simp, hq⟩
        · rcases hdeeper (t.put (origin ++ [s]) .directory) with he | hchain
          · exact Or.inl (he.trans (node?_put_of_ne (by simp) _ hq))
          · exact Or.inr hchain
      · exact hdeeper t
      · exact Or.inl rfl

theorem paved_pave (h : (t.pave origin names).2 = .ok ()) :
    Paved (t.pave origin names).1 origin names := by
  induction names generalizing t origin with
  | nil => trivial
  | cons s rest ih =>
    simp only [pave_cons] at h ⊢
    split at h
    · cases h
    · rename_i hf
      rw [if_neg hf]
      have hfits : fitsName s = true := by simpa using hf
      split at h
      · rename_i hn
        refine ⟨hfits, ?_, ih h⟩
        refine (pave_laid _ _ _).tended.directory _ ?_
        rw [node?_put (by simp), if_pos rfl]
      · rename_i hn
        exact ⟨hfits, (pave_laid _ _ _).tended.directory _ hn, ih h⟩
      · cases h

theorem pave_of_paved (h : Paved t origin names) (more : List (List Char)) :
    t.pave origin (names ++ more) = t.pave (origin ++ names) more := by
  induction names generalizing origin with
  | nil => simp
  | cons s rest ih =>
    rw [List.cons_append, pave_cons, h.1, h.2.1]
    simpa using ih h.2.2

theorem pave_append_of_ok (h : (t.pave origin names).2 = .ok ()) (more : List (List Char)) :
    t.pave origin (names ++ more) = (t.pave origin names).1.pave (origin ++ names) more := by
  induction names generalizing t origin with
  | nil => simp
  | cons s rest ih =>
    simp only [List.cons_append, pave_cons] at h ⊢
    split at h
    · cases h
    · rename_i hf
      rw [if_neg hf, if_neg hf]
      split at h
      · simpa using ih h
      · simpa using ih h
      · cases h

theorem pave_append_of_tooLong (h : (t.pave origin names).2 = .error .nameTooLong)
    (more : List (List Char)) :
    t.pave origin (names ++ more) = ((t.pave origin names).1, .error .nameTooLong) := by
  induction names generalizing t origin with
  | nil => cases h
  | cons s rest ih =>
    simp only [List.cons_append, pave_cons] at h ⊢
    split at h
    · rename_i hf
      rw [if_pos hf, if_pos hf]
    · rename_i hf
      rw [if_neg hf, if_neg hf]
      split at h
      · exact ih h
      · exact ih h
      · split at h <;> cases h

theorem pave_append_of_error {f : Fault} (h : (t.pave origin names).2 = .error f)
    (more : List (List Char)) :
    (t.pave origin (names ++ more)).1 = (t.pave origin names).1 ∧
      (t.pave origin (names ++ more)).2 ≠ .ok () := by
  induction names generalizing t origin with
  | nil => cases h
  | cons s rest ih =>
    simp only [List.cons_append, pave_cons] at h ⊢
    split at h
    · rename_i hf
      rw [if_pos hf, if_pos hf]
      exact ⟨rfl, nofun⟩
    · rename_i hf
      rw [if_neg hf, if_neg hf]
      split at h
      · exact ih h
      · exact ih h
      · exact ⟨rfl, nofun⟩

/-- Where nothing is, only a name that is too long stands in the way. -/
theorem pave_of_empty (h : ∀ a ≠ [], t.node? (origin ++ a) = none) :
    (t.pave origin names).2 = .ok () ∨ (t.pave origin names).2 = .error .nameTooLong := by
  induction names generalizing t origin with
  | nil => exact Or.inl rfl
  | cons s rest ih =>
    simp only [pave_cons]
    split
    · exact Or.inr rfl
    · rw [h [s] (by simp)]
      refine ih fun a ha => ?_
      rw [node?_put_of_ne (by simp) _ (by simpa using ha), List.append_assoc]
      exact h ([s] ++ a) (by simp)

theorem Closed.put (h : Closed t place) {d : Place} {n : List Char}
    (hd : d = place ∨ t.node? d = some .directory)
    (hn : t.node? (d ++ [n]) ≠ some .directory) (node : Node) :
    Closed (t.put (d ++ [n]) node) place := by
  have hne : d ++ [n] ≠ [] := by simp
  intro q m hq hqne hm
  by_cases he : q ++ [m] = d ++ [n]
  · obtain ⟨rfl, -⟩ := List.append_inj' he rfl
    rw [node?_put_of_ne hne _ (by simp)]
    exact hd.resolve_left hqne
  · rw [node?_put_of_ne hne _ he] at hm
    have hdir := h q m hq hqne hm
    have hqn : q ≠ d ++ [n] := by
      rintro rfl
      exact hn hdir
    rw [node?_put_of_ne hne _ hqn, hdir]

theorem Closed.erase (h : Closed t place) {r : Place} (hne : r ≠ [])
    (hr : t.node? r ≠ some .directory) : Closed (t.erase r) place := by
  intro q m hq hqne hm
  have hqm : q ++ [m] ≠ r := by
    rintro rfl
    rw [node?_erase hne, if_pos rfl] at hm
    exact hm rfl
  rw [node?_erase_of_ne hne hqm] at hm
  have hdir := h q m hq hqne hm
  have hqr : q ≠ r := by
    rintro rfl
    exact hr hdir
  rw [node?_erase_of_ne hne hqr, hdir]

theorem closed_pave (h : Closed t place) (hd : origin = place ∨ t.node? origin = some .directory) :
    Closed (t.pave origin names).1 place := by
  induction names generalizing t origin with
  | nil => exact h
  | cons s rest ih =>
    simp only [pave_cons]
    split
    · exact h
    · split
      · rename_i hn
        refine ih (h.put hd (by simp [hn]) .directory) (Or.inr ?_)
        rw [node?_put (by simp), if_pos rfl]
      · rename_i hn
        exact ih h (Or.inr hn)
      · exact h

theorem Laid.unlinked (h : Laid t t') (hu : Unlinked t place) : Unlinked t' place := by
  intro q target hq hne hl
  rcases h.node q with he | ⟨-, hd⟩
  · exact hu q target hq hne (he ▸ hl)
  · rw [hd] at hl
    cases hl

/-- How far the directories of a path are there: all of them; or something stands in the way before
anything is missing; or the first of them that is not there is missing. -/
inductive Extent (t : FileTree) (origin : Place) (names : List (List Char)) : Prop
  | all : Paved t origin names → Extent t origin names
  | blocked {f : Fault} : f ≠ .notFound → (∀ s, t.descend origin (names ++ [s]) = .error f) →
      (∀ s, t.pave origin (names ++ [s]) = (t, .error f)) → Extent t origin names
  | missing : (∀ s, t.descend origin (names ++ [s]) = .error .notFound) →
      (t.pave origin names).2 = .ok () ∨ (t.pave origin names).2 = .error .nameTooLong →
      Extent t origin names

theorem extent (hc : Closed t origin) (names : List (List Char)) : Extent t origin names := by
  induction names generalizing origin with
  | nil => exact .all trivial
  | cons s rest ih =>
    by_cases hf : fitsName s = true
    · cases hn : t.node? (origin ++ [s]) with
      | none =>
        have hempty : ∀ a ≠ [],
            (t.put (origin ++ [s]) .directory).node? (origin ++ [s] ++ a) = none := by
          intro a ha
          rw [node?_put_of_ne (by simp) _ (by simpa using ha)]
          exact hc.empty (by simp [hn]) a ha
        refine .missing (fun n => by simp [descend, hf, hn]) ?_
        simpa [pave_cons, hf, hn] using pave_of_empty hempty
      | some node =>
        by_cases hd : node = .directory
        · subst hd
          cases ih (hc.into s) with
          | all h => exact .all ⟨hf, hn, h⟩
          | blocked hne hdescend hpave =>
            exact .blocked hne (fun n => by simpa [descend, hf, hn] using hdescend n)
              (fun n => by simpa [pave_cons, hf, hn] using hpave n)
          | missing hdescend hpave =>
            exact .missing (fun n => by simpa [descend, hf, hn] using hdescend n)
              (by simpa [pave_cons, hf, hn] using hpave)
        · refine .blocked (f := .notDirectory) (by decide) (fun n => ?_) (fun n => ?_) <;>
            cases node <;> simp_all [descend, pave_cons]
    · refine .blocked (f := .nameTooLong) (by decide) (fun n => ?_) (fun n => ?_) <;>
        simp [descend, pave_cons, hf]

end OfflineCache.FileTree
