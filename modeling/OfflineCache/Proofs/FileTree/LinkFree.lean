import OfflineCache.Proofs.FileTree.Change
import OfflineCache.Proofs.Path.Below

/-! Places below a base. A path with names behind a base leads to these names below the directory
that the base leads to, if there are no links on the way: `place_of_spot`. The base itself may lead
through links, and it may lead nowhere as long as directories are missing; `LinkFree` is about the
places it may lead to once they are made, and holds of every later tree of a run. -/

namespace OfflineCache.FileTree

open OfflineCache.Path

variable {t t' : FileTree} {p : Path} {place : Place} {follow : Bool} {links : Nat} {origin : Place}

/-- The path leads to this directory. -/
def Leads (t : FileTree) (p : Path) (place : Place) : Prop :=
  t.walk true maxLinks (if p.isAbsolute then [] else t.home) (dotless (pieces p.chars)) =
    .ok (.present place .directory)

/-- There are no links below the path, nor below any place it may lead to once directories that
are missing are made. -/
def LinkFree (t : FileTree) (p : Path) : Prop :=
  ∀ t' place, Tended t t' → Leads t' p place →
    ∀ q target, place <+: q → q ≠ place → t.node? q ≠ some (.link target)

theorem Leads.tended (h : Leads t p place) (ht : Tended t t') : Leads t' p place := by
  unfold Leads
  rw [ht.home]
  exact ((walks_iff.mpr h).directory ht).walk_eq

theorem Leads.unique {place' : Place} (h : Leads t p place) (h' : Leads t p place') :
    place = place' := by
  have he := h.symm.trans h'
  simpa using he

theorem LinkFree.tended (h : LinkFree t p) (ht : Tended t t') : LinkFree t' p := by
  intro t'' place ht' hl q target hq hne
  rw [ne_eq, ht.link]
  exact h t'' place (ht.trans ht') hl q target hq hne

theorem linkFree_empty (home : Place) (p : Path) : LinkFree ⟨[], home⟩ p := by
  intro t' place _ _ q target _ _ h
  unfold node? at h
  split at h <;> cases h

theorem LinkFree.not_link (h : LinkFree t p) (hl : Leads t p place) {q : Place}
    (hq : place <+: q) (hne : q ≠ place) (target : Path) : t.node? q ≠ some (.link target) :=
  h t place (.refl t) hl q target hq hne

/-- Where a walk goes on from, if it can. -/
def onward : Except Fault Spot → Except Fault Place
  | .ok (.present place .directory) => .ok place
  | .ok (.present _ _) => .error .notDirectory
  | .ok (.free _ _) => .error .notFound
  | .error f => .error f

/-- A walk along two stretches. -/
theorem walk_append_eq (t : FileTree) (follow : Bool) (links : Nat) (origin : Place)
    (ss : List (List Char)) {rest : List (List Char)} (hr : rest ≠ []) :
    ∃ left ≤ links, t.walk follow links origin (ss ++ rest) =
      (onward (t.walk true links origin ss)).bind fun place => t.walk follow left place rest := by
  have hw := walks t true links origin ss
  generalize t.walk true links origin ss = r at hw
  induction hw with
  | @arrived links origin => exact ⟨links, Nat.le_refl _, rfl⟩
  | here _ ih =>
    obtain ⟨left, hl, he⟩ := ih
    exact ⟨left, hl, (Walks.here (walks_iff.mpr he)).walk_eq⟩
  | up _ ih =>
    obtain ⟨left, hl, he⟩ := ih
    exact ⟨left, hl, (Walks.up (walks_iff.mpr he)).walk_eq⟩
  | into hs hn _ ih =>
    obtain ⟨left, hl, he⟩ := ih
    exact ⟨left, hl, (Walks.into hs hn (walks_iff.mpr he)).walk_eq⟩
  | through hs hn _ _ ih =>
    obtain ⟨left, hl, he⟩ := ih
    refine ⟨left, Nat.le_succ_of_le hl, ?_⟩
    refine (Walks.through hs hn (by simp [hr]) (walks_iff.mpr ?_)).walk_eq
    exact (congrArg (t.walk follow _ _) (List.append_assoc _ _ rest).symm).trans he
  | @tooLong links _ _ _ hd hu hf => exact ⟨links, Nat.le_refl _, (Walks.tooLong hd hu hf).walk_eq⟩
  | @free links _ _ hs hn => exact ⟨links, Nat.le_refl _, (Walks.missing hs hn hr).walk_eq⟩
  | @missing links _ _ _ hs hn _ =>
    exact ⟨links, Nat.le_refl _, (Walks.missing hs hn (by simp [hr])).walk_eq⟩
  | @file links _ _ _ _ hs hn => exact ⟨links, Nat.le_refl _, (Walks.beyond hs hn hr).walk_eq⟩
  | @beyond links _ _ _ _ _ hs hn _ =>
    exact ⟨links, Nat.le_refl _, (Walks.beyond hs hn (by simp [hr])).walk_eq⟩
  | link _ _ ho => cases ho
  | exhausted hs hn _ => exact ⟨0, Nat.le_refl _, (Walks.exhausted hs hn (by simp [hr])).walk_eq⟩

/-- A dot at the end asks for a directory. -/
theorem walk_append_dot (ss : List (List Char)) :
    t.walk true links origin (ss ++ [['.']]) = .ok (.present place .directory) ↔
      t.walk true links origin ss = .ok (.present place .directory) := by
  have hdot : ∀ left r, t.walk true left r [['.']] = .ok (.present r .directory) :=
    fun left r => (Walks.here .arrived).walk_eq
  obtain ⟨left, -, happ⟩ := walk_append_eq t true links origin ss (List.cons_ne_nil ['.'] [])
  rw [happ]
  simp only [hdot]
  cases t.walk true links origin ss with
  | error f => simp [onward, Except.bind]
  | ok s =>
    cases s with
    | free d n => simp [onward, Except.bind]
    | present r node => cases node <;> simp [onward, Except.bind]

/-- Dots make no difference to a walk that goes on behind them. -/
theorem walk_dotless_append (ss : List (List Char)) {rest : List (List Char)} (hr : rest ≠ []) :
    t.walk follow links origin (dotless ss ++ rest) = t.walk follow links origin (ss ++ rest) := by
  induction links generalizing origin ss with
  | zero =>
    induction ss generalizing origin with
    | nil => rfl
    | cons s ss ih =>
      by_cases hd : s = ['.']
      · subst hd
        rw [List.cons_append, walk_cons, if_pos rfl, ← ih]
        simp [dotless]
      · have hcons : dotless (s :: ss) = s :: dotless ss := by simp [dotless, hd]
        rw [hcons, List.cons_append, List.cons_append, walk_cons, walk_cons, ih, ih, ih]
        simp [hr]
  | succ links ihl =>
    induction ss generalizing origin with
    | nil => rfl
    | cons s ss ih =>
      by_cases hd : s = ['.']
      · subst hd
        rw [List.cons_append, walk_cons, if_pos rfl, ← ih]
        simp [dotless]
      · have hcons : dotless (s :: ss) = s :: dotless ss := by simp [dotless, hd]
        have hjump : ∀ (o : Place) (target : Path),
            t.walk follow links o (steps target ++ (dotless ss ++ rest)) =
              t.walk follow links o (steps target ++ (ss ++ rest)) := by
          intro o target
          rw [← List.append_assoc, ← List.append_assoc, ← ihl (steps target ++ dotless ss),
            ← ihl (steps target ++ ss)]
          simp
        rw [hcons, List.cons_append, List.cons_append, walk_cons, walk_cons, ih, ih, ih]
        simp [hr, hjump]

/-- Where no link is below a place, none is below a name in it. -/
theorem ne_link_below
    (hlink : ∀ q target, origin <+: q → q ≠ origin → t.node? q ≠ some (.link target))
    (s : List Char) (q : Place) (target : Path) (hq : origin ++ [s] <+: q) :
    t.node? q ≠ some (.link target) := by
  refine hlink q target ((List.prefix_append _ _).trans hq) ?_
  rintro rfl
  have hlen := hq.length_le
  simp only [List.length_append, List.length_singleton] at hlen
  omega

/-- Along names in a place without links below, a walk comes to the place of these names. -/
theorem Walks.place_eq {ss : List (List Char)} {s : Spot}
    (h : Walks t follow links origin ss (.ok s))
    (hlink : ∀ q target, origin <+: q → q ≠ origin → t.node? q ≠ some (.link target))
    (hup : ['.', '.'] ∉ ss) :
    s.place = origin ++ dotless ss ∧ ∀ q target, s ≠ .present q (.link target) := by
  generalize hr : Except.ok s = r at h
  induction h with
  | arrived =>
    cases hr
    simp [Spot.place, dotless]
  | here _ ih =>
    obtain ⟨hp, hn⟩ := ih hlink (fun hm => hup (List.mem_cons_of_mem _ hm)) hr
    refine ⟨?_, hn⟩
    rw [hp]
    simp [dotless]
  | up => simp at hup
  | @into _ origin s rest _ hs _ _ ih =>
    obtain ⟨hp, hn⟩ := ih (fun q target hq _ => ne_link_below hlink s q target hq)
      (fun hm => hup (List.mem_cons_of_mem _ hm)) hr
    refine ⟨?_, hn⟩
    rw [hp]
    simp [dotless, hs.notHere]
  | free hs _ =>
    cases hr
    simp [Spot.place, dotless, hs.notHere]
  | file hs _ =>
    cases hr
    simp [Spot.place, dotless, hs.notHere]
  | @link _ _ _ target hs hn _ =>
    exact absurd hn (hlink _ target (List.prefix_append _ _) (by simp))
  | @through _ _ _ _ target _ _ hn _ _ _ =>
    exact absurd hn (hlink _ target (List.prefix_append _ _) (by simp))
  | tooLong => cases hr
  | missing => cases hr
  | beyond => cases hr
  | exhausted => cases hr

/-- What such a walk finds at the end of at least one name is there. -/
theorem Walks.node?_below {ss : List (List Char)} {place : Place} {node : Node}
    (h : Walks t follow links origin ss (.ok (.present place node)))
    (hlink : ∀ q target, origin <+: q → q ≠ origin → t.node? q ≠ some (.link target))
    (hup : ['.', '.'] ∉ ss) (hne : dotless ss ≠ [] ∨ t.node? origin = some .directory) :
    t.node? place = some node := by
  generalize hr : Except.ok (Spot.present place node) = r at h
  induction h with
  | arrived =>
    cases hr
    rcases hne with hne | hn
    · exact absurd rfl hne
    · exact hn
  | here _ ih =>
    refine ih hlink (fun hm => hup (List.mem_cons_of_mem _ hm)) (hne.imp_left fun hne => ?_) hr
    simpa [dotless] using hne
  | up => simp at hup
  | @into _ origin s rest _ hs hn _ ih =>
    exact ih (fun q target hq _ => ne_link_below hlink s q target hq)
      (fun hm => hup (List.mem_cons_of_mem _ hm)) (Or.inr hn) hr
  | file _ hn =>
    cases hr
    exact hn
  | @link _ _ _ target hs hn _ =>
    exact absurd hn (hlink _ target (List.prefix_append _ _) (by simp))
  | @through _ _ _ _ target _ _ hn _ _ _ =>
    exact absurd hn (hlink _ target (List.prefix_append _ _) (by simp))
  | free => cases hr
  | tooLong => cases hr
  | missing => cases hr
  | beyond => cases hr
  | exhausted => cases hr

variable {names : List (List Char)} {q : Path}

/-- Opening a path below a base is a walk along the names, from where the base leads. -/
theorem walks_below (hb : Below p names q) (hn : ∀ n ∈ names, IsName n) {s : Spot}
    (h : t.spot q follow = .ok s) :
    ∃ place left rest, Leads t p place ∧ Walks t follow left place rest (.ok s) ∧
      dotless rest = names ∧ ['.', '.'] ∉ rest := by
  obtain @⟨ss, rest, habs, hsteps, hss, hrest, hne⟩ := hb
  have hwalk : t.walk follow maxLinks (if p.isAbsolute then [] else t.home) (ss ++ rest) = .ok s := by
    unfold spot at h
    rw [habs, hsteps] at h
    split at h
    · cases h
    split at h
    · cases h
    split at h
    · cases h
    exact h
  rw [← walk_dotless_append ss hne, hss] at hwalk
  obtain ⟨left, -, happ⟩ := walk_append_eq t follow maxLinks
    (if p.isAbsolute then [] else t.home) (dotless (pieces p.chars)) hne
  rw [happ] at hwalk
  cases ho : onward (t.walk true maxLinks (if p.isAbsolute then [] else t.home)
      (dotless (pieces p.chars))) with
  | error f =>
    rw [ho] at hwalk
    cases hwalk
  | ok place =>
    rw [ho] at hwalk
    have hleads : Leads t p place := by
      unfold Leads
      unfold onward at ho
      split at ho <;> simp_all
    refine ⟨place, left, rest, hleads, walks_iff.mpr hwalk, hrest, fun hm => ?_⟩
    have hm' : ['.', '.'] ∈ dotless rest := List.mem_filter.mpr ⟨hm, by decide⟩
    exact (hn _ (hrest ▸ hm')).notUp rfl

/-- What is opened at names below a base without links lies there, and is no link. -/
theorem place_of_spot (hb : Below p names q) (hn : ∀ n ∈ names, IsName n) (hf : LinkFree t p)
    {s : Spot} (h : t.spot q follow = .ok s) :
    ∃ place, Leads t p place ∧ s.place = place ++ names ∧
      ∀ r target, s ≠ .present r (.link target) := by
  obtain ⟨place, left, rest, hleads, hw, hrest, hup⟩ := walks_below hb hn h
  obtain ⟨hp, hl⟩ := hw.place_eq (fun q target hq hne => hf.not_link hleads hq hne target) hup
  exact ⟨place, hleads, by rw [hp, hrest], hl⟩

theorem node?_of_spot_below (hb : Below p names q) (hn : ∀ n ∈ names, IsName n)
    (hne : names ≠ []) (hf : LinkFree t p) {place : Place} {node : Node}
    (h : t.spot q follow = .ok (.present place node)) : t.node? place = some node := by
  obtain ⟨base, left, rest, hleads, hw, hrest, hup⟩ := walks_below hb hn h
  exact hw.node?_below (fun q target hq hne => hf.not_link hleads hq hne target) hup
    (Or.inl (hrest ▸ hne))

end OfflineCache.FileTree
