import OfflineCache.Proofs.Run.Outset

/-! How the tree grows in the course of a run. What is at a place is what was there once the cache root had
been made, or a directory on the way to an artifact, or a temporary file, or an artifact that was
put there (`Ground.Cell`). So the verdict on an artifact is the same in every tree of a run. -/

namespace OfflineCache

open OfflineCache.Path FileTree Replacement

namespace Ground

variable (g : Ground)

/-- What may be at a place in the course of a run. -/
inductive Cell (t : FileTree) (q : Place) : Prop
  | same : t.node? q = g.made.node? q → Cell t q
  | laid {l : Locator} {a : Artifact} {e : CacheEntry} {d : List (List Char)} : g.Stores l a e →
      d ≠ [] → d <+: (g.names e.path).dropLast → q = g.place ++ d → g.made.node? q = none →
      t.node? q = some .directory → Cell t q
  | scratch {d : List (List Char)} {n : List Char} {process counter : Nat} :
      q = g.place ++ (d ++ [temporaryName n process counter]) →
      (∀ node, t.node? q = some node → ∃ b x, node = .file b x) → Cell t q
  | delivered {l : Locator} {a : Artifact} {e : CacheEntry} {x : Bool} : g.Stores l a e →
      q = g.final e.path → g.fault? e.path = none → g.made.holds e.path a.digest = false →
      t.find e.path = .ok (q, .file a.bytes x) → Cell t q

/-- The tree of a run for which the cache root has been made. -/
structure Grown (t : FileTree) : Prop where
  seat : Leads g.made g.root g.place
  home : t.home = g.made.home
  leads : Leads t g.root g.place
  closed : Closed t g.place
  cell : ∀ q, g.Cell t q

variable {g} {t t' : FileTree} {l l' : Locator} {a a' : Artifact} {e e' : CacheEntry}

/-! ## Places of artifacts -/

theorem components_of_stores (h : g.Stores l a e) :
    e.path.components = g.root.components ++ (g.names e.path).map .name := by
  obtain ⟨q, names, n, hplain, hpath, hnames⟩ := stores_spelt h
  rw [hnames, hpath, hplain.components_join]

theorem names_ne_nil (h : g.Stores l a e) : g.names e.path ≠ [] := by
  obtain ⟨q, names, n, -, -, hnames⟩ := stores_spelt h
  simp [hnames]

/-- No artifact is above another. -/
theorem names_of_prefix (h : g.Stores l a e) (h' : g.Stores l' a' e')
    (hp : g.names e.path <+: g.names e'.path) : e.path.components = e'.path.components := by
  refine g.undisturbed.apart l a e l' a' e' h h' ?_
  rw [components_of_stores h, components_of_stores h']
  exact (List.prefix_append_right_inj _).mpr (hp.map _)

theorem not_prefix_dropLast (h : g.Stores l a e) (h' : g.Stores l' a' e') :
    ¬ g.names e.path <+: (g.names e'.path).dropLast := by
  intro hp
  have hc := names_of_prefix h h' (hp.trans (List.dropLast_prefix _))
  rw [components_of_stores h, components_of_stores h'] at hc
  have hlen := congrArg List.length (List.append_cancel_left hc)
  have hle := hp.length_le
  have hpos := List.length_pos_iff.mpr (names_ne_nil h')
  simp only [List.length_map, List.length_dropLast] at hlen hle
  omega

/-- No temporary file is on the way to an artifact. -/
theorem ne_concat_temporaryName (h : g.Stores l a e) {d d' : List (List Char)} {n : List Char}
    {process counter : Nat} (hd : d <+: g.names e.path) :
    d ≠ d' ++ [temporaryName n process counter] := by
  rintro rfl
  exact g.undisturbed.names l a e h _ (hd.subset (by simp)) n process counter rfl

/-- At one place is one artifact. -/
theorem same_of_names (h : g.Stores l a e) (h' : g.Stores l' a' e')
    (hn : g.names e.path = g.names e'.path) :
    e.path = e'.path ∧ a.bytes = a'.bytes ∧ a.digest = a'.digest := by
  refine g.undisturbed.same l a e l' a' e' h h' ?_
  rw [components_of_stores h, components_of_stores h', hn]

theorem unlinked_made (h : Leads g.made g.root g.place) : Unlinked g.made g.place :=
  g.linkFree_made.unlinked h

/-- A path where an artifact can be put is no directory. -/
theorem not_directory_of_fault? {path : Path} (h : g.fault? path = none) :
    g.made.node? (g.final path) ≠ some .directory := by
  intro hd
  have hmove := (Option.or_eq_none_iff.mp (Option.or_eq_none_iff.mp h).2).2
  rw [hd] at hmove
  unfold moveFault? at hmove
  split at hmove
  · simp at hmove
  · have hrest := (Option.or_eq_none_iff.mp hmove).2
    split at hrest
    · cases hrest
    · split at hrest <;> cases hrest

/-! ## What is at a place -/

theorem Cell.mono {q : Place} (h : g.Cell t q) (ht : Tended t t')
    (hn : t'.node? q = t.node? q) : g.Cell t' q := by
  cases h with
  | same hs => exact .same (hn.trans hs)
  | laid hs hne hd hq hm ht => exact .laid hs hne hd hq hm (hn.trans ht)
  | scratch hq hf => exact .scratch hq fun node hnode => hf node (hn ▸ hnode)
  | delivered hs hq hf hh hfind =>
    exact .delivered hs hq hf hh (find_tended hfind ht (hn.trans (node?_of_find hfind)))

namespace Grown

variable (h : g.Grown t)

include h

theorem tended : Tended g.made t := by
  refine ⟨h.home, fun q hq => ?_, fun q target => ?_, fun q b x hq => ?_⟩
  · cases h.cell q with
    | same hs => rw [hs, hq]
    | laid _ _ _ _ _ ht => exact ht
    | @scratch d n process counter he _ =>
      refine absurd hq ?_
      rw [he, ← List.append_assoc]
      exact g.undisturbed.directories _ h.seat _ (List.prefix_append _ _) n process counter
    | delivered _ he hf _ _ => exact absurd (he ▸ hq) (not_directory_of_fault? hf)
  · cases h.cell q with
    | same hs => rw [hs]
    | laid _ _ _ _ hm ht => simp [hm, ht]
    | @scratch d n process counter he hfile =>
      refine iff_of_false (fun hl => ?_) ?_
      · obtain ⟨b, x, hb⟩ := hfile _ hl
        cases hb
      · exact unlinked_made h.seat _ target (he ▸ List.prefix_append _ _) (by simp [he])
    | delivered hs he _ _ hfind =>
      refine iff_of_false (fun hl => ?_) ?_
      · rw [node?_of_find hfind] at hl
        cases hl
      · refine unlinked_made h.seat _ target (he ▸ List.prefix_append _ _) ?_
        simp [he, final, names_ne_nil hs]
  · cases h.cell q with
    | same hs => exact Or.inl ⟨b, x, hs.trans hq⟩
    | laid _ _ _ _ hm _ =>
      rw [hm] at hq
      cases hq
    | @scratch d n process counter he _ =>
      refine Or.inr ⟨_, ?_, isTemporaryName_temporaryName n process counter⟩
      rw [he, ← List.append_assoc, List.getLast?_concat]
    | @delivered _ a _ y _ _ _ _ hfind => exact Or.inl ⟨a.bytes, y, node?_of_find hfind⟩

theorem linkFree : LinkFree t g.root := g.linkFree_made.tended h.tended

theorem unlinked : Unlinked t g.place := h.linkFree.unlinked h.leads

/-- At the place of an artifact is what was there, or the artifact. -/
theorem at_final (hs : g.Stores l a e) : t.node? (g.final e.path) = g.made.node? (g.final e.path) ∨
    g.fault? e.path = none ∧ g.made.holds e.path a.digest = false ∧
      ∃ x, t.find e.path = .ok (g.final e.path, .file a.bytes x) := by
  have hcell := h.cell (g.final e.path)
  generalize hq : g.final e.path = q at hcell
  cases hcell with
  | same hsame => exact Or.inl hsame
  | laid hs' _ hd he _ _ =>
    have hnames := List.append_cancel_left (hq.trans he)
    exact absurd (hnames ▸ hd) (not_prefix_dropLast hs hs')
  | scratch he _ =>
    have hnames := List.append_cancel_left (hq.trans he)
    exact absurd hnames (ne_concat_temporaryName hs List.prefix_rfl)
  | @delivered _ a' e' x hs' he hf hh hfind =>
    have hnames := List.append_cancel_left (hq.trans he)
    obtain ⟨hpath, hbytes, hdigest⟩ := same_of_names hs hs' hnames
    rw [hpath, hbytes, hdigest]
    exact Or.inr ⟨hf, hh, x, hfind⟩

/-- On the way to an artifact is what was there, or a directory where nothing was. -/
theorem on_the_way (hs : g.Stores l a e) {d : List (List Char)}
    (hd : d <+: (g.names e.path).dropLast) :
    t.node? (g.place ++ d) = g.made.node? (g.place ++ d) ∨
      g.made.node? (g.place ++ d) = none ∧ t.node? (g.place ++ d) = some .directory := by
  have hcell := h.cell (g.place ++ d)
  generalize hq : g.place ++ d = q at hcell
  cases hcell with
  | same hsame => exact Or.inl hsame
  | laid _ _ _ _ hm ht => exact Or.inr ⟨hm, ht⟩
  | scratch he _ =>
    have hlast := List.append_cancel_left (hq.trans he)
    exact absurd hlast (ne_concat_temporaryName hs (hd.trans (List.dropLast_prefix _)))
  | delivered hs' he _ _ _ =>
    have hnames := List.append_cancel_left (hq.trans he)
    exact absurd (hnames ▸ hd) (not_prefix_dropLast hs' hs)

/-- A temporary file may be made. -/
theorem at_scratch (d : List (List Char)) (n : List Char) (process counter : Nat) (node : Node)
    (hnode : t.node? (g.place ++ (d ++ [temporaryName n process counter])) = some node) :
    ∃ b x, node = .file b x := by
  have hcell := h.cell (g.place ++ (d ++ [temporaryName n process counter]))
  generalize hq : g.place ++ (d ++ [temporaryName n process counter]) = q at hcell hnode
  cases hcell with
  | same hsame =>
    rw [hsame] at hnode
    cases node with
    | file b x => exact ⟨b, x, rfl⟩
    | directory =>
      refine absurd hnode ?_
      rw [← hq, ← List.append_assoc]
      exact g.undisturbed.directories _ h.seat _ (List.prefix_append _ _) n process counter
    | link target =>
      exact absurd hnode
        (unlinked_made h.seat _ target (hq ▸ List.prefix_append _ _) (by simp [← hq]))
  | laid hs _ hd he _ _ =>
    have hlast := List.append_cancel_left (hq.trans he)
    exact absurd hlast.symm (ne_concat_temporaryName hs (hd.trans (List.dropLast_prefix _)))
  | scratch _ hfile => exact hfile node hnode
  | delivered _ _ _ _ hfind =>
    rw [node?_of_find hfind] at hnode
    cases hnode
    exact ⟨_, _, rfl⟩

end Grown

/-! ## What keeps a tree grown -/

theorem grown_made (h : Leads g.made g.root g.place) : g.Grown g.made :=
  ⟨h, rfl, h, g.rooted_made.closed _, fun _ => .same rfl⟩

namespace Grown

theorem of_cells (h : g.Grown t) (ht : Tended t t') (hc : Closed t' g.place)
    (hcell : ∀ q, t'.node? q = t.node? q ∨ g.Cell t' q) : g.Grown t' := by
  refine ⟨h.seat, ht.home.trans h.home, h.leads.tended ht, hc, fun q => ?_⟩
  rcases hcell q with hsame | hcell
  · exact (h.cell q).mono ht hsame
  · exact hcell

theorem pave (h : g.Grown t) (hs : g.Stores l a e) :
    g.Grown (t.pave g.place (g.names e.path).dropLast).1 := by
  have hlaid := pave_laid t g.place (g.names e.path).dropLast
  refine h.of_cells hlaid.tended (closed_pave h.closed (Or.inl rfl)) fun q => ?_
  rcases hlaid.node q with hsame | ⟨hnone, hdir⟩
  · exact Or.inl hsame
  rcases node?_pave t g.place (g.names e.path).dropLast q with hsame | ⟨d, hne, hd, rfl⟩
  · exact Or.inl hsame
  rcases h.on_the_way hs hd with hm | ⟨-, hthere⟩
  · exact Or.inr (.laid hs hne hd rfl (hm.symm.trans hnone) hdir)
  · rw [hnone] at hthere
    cases hthere

variable {names : List (List Char)} {n : List Char} {process counter : Nat}

theorem scratch_ne_directory (h : g.Grown t) (names : List (List Char)) (n : List Char)
    (process counter : Nat) :
    t.node? (g.place ++ (names ++ [temporaryName n process counter])) ≠ some .directory := by
  intro hd
  obtain ⟨c, y, hf⟩ := h.at_scratch names n process counter _ hd
  cases hf

theorem final_ne_directory (h : g.Grown t) (hs : g.Stores l a e) (hf : g.fault? e.path = none) :
    t.node? (g.final e.path) ≠ some .directory := by
  rcases h.at_final hs with hsame | ⟨-, -, y, hthere⟩
  · rw [hsame]
    exact not_directory_of_fault? hf
  · rw [node?_of_find hthere]
    simp

theorem put_scratch (h : g.Grown t) (hp : Paved t g.place names) {b : Bytes} {x : Bool}
    (ht : Tended t
      (t.put (g.place ++ (names ++ [temporaryName n process counter])) (.file b x))) :
    g.Grown (t.put (g.place ++ (names ++ [temporaryName n process counter])) (.file b x)) := by
  have hnot := h.scratch_ne_directory names n process counter
  refine h.of_cells ht ?_ fun q => ?_
  · rw [← List.append_assoc] at hnot ⊢
    refine h.closed.put (hp.last.imp_left fun he => ?_) hnot _
    simp [he]
  · by_cases hq : q = g.place ++ (names ++ [temporaryName n process counter])
    · refine Or.inr (.scratch hq fun node hnode => ?_)
      rw [hq, node?_put (by simp), if_pos rfl] at hnode
      exact ⟨b, x, (Option.some.inj hnode).symm⟩
    · exact Or.inl (node?_put_of_ne (by simp) _ hq)

theorem erase_scratch (h : g.Grown t) {b : Bytes} {x : Bool}
    (hn : t.node? (g.place ++ (names ++ [temporaryName n process counter])) = some (.file b x)) :
    g.Grown (t.erase (g.place ++ (names ++ [temporaryName n process counter]))) := by
  have htemp : IsTemporary (g.place ++ (names ++ [temporaryName n process counter])) := by
    refine ⟨_, ?_, isTemporaryName_temporaryName n process counter⟩
    rw [← List.append_assoc, List.getLast?_concat]
  refine h.of_cells (.erase_temporary hn htemp) (h.closed.erase (by simp) (by simp [hn])) fun q => ?_
  by_cases hq : q = g.place ++ (names ++ [temporaryName n process counter])
  · refine Or.inr (.scratch hq fun node hnode => ?_)
    rw [hq, node?_erase (by simp), if_pos rfl] at hnode
    cases hnode
  · exact Or.inl (node?_erase_of_ne (by simp) hq)

/-- An artifact is put at its place. -/
theorem deliver (h : g.Grown t) (hs : g.Stores l a e) (hf : g.fault? e.path = none)
    (hh : g.made.holds e.path a.digest = false) (hnames : g.names e.path = names ++ [n])
    (hp : Paved t g.place names) {node : Node}
    (ht : Tended t ((t.erase (g.place ++ (names ++ [temporaryName n process counter]))).put
      (g.place ++ (names ++ [n])) node)) {x : Bool}
    (hfind : ((t.erase (g.place ++ (names ++ [temporaryName n process counter]))).put
      (g.place ++ (names ++ [n])) node).find e.path =
        .ok (g.place ++ (names ++ [n]), .file a.bytes x)) :
    g.Grown ((t.erase (g.place ++ (names ++ [temporaryName n process counter]))).put
      (g.place ++ (names ++ [n])) node) := by
  have hfinal : g.final e.path = g.place ++ (names ++ [n]) := by rw [final, hnames]
  have hne : g.place ++ (names ++ [n]) ≠
      g.place ++ (names ++ [temporaryName n process counter]) := by
    intro he
    exact ne_concat_temporaryName hs List.prefix_rfl
      (hnames.trans (List.append_cancel_left he))
  have hnot := h.final_ne_directory hs hf
  rw [hfinal] at hnot
  refine h.of_cells ht ?_ fun q => ?_
  · have herase := h.closed.erase (by simp) (h.scratch_ne_directory names n process counter)
    have hkeep : ∀ q, q ≠ g.place ++ (names ++ [temporaryName n process counter]) →
        (t.erase (g.place ++ (names ++ [temporaryName n process counter]))).node? q =
          t.node? q := fun q hq => node?_erase_of_ne (by simp) hq
    rw [← hkeep _ hne] at hnot
    rw [← List.append_assoc g.place names [n]] at hnot ⊢
    refine herase.put ?_ hnot _
    rcases hp.last with he | hdir
    · exact Or.inl (by simp [he])
    · exact Or.inr ((hkeep _ (by simp)).trans hdir)
  · by_cases hq : q = g.place ++ (names ++ [n])
    · subst hq
      exact Or.inr (.delivered hs hfinal.symm hf hh hfind)
    by_cases hq' : q = g.place ++ (names ++ [temporaryName n process counter])
    · refine Or.inr (.scratch hq' fun node hnode => ?_)
      rw [node?_put_of_ne (by simp) _ hq, hq', node?_erase (by simp), if_pos rfl] at hnode
      cases hnode
    · exact Or.inl ((node?_put_of_ne (by simp) _ hq).trans (node?_erase_of_ne (by simp) hq'))

/-! ## Whether an artifact is there -/

end Grown

theorem holds_eq_true_iff {path : Path} {digest : Checksum} : t.holds path digest = true ↔
    ∃ b, t.readBytes path = .ok b ∧ digest.accepts b = true := by
  unfold FileTree.holds
  cases t.readBytes path <;> simp [Except.toOption]

theorem readBytes_of_find {path : Path} {q : Place} {b : Bytes} {x : Bool}
    (h : t.find path = .ok (q, .file b x)) : t.readBytes path = .ok b := by
  rw [readBytes, h]
  rfl

theorem find_of_readBytes {path : Path} {b : Bytes} (h : t.readBytes path = .ok b) :
    ∃ q x, t.find path = .ok (q, .file b x) := readBytes_eq_ok_iff.mp h

/-- What is read at the path of an artifact is at its place. -/
theorem place_of_find (hl : Leads t g.root g.place) (hf : LinkFree t g.root)
    (hs : g.Stores l a e) {q : Place} {node : Node} (h : t.find e.path = .ok (q, node)) :
    q = g.final e.path := by
  obtain ⟨rel, names, n, hplain, hpath, hnames⟩ := stores_spelt hs
  rw [hpath] at h
  obtain ⟨place, hl', hp, -⟩ := place_of_spot (hplain.below g.root) hplain.isName hf
    (find_eq_ok_iff_spot.mp h)
  obtain rfl := hl.unique hl'
  rw [final, hnames]
  exact hp

/-- Whether it is there depends on what is at its place. -/
theorem Grown.holds_eq (h : g.Grown t) (hs : g.Stores l a e)
    (hsame : t.node? (g.final e.path) = g.made.node? (g.final e.path)) (digest : Checksum) :
    t.holds e.path digest = g.made.holds e.path digest := by
  by_cases hn : g.made.node? (g.final e.path) = none
  · have hfalse : ∀ {u : FileTree}, Leads u g.root g.place → LinkFree u g.root →
        u.node? (g.final e.path) = none → u.holds e.path digest = false := by
      intro u hl hf hnone
      rw [Bool.eq_false_iff, ne_eq, holds_eq_true_iff]
      rintro ⟨b, hb, -⟩
      obtain ⟨q, x, hfind⟩ := find_of_readBytes hb
      obtain rfl := place_of_find hl hf hs hfind
      rw [node?_of_find hfind] at hnone
      cases hnone
    rw [hfalse h.leads h.linkFree (hsame.trans hn), hfalse h.seat g.linkFree_made hn]
  · obtain ⟨rel, names, n, hplain, hpath, hnames⟩ := stores_spelt hs
    have hspot : t.spot e.path true = g.made.spot e.path true := by
      rw [hpath]
      refine spot_congr (hplain.below g.root) hplain.isName h.leads h.seat h.unlinked ?_
      rintro d hne ⟨r, hr⟩
      by_cases hr' : r = []
      · rw [hr', List.append_nil] at hr
        rw [final, hnames] at hsame
        rw [hr, hsame]
      · rw [final, hnames, ← hr] at hn
        have hdir := (g.rooted_made.closed g.place).above hne hr' hn
        rw [hdir, h.tended.directory _ hdir]
    unfold FileTree.holds readBytes find
    rw [hspot]

theorem Grown.stored_of_holds (h : g.Grown t) (hs : g.Stores l a e) :
    (t.holds e.path a.digest = true → g.stored a e.path = .ok ()) ∧
      (t.holds e.path a.digest = false → g.made.holds e.path a.digest = false) := by
  rcases h.at_final hs with hsame | ⟨hf, hh, x, hfind⟩
  · rw [h.holds_eq hs hsame]
    exact ⟨fun hh => by rw [stored, if_pos hh], id⟩
  · exact ⟨fun _ => by simp [stored, hh, hf, resultOf], fun _ => hh⟩

/-! ## The trees of a run -/

variable (g) in
/-- Nothing has been made yet, or the tree has grown. -/
inductive Reached (t : FileTree) : Prop
  | untouched : t = g.tree → Reached t
  | grown : g.Grown t → Reached t

theorem made_of_barred (h : g.Barred) : g.made = g.tree := by
  obtain ⟨f, hf⟩ := h [] (by simp)
  unfold Outset.made
  rw [hf]

theorem parent?_of_stores (hs : g.Stores l a e) : (∀ m ∈ (g.names e.path).dropLast, IsName m) ∧
    e.path.parent? = some (g.root.under (g.names e.path).dropLast) := by
  obtain ⟨q, names, n, hplain, hpath, hnames⟩ := stores_spelt hs
  rw [hnames, List.dropLast_concat, hpath]
  exact ⟨fun m hm => hplain.isName m (List.mem_append_left _ hm), hplain.parent?_join g.root⟩

theorem resultOf_layFault? (hs : g.Stores l a e) : resultOf (g.layFault? e.path) =
    (g.made.layDirectories (g.root.under (g.names e.path).dropLast)).2 := by
  unfold layFault?
  rw [(parent?_of_stores hs).2]
  exact resultOf_faultOf _

theorem opens_of_seated {place : Place} (h : g.Seated place) :
    (g.root.under []).chars = [] ∨ Opens (g.root.under []) := by
  by_cases he : (g.root.under []).chars = []
  · exact Or.inl he
  · cases hf : openFault? (g.root.under []) with
    | none => exact Or.inr (openFault?_eq_none_iff.mp hf)
    | some f =>
      have hmade := h.1
      rw [layDirectories_of_openFault (by simp) he hf] at hmade
      cases (Prod.mk.inj hmade).2

namespace Reached

/-- A tree that has not grown is the one at the start, and the cache root is missing or cannot be
made. -/
theorem cases (h : g.Reached t) : g.Grown t ∨ t = g.tree ∧
    (g.Barred ∨ g.Seated g.place ∧ ∀ r, ¬ Leads g.tree g.root r) := by
  cases h with
  | grown h => exact Or.inl h
  | untouched he =>
    subst he
    rcases g.seat with hseat | hbarred
    · by_cases hl : ∃ r, Leads g.tree g.root r
      · obtain ⟨r, hl⟩ := hl
        have hmade : g.made = g.tree := by
          unfold Outset.made layDirectories
          rw [go_base (opens_of_seated hseat) hl]
        have hgrown := grown_made hseat.2
        rw [hmade] at hgrown
        exact Or.inl hgrown
      · exact Or.inr ⟨rfl, Or.inr ⟨hseat, fun r hr => hl ⟨r, hr⟩⟩⟩
    · exact Or.inr ⟨rfl, Or.inl hbarred⟩

theorem tended (h : g.Reached t) : Tended g.tree t := by
  cases h with
  | untouched he =>
    rw [he]
    exact .refl _
  | grown h => exact g.laid_made.tended.trans h.tended

theorem linkFree (h : g.Reached t) : LinkFree t g.root := g.undisturbed.linkFree.tended h.tended

theorem aside (h : g.Reached t) : g.Aside t := by
  cases h with
  | untouched he =>
    rw [he]
    exact ⟨rfl, fun _ _ => Or.inl rfl⟩
  | grown h =>
    refine ⟨h.home.trans g.laid_made.home, fun q hq => ?_⟩
    have hnot : ∀ {d}, q = g.place ++ d → d ≠ [] → False := by
      intro d he hne
      have hplace := hq g.place h.seat (he ▸ List.prefix_append _ _)
      rw [he] at hplace
      exact hne (List.append_right_eq_self.mp hplace)
    cases h.cell q with
    | same hsame => exact Or.inr hsame
    | laid _ hne _ he _ _ => exact (hnot he hne).elim
    | scratch he _ => exact (hnot he (by simp)).elim
    | delivered hs he _ _ _ => exact (hnot he (names_ne_nil hs)).elim

/-- What an artifact is taken for in the course of a run. -/
theorem stored_of_holds (h : g.Reached t) (hs : g.Stores l a e) :
    (t.holds e.path a.digest = true → g.stored a e.path = .ok ()) ∧
      (t.holds e.path a.digest = false → g.made.holds e.path a.digest = false) := by
  cases h with
  | untouched he =>
    rw [he, (g.undisturbed.alike l a e hs _ (parent?_of_stores hs).2).2]
    exact ⟨fun hh => by rw [stored, if_pos hh], id⟩
  | grown h => exact h.stored_of_holds hs

theorem grown_of_leads (h : g.Reached t) (hs : g.Stores l a e) (hf : g.layFault? e.path = none)
    {place : Place} (hl : Leads t g.root place) : g.Grown t := by
  rcases h.cases with h | ⟨rfl, hbarred | ⟨-, hnot⟩⟩
  · exact h
  · obtain ⟨f, hb⟩ := hbarred _ (parent?_of_stores hs).1
    have hresult := resultOf_layFault? hs
    rw [hf, made_of_barred hbarred, hb] at hresult
    cases hresult
  · exact absurd hl (hnot _)

end Reached

/-! ## Making the directories of an artifact -/

/-- It comes out as it does at the start, and leaves a tree of the run; if it succeeds, the directories are
there. -/
structure Lays (g : Ground) (t : FileTree) (path : Path) : Prop where
  result : (t.layDirectories (g.root.under (g.names path).dropLast)).2 =
    resultOf (g.layFault? path)
  reached : g.Reached (t.layDirectories (g.root.under (g.names path).dropLast)).1
  paved : g.layFault? path = none →
    Leads (t.layDirectories (g.root.under (g.names path).dropLast)).1 g.root g.place ∧
      Paved (t.layDirectories (g.root.under (g.names path).dropLast)).1 g.place
        (g.names path).dropLast

/-- A fault in the text of the path leaves the tree as it is. -/
theorem Reached.lays_of_not_opens (h : g.Reached t) (hs : g.Stores l a e)
    (hne : (g.root.under (g.names e.path).dropLast).chars ≠ [])
    (hnot : ¬ Opens (g.root.under (g.names e.path).dropLast)) : g.Lays t e.path := by
  obtain ⟨hnames, -⟩ := parent?_of_stores hs
  obtain ⟨f, hf⟩ := Option.ne_none_iff_exists'.mp (mt openFault?_eq_none_iff.mp hnot)
  have hresult := resultOf_layFault? hs
  rw [layDirectories_of_openFault hnames hne hf] at hresult
  have hsome : g.layFault? e.path = some f := resultOf_inj (g := some f).mp hresult
  have hstuck := layDirectories_of_openFault (t := t) hnames hne hf
  refine ⟨?_, ?_, fun hnone => ?_⟩
  · rw [hstuck, hsome]
    rfl
  · rw [hstuck]
    exact h
  · rw [hsome] at hnone
    cases hnone

theorem Grown.lays (h : g.Grown t) (hs : g.Stores l a e) : g.Lays t e.path := by
  obtain ⟨hnames, -⟩ := parent?_of_stores hs
  by_cases ho : (g.root.under (g.names e.path).dropLast).chars = [] ∨
      Opens (g.root.under (g.names e.path).dropLast)
  · have hresult := resultOf_layFault? hs
    have hpave := layDirectories_of_leads h.leads h.unlinked h.closed hnames ho
    have hmade := layDirectories_of_leads h.seat (unlinked_made h.seat) (g.rooted_made.closed _)
      hnames ho
    -- what a run adds on the way is directories, which are in nobody's way
    have hsame : t.obstacle? g.place (g.names e.path).dropLast =
        g.made.obstacle? g.place (g.names e.path).dropLast := by
      refine obstacle?_congr fun d _ hd => ?_
      rcases h.on_the_way hs hd with he | ⟨hm, ht⟩
      · rw [he]
      · exact iff_of_true (Or.inr ht) (Or.inl hm)
    rw [hmade, pave_result, ← hsame, ← pave_result, ← hpave] at hresult
    refine ⟨hresult.symm, ?_, fun hf => ?_⟩
    · rw [hpave]
      exact .grown (h.pave hs)
    · rw [hf, hpave] at hresult
      rw [hpave]
      exact ⟨h.leads.tended (pave_laid _ _ _).tended, paved_pave hresult.symm⟩
  · obtain ⟨hne, hnot⟩ := not_or.mp ho
    exact Reached.lays_of_not_opens (.grown h) hs hne hnot

theorem lays_of_barred (hb : g.Barred) (hs : g.Stores l a e) : g.Lays g.tree e.path := by
  obtain ⟨hnames, hparent⟩ := parent?_of_stores hs
  have halike := (g.undisturbed.alike l a e hs _ hparent).1
  rw [← resultOf_layFault? hs] at halike
  obtain ⟨f, hf⟩ := hb _ hnames
  refine ⟨halike, ?_, fun hnone => ?_⟩
  · rw [hf]
    exact .untouched rfl
  · rw [hf, hnone] at halike
    cases halike

/-- The directories of the first artifact are made with the cache root. -/
theorem lays_of_missing (hseat : g.Seated g.place) (hnot : ∀ r, ¬ Leads g.tree g.root r)
    (hs : g.Stores l a e) : g.Lays g.tree e.path := by
  obtain ⟨hnames, hparent⟩ := parent?_of_stores hs
  by_cases ho : (g.names e.path).dropLast = [] ∨ Opens (g.root.under (g.names e.path).dropLast)
  · have halike := (g.undisturbed.alike l a e hs _ hparent).1
    rw [← resultOf_layFault? hs] at halike
    obtain ⟨htree, hok⟩ := layDirectories_of_not_leads hnot hseat.1 hseat.2
      (unlinked_made hseat.2) hnames ho
    rw [halike] at hok
    have hgrown := (grown_made hseat.2).pave hs
    refine ⟨halike, ?_, fun hf => ?_⟩
    · rw [htree]
      exact .grown hgrown
    · rw [htree]
      exact ⟨hgrown.leads, paved_pave (hok.mp (congrArg resultOf hf))⟩
  · obtain ⟨hnil, hnopen⟩ := not_or.mp ho
    refine Reached.lays_of_not_opens (.untouched rfl) hs (fun he => hnil ?_) hnopen
    have hp := pieces_under (p := g.root) hnames
    rw [he] at hp
    have hnames' : g.root.body.map Component.chars ++ (g.names e.path).dropLast = [] := by
      rw [← hp]
      rfl
    exact (List.append_eq_nil_iff.mp hnames').2

/-- **Making the directories of an artifact** succeeds or fails alike in all trees of a run. -/
theorem Reached.lays (h : g.Reached t) (hs : g.Stores l a e) : g.Lays t e.path := by
  rcases h.cases with hgrown | ⟨rfl, hbarred | ⟨hseat, hnot⟩⟩
  · exact hgrown.lays hs
  · exact lays_of_barred hbarred hs
  · exact lays_of_missing hseat hnot hs

end Ground

end OfflineCache
