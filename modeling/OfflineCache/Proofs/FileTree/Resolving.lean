import OfflineCache.Proofs.Containment
import OfflineCache.Proofs.FileTree.LinkFree
import OfflineCache.Proofs.Path.Normal

/-! Resolving a path, and resolving the result. In a tree without links nothing but the text of the
path counts. Otherwise the part of the path that leads somewhere is exchanged for its place, and a
second time nothing more happens (`resolvePrefix_again_iff`), with one exception: where a link could
not be followed only because there had been too many links in front of it, it is left on the path,
and followed the second time. -/

namespace OfflineCache.FileTree

open OfflineCache.Path

variable {t : FileTree} {names front rest place : Place} {n : List Char} {node : Node}

/-! ## Parts of a path -/

/-- Whatever has a path behind it is a directory. -/
theorem locate_front (hn : ∀ m ∈ front ++ rest, IsName m) (hne : rest ≠ [])
    {found : Place × Node} (h : t.locate (placePath (front ++ rest)) = .ok found) :
    ∃ place, t.locate (placePath front) = .ok (place, .directory) := by
  obtain ⟨hz, hwalk⟩ := (locate_placePath_eq_ok_iff hn).mp h
  have hfront : ∀ m ∈ front, IsName m := fun m hm => hn m (List.mem_append_left rest hm)
  obtain ⟨left, -, happ⟩ := walk_append_eq t true maxLinks [] front hne
  rw [happ] at hwalk
  cases ho : onward (t.walk true maxLinks [] front) with
  | error f =>
    rw [ho] at hwalk
    cases hwalk
  | ok place =>
    refine ⟨place, (locate_placePath_eq_ok_iff hfront).mpr ⟨?_, ?_⟩⟩
    · exact fun hm => hz ((nul_mem_placePath_append front rest).mpr (Or.inl hm))
    · unfold onward at ho
      split at ho <;> simp_all

/-- What leads nowhere leads nowhere with more names behind it. -/
theorem locate_error_append (hn : ∀ m ∈ front ++ rest, IsName m) {fault : Fault}
    (h : t.locate (placePath front) = .error fault) :
    ∃ e, t.locate (placePath (front ++ rest)) = .error e := by
  cases hl : t.locate (placePath (front ++ rest)) with
  | error e => exact ⟨e, rfl⟩
  | ok found =>
    by_cases hne : rest = []
    · rw [hne, List.append_nil, h] at hl
      cases hl
    · obtain ⟨place, hfront⟩ := locate_front hn hne hl
      rw [h] at hfront
      cases hfront

/-- Names behind a part that resolves and a name that leads nowhere stay as they are. -/
theorem resolvePrefix_append (hn : ∀ m ∈ front ++ n :: rest, IsName m) (hp : ∀ m ∈ place, IsName m)
    (h : t.resolvePrefix (placePath front) = placePath place) {fault : Fault}
    (he : t.locate (placePath (front ++ [n])) = .error fault) :
    t.resolvePrefix (placePath (front ++ n :: rest)) = placePath (place ++ n :: rest) := by
  induction rest using List.reverseRecOn with
  | nil => exact resolvePrefix_concat hn hp he h
  | append_singleton rest m ih =>
    have hsplit : ∀ q : Place, q ++ n :: (rest ++ [m]) = q ++ n :: rest ++ [m] := by simp
    have hsub : ∀ k ∈ front ++ n :: rest, IsName k := by
      intro k hk
      exact hn k (by rw [hsplit]; exact List.mem_append_left [m] hk)
    have hplace : ∀ k ∈ place ++ n :: rest, IsName k := by
      intro k hk
      rcases List.mem_append.mp hk with hk | hk
      · exact hp k hk
      · exact hsub k (List.mem_append_right front hk)
    rw [hsplit] at hn ⊢
    have hfails : ∃ e, t.locate (placePath (front ++ n :: rest ++ [m])) = .error e := by
      have hcons : front ++ n :: rest ++ [m] = (front ++ [n]) ++ (rest ++ [m]) := by simp
      rw [hcons] at hn ⊢
      exact locate_error_append hn he
    obtain ⟨e, hfails⟩ := hfails
    rw [hsplit, resolvePrefix_concat hn hplace hfails (ih hsub)]

/-! ## What names resolve to -/

/-- The place that the names lead to; or the place of as many as lead anywhere, and the others
behind it. -/
inductive ResolvesTo (t : FileTree) : Place → Place → Prop
  | whole {names place : Place} {node : Node} :
      t.locate (placePath names) = .ok (place, node) → ResolvesTo t names place
  | part {front place rest : Place} {n : List Char} {node : Node} {fault : Fault} :
      t.locate (placePath front) = .ok (place, node) →
      t.locate (placePath (front ++ [n])) = .error fault →
      ResolvesTo t (front ++ n :: rest) (place ++ n :: rest)

theorem exists_resolvesTo (t : FileTree) (names : Place) : ∃ place, ResolvesTo t names place := by
  induction names using List.reverseRecOn with
  | nil => exact ⟨[], .whole locate_root⟩
  | append_singleton names n ih =>
    obtain ⟨place, h⟩ := ih
    cases h with
    | @whole _ _ node h =>
      cases hl : t.locate (placePath (names ++ [n])) with
      | ok found => exact ⟨found.1, .whole hl⟩
      | error e => exact ⟨place ++ [n], .part h hl⟩
    | @part front place rest m node fault h he =>
      rw [List.append_assoc, List.cons_append]
      exact ⟨_, .part h he⟩

theorem ResolvesTo.resolvePrefix_eq (h : ResolvesTo t names place) (hn : ∀ m ∈ names, IsName m) :
    t.resolvePrefix (placePath names) = placePath place := by
  cases h with
  | whole h => exact resolvePrefix_of_locate hn h
  | part h he =>
    have hfront := fun m hm => hn m (List.mem_append_left _ hm)
    exact resolvePrefix_append hn (holds_of_locate hfront h).names
      (resolvePrefix_of_locate hfront h) he

/-! ## Trees without links -/

def Linkless (t : FileTree) : Prop := ∀ place target, t.node? place ≠ some (.link target)

theorem Linkless.locate_eq (ht : t.Linkless) (hn : ∀ m ∈ names, IsName m)
    (h : t.locate (placePath names) = .ok (place, node)) : place = names := by
  obtain ⟨-, hwalk⟩ := (locate_placePath_eq_ok_iff hn).mp h
  have hup : ['.', '.'] ∉ names := fun hm => (hn _ hm).notUp rfl
  obtain ⟨hplace, -⟩ := (walks_iff.mpr hwalk).place_eq (fun q target _ _ => ht q target) hup
  rwa [List.nil_append, dotless_of_isName hn] at hplace

theorem Linkless.resolvePrefix_eq (ht : t.Linkless) {p : Path} (hp : p.isAbsolute = true) :
    t.resolvePrefix p = p.normalize := by
  obtain ⟨names, place, rest, node, hn, hnorm, hres, hgo⟩ := resolvePrefix_of_absolute (t := t) hp
  obtain ⟨front, rfl, hfound⟩ := hres.leads
  obtain rfl := ht.locate_eq (fun m hm => hn m (List.mem_append_left rest hm)) hfound
  rw [hgo, hnorm]

/-! ## Resolving again -/

/-- A place without links on the way is resolved to itself. -/
theorem Grounded.resolvePrefix_eq {p : Place} (hg : Grounded t p) :
    t.resolvePrefix (placePath p) = placePath p := by
  induction hg with
  | root => exact resolvePrefix_of_locate (by simp) locate_root
  | @into p n hg hn hf hd ih =>
    have hinto := Grounded.into hg hn hf hd
    cases hl : t.locate (placePath (p ++ [n])) with
    | error e => exact resolvePrefix_concat hinto.names hg.names hl ih
    | ok found =>
      rw [resolvePrefix_of_locate hinto.names hl, (Holds.directory hinto).place_eq nofun hl]

theorem Holds.resolvePrefix_eq {p : Place} (h : Holds t p node)
    (hlink : ∀ target, node ≠ .link target) : t.resolvePrefix (placePath p) = placePath p := by
  cases hl : t.locate (placePath p) with
  | ok found => rw [resolvePrefix_of_locate h.names hl, h.place_eq hlink hl]
  | error e =>
    have hnames := h.names
    cases h with
    | directory hg => exact hg.resolvePrefix_eq
    | entry hg _ _ _ _ => exact resolvePrefix_concat hnames hg.names hl hg.resolvePrefix_eq

/-- The names lead down to a directory. The next one leads on from there, but not behind the names:
there it is one link too many. -/
def StopsAtLink (t : FileTree) (names : Place) : Prop :=
  ∃ front n rest place, names = front ++ n :: rest ∧
    t.locate (placePath front) = .ok (place, .directory) ∧
    t.locate (placePath (front ++ [n])) = .error .tooManyLinks ∧
    ∃ found, t.locate (placePath (place ++ [n])) = .ok found

theorem link_of_tooManyLinks (hn : ∀ m ∈ front ++ [n], IsName m)
    (h : t.locate (placePath front) = .ok (place, .directory))
    (he : t.locate (placePath (front ++ [n])) = .error .tooManyLinks) :
    ∃ target, t.node? (place ++ [n]) = some (.link target) := by
  have hlast : IsName n := hn n (by simp)
  have hz : '\x00' ∉ (placePath (front ++ [n])).chars := by
    intro hz
    simp [locate, hz] at he
  obtain ⟨-, hwalk⟩ := (locate_placePath_eq_ok_iff
    fun m hm => hn m (List.mem_append_left [n] hm)).mp h
  obtain ⟨left, -, hon⟩ := walk_append hwalk
  rw [locate_placePath hn hz, hon [n]] at he
  have hend : t.walk true left place [n] = .error .tooManyLinks := by
    cases hw : t.walk true left place [n] with
    | error f => simpa [hw, Except.bind] using he
    | ok s => cases s <;> simp [hw, Except.bind, Spot.found] at he
  generalize hr : Except.error Fault.tooManyLinks = r at hend
  cases walks_iff.mpr hend with
  | here => exact absurd rfl hlast.notHere
  | up => exact absurd rfl hlast.notUp
  | into _ _ hrest =>
    rw [← hr, walks_iff, walk_nil] at hrest
    cases hrest
  | exhausted _ hlink _ => exact ⟨_, hlink⟩
  | through _ hlink _ _ => exact ⟨_, hlink⟩
  | tooLong => cases hr
  | missing _ _ hne => exact absurd rfl hne
  | beyond _ _ hne => exact absurd rfl hne
  | free => cases hr
  | file => cases hr
  | link => cases hr

/-- A link that leads somewhere is not left on the path. -/
theorem resolvePrefix_ne {target : Path} (hn : ∀ m ∈ place ++ n :: rest, IsName m)
    (hlink : t.node? (place ++ [n]) = some (.link target)) {found : Place × Node}
    (hl : t.locate (placePath (place ++ [n])) = .ok found) :
    t.resolvePrefix (placePath (place ++ n :: rest)) ≠ placePath (place ++ n :: rest) := by
  have hstep : place ++ [n] <+: place ++ n :: rest := ⟨rest, by simp⟩
  -- a path that leads to itself has no link on it
  have hnot : ∀ {q : Place} {node : Node}, (∀ m ∈ q, IsName m) →
      t.locate (placePath q) = .ok (q, node) → ¬ place ++ [n] <+: q := by
    intro q node hq hlocate hpre
    have hholds := holds_of_locate hq hlocate
    by_cases he : place ++ [n] = q
    · subst he
      rw [hholds.node?] at hlink
      exact ne_link_of_locate hq hlocate target (Option.some.inj hlink)
    · rw [hholds.above hpre he] at hlink
      cases hlink
  intro hfixed
  obtain ⟨q, hq⟩ := exists_resolvesTo t (place ++ n :: rest)
  have hsame := hq.resolvePrefix_eq hn
  rw [hfixed] at hsame
  generalize hall : place ++ n :: rest = names at hn hstep hsame hq
  cases hq with
  | whole hlocate =>
    have hholds := holds_of_locate hn hlocate
    obtain rfl := placePath_inj hn hholds.names hsame
    exact hnot hn hlocate hstep
  | @part front q more m node fault hlocate he =>
    have hfront : ∀ k ∈ front, IsName k := fun k hk => hn k (List.mem_append_left _ hk)
    have hholds := holds_of_locate hfront hlocate
    have hmore : ∀ k ∈ m :: more, IsName k := fun k hk => hn k (List.mem_append_right front hk)
    have hboth : ∀ k ∈ q ++ m :: more, IsName k := by
      intro k hk
      exact (List.mem_append.mp hk).elim (hholds.names k) (hmore k)
    obtain rfl : front = q := List.append_cancel_right (placePath_inj hn hboth hsame)
    have hend : front ++ [m] <+: front ++ m :: more := ⟨more, by simp⟩
    rcases List.prefix_or_prefix_of_prefix hend hstep with ⟨tail, htail⟩ | hpre
    · -- the part that leads nowhere ends in front of the link, or at it
      have htailed : ∀ k ∈ (front ++ [m]) ++ tail, IsName k :=
        fun k hk => hn k (hstep.subset (htail ▸ hk))
      obtain ⟨e, hfails⟩ := locate_error_append htailed he
      rw [htail, hl] at hfails
      cases hfails
    · rcases List.prefix_concat_iff.mp hpre with heq | hpre
      · rw [heq, he] at hl
        cases hl
      · exact hnot hfront hlocate hpre

/-- **Resolving again changes a path only where it was stopped at a link.** -/
theorem ResolvesTo.again_iff (h : ResolvesTo t names place) (hn : ∀ m ∈ names, IsName m) :
    t.resolvePrefix (placePath place) = placePath place ↔ ¬ t.StopsAtLink names := by
  have hfirst := h.resolvePrefix_eq hn
  constructor
  · rintro hfixed ⟨front, m, rest, q, rfl, hlocate, hmany, found, hfound⟩
    have hfront : ∀ k ∈ front, IsName k := fun k hk => hn k (List.mem_append_left _ hk)
    have hone : ∀ k ∈ front ++ [m], IsName k := isName_concat hfront (hn m (by simp))
    have hstopped : ResolvesTo t (front ++ m :: rest) (q ++ m :: rest) := .part hlocate hmany
    obtain ⟨target, hlink⟩ := link_of_tooManyLinks hone hlocate hmany
    rw [← hfirst, hstopped.resolvePrefix_eq hn] at hfixed
    refine resolvePrefix_ne ?_ hlink hfound hfixed
    intro k hk
    exact (List.mem_append.mp hk).elim ((holds_of_locate hfront hlocate).names k)
      fun hk => hn k (List.mem_append_right front hk)
  · intro hstop
    cases h with
    | whole h => exact (holds_of_locate hn h).resolvePrefix_eq (ne_link_of_locate hn h)
    | @part front q rest n node fault h he =>
      have hfront : ∀ k ∈ front, IsName k := fun k hk => hn k (List.mem_append_left _ hk)
      have hholds := holds_of_locate hfront h
      have hq := hholds.resolvePrefix_eq (ne_link_of_locate hfront h)
      have hone : ∀ k ∈ front ++ [n], IsName k := isName_concat hfront (hn n (by simp))
      have hnames : ∀ k ∈ q ++ n :: rest, IsName k := by
        intro k hk
        exact (List.mem_append.mp hk).elim (hholds.names k) fun hk => hn k (by simp_all)
      cases hl : t.locate (placePath (q ++ [n])) with
      | error e => exact resolvePrefix_append hnames hholds.names hq hl
      | ok found =>
        have hres : Resolved t (front ++ [n]) q [n] node := ⟨⟨front, rfl, h⟩, fun _ => ⟨fault, he⟩⟩
        obtain ⟨rfl, hmany⟩ := hres.tooManyLinks hone (by simp) hl
        exact absurd ⟨front, n, rest, q, rfl, h, hmany, found, hl⟩ hstop

theorem resolvePrefix_normalize (t : FileTree) (p : Path) :
    t.resolvePrefix p.normalize = t.resolvePrefix p := by
  rw [resolvePrefix, components_normalize, (isNormal_normalComponents p).normalComponents_eq]
  rfl

theorem resolvePrefix_again_iff {p : Path} (hp : p.isAbsolute = true) :
    t.resolvePrefix (t.resolvePrefix p) = t.resolvePrefix p ↔
      ¬ t.StopsAtLink (pieces p.normalize.chars) := by
  obtain ⟨names, hn, -, hnorm⟩ := normalize_eq_placePath hp
  obtain ⟨place, h⟩ := exists_resolvesTo t names
  have hfirst : t.resolvePrefix p = placePath place := by
    rw [← resolvePrefix_normalize, hnorm, h.resolvePrefix_eq hn]
  rw [hfirst, h.again_iff hn, hnorm, pieces_placePath hn]

/-- A path that leads somewhere is not stopped. -/
theorem not_stopsAtLink (hn : ∀ m ∈ names, IsName m) {found : Place × Node}
    (h : t.locate (placePath names) = .ok found) : ¬ t.StopsAtLink names := by
  rintro ⟨front, m, rest, q, rfl, -, hmany, -⟩
  have hcons : front ++ m :: rest = (front ++ [m]) ++ rest := by simp
  rw [hcons] at hn h
  obtain ⟨e, he⟩ := locate_error_append hn hmany
  rw [h] at he
  cases he

/-- **Normal forms and resolved paths.** The normal form is its own, as any path is that is spelt as
one; it has steps up in front at most, and none below the root; a path may be normalized before
another one is joined to it. Without links, resolving is normalizing. With links, it is done once
and for all unless the path is stopped at one that leads on. -/
theorem paths_canonical (t : FileTree) (p q : Path) :
    (p.normalize.normalize = p.normalize ∧
      Component.here ∉ p.normalize.components ∧
      (∀ front back, p.normalize.components = front ++ .up :: back → ∀ c ∈ front, c = .up) ∧
      (p.isAbsolute = true → Component.up ∉ p.normalize.components) ∧
      (p / q).normalize = (p.normalize / q).normalize ∧
      (p.normalize = p ↔ ∃ cs, IsNormal cs ∧ p = ofComponents cs)) ∧
    (t.Linkless → p.isAbsolute = true → t.resolvePrefix p = p.normalize) ∧
    (p.isAbsolute = true →
      (t.resolvePrefix (t.resolvePrefix p) = t.resolvePrefix p ↔
        ¬ t.StopsAtLink (pieces p.normalize.chars))) := by
  refine ⟨?_, fun ht => ht.resolvePrefix_eq, resolvePrefix_again_iff⟩
  have hnormal := isNormal_normalComponents p
  rw [components_normalize]
  refine ⟨normalize_normalize p, hnormal.here_notMem, fun _ _ => hnormal.eq_up, fun hp => ?_,
    normalize_join p q, normalize_eq_self_iff⟩
  obtain ⟨ns, -, hcs⟩ := normalComponents_of_absolute hp
  exact hnormal.up_notMem (by simp [hcs])

/-- A project with a file and no links. -/
def plainProject : FileTree where
  nodes := [([['p']], .directory), ([['p'], ['v']], .file [105, 110] false)]
  home := []

theorem paths_canonical_project :
    plainProject.Linkless ∧ (Path.ofString "/p/./x/../v").isAbsolute = true ∧
      Component.up ∉ (Path.ofString "/p/./x/../v").normalize.components ∧
      plainProject.resolvePrefix (.ofString "/p/./x/../v") =
        (Path.ofString "/p/./x/../v").normalize ∧
      Containment.linkedProject.resolvePrefix
          (Containment.linkedProject.resolvePrefix (.ofString "/p/l/./v")) =
        Containment.linkedProject.resolvePrefix (.ofString "/p/l/./v") := by
  have hlinkless : plainProject.Linkless := by
    intro place target h
    have hm := mem_nodes_of_node? h nofun
    simp [plainProject] at hm
  have hpieces : pieces (Path.ofString "/p/l/./v").normalize.chars = [['p'], ['l'], ['v']] := by
    decide
  have hnames : ∀ m ∈ [['p'], ['l'], ['v']], IsName m := by
    intro m hm
    simp only [List.mem_cons, List.not_mem_nil, or_false] at hm
    rcases hm with rfl | rfl | rfl <;> exact Containment.isName_letter (by decide) (by decide)
  have hfound : Containment.linkedProject.locate (placePath [['p'], ['l'], ['v']]) =
      .ok ([['p'], ['v']], .file [105, 110] false) := by decide +kernel
  refine ⟨hlinkless, rfl, (paths_canonical plainProject _ ⟨[]⟩).1.2.2.2.1 rfl,
    (paths_canonical plainProject _ ⟨[]⟩).2.1 hlinkless rfl,
    ((paths_canonical Containment.linkedProject _ ⟨[]⟩).2.2 rfl).mpr ?_⟩
  rw [hpieces]
  exact not_stopsAtLink hnames hfound

/-- The link that was one too many is followed the second time. -/
theorem roundabout_resolved_again :
    ¬ ∀ (t : FileTree) (p : Path), p.isAbsolute = true →
      t.resolvePrefix (t.resolvePrefix p) = t.resolvePrefix p := by
  intro hall
  have hsame := hall Containment.linkedProject (placePath (Containment.roundaboutNames 'x')) rfl
  have hnames : ∀ m ∈ [['p'], ['x']], IsName m := by
    intro m hm
    simp only [List.mem_cons, List.not_mem_nil, or_false] at hm
    rcases hm with rfl | rfl <;> exact Containment.isName_letter (by decide) (by decide)
  have hfound : Containment.linkedProject.locate (placePath [['p'], ['x']]) =
      .ok ([['s']], .file [111, 117, 116] false) := by decide +kernel
  rw [Containment.resolvePrefix_roundabout, resolvePrefix_of_locate hnames hfound] at hsame
  exact absurd hsame (by decide)

end OfflineCache.FileTree
