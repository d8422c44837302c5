import OfflineCache.Proofs.FileTree.LinkFree
import OfflineCache.Proofs.FileTree.Writing
import OfflineCache.Proofs.Store.Places

/-! What one stage of a replacement does to the files. `Effect` lists the possible changes: in a
cache without links each is at the place of the temporary file, or is the one move of that file to
the place of the entry, or adds directories. Whatever goes wrong, nothing else is touched. -/

namespace OfflineCache.Replacement

open OfflineCache.Path OfflineCache.FileTree

/-- Names below a base: those of the directories, that of the file, and that of the temporary file
beside it. -/
structure Target where
  root : Path
  names : List (List Char)
  name : List Char
  scratch : List Char

namespace Target

/-- Where the file is, if the base leads to `place`. -/
def final (s : Target) (place : Place) : Place := place ++ (s.names ++ [s.name])

def temporary (s : Target) (place : Place) : Place := place ++ (s.names ++ [s.scratch])

/-- The paths of the file and of the temporary file. -/
structure Spells (s : Target) (dest tmp : Path) : Prop where
  names : ∀ m ∈ s.names, IsName m
  name : IsName s.name
  scratch : IsName s.scratch
  temporary : isTemporaryName s.scratch = true
  below_dest : Below s.root (s.names ++ [s.name]) dest
  below_tmp : Below s.root (s.names ++ [s.scratch]) tmp
  parent : dest.parent? = some (s.root.under s.names)

variable {s : Target} {dest tmp : Path}

theorem Spells.final_names (h : s.Spells dest tmp) : ∀ m ∈ s.names ++ [s.name], IsName m :=
  isName_concat h.names h.name

theorem Spells.scratch_names (h : s.Spells dest tmp) : ∀ m ∈ s.names ++ [s.scratch], IsName m :=
  isName_concat h.names h.scratch

end Target

theorem spells_temporaryFor {q : Path} {names : List (List Char)} {n : List Char}
    (h : Plain q (names ++ [n])) (root : Path) (process counter : Nat) :
    Target.Spells ⟨root, names, n, temporaryName n process counter⟩ (root / q)
      (temporaryFor (root / q) process counter) := by
  have hnames : ∀ m ∈ names, IsName m := fun m hm => h.isName m (List.mem_append_left _ hm)
  have hn : IsName n := h.isName n (by simp)
  have htn := isName_temporaryName hn.noSlash process counter
  refine ⟨hnames, hn, htn, isTemporaryName_temporaryName n process counter, h.below root, ?_,
    h.parent?_join root⟩
  rw [temporaryFor_join h]
  exact below_under_join hnames htn

variable {s : Target} {dest tmp : Path} {b : Bytes} {t t' : FileTree}

theorem Target.isTemporary (h : s.Spells dest tmp) (place : Place) :
    IsTemporary (s.temporary place) := by
  refine ⟨s.scratch, ?_, h.temporary⟩
  unfold Target.temporary
  rw [← List.append_assoc, List.getLast?_concat]

/-- What a stage does: the tree after it, and the next stage. `place` is the directory that the
base leads to. -/
inductive Effect (s : Target) (dest tmp : Path) (b : Bytes) (t : FileTree) :
    Replacement → FileTree → Replacement → Prop
  | laid {t' : FileTree} {r' : Replacement} : Laid t t' →
      r' = .creating ∨ (∃ f, r' = .done (.error f)) → Effect s dest tmp b t .preparing t' r'
  | created {place : Place} {x : Bool} : Leads t s.root place →
      Tended t (t.put (s.temporary place) (.file [] x)) →
      Effect s dest tmp b t .creating (t.put (s.temporary place) (.file [] x)) .writing
  | written {place : Place} {x : Bool} : Leads t s.root place →
      Tended t (t.put (s.temporary place) (.file b x)) →
      Effect s dest tmp b t .writing (t.put (s.temporary place) (.file b x)) .renaming
  | partly {place : Place} {c : Bytes} {x : Bool} {f : Fault} : Leads t s.root place →
      Tended t (t.put (s.temporary place) (.file c x)) →
      Effect s dest tmp b t .writing (t.put (s.temporary place) (.file c x)) (.abandoning f)
  | moved {place : Place} {node : Node} {old : Spot} : Leads t s.root place →
      t.spot tmp false = .ok (.present (s.temporary place) node) →
      t.spot dest false = .ok old → old.place = s.final place →
      (∀ r, old ≠ .present r .directory) → (∀ r target, old ≠ .present r (.link target)) →
      Effect s dest tmp b t .renaming ((t.erase (s.temporary place)).put (s.final place) node)
        (.done (.ok ()))
  | removed {place : Place} {c : Bytes} {x : Bool} {f : Fault} : Leads t s.root place →
      t.node? (s.temporary place) = some (.file c x) →
      Effect s dest tmp b t (.abandoning f) (t.erase (s.temporary place)) (.done (.error f))
  | failed {r : Replacement} {f : Fault} : r = .creating ∨ r = .writing ∨ r = .renaming →
      Effect s dest tmp b t r t (.abandoning f)
  | dropped {f : Fault} : Effect s dest tmp b t (.abandoning f) t (.done (.error f))
  | stays {r : Except Fault Unit} : Effect s dest tmp b t (.done r) t (.done r)

variable (h : s.Spells dest tmp) (hf : LinkFree t s.root)

include h hf in
theorem place_of_spot_dest {follow : Bool} {spot : Spot} (hs : t.spot dest follow = .ok spot) :
    ∃ place, Leads t s.root place ∧ spot.place = s.final place ∧
      ∀ r target, spot ≠ .present r (.link target) :=
  place_of_spot h.below_dest h.final_names hf hs

include h hf in
theorem place_of_spot_tmp {follow : Bool} {spot : Spot} (hs : t.spot tmp follow = .ok spot) :
    ∃ place, Leads t s.root place ∧ spot.place = s.temporary place ∧
      ∀ r target, spot ≠ .present r (.link target) :=
  place_of_spot h.below_tmp h.scratch_names hf hs

include h hf in
/-- What is written at the temporary path is written at the temporary place. -/
theorem put_of_writeFile {c : Bytes} (hw : t.writeFile tmp c = .ok t') :
    ∃ place x, Leads t s.root place ∧ t' = t.put (s.temporary place) (.file c x) ∧ Tended t t' := by
  obtain ⟨spot, x, hs, hx, rfl⟩ := writeFile_eq_ok_iff.mp hw
  obtain ⟨place, hl, hp, -⟩ := place_of_spot_tmp h hf hs
  exact ⟨place, x, hl, by rw [hp], .write c hs hx⟩

include h hf in
theorem effect_writing (m : Option Mishap) :
    Effect s dest tmp b t .writing (step dest tmp b m t .writing).1
      (step dest tmp b m t .writing).2 := by
  cases m with
  | some x =>
    show Effect s dest tmp b t .writing
      ((t.writeFile tmp (b.take x.written)).toOption.getD t) (.abandoning x.fault)
    cases hw : t.writeFile tmp (b.take x.written) with
    | error f => exact .failed (by simp)
    | ok t' =>
      obtain ⟨place, y, hl, rfl, ht⟩ := put_of_writeFile h hf hw
      exact .partly hl ht
  | none =>
    show Effect s dest tmp b t .writing
      (attempt none t (t.writeFile tmp b) .renaming .abandoning).1
      (attempt none t (t.writeFile tmp b) .renaming .abandoning).2
    cases hw : t.writeFile tmp b with
    | error f => exact .failed (by simp)
    | ok t' =>
      obtain ⟨place, y, hl, rfl, ht⟩ := put_of_writeFile h hf hw
      exact .written hl ht

include h hf in
theorem effect_renaming (m : Option Mishap) :
    Effect s dest tmp b t .renaming (step dest tmp b m t .renaming).1
      (step dest tmp b m t .renaming).2 := by
  show Effect s dest tmp b t .renaming
    (attempt m t (t.renameFile tmp dest) (.done (.ok ())) .abandoning).1
    (attempt m t (t.renameFile tmp dest) (.done (.ok ())) .abandoning).2
  cases m with
  | some x => exact .failed (by simp)
  | none =>
    cases hr : t.renameFile tmp dest with
    | error f => exact .failed (by simp)
    | ok t' =>
      obtain ⟨source, node, old, hsource, hold, hd, rfl⟩ := of_renameFile hr
      obtain ⟨place, hl, hp, -⟩ := place_of_spot_tmp h hf hsource
      obtain ⟨place', hl', hp', hlink⟩ := place_of_spot_dest h hf hold
      obtain rfl := hl.unique hl'
      obtain rfl : source = s.temporary place := hp
      show Effect s dest tmp b t .renaming ((t.erase (s.temporary place)).put old.place node) _
      rw [hp']
      exact .moved hl hsource hold hp' hd hlink

include h hf in
theorem effect_abandoning (m : Option Mishap) (f : Fault) :
    Effect s dest tmp b t (.abandoning f) (step dest tmp b m t (.abandoning f)).1
      (step dest tmp b m t (.abandoning f)).2 := by
  cases m with
  | some x => exact .dropped
  | none =>
    show Effect s dest tmp b t (.abandoning f) ((t.removeFile tmp).toOption.getD t)
      (.done (.error f))
    cases hr : t.removeFile tmp with
    | error g => exact .dropped
    | ok t' =>
      obtain ⟨source, node, hsource, hd, rfl⟩ := of_removeFile hr
      obtain ⟨place, hl, hp, hlink⟩ := place_of_spot_tmp h hf hsource
      obtain rfl : source = s.temporary place := hp
      cases node with
      | directory => exact absurd rfl hd
      | link target => exact absurd rfl (hlink _ target)
      | file c x => exact .removed hl (node?_of_spot_present hsource (by simp))

include h hf in
/-- **What a stage does.** In a cache without links every step has one of the listed effects. -/
theorem effect_step (m : Option Mishap) (r : Replacement) :
    Effect s dest tmp b t r (step dest tmp b m t r).1 (step dest tmp b m t r).2 := by
  cases r with
  | preparing =>
    simp only [step, h.parent]
    have hlaid := laid_layDirectories t (s.root.under s.names)
    cases m with
    | some x => exact .laid (.refl t) (Or.inr ⟨x.fault, rfl⟩)
    | none =>
      cases hmade : t.layDirectories (s.root.under s.names) with
      | mk t' made =>
        rw [hmade] at hlaid
        cases made with
        | ok u => exact .laid hlaid (Or.inl rfl)
        | error f => exact .laid hlaid (Or.inr ⟨f, rfl⟩)
  | creating =>
    show Effect s dest tmp b t .creating
      (attempt m t (t.createFile tmp) .writing .abandoning).1
      (attempt m t (t.createFile tmp) .writing .abandoning).2
    cases m with
    | some x => exact .failed (by simp)
    | none =>
      rw [createFile_eq]
      cases hw : t.writeFile tmp [] with
      | error f => exact .failed (by simp)
      | ok t' =>
        obtain ⟨place, y, hl, rfl, ht⟩ := put_of_writeFile h hf hw
        exact .created hl ht
  | writing => exact effect_writing h hf m
  | «renaming» => exact effect_renaming h hf m
  | abandoning f => exact effect_abandoning h hf m f
  | done r => exact .stays

/-! ## What the effects keep -/

theorem last_of_places {place place' a b : Place} {m n : List Char}
    (h : place ++ (a ++ [m]) = place' ++ (b ++ [n])) : m = n := by
  have hl := congrArg List.getLast? h
  rw [← List.append_assoc, ← List.append_assoc, List.getLast?_concat, List.getLast?_concat] at hl
  exact Option.some.inj hl

/-- The bytes are in the temporary file. -/
def Target.Ready (s : Target) (b : Bytes) (t : FileTree) : Prop :=
  ∃ place x, Leads t s.root place ∧ t.node? (s.temporary place) = some (.file b x)

variable {r r' : Replacement}

/-- Elsewhere than at the temporary file, and at the file when it is moved there, nothing happens
but that directories are made. -/
theorem Effect.node? (h : Effect s dest tmp b t r t' r') {q : Place}
    (htmp : ∀ place, Leads t s.root place → q ≠ s.temporary place)
    (hfinal : r' = .done (.ok ()) → ∀ place, Leads t s.root place → q ≠ s.final place) :
    t'.node? q = t.node? q ∨ t.node? q = none ∧ t'.node? q = some .directory := by
  have hne : ∀ place, s.temporary place ≠ [] := fun place => by simp [Target.temporary]
  cases h with
  | laid hl _ => exact hl.node q
  | @created place x hl _ => exact Or.inl (node?_put_of_ne (hne place) _ (htmp place hl))
  | @written place x hl _ => exact Or.inl (node?_put_of_ne (hne place) _ (htmp place hl))
  | @partly place c x f hl _ => exact Or.inl (node?_put_of_ne (hne place) _ (htmp place hl))
  | @moved place node old hl _ _ _ _ _ =>
    have hfin : s.final place ≠ [] := by simp [Target.final]
    rw [node?_put_of_ne hfin _ (hfinal rfl place hl), node?_erase_of_ne (hne place) (htmp place hl)]
    exact Or.inl rfl
  | @removed place c x f hl _ => exact Or.inl (node?_erase_of_ne (hne place) (htmp place hl))
  | failed _ => exact Or.inl rfl
  | dropped => exact Or.inl rfl
  | stays => exact Or.inl rfl

theorem Effect.ready (h : Effect s dest tmp b t r t' .renaming) : s.Ready b t' := by
  cases h with
  | laid _ hr => rcases hr with hr | ⟨f, hr⟩ <;> cases hr
  | @written place x hl ht =>
    exact ⟨place, x, hl.tended ht, by rw [node?_put (by simp [Target.temporary]), if_pos rfl]⟩

/-- Only a move ends well. -/
theorem Effect.eq_renaming (h : Effect s dest tmp b t r t' (.done (.ok ())))
    (hr : ∀ x, r ≠ .done x) : r = .renaming := by
  cases h with
  | laid _ hd => rcases hd with hd | ⟨f, hd⟩ <;> cases hd
  | moved => rfl
  | stays => exact absurd rfl (hr _)

/-- The bytes stay in the temporary file while others change other places. -/
theorem Target.Ready.mono (h : s.Ready b t) (ht : Tended t t')
    (hn : ∀ place c x, Leads t s.root place → t.node? (s.temporary place) = some (.file c x) →
      t'.node? (s.temporary place) = some (.file c x)) : s.Ready b t' := by
  obtain ⟨place, x, hl, hf⟩ := h
  exact ⟨place, x, hl.tended ht, hn place b x hl hf⟩

variable (h : s.Spells dest tmp) (hf : LinkFree t s.root)

include h hf in
/-- What is moved is the temporary file with its bytes. -/
theorem file_of_ready (hr : s.Ready b t) {place : Place} {node : Node} (hl : Leads t s.root place)
    (hs : t.spot tmp false = .ok (.present (s.temporary place) node)) :
    ∃ x, node = .file b x := by
  obtain ⟨place', x, hl', hb⟩ := hr
  obtain rfl := hl.unique hl'
  have hn := node?_of_spot_below h.below_tmp h.scratch_names (by simp) hf hs
  exact ⟨x, Option.some.inj (hn.symm.trans hb)⟩

include h hf in
theorem Effect.tended (he : Effect s dest tmp b t r t' r') (hne : s.name ≠ s.scratch)
    (hr : r = .renaming → s.Ready b t) : Tended t t' := by
  cases he with
  | laid hl _ => exact hl.tended
  | created _ ht => exact ht
  | written _ ht => exact ht
  | partly _ ht => exact ht
  | @moved place node old hl hs hold hp hd hlink =>
    obtain ⟨x, rfl⟩ := file_of_ready h hf (hr rfl) hl hs
    have htmp : t.node? (s.temporary place) = some (.file b x) := node?_of_spot_present hs (by simp)
    have hfinal : s.final place ≠ s.temporary place := fun heq => hne (last_of_places heq)
    refine (Tended.erase_temporary htmp (Target.isTemporary h place)).trans ?_
    have hthere : (t.erase (s.temporary place)).node? (s.final place) = t.node? (s.final place) :=
      node?_erase_of_ne (by simp [Target.temporary]) hfinal
    cases old with
    | free d n =>
      refine .put_free ?_ (by simp)
      rw [hthere, ← hp]
      exact node?_of_spot_free hold
    | present place' old =>
      cases old with
      | directory => exact absurd rfl (hd _)
      | link target => exact absurd rfl (hlink _ target)
      | file c y =>
        refine .put_file (b := c) (x := y) ?_
        rw [hthere, ← hp]
        exact node?_of_spot_present hold (by simp)
  | removed _ hn => exact .erase_temporary hn (Target.isTemporary h _)
  | failed _ => exact .refl t
  | dropped => exact .refl t
  | stays => exact .refl t

include h hf in
/-- After the move the bytes are at the path. -/
theorem Effect.delivered (he : Effect s dest tmp b t .renaming t' (.done (.ok ())))
    (hne : s.name ≠ s.scratch) (hr : s.Ready b t) :
    ∃ place x, Leads t s.root place ∧ t'.find dest = .ok (s.final place, .file b x) := by
  have ht := he.tended h hf hne fun _ => hr
  cases he with
  | @moved place node old hl hs hold hp hd hlink =>
    obtain ⟨x, rfl⟩ := file_of_ready h hf hr hl hs
    have hn : ((t.erase (s.temporary place)).put (s.final place) (.file b x)).node? old.place =
        some (.file b x) := by
      rw [hp, node?_put (by simp [Target.final]), if_pos rfl]
    have hfind := find_of_spot hold hd hlink ht hn
    rw [hp] at hfind
    exact ⟨place, x, hl, hfind⟩

end OfflineCache.Replacement

namespace OfflineCache.Store

open OfflineCache.Path OfflineCache.FileTree

/-- Where the path of an entry leads: to its names below the place of the cache root. -/
theorem place_of_find {s : Store} {l : Locator} {digest : Checksum} {e : CacheEntry}
    (he : s.entry l digest = .ok e) {t : FileTree} (hf : LinkFree t s.root) {q : Place}
    {node : Node} (h : t.find e.path = .ok (q, node)) :
    ∃ place names n, Leads t s.root place ∧ q = place ++ (names ++ [n]) ∧
      e.path.fileName? = some n ∧
      e.path.components = s.root.components ++ (names ++ [n]).map .name := by
  obtain ⟨-, rel, names, n, hplain, hpath⟩ := plain_of_entry he
  rw [hpath] at h
  obtain ⟨place, hleads, hp, -⟩ :=
    place_of_spot (hplain.below s.root) hplain.isName hf (find_eq_ok_iff_spot.mp h)
  exact ⟨place, names, n, hleads, hp, by rw [hpath, hplain.fileName?_join],
    by rw [hpath, hplain.components_join]⟩

/-- Where the path of an entry leads, the name is the one that the path ends in. -/
theorem getLast?_of_find {s : Store} {l : Locator} {digest : Checksum} {e : CacheEntry}
    (he : s.entry l digest = .ok e) {t : FileTree} (hf : LinkFree t s.root) {q : Place}
    {node : Node} (h : t.find e.path = .ok (q, node)) : q.getLast? = e.path.fileName? := by
  obtain ⟨place, names, n, -, rfl, hname, -⟩ := place_of_find he hf h
  rw [hname, ← List.append_assoc, List.getLast?_concat]

/-- Entries that lead to one place are locked by one lock. -/
theorem components_eq_of_find {s : Store} {l l' : Locator} {digest digest' : Checksum}
    {e e' : CacheEntry} (he : s.entry l digest = .ok e) (he' : s.entry l' digest' = .ok e')
    {t : FileTree} (hf : LinkFree t s.root) {q : Place} {node node' : Node}
    (h : t.find e.path = .ok (q, node)) (h' : t.find e'.path = .ok (q, node')) :
    e.path.components = e'.path.components := by
  obtain ⟨place, names, n, hleads, rfl, -, hc⟩ := place_of_find he hf h
  obtain ⟨place', names', n', hleads', hq, -, hc'⟩ := place_of_find he' hf h'
  obtain rfl := hleads.unique hleads'
  rw [hc, hc', List.append_cancel_left hq]

end OfflineCache.Store
