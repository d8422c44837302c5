import OfflineCache.FileTree.Change
import OfflineCache.Proofs.FileTree.Walk

/-! What a change to a tree leaves as it was. `Tended` holds between a tree and a later one if
directories and links are kept, no link is added, and no file goes but temporary ones. A walk that
arrived at a directory arrives there again in the later tree, and so does one that came to a place
which holds a file by then. -/

namespace OfflineCache.FileTree

open OfflineCache.Path

variable {t t' t'' : FileTree} {follow : Bool} {links : Nat} {origin : Place}
  {ss : List (List Char)}

/-! ## Looking up -/

@[simp] theorem node?_nil (t : FileTree) : t.node? [] = some .directory := rfl

theorem node?_of_ne_nil {p : Place} (hp : p ≠ []) : t.node? p = t.nodes.lookup p := if_neg hp

theorem lookup_filter_ne (nodes : List (Place × Node)) (p q : Place) :
    (nodes.filter (·.1 ≠ p)).lookup q = if q = p then none else nodes.lookup q := by
  induction nodes with
  | nil => simp
  | cons e nodes ih =>
    obtain ⟨r, n⟩ := e
    by_cases hr : r = p
    · subst hr
      by_cases hq : q = r
      · simpa [hq] using ih
      · have hqr : (q == r) = false := by simpa using hq
        simpa [hq, List.lookup_cons, hqr] using ih
    · by_cases hq : q = r
      · subst hq
        simp [hr]
      · have hqr : (q == r) = false := by simpa using hq
        simpa [hr, List.lookup_cons, hqr] using ih

theorem node?_erase {p : Place} (hp : p ≠ []) (q : Place) :
    (t.erase p).node? q = if q = p then none else t.node? q := by
  by_cases hq : q = []
  · subst hq
    simp [hp.symm]
  · rw [node?_of_ne_nil hq, node?_of_ne_nil hq]
    exact lookup_filter_ne t.nodes p q

theorem node?_put {p : Place} (hp : p ≠ []) (n : Node) (q : Place) :
    (t.put p n).node? q = if q = p then some n else t.node? q := by
  by_cases hq : q = []
  · subst hq
    simp [hp.symm]
  · rw [node?_of_ne_nil hq, node?_of_ne_nil hq]
    show (t.nodes.filter (·.1 ≠ p) ++ [(p, n)]).lookup q = _
    rw [List.lookup_append, lookup_filter_ne]
    by_cases he : q = p
    · simp [he]
    · have hqp : (q == p) = false := by simpa using he
      simp [he, List.lookup_cons, hqp]

@[simp] theorem home_put (p : Place) (n : Node) : (t.put p n).home = t.home := rfl

@[simp] theorem home_erase (p : Place) : (t.erase p).home = t.home := rfl

/-- The content of the file at a place, if there is one. -/
def content? (t : FileTree) (p : Place) : Option Bytes :=
  match t.node? p with
  | some (.file b _) => some b
  | _ => none

theorem content?_eq_some_iff {p : Place} {b : Bytes} :
    t.content? p = some b ↔ ∃ x, t.node? p = some (.file b x) := by
  unfold content?
  split
  · rename_i c x hn
    simp [hn]
  · rename_i hn
    simp only [reduceCtorEq, false_iff, not_exists]
    exact fun x hx => hn b x hx

/-! ## Trees that are tended -/

/-- The last name of the place is one that unfinished writes go by. -/
def IsTemporary (p : Place) : Prop := ∃ n, p.getLast? = some n ∧ isTemporaryName n = true

structure Tended (t t' : FileTree) : Prop where
  home : t'.home = t.home
  directory : ∀ p, t.node? p = some .directory → t'.node? p = some .directory
  link : ∀ p target, t'.node? p = some (.link target) ↔ t.node? p = some (.link target)
  file : ∀ p b x, t.node? p = some (.file b x) →
    (∃ b' x', t'.node? p = some (.file b' x')) ∨ IsTemporary p

theorem Tended.refl (t : FileTree) : Tended t t :=
  ⟨rfl, fun _ h => h, fun _ _ => Iff.rfl, fun _ b x h => Or.inl ⟨b, x, h⟩⟩

theorem Tended.trans (h : Tended t t') (h' : Tended t' t'') : Tended t t'' := by
  refine ⟨h'.home.trans h.home, fun p hp => h'.directory p (h.directory p hp),
    fun p target => (h'.link p target).trans (h.link p target), ?_⟩
  intro p b x hp
  rcases h.file p b x hp with ⟨b', x', hp'⟩ | htemp
  · exact h'.file p b' x' hp'
  · exact Or.inr htemp

/-- A change at one place that held no directory and no link. -/
theorem Tended.of_eq_of_ne {p : Place} (hhome : t'.home = t.home)
    (hother : ∀ q, q ≠ p → t'.node? q = t.node? q) (hdir : t.node? p ≠ some .directory)
    (hlink : ∀ target, t.node? p ≠ some (.link target))
    (hlink' : ∀ target, t'.node? p ≠ some (.link target))
    (hfile : ∀ b x, t.node? p = some (.file b x) →
      (∃ b' x', t'.node? p = some (.file b' x')) ∨ IsTemporary p) : Tended t t' := by
  refine ⟨hhome, fun q hq => ?_, fun q target => ?_, fun q b x hq => ?_⟩
  · by_cases he : q = p
    · exact absurd (he ▸ hq) hdir
    · rw [hother q he]
      exact hq
  · by_cases he : q = p
    · subst he
      exact ⟨fun h => absurd h (hlink' target), fun h => absurd h (hlink target)⟩
    · rw [hother q he]
  · by_cases he : q = p
    · subst he
      exact hfile b x hq
    · exact Or.inl ⟨b, x, by rw [hother q he]; exact hq⟩

theorem node?_put_of_ne {p q : Place} (hp : p ≠ []) (n : Node) (hq : q ≠ p) :
    (t.put p n).node? q = t.node? q := by
  rw [node?_put hp, if_neg hq]

theorem node?_erase_of_ne {p q : Place} (hp : p ≠ []) (hq : q ≠ p) :
    (t.erase p).node? q = t.node? q := by
  rw [node?_erase hp, if_neg hq]

theorem ne_nil_of_node? {p : Place} (h : t.node? p ≠ some .directory) : p ≠ [] := by
  rintro rfl
  exact h rfl

/-- A new node where there was none. -/
theorem Tended.put_free {p : Place} {n : Node} (hp : t.node? p = none)
    (hn : ∀ target, n ≠ .link target) : Tended t (t.put p n) := by
  have hne : p ≠ [] := ne_nil_of_node? (t := t) (by simp [hp])
  refine .of_eq_of_ne rfl (fun q hq => node?_put_of_ne hne n hq) ?_ ?_ ?_ ?_ <;>
    simp [hp, node?_put hne, hn]

/-- Other content in a file. -/
theorem Tended.put_file {p : Place} {b c : Bytes} {x y : Bool} (hp : t.node? p = some (.file b x)) :
    Tended t (t.put p (.file c y)) := by
  have hne : p ≠ [] := ne_nil_of_node? (t := t) (by simp [hp])
  refine .of_eq_of_ne rfl (fun q hq => node?_put_of_ne hne _ hq) ?_ ?_ ?_ ?_ <;>
    simp [hp, node?_put hne]

/-- A temporary file less. -/
theorem Tended.erase_temporary {p : Place} {b : Bytes} {x : Bool}
    (hp : t.node? p = some (.file b x)) (htemp : IsTemporary p) : Tended t (t.erase p) := by
  have hne : p ≠ [] := ne_nil_of_node? (t := t) (by simp [hp])
  refine .of_eq_of_ne rfl (fun q hq => node?_erase_of_ne hne hq) ?_ ?_ ?_ fun _ _ _ => Or.inr htemp
    <;> simp [hp, node?_erase hne]

/-! ## Walks in a tended tree -/

/-- The place a walk came to, whether something is there or not. -/
def Spot.place : Spot → Place
  | .present p _ => p
  | .free d n => d ++ [n]

theorem Walks.directory {place : Place}
    (h : Walks t follow links origin ss (.ok (.present place .directory))) (ht : Tended t t') :
    Walks t' follow links origin ss (.ok (.present place .directory)) := by
  generalize hr : Except.ok (Spot.present place .directory) = r at h
  induction h with
  | arrived =>
    cases hr
    exact .arrived
  | here _ ih => exact .here (ih hr)
  | up _ ih => exact .up (ih hr)
  | into hs hn _ ih => exact .into hs (ht.directory _ hn) (ih hr)
  | through hs hn he _ ih => exact .through hs ((ht.link _ _).mpr hn) he (ih hr)
  | tooLong => cases hr
  | free => cases hr
  | missing => cases hr
  | file => cases hr
  | beyond => cases hr
  | link => cases hr
  | exhausted => cases hr

/-- Where a file is in the end. -/
theorem Walks.file_there {s : Spot} {b : Bytes} {x : Bool}
    (h : Walks t follow links origin ss (.ok s)) (ht : Tended t t')
    (hd : ∀ p, s ≠ .present p .directory) (hn : t'.node? s.place = some (.file b x)) :
    Walks t' follow links origin ss (.ok (.present s.place (.file b x))) := by
  generalize hr : Except.ok s = r at h
  induction h with
  | arrived =>
    cases hr
    exact absurd rfl (hd _)
  | here _ ih => exact .here (ih hr)
  | up _ ih => exact .up (ih hr)
  | into hs hdir _ ih => exact .into hs (ht.directory _ hdir) (ih hr)
  | through hs hl he _ ih => exact .through hs ((ht.link _ _).mpr hl) he (ih hr)
  | free hs _ =>
    cases hr
    exact .file hs hn
  | file hs _ =>
    cases hr
    exact .file hs hn
  | link hs hl _ =>
    cases hr
    cases ((ht.link _ _).mpr hl).symm.trans hn
  | tooLong => cases hr
  | missing => cases hr
  | beyond => cases hr
  | exhausted => cases hr

/-- Following links at the end makes no difference where none is there. -/
theorem Walks.following {s : Spot} (h : Walks t false links origin ss (.ok s))
    (hl : ∀ p target, s ≠ .present p (.link target)) : Walks t true links origin ss (.ok s) := by
  generalize hr : Except.ok s = r at h
  induction h with
  | arrived => exact .arrived
  | here _ ih => exact .here (ih hr)
  | up _ ih => exact .up (ih hr)
  | into hs hn _ ih => exact .into hs hn (ih hr)
  | through hs hn _ _ ih => exact .through hs hn (fun _ => rfl) (ih hr)
  | free hs hn => exact .free hs hn
  | file hs hn => exact .file hs hn
  | link =>
    cases hr
    exact absurd rfl (hl _ _)
  | tooLong => cases hr
  | missing => cases hr
  | beyond => cases hr
  | exhausted => cases hr

end OfflineCache.FileTree
