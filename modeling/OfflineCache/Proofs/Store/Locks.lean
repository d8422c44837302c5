import OfflineCache.Store

/-! Locked paths. A call keeps its path locked from the lock on until the unlocking, and no two calls
keep one path locked (`Locks`). Where nothing was locked at the start, whatever is locked is kept so
by a call (`Locks.Owned`), so a call that waits for a path waits for another call that can go on. -/

namespace OfflineCache

/-- The components of a path, by which it is locked. -/
abbrev Lock := List Path.Component

/-- The lock that a call holds at a stage. -/
def Storing.lock? : Storing → Option Lock
  | .comparing e | .replacing e _ _ | .unlocking e _ => some e.path.components
  | _ => none

/-- The lock that a call waits for at a stage. -/
def Storing.awaits? : Storing → Option Lock
  | .locking e => some e.path.components
  | _ => none

/-- What a step does to the locked paths, by the lock that is held before and after it. -/
inductive Locking (locked : List Lock) : Option Lock → List Lock → Option Lock → Prop
  | same {h : Option Lock} : Locking locked h locked h
  | taken {c : Lock} : c ∉ locked → Locking locked none (c :: locked) (some c)
  | released {c : Lock} : Locking locked (some c) (locked.erase c) none

theorem Storing.locking_step (s : Store) (l : Locator) (a : Artifact) (m : Option Mishap)
    (w : World) (st : Storing) :
    Locking w.locked st.lock? (st.step s l a m w).1.locked (st.step s l a m w).2.lock? := by
  cases st with
  | starting =>
    simp only [step]
    split <;> exact .same
  | locking e =>
    simp only [step]
    split
    · exact .same
    · rename_i hfree
      exact .taken fun hm => hfree (by simpa using hm)
  | comparing e =>
    simp only [step, compare]
    split
    · split <;> exact .same
    · exact .same
  | replacing e tmp r =>
    cases r with
    | done x => cases x <;> exact .same
    | _ => exact .same
  | unlocking e r => exact .released
  | done r => exact .same

namespace Locking

variable {locked locked' : List Lock} {before after : Option Lock} {c : Lock}

/-- What is held now was held before, or was free. -/
theorem of_held (h : Locking locked before locked' after) (hc : after = some c) :
    before = some c ∨ c ∉ locked := by
  cases h with
  | same => exact Or.inl hc
  | taken hfree => exact Or.inr (Option.some.inj hc ▸ hfree)
  | released => cases hc

/-- What is held now is locked. -/
theorem mem_of_held (h : Locking locked before locked' after) (hc : after = some c)
    (hbefore : before = some c → c ∈ locked) : c ∈ locked' := by
  cases h with
  | same => exact hbefore hc
  | taken => exact Option.some.inj hc ▸ List.mem_cons_self
  | released => cases hc

/-- A lock that the call did not hold stays locked. -/
theorem mem_of_not_held (h : Locking locked before locked' after) (hc : before ≠ some c)
    (hm : c ∈ locked) : c ∈ locked' := by
  cases h with
  | same => exact hm
  | taken => exact List.mem_cons_of_mem _ hm
  | released => exact (List.mem_erase_of_ne fun he => hc (by rw [he])).mpr hm

/-- What is locked now is held by the call, or was locked before and not by the call. -/
theorem held_or_mem (h : Locking locked before locked' after) (hn : locked.Nodup)
    (hm : c ∈ locked') : after = some c ∨ before ≠ some c ∧ c ∈ locked := by
  cases h with
  | same => exact (Classical.em (before = some c)).imp_right (⟨·, hm⟩)
  | taken =>
    rcases List.mem_cons.mp hm with rfl | hm
    · exact Or.inl rfl
    · exact Or.inr ⟨nofun, hm⟩
  | released =>
    refine Or.inr ⟨?_, List.mem_of_mem_erase hm⟩
    rintro ⟨⟩
    exact hn.not_mem_erase hm

theorem nodup (h : Locking locked before locked' after) (hn : locked.Nodup) : locked'.Nodup := by
  cases h with
  | same => exact hn
  | taken hfree => exact List.nodup_cons.mpr ⟨hfree, hn⟩
  | released => exact hn.erase _

end Locking

/-! ## All calls -/

/-- The calls hold different locks. -/
structure Locks {ι : Type} (locked : List Lock) (holds : ι → Option Lock) : Prop where
  held : ∀ i c, holds i = some c → c ∈ locked
  apart : ∀ i j c, holds i = some c → holds j = some c → i = j

/-- Every lock is held by a call. -/
structure Locks.Owned {ι : Type} (locked : List Lock) (holds : ι → Option Lock) : Prop
    extends Locks locked holds where
  nodup : locked.Nodup
  owned : ∀ c ∈ locked, ∃ i, holds i = some c

namespace Locks

variable {ι : Type} {locked locked' : List Lock} {holds holds' : ι → Option Lock} {i : ι}

theorem of_none (h : ∀ j, holds j = none) : Locks locked holds :=
  ⟨fun j _ hc => (nomatch (h j).symm.trans hc), fun j _ _ hc => (nomatch (h j).symm.trans hc)⟩

theorem Owned.nil (h : ∀ j, holds j = none) : Owned [] holds :=
  ⟨of_none h, List.nodup_nil, fun _ hc => nomatch hc⟩

/-- One call's step keeps the locks apart. -/
theorem step (h : Locks locked holds) (hi : Locking locked (holds i) locked' (holds' i))
    (hother : ∀ j, j ≠ i → holds' j = holds j) : Locks locked' holds' := by
  -- what is held now was held before, or was free and is now held by the call that moved
  have hbefore : ∀ j c, holds' j = some c → holds j = some c ∨ j = i ∧ c ∉ locked := by
    intro j c hc
    by_cases hj : j = i
    · subst hj
      exact (hi.of_held hc).imp_right (⟨rfl, ·⟩)
    · exact Or.inl ((hother j hj).symm.trans hc)
  constructor
  · intro j c hc
    by_cases hj : j = i
    · subst hj
      exact hi.mem_of_held hc (h.held j c)
    · have hold := (hother j hj).symm.trans hc
      exact hi.mem_of_not_held (fun hic => hj (h.apart j i c hold hic)) (h.held j c hold)
  · intro j k c hj hk
    rcases hbefore j c hj with hj | ⟨rfl, hfree⟩ <;> rcases hbefore k c hk with hk | ⟨rfl, hfree'⟩
    · exact h.apart j k c hj hk
    · exact absurd (h.held j c hj) hfree'
    · exact absurd (h.held k c hk) hfree
    · rfl

/-- One call's step leaves no lock behind. -/
theorem Owned.step (h : Owned locked holds) (hi : Locking locked (holds i) locked' (holds' i))
    (hother : ∀ j, j ≠ i → holds' j = holds j) : Owned locked' holds' := by
  refine ⟨h.toLocks.step hi hother, hi.nodup h.nodup, fun c hc => ?_⟩
  rcases hi.held_or_mem h.nodup hc with hheld | ⟨hnot, hm⟩
  · exact ⟨i, hheld⟩
  · obtain ⟨j, hj⟩ := h.owned c hm
    refine ⟨j, (hother j ?_).trans hj⟩
    rintro rfl
    exact hnot hj

end Locks

end OfflineCache
