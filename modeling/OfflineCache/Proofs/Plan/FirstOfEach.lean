import Mathlib.Data.List.Forall2
import Mathlib.Data.List.Pairwise
import OfflineCache.Proofs.Plan.Entries
import OfflineCache.Report

/-! A lenient plan keeps the first record of each identity. The invariant of the walk over the
records is `Seen`: the locators kept so far have different identities, each was read from a record
already passed, and each record already passed agrees with one of them in identity and checksum. A
conflict with the first record of an identity is thus a conflict between any two records of it. -/

namespace OfflineCache.Plan

variable {t : FileTree} {p : Policy} {d : Dialect}

/-! ## The specification -/

/-- The record at the position is malformed, or no well-formed one before it has its identity. -/
def Kept (d : Dialect) (rs : List LockRecord) (i : Nat) : Prop :=
  ∃ r, rs[i]? = some r ∧ ∀ l, readRecord d r = .ok l →
    ∀ j < i, ∀ r' l', rs[j]? = some r' → readRecord d r' = .ok l' → l'.identity ≠ l.identity

/-- The entry of a record: a failure without a locator, or its locator with the decision. -/
inductive EntryFor (t : FileTree) (p : Policy) (d : Dialect) (r : LockRecord) :
    PlannedEntry → Prop
  | malformed {e : PlannedEntry} {m : Locator.Malformed} : readRecord d r = .error m →
      e.raw = r.locatorText → e.locator? = none →
      e.outcome? = some (.failed .malformedLocator m.message) → EntryFor t p d r e
  | located {l : Locator} : readRecord d r = .ok l →
      EntryFor t p d r ⟨r.locatorText, .located l (classify t p l)⟩

/-- What a verdict says of a record and the locators before it. -/
inductive Judged (d : Dialect) (seen : List Locator) (r : LockRecord) : Verdict → Prop
  | malformed {e : Locator.Malformed} : readRecord d r = .error e → Judged d seen r (.malformed e)
  | fresh {l : Locator} : readRecord d r = .ok l → (∀ s ∈ seen, s.identity ≠ l.identity) →
      Judged d seen r (.fresh l)
  | duplicate {l first : Locator} : readRecord d r = .ok l → first ∈ seen →
      first.identity = l.identity → first.checksum = l.checksum → Judged d seen r (.duplicate l)
  | conflict {l first : Locator} : readRecord d r = .ok l → first ∈ seen →
      first.identity = l.identity → first.checksum ≠ l.checksum → Judged d seen r (.conflict l)

theorem judged (d : Dialect) (seen : List Locator) (r : LockRecord) :
    Judged d seen r (judge d seen r) := by
  unfold judge
  cases hr : readRecord d r with
  | error e => exact .malformed hr
  | ok l =>
    simp only
    cases hf : seen.find? (·.identity = l.identity) with
    | none =>
      refine .fresh hr fun s hs => ?_
      simpa using List.find?_eq_none.mp hf s hs
    | some first =>
      have hi : first.identity = l.identity := by simpa using List.find?_some hf
      have hm := List.mem_of_find?_eq_some hf
      simp only
      split
      · rename_i hc
        exact .duplicate hr hm hi hc
      · rename_i hc
        exact .conflict hr hm hi hc

/-- The locators kept after a verdict. -/
def seenAfter (seen : List Locator) : Verdict → List Locator
  | .fresh l => seen ++ [l]
  | _ => seen

theorem trace_cons (seen : List Locator) (r : LockRecord) (rest : List LockRecord) :
    trace d seen (r :: rest) =
      (r, judge d seen r) :: trace d (seenAfter seen (judge d seen r)) rest := by
  rw [trace]
  cases judge d seen r <;> rfl

/-- What the locators kept so far have to do with the records so far. -/
structure Seen (d : Dialect) (before : List LockRecord) (seen : List Locator) : Prop where
  read : ∀ l ∈ seen, ∃ r ∈ before, readRecord d r = .ok l
  covers : ∀ r ∈ before, ∀ l, readRecord d r = .ok l →
    ∃ first ∈ seen, first.identity = l.identity ∧ first.checksum = l.checksum
  distinct : seen.Pairwise fun a b => a.identity ≠ b.identity

theorem Seen.nil : Seen d [] [] := ⟨by simp, by simp, .nil⟩

/-- A record that agrees with a kept locator, or has none, is passed over. -/
theorem Seen.pass {before : List LockRecord} {seen : List Locator} {r : LockRecord}
    (h : Seen d before seen) (hr : ∀ l, readRecord d r = .ok l →
      ∃ first ∈ seen, first.identity = l.identity ∧ first.checksum = l.checksum) :
    Seen d (before ++ [r]) seen := by
  refine ⟨?_, ?_, h.distinct⟩
  · intro l hl
    obtain ⟨r', hr', hl'⟩ := h.read l hl
    exact ⟨r', List.mem_append_left _ hr', hl'⟩
  · intro r' hm l hl
    rcases List.mem_append.mp hm with hm | hm
    · exact h.covers r' hm l hl
    · obtain rfl : r' = r := by simpa using hm
      exact hr l hl

theorem Seen.add {before : List LockRecord} {seen : List Locator} {r : LockRecord} {l : Locator}
    (h : Seen d before seen) (hr : readRecord d r = .ok l)
    (hnew : ∀ s ∈ seen, s.identity ≠ l.identity) : Seen d (before ++ [r]) (seen ++ [l]) := by
  refine ⟨?_, ?_, ?_⟩
  · intro l' hl
    rcases List.mem_append.mp hl with hl | hl
    · obtain ⟨r', hr', hl'⟩ := h.read l' hl
      exact ⟨r', List.mem_append_left _ hr', hl'⟩
    · obtain rfl : l' = l := by simpa using hl
      exact ⟨r, by simp, hr⟩
  · intro r' hm l' hl
    rcases List.mem_append.mp hm with hm | hm
    · obtain ⟨first, hf, hi⟩ := h.covers r' hm l' hl
      exact ⟨first, List.mem_append_left _ hf, hi⟩
    · obtain rfl : r' = r := by simpa using hm
      cases hr.symm.trans hl
      exact ⟨l, by simp, rfl, rfl⟩
  · rw [List.pairwise_append]
    refine ⟨h.distinct, List.pairwise_singleton _ _, ?_⟩
    intro s hs l' hl
    obtain rfl : l' = l := by simpa using hl
    exact hnew s hs

theorem Seen.step {before : List LockRecord} {seen : List Locator} {r : LockRecord} {v : Verdict}
    (h : Seen d before seen) (hv : Judged d seen r v) (hc : ∀ l, v ≠ .conflict l) :
    Seen d (before ++ [r]) (seenAfter seen v) := by
  cases hv with
  | malformed hr =>
    refine h.pass fun l hl => ?_
    cases hr.symm.trans hl
  | fresh hr hnew => exact h.add hr hnew
  | @duplicate l first hr hm hi hs =>
    refine h.pass fun l' hl => ?_
    cases hr.symm.trans hl
    exact ⟨first, hm, hi, hs⟩
  | conflict => exact absurd rfl (hc _)

/-- The entries of the records behind `before`, and the positions they stem from. -/
structure Walked (t : FileTree) (p : Policy) (d : Dialect) (before rest : List LockRecord)
    (es : List PlannedEntry) (kept : List Nat) : Prop where
  ordered : kept.Pairwise (· < ·)
  positions : ∀ i, i ∈ kept ↔ before.length ≤ i ∧ Kept d (before ++ rest) i
  entries : List.Forall₂ (fun i e => ∃ r, (before ++ rest)[i]? = some r ∧ EntryFor t p d r e) kept es

theorem kept_lt {rs : List LockRecord} {i : Nat} (h : Kept d rs i) : i < rs.length := by
  obtain ⟨r, hr, -⟩ := h
  exact (List.getElem?_eq_some_iff.mp hr).1

theorem Walked.nil (before : List LockRecord) : Walked t p d before [] [] [] := by
  refine ⟨.nil, fun i => ?_, .nil⟩
  simp only [List.not_mem_nil, List.append_nil, false_iff]
  rintro ⟨hi, hk⟩
  exact absurd (kept_lt hk) (Nat.not_lt.mpr hi)

variable {before rest : List LockRecord} {r : LockRecord} {es : List PlannedEntry}
  {kept : List Nat}

theorem Walked.keep {e : PlannedEntry} (h : Walked t p d (before ++ [r]) rest es kept)
    (hk : Kept d (before ++ r :: rest) before.length) (he : EntryFor t p d r e) :
    Walked t p d before (r :: rest) (e :: es) (before.length :: kept) := by
  obtain ⟨hord, hpos, hent⟩ := h
  simp only [List.append_assoc, List.singleton_append, List.length_append, List.length_singleton]
    at hpos hent
  refine ⟨List.pairwise_cons.mpr ⟨fun i hi => ((hpos i).mp hi).1, hord⟩, fun i => ?_, ?_⟩
  · rw [List.mem_cons, hpos]
    constructor
    · rintro (rfl | ⟨hi, hi'⟩)
      · exact ⟨Nat.le_refl _, hk⟩
      · exact ⟨Nat.le_of_succ_le hi, hi'⟩
    · rintro ⟨hi, hi'⟩
      rcases Nat.eq_or_lt_of_le hi with rfl | hi
      · exact Or.inl rfl
      · exact Or.inr ⟨hi, hi'⟩
  · exact .cons ⟨r, by simp, he⟩ hent

theorem Walked.skip (h : Walked t p d (before ++ [r]) rest es kept)
    (hk : ¬ Kept d (before ++ r :: rest) before.length) :
    Walked t p d before (r :: rest) es kept := by
  obtain ⟨hord, hpos, hent⟩ := h
  simp only [List.append_assoc, List.singleton_append, List.length_append, List.length_singleton]
    at hpos hent
  refine ⟨hord, fun i => ?_, hent⟩
  rw [hpos]
  constructor
  · rintro ⟨hi, hi'⟩
    exact ⟨Nat.le_of_succ_le hi, hi'⟩
  · rintro ⟨hi, hi'⟩
    rcases Nat.eq_or_lt_of_le hi with rfl | hi
    · exact absurd hi' hk
    · exact ⟨hi, hi'⟩

theorem EntryFor.locator?_eq_some_iff {e : PlannedEntry} (h : EntryFor t p d r e) {l : Locator} :
    e.locator? = some l ↔ readRecord d r = .ok l := by
  cases h with
  | malformed hr _ hn _ =>
    rw [hn, hr]
    simp
  | located hr =>
    rw [hr]
    simp [PlannedEntry.locator?]

theorem getElem?_of_forall₂ {α β : Type} {R : α → β → Prop} {as : List α} {bs : List β}
    (h : List.Forall₂ R as bs) (j : Nat) :
    (∀ a, as[j]? = some a → ∃ b, bs[j]? = some b ∧ R a b) ∧
      ∀ b, bs[j]? = some b → ∃ a, as[j]? = some a ∧ R a b := by
  induction h generalizing j with
  | nil => simp
  | cons hab _ ih =>
    cases j with
    | zero => exact ⟨by simpa using hab, by simpa using hab⟩
    | succ j => simpa using ih j

theorem Walked.distinct (h : Walked t p d [] rest es kept) :
    es.Pairwise fun a b => ∀ l l', a.locator? = some l → b.locator? = some l' →
      l.identity ≠ l'.identity := by
  rw [List.pairwise_iff_getElem]
  intro a b ha hb hab l l' hl hl'
  obtain ⟨i, hi, r, hr, he⟩ :=
    (getElem?_of_forall₂ h.entries a).2 _ (List.getElem?_eq_getElem ha)
  obtain ⟨j, hj, r', hr', he'⟩ :=
    (getElem?_of_forall₂ h.entries b).2 _ (List.getElem?_eq_getElem hb)
  obtain ⟨hai, rfl⟩ := List.getElem?_eq_some_iff.mp hi
  obtain ⟨hbj, rfl⟩ := List.getElem?_eq_some_iff.mp hj
  have hlt := List.pairwise_iff_getElem.mp h.ordered a b hai hbj hab
  obtain ⟨r'', hr'', hfirst⟩ := ((h.positions _).mp (List.getElem_mem hbj)).2
  cases hr'.symm.trans hr''
  exact hfirst l' (he'.locator?_eq_some_iff.mp hl') _ hlt r l hr (he.locator?_eq_some_iff.mp hl)

def lenientPolicy : Policy := { Policy.ofRoot ⟨['/']⟩ with strict := false }

/-- A record twice, one that is malformed, and another one. -/
def recordTwice : Lockfile :=
  ⟨8, none, [⟨["a@npm:1.0.0"], none, none, none, none⟩, ⟨["none"], none, none, none, none⟩,
    ⟨["a@npm:1%2e0.0"], none, none, none, none⟩, ⟨["b@npm:1.0.0"], none, none, none, none⟩]⟩

end OfflineCache.Plan
