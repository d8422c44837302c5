import Mathlib.Data.List.Forall2
import OfflineCache.Proofs.Plan.Strictness

/-! A stricter policy only takes fetches away. The policy is looked at in two places, for strictness
and for the decision about a locator, and the decision goes through checks that can only turn a
fetch into a denial. So under a policy that tightens another one a decision is the same, or it is a
denial where the other one was no skip; and the two walks over the records keep step.

Main statement: `tightened`. -/

namespace OfflineCache

/-- The policy lets no more protocols through, is hardened if the other one is, and agrees with it
on the root and on what happens to malformed records. -/
structure Policy.Tightens (p q : Policy) : Prop where
  allow : ∀ x, p.allows x = true → q.allows x = true
  hardened : q.hardened = true → p.hardened = true
  root : p.root = q.root
  strict : p.strict = q.strict

/-- The same decision, or a denial instead of a fetch or of another denial. -/
inductive Classification.Tightens : Classification → Classification → Prop
  | same (c : Classification) : Tightens c c
  | denied (r : DenyReason) {c : Classification} : (∀ s, c ≠ .skip s) → Tightens (.deny r) c

/-- Two entries for one record, where what is fetched or skipped for the first is so for the second,
and what differs was denied. -/
structure PlannedEntry.Tightens (e e' : PlannedEntry) : Prop where
  raw : e.raw = e'.raw
  locator : e.locator? = e'.locator?
  fetched : e.classification? = some .fetchable → e'.classification? = some .fetchable
  skipped : ∀ r, e.classification? = some (.skip r) ↔ e'.classification? = some (.skip r)
  denied : e ≠ e' → ∃ r, e.classification? = some (.deny r)

structure Plan.Tightens (a b : Plan) : Prop where
  dialect : a.dialect = b.dialect
  entries : List.Forall₂ PlannedEntry.Tightens a.entries b.entries

/-- Both fail with the same error, or both answer and the answers are related. -/
inductive Together {ε α : Type} (R : α → α → Prop) : Except ε α → Except ε α → Prop
  | error (e : ε) : Together R (.error e) (.error e)
  | ok {a b : α} : R a b → Together R (.ok a) (.ok b)

/-! ## Decisions -/

namespace Classification.Tightens

variable {c c' : Classification}

theorem fetched (h : c.Tightens c') (hc : c = .fetchable) : c' = .fetchable := by
  cases h with
  | same => exact hc
  | denied => cases hc

theorem skipped (h : c.Tightens c') (r : SkipReason) : c = .skip r ↔ c' = .skip r := by
  cases h with
  | same => rfl
  | denied _ hs => exact ⟨nofun, fun hc => absurd hc (hs r)⟩

theorem eq_or_deny (h : c.Tightens c') : c = c' ∨ ∃ r, c = .deny r := by
  cases h with
  | same => exact .inl rfl
  | denied r => exact .inr ⟨r, rfl⟩

/-- The containment check takes a fetch away on both sides, and touches nothing else. -/
theorem guard (h : c.Tightens c') (t : FileTree) (l : Locator) (root : Path) :
    (Containment.guard t c l root).Tightens (Containment.guard t c' l root) := by
  cases h with
  | same => exact .same _
  | denied r hs =>
    have hdeny : Containment.guard t (.deny r) l root = .deny r := by simp [Containment.guard]
    rw [hdeny]
    refine .denied r fun s => ?_
    unfold Containment.guard
    split
    · exact nofun
    · exact hs s

end Classification.Tightens

namespace Policy

variable {p q : Policy} {l : Locator}

/-- What is skipped is skipped for its protocol, whatever the policy. -/
theorem skip_of_classify (p q : Policy) {r : SkipReason} (h : p.classify l = .skip r) :
    q.classify l = .skip r := by
  unfold classify at h ⊢
  split at h
  · cases h
  · exact h
  · exact h
  · exact h
  · split at h
    · cases h
    · split at h
      · split at h <;> cases h
      · cases h

theorem Tightens.fetchable (h : p.Tightens q) (hp : p.classify l = .fetchable) :
    q.classify l = .fetchable := by
  obtain ⟨hallowed, -⟩ := classify_eq_fetchable hp
  unfold classify at hp ⊢
  split at hp
  · cases hp
  · cases hp
  · cases hp
  · cases hp
  · rw [h.allow _ hallowed]
    cases hq : q.hardened with
    | false => simp
    | true => simpa [hallowed, h.hardened hq] using hp

theorem Tightens.classify (h : p.Tightens q) (l : Locator) :
    (p.classify l).Tightens (q.classify l) := by
  cases hp : p.classify l with
  | fetchable =>
    rw [h.fetchable hp]
    exact .same _
  | skip r =>
    rw [skip_of_classify p q hp]
    exact .same _
  | deny r =>
    refine .denied r fun s hq => ?_
    cases hp.symm.trans (skip_of_classify q p hq)

end Policy

/-! ## Entries -/

namespace PlannedEntry.Tightens

theorem refl (e : PlannedEntry) : e.Tightens e :=
  ⟨rfl, rfl, id, fun _ => Iff.rfl, fun hne => absurd rfl hne⟩

theorem located {c c' : Classification} (h : c.Tightens c') (raw : String) (l : Locator) :
    PlannedEntry.Tightens ⟨raw, .located l c⟩ ⟨raw, .located l c'⟩ where
  raw := rfl
  locator := rfl
  fetched hc := congrArg some (h.fetched (Option.some.inj hc))
  skipped r := by
    simpa only [PlannedEntry.classification?, Option.some.injEq] using h.skipped r
  denied hne := by
    rcases h.eq_or_deny with rfl | ⟨r, rfl⟩
    · exact absurd rfl hne
    · exact ⟨r, rfl⟩

end PlannedEntry.Tightens

namespace Plan

variable {p q : Policy}

theorem classify_tightens (h : p.Tightens q) (t : FileTree) (l : Locator) :
    (classify t p l).Tightens (classify t q l) := by
  rw [classify, classify, ← h.root]
  exact (h.classify l).guard t l p.root

/-! ## Plans -/

/-- One record is judged before the policy is asked. -/
theorem entryOf?_tightens (h : p.Tightens q) (t : FileTree) (v : LockRecord × Verdict) :
    Together (fun a b => List.Forall₂ PlannedEntry.Tightens a.toList b.toList)
      (entryOf? t p v) (entryOf? t q v) := by
  obtain ⟨r, v⟩ := v
  cases v with
  | malformed e =>
    simp only [entryOf?, ← h.strict]
    split
    · exact .error _
    · exact .ok (.cons (.refl _) .nil)
  | fresh l => exact .ok (.cons (.located (classify_tightens h t l) _ l) .nil)
  | duplicate l => exact .ok .nil
  | conflict l => exact .error _

theorem entriesOf_tightens (h : p.Tightens q) (t : FileTree) (vs : List (LockRecord × Verdict)) :
    Together (List.Forall₂ PlannedEntry.Tightens) (entriesOf t p vs) (entriesOf t q vs) := by
  induction vs with
  | nil => exact .ok .nil
  | cons v vs ih =>
    rw [entriesOf_cons, entriesOf_cons]
    have hfirst := entryOf?_tightens h t v
    generalize entryOf? t p v = a, entryOf? t q v = b at hfirst
    generalize entriesOf t p vs = as, entriesOf t q vs = bs at ih
    cases hfirst with
    | error e => exact .error e
    | ok hfirst =>
      cases ih with
      | error e => exact .error e
      | ok hrest => exact .ok (List.rel_append hfirst hrest)

/-- **Tightening a policy only takes fetches away.**  The plans under the two policies fail together
and with the same error, or have entries for the same records in the same order; what is fetched
under the stricter policy is fetched under the other, both skip the same, and an entry that they
differ in is denied under the stricter one. -/
theorem tightened {p q : Policy} (h : p.Tightens q) (t : FileTree) (f : Lockfile)
    (declared : Option Nat) :
    Together Plan.Tightens (make t p f declared) (make t q f declared) := by
  cases hd : dialectOf f declared with
  | error e =>
    rw [make, make, hd]
    exact .error (Error.dialect e)
  | ok d =>
    rw [make_of_dialectOf hd, make_of_dialectOf hd]
    have hentries := entriesOf_tightens h t (trace d [] f.records)
    generalize entriesOf t p _ = a, entriesOf t q _ = b at hentries
    cases hentries with
    | error e => exact .error e
    | ok hes => exact .ok ⟨rfl, hes⟩

/-- Only packages of the registry, and those by checksum. -/
def registryPolicy : Policy := ⟨[.registry], ⟨['/']⟩, true, true⟩

/-- A package without a checksum, a workspace, and an archive at an address. -/
def threeKinds : Lockfile :=
  ⟨8, none, [⟨["a@npm:1.0.0"], none, none, none, none⟩,
    ⟨["b@workspace:b"], none, none, none, none⟩,
    ⟨["c@https://example.com/c.tgz"], none, none, none, none⟩]⟩

theorem registryPolicy_tightens : registryPolicy.Tightens (.ofRoot ⟨['/']⟩) where
  allow x hx := by
    obtain rfl : x = .registry := by simpa [registryPolicy, Policy.allows] using hx
    rfl
  hardened := nofun
  root := rfl
  strict := rfl

theorem tightened_threeKinds :
    registryPolicy.Tightens (.ofRoot ⟨['/']⟩) ∧
      ∃ plan plan', make ⟨[], []⟩ registryPolicy threeKinds none = .ok plan ∧
        make ⟨[], []⟩ (.ofRoot ⟨['/']⟩) threeKinds none = .ok plan' ∧ plan.Tightens plan' ∧
        plan.entries.map (·.classification?) =
          [some (.deny .noChecksum), some (.skip .insideProject), some (.deny .protocol)] ∧
        plan'.entries.map (·.classification?) =
          [some .fetchable, some (.skip .insideProject), some .fetchable] := by
  have hdenied : (make ⟨[], []⟩ registryPolicy threeKinds none).toOption.map
      (·.entries.map (·.classification?)) =
        some [some (.deny .noChecksum), some (.skip .insideProject), some (.deny .protocol)] := by
    decide +kernel
  have hfetched : (make ⟨[], []⟩ (.ofRoot ⟨['/']⟩) threeKinds none).toOption.map
      (·.entries.map (·.classification?)) =
        some [some .fetchable, some (.skip .insideProject), some .fetchable] := by
    decide +kernel
  have htogether := tightened registryPolicy_tightens ⟨[], []⟩ threeKinds none
  generalize make ⟨[], []⟩ registryPolicy threeKinds none = a,
    make ⟨[], []⟩ (.ofRoot ⟨['/']⟩) threeKinds none = b at hdenied hfetched htogether ⊢
  cases htogether with
  | error e => cases hdenied
  | ok hplans =>
    exact ⟨registryPolicy_tightens, _, _, rfl, rfl, hplans, Option.some.inj hdenied,
      Option.some.inj hfetched⟩

end Plan

end OfflineCache
