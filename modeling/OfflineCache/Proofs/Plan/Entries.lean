import OfflineCache.Plan

/-! Where the entries of a plan come from: each is that of a record, and it is to be fetched only if
the policy lets its protocol through and the containment check has nothing against it. -/

namespace OfflineCache

/-- What the policy lets through is not carried out, not part of the project, and allowed. -/
theorem Policy.classify_eq_fetchable {p : Policy} {l : Locator} (h : p.classify l = .fetchable) :
    p.allows l.protocol = true ∧ l.protocol ≠ .exec ∧ l.protocol ≠ .workspace ∧
      l.protocol ≠ .link ∧ l.protocol ≠ .patch := by
  unfold classify at h
  split at h
  · cases h
  · cases h
  · cases h
  · cases h
  · rename_i he hw hl hp
    refine ⟨?_, he, hw, hl, hp⟩
    cases ha : p.allows l.protocol with
    | true => rfl
    | false => simp [ha] at h

theorem Containment.guard_eq_fetchable {t : FileTree} {c : Classification} {l : Locator}
    {root : Path} (h : guard t c l root = .fetchable) : c = .fetchable := by
  unfold guard at h
  split at h
  · cases h
  · exact h

namespace Plan

variable {t : FileTree} {p : Policy}

theorem classify_eq_fetchable {l : Locator} (h : classify t p l = .fetchable) :
    p.classify l = .fetchable := Containment.guard_eq_fetchable h

theorem entriesOf_cons_eq_ok_iff {v : LockRecord × Verdict} {vs : List (LockRecord × Verdict)}
    {es : List PlannedEntry} :
    entriesOf t p (v :: vs) = .ok es ↔ ∃ e rest, entryOf? t p v = .ok e ∧
      entriesOf t p vs = .ok rest ∧ es = e.toList ++ rest := by
  simp only [entriesOf, Bind.bind, Except.bind, pure, Except.pure]
  cases entryOf? t p v with
  | error e => simp
  | ok e =>
    cases entriesOf t p vs with
    | error e => simp
    | ok rest => simp [eq_comm]

/-- Every entry is that of a judged record. -/
theorem mem_entriesOf {vs : List (LockRecord × Verdict)} {es : List PlannedEntry}
    (h : entriesOf t p vs = .ok es) {e : PlannedEntry} (he : e ∈ es) :
    ∃ v ∈ vs, entryOf? t p v = .ok (some e) := by
  induction vs generalizing es with
  | nil =>
    cases h
    cases he
  | cons v vs ih =>
    obtain ⟨first, rest, hv, hrest, rfl⟩ := entriesOf_cons_eq_ok_iff.mp h
    rcases List.mem_append.mp he with he | he
    · obtain rfl : first = some e := by simpa using he
      exact ⟨v, by simp, hv⟩
    · obtain ⟨u, hu, hue⟩ := ih hrest he
      exact ⟨u, List.mem_cons_of_mem v hu, hue⟩

theorem make_of_dialectOf {f : Lockfile} {declared : Option Nat} {d : Dialect}
    (hd : dialectOf f declared = .ok d) :
    make t p f declared = (entriesOf t p (trace d [] f.records)).map (Plan.mk d) := by
  rw [make, hd]
  change (entriesOf t p (trace d [] f.records) >>= fun entries => .ok (Plan.mk d entries)) = _
  cases entriesOf t p (trace d [] f.records) <;> rfl

theorem make_eq_ok_iff {f : Lockfile} {declared : Option Nat} {plan : Plan} :
    make t p f declared = .ok plan ↔ dialectOf f declared = .ok plan.dialect ∧
      entriesOf t p (trace plan.dialect [] f.records) = .ok plan.entries := by
  cases hd : dialectOf f declared with
  | error e =>
    rw [make, hd]
    exact ⟨nofun, fun h => nomatch h.1⟩
  | ok d =>
    rw [make_of_dialectOf hd]
    constructor
    · intro h
      cases hes : entriesOf t p (trace d [] f.records) with
      | error e =>
        rw [hes] at h
        cases h
      | ok es =>
        rw [hes] at h
        cases h
        exact ⟨rfl, hes⟩
    · rintro ⟨h, hes⟩
      cases h
      rw [hes]
      rfl

/-- The decision about an entry with a locator is that of policy and containment. -/
theorem entryOf?_located {v : LockRecord × Verdict} {raw : String} {l : Locator}
    {c : Classification} (h : entryOf? t p v = .ok (some ⟨raw, .located l c⟩)) :
    c = classify t p l := by
  obtain ⟨r, v⟩ := v
  cases v with
  | malformed e =>
    simp only [entryOf?] at h
    split at h <;> simp at h
  | fresh l' =>
    simp only [entryOf?, Except.ok.injEq, Option.some.injEq, PlannedEntry.mk.injEq,
      PlannedEntry.Subject.located.injEq] at h
    obtain ⟨-, rfl, rfl⟩ := h
    rfl
  | duplicate l' => simp [entryOf?] at h
  | conflict l' => simp [entryOf?] at h

theorem classify_of_make {f : Lockfile} {declared : Option Nat} {plan : Plan}
    (h : make t p f declared = .ok plan) {raw : String} {l : Locator} {c : Classification}
    (he : ⟨raw, .located l c⟩ ∈ plan.entries) : c = classify t p l := by
  obtain ⟨v, -, hv⟩ := mem_entriesOf (make_eq_ok_iff.mp h).2 he
  exact entryOf?_located hv

/-- Only file references are judged by the files. -/
theorem classify_congr {t' : FileTree} {l : Locator} (h : l.protocol = .file →
    Containment.contained? t' l p.root = Containment.contained? t l p.root) :
    classify t' p l = classify t p l := by
  unfold classify Containment.guard Containment.escapes
  by_cases hc : p.classify l = .fetchable
  · obtain ⟨-, -, hworkspace, hlink, -⟩ := Policy.classify_eq_fetchable hc
    cases hp : l.protocol with
    | file => rw [h hp]
    | workspace => exact absurd hp hworkspace
    | link => exact absurd hp hlink
    | _ => simp only [Protocol.bearsPath, Bool.false_and]
  · simp [hc]

/-- Records have the same entries wherever their locators are judged alike. -/
theorem entriesOf_congr {t' : FileTree} {vs : List (LockRecord × Verdict)} {es : List PlannedEntry}
    (h : entriesOf t p vs = .ok es)
    (hc : ∀ e ∈ es, ∀ l, e.locator? = some l → classify t' p l = classify t p l) :
    entriesOf t' p vs = .ok es := by
  induction vs generalizing es with
  | nil => exact h
  | cons v vs ih =>
    obtain ⟨e, rest, hv, hrest, rfl⟩ := entriesOf_cons_eq_ok_iff.mp h
    refine entriesOf_cons_eq_ok_iff.mpr ⟨e, rest, ?_, ih hrest fun e he =>
      hc e (List.mem_append_right _ he), rfl⟩
    obtain ⟨r, v⟩ := v
    cases v with
    | fresh l =>
      obtain rfl := Except.ok.inj hv
      have hl := hc ⟨r.locatorText, .located l (classify t p l)⟩ (by simp) l rfl
      simp only [entryOf?, hl]
    | _ => exact hv

/-- Wherever the file references of a plan are judged alike, the plan is the same. -/
theorem make_congr {t' : FileTree} {f : Lockfile} {declared : Option Nat} {plan : Plan}
    (h : make t p f declared = .ok plan)
    (hc : ∀ e ∈ plan.entries, ∀ l, e.locator? = some l → l.protocol = .file →
      Containment.contained? t' l p.root = Containment.contained? t l p.root) :
    make t' p f declared = .ok plan := by
  obtain ⟨hd, hes⟩ := make_eq_ok_iff.mp h
  exact make_eq_ok_iff.mpr ⟨hd, entriesOf_congr hes fun e he l hl => classify_congr (hc e he l hl)⟩

end Plan

theorem PlannedEntry.pending?_eq_some_iff {e : PlannedEntry} {l : Locator} :
    e.pending? = some l ↔ e = ⟨e.raw, .located l .fetchable⟩ := by
  obtain ⟨raw, s⟩ := e
  cases s with
  | malformed m => simp [pending?]
  | located l' c => cases c <;> simp [pending?]

theorem PlannedEntry.locator?_of_pending? {e : PlannedEntry} {l : Locator}
    (h : e.pending? = some l) : e.locator? = some l := by
  rw [pending?_eq_some_iff.mp h]
  rfl

end OfflineCache
