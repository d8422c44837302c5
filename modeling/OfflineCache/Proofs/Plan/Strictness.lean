import OfflineCache.Proofs.Plan.FirstOfEach

/-! Strict and lenient plans. Strictness is looked at in one place, the entry of a malformed record;
and a malformed record leaves no trace in the locators that later records are judged against. So the
two plans are the same where nothing is malformed, a strict plan fails at the first malformed record
that a lenient one passes, and a lenient plan without the malformed records is the lenient plan
without their entries.

Main statement: `strict_agrees`. -/

namespace OfflineCache

/-- The policy, but for what it says of malformed records. -/
def Policy.withStrict (p : Policy) (strict : Bool) : Policy := { p with strict := strict }

def PlannedEntry.hasLocator (e : PlannedEntry) : Bool := e.locator?.isSome

namespace Plan

variable {t : FileTree} {p : Policy} {d : Dialect} {r : LockRecord} {seen : List Locator}

/-- The record has a locator, and a checksum that can be read if it has one. -/
def isWellFormed (d : Dialect) (r : LockRecord) : Bool := (readRecord d r).isOk

theorem isWellFormed_of_ok {l : Locator} (h : readRecord d r = .ok l) : isWellFormed d r = true := by
  rw [isWellFormed, h]
  rfl

theorem isWellFormed_of_error {m : Locator.Malformed} (h : readRecord d r = .error m) :
    isWellFormed d r = false := by
  rw [isWellFormed, h]
  rfl

/-! ## One record -/

theorem judge_of_error {m : Locator.Malformed} (h : readRecord d r = .error m) :
    judge d seen r = .malformed m := by
  simp only [judge, h]

theorem entryOf?_malformed_strict (m : Locator.Malformed) :
    entryOf? t (p.withStrict true) (r, .malformed m) = .error (.malformed m) := rfl

theorem entryOf?_malformed_lenient (m : Locator.Malformed) :
    entryOf? t (p.withStrict false) (r, .malformed m) =
      .ok (some ⟨r.locatorText, .malformed m⟩) := rfl

/-- The entry of a well-formed record does not depend on strictness. -/
theorem entryOf?_strict_eq_lenient {l : Locator} (h : readRecord d r = .ok l) :
    entryOf? t (p.withStrict true) (r, judge d seen r) =
      entryOf? t (p.withStrict false) (r, judge d seen r) := by
  have hj := judged d seen r
  generalize judge d seen r = v at hj ⊢
  cases hj with
  | malformed hm => cases h.symm.trans hm
  | fresh => rfl
  | duplicate => rfl
  | conflict => rfl

theorem hasLocator_of_entryOf? {l : Locator} (h : readRecord d r = .ok l)
    {first : Option PlannedEntry} (he : entryOf? t p (r, judge d seen r) = .ok first) :
    ∀ e ∈ first.toList, e.hasLocator = true := by
  have hj := judged d seen r
  generalize judge d seen r = v at hj he
  cases hj with
  | malformed hm => cases h.symm.trans hm
  | fresh =>
    obtain rfl := Except.ok.inj he
    simp [PlannedEntry.hasLocator, PlannedEntry.locator?]
  | duplicate =>
    obtain rfl := Except.ok.inj he
    simp
  | conflict => cases he

/-! ## All records -/

theorem entriesOf_cons (v : LockRecord × Verdict) (vs : List (LockRecord × Verdict)) :
    entriesOf t p (v :: vs) =
      match entryOf? t p v with
      | .error e => .error e
      | .ok e => (entriesOf t p vs).map (e.toList ++ ·) := by
  simp only [entriesOf, Bind.bind, Except.bind, pure, Except.pure]
  cases entryOf? t p v with
  | error e => rfl
  | ok e => cases entriesOf t p vs <;> rfl

/-- A strict walk ends where a lenient one ends with a locator in each entry. -/
theorem entriesOf_strict_eq_ok_iff (rs : List LockRecord) (seen : List Locator)
    (es : List PlannedEntry) :
    entriesOf t (p.withStrict true) (trace d seen rs) = .ok es ↔
      entriesOf t (p.withStrict false) (trace d seen rs) = .ok es ∧
        ∀ e ∈ es, e.hasLocator = true := by
  induction rs generalizing seen es with
  | nil =>
    refine ⟨fun h => ⟨h, ?_⟩, And.left⟩
    obtain rfl := Except.ok.inj h
    simp
  | cons r rest ih =>
    rw [trace_cons, entriesOf_cons_eq_ok_iff, entriesOf_cons_eq_ok_iff]
    cases hr : readRecord d r with
    | error m =>
      rw [judge_of_error hr, entryOf?_malformed_strict, entryOf?_malformed_lenient]
      constructor
      · rintro ⟨first, others, hfirst, -, -⟩
        cases hfirst
      · rintro ⟨⟨first, others, hfirst, -, rfl⟩, hall⟩
        obtain rfl := Except.ok.inj hfirst
        cases hall ⟨r.locatorText, .malformed m⟩ (by simp)
    | ok l =>
      rw [entryOf?_strict_eq_lenient hr]
      constructor
      · rintro ⟨first, others, hfirst, hothers, rfl⟩
        obtain ⟨hlenient, hall⟩ := (ih _ _).mp hothers
        refine ⟨⟨first, others, hfirst, hlenient, rfl⟩, fun e he => ?_⟩
        rcases List.mem_append.mp he with he | he
        · exact hasLocator_of_entryOf? hr hfirst e he
        · exact hall e he
      · rintro ⟨⟨first, others, hfirst, hothers, rfl⟩, hall⟩
        exact ⟨first, others, hfirst,
          (ih _ _).mpr ⟨hothers, fun e he => hall e (List.mem_append_right _ he)⟩, rfl⟩

/-- The first malformed record, with the well-formed ones before it. -/
structure FirstMalformed (d : Dialect) (rs before : List LockRecord) (r : LockRecord)
    (m : Locator.Malformed) : Prop where
  split : ∃ rest, rs = before ++ r :: rest
  before : ∀ r' ∈ before, isWellFormed d r' = true
  error : readRecord d r = .error m

theorem FirstMalformed.cons {rs before : List LockRecord} {r first : LockRecord}
    {m : Locator.Malformed} (h : FirstMalformed d rs before r m)
    (hw : isWellFormed d first = true) : FirstMalformed d (first :: rs) (first :: before) r m := by
  obtain ⟨rest, hs⟩ := h.split
  exact ⟨⟨rest, by rw [hs]; rfl⟩, List.forall_mem_cons.mpr ⟨hw, h.before⟩, h.error⟩

/-- Where a lenient walk ends with a malformed entry, the strict walk has come as far as the first
malformed record: there was no conflict on the way. -/
theorem entriesOf_strict_of_malformed (rs : List LockRecord) (seen : List Locator)
    (es : List PlannedEntry)
    (h : entriesOf t (p.withStrict false) (trace d seen rs) = .ok es)
    (hm : ∃ e ∈ es, e.hasLocator = false) :
    ∃ before r m, FirstMalformed d rs before r m ∧
      entriesOf t (p.withStrict true) (trace d seen rs) = .error (.malformed m) := by
  induction rs generalizing seen es with
  | nil =>
    obtain rfl := Except.ok.inj h
    simp at hm
  | cons r rest ih =>
    rw [trace_cons] at h ⊢
    rw [entriesOf_cons]
    obtain ⟨first, others, hfirst, hothers, rfl⟩ := entriesOf_cons_eq_ok_iff.mp h
    cases hr : readRecord d r with
    | error m =>
      rw [judge_of_error hr, entryOf?_malformed_strict]
      exact ⟨[], r, m, ⟨⟨rest, rfl⟩, by simp, hr⟩, rfl⟩
    | ok l =>
      have hrest : ∃ e ∈ others, e.hasLocator = false := by
        obtain ⟨e, he, hn⟩ := hm
        rcases List.mem_append.mp he with he | he
        · rw [hasLocator_of_entryOf? hr hfirst e he] at hn
          cases hn
        · exact ⟨e, he, hn⟩
      obtain ⟨before, r', m, hbefore, hstrict⟩ := ih _ _ hothers hrest
      refine ⟨r :: before, r', m, hbefore.cons (isWellFormed_of_ok hr), ?_⟩
      rw [entryOf?_strict_eq_lenient hr, hfirst, hstrict]
      rfl

/-- The malformed records can be left out of a lenient walk: it loses their entries, or fails as it
did. -/
theorem entriesOf_filter (rs : List LockRecord) (seen : List Locator) :
    entriesOf t (p.withStrict false) (trace d seen (rs.filter (isWellFormed d))) =
      (entriesOf t (p.withStrict false) (trace d seen rs)).map (List.filter (·.hasLocator)) := by
  induction rs generalizing seen with
  | nil => rfl
  | cons r rest ih =>
    rw [trace_cons, entriesOf_cons]
    cases hr : readRecord d r with
    | error m =>
      have hseen : seenAfter seen (.malformed m) = seen := rfl
      rw [List.filter_cons_of_neg (by simp [isWellFormed_of_error hr]), judge_of_error hr,
        entryOf?_malformed_lenient, hseen, ih]
      cases entriesOf t (p.withStrict false) (trace d seen rest) <;> rfl
    | ok l =>
      rw [List.filter_cons_of_pos (isWellFormed_of_ok hr), trace_cons, entriesOf_cons]
      cases hfirst : entryOf? t (p.withStrict false) (r, judge d seen r) with
      | error e => rfl
      | ok first =>
        have hkept : first.toList.filter (·.hasLocator) = first.toList :=
          List.filter_eq_self.mpr (hasLocator_of_entryOf? hr hfirst)
        simp only [ih]
        cases entriesOf t (p.withStrict false) (trace d (seenAfter seen (judge d seen r)) rest) with
        | error e => rfl
        | ok es => simp [Except.map, hkept]

/-! ## Plans -/

theorem make_strict_eq_ok_iff {f : Lockfile} {declared : Option Nat} {plan : Plan} :
    make t (p.withStrict true) f declared = .ok plan ↔
      make t (p.withStrict false) f declared = .ok plan ∧
        ∀ e ∈ plan.entries, e.hasLocator = true := by
  rw [make_eq_ok_iff, make_eq_ok_iff, entriesOf_strict_eq_ok_iff, and_assoc]

theorem make_filter {f : Lockfile} {declared : Option Nat} (hd : dialectOf f declared = .ok d) :
    make t (p.withStrict false) { f with records := f.records.filter (isWellFormed d) } declared =
      (make t (p.withStrict false) f declared).map
        fun plan => { plan with entries := plan.entries.filter (·.hasLocator) } := by
  have hd' : dialectOf { f with records := f.records.filter (isWellFormed d) } declared = .ok d := hd
  rw [make_of_dialectOf hd, make_of_dialectOf hd', entriesOf_filter]
  cases entriesOf t (p.withStrict false) (trace d [] f.records) <;> rfl

/-- **Strict and lenient plans agree.**  A strict plan is a lenient one without malformed entries;
where the lenient plan has some, the strict one fails with the first malformed record; and without
its malformed records a lockfile has the lenient plan without their entries. -/
theorem strict_agrees (t : FileTree) (p : Policy) (f : Lockfile) (declared : Option Nat) :
    (∀ plan, make t (p.withStrict true) f declared = .ok plan ↔
      make t (p.withStrict false) f declared = .ok plan ∧
        ∀ e ∈ plan.entries, e.hasLocator = true) ∧
    (∀ plan, make t (p.withStrict false) f declared = .ok plan →
      (∃ e ∈ plan.entries, e.hasLocator = false) →
        ∃ before r m, FirstMalformed plan.dialect f.records before r m ∧
          make t (p.withStrict true) f declared = .error (.malformed m)) ∧
    ∀ d, dialectOf f declared = .ok d →
      make t (p.withStrict false) { f with records := f.records.filter (isWellFormed d) } declared =
        (make t (p.withStrict false) f declared).map
          fun plan => { plan with entries := plan.entries.filter (·.hasLocator) } := by
  refine ⟨fun _ => make_strict_eq_ok_iff, fun plan hplan hm => ?_, fun _ => make_filter⟩
  obtain ⟨hd, hes⟩ := make_eq_ok_iff.mp hplan
  obtain ⟨before, r, m, hfirst, hstrict⟩ := entriesOf_strict_of_malformed f.records [] _ hes hm
  refine ⟨before, r, m, hfirst, ?_⟩
  rw [make_of_dialectOf hd, hstrict]
  rfl

theorem strict_agrees_recordTwice :
    dialectOf recordTwice none = .ok .four ∧
      ∃ plan, make ⟨[], []⟩ (lenientPolicy.withStrict false) recordTwice none = .ok plan ∧
        (∃ e ∈ plan.entries, e.hasLocator = false) ∧
        (∃ before r m, FirstMalformed plan.dialect recordTwice.records before r m ∧
          make ⟨[], []⟩ (lenientPolicy.withStrict true) recordTwice none =
            .error (.malformed m)) ∧
        make ⟨[], []⟩ (lenientPolicy.withStrict false)
            { recordTwice with records := recordTwice.records.filter (isWellFormed .four) } none =
          .ok { plan with entries := plan.entries.filter (·.hasLocator) } := by
  have hd : dialectOf recordTwice none = .ok .four := rfl
  have hany : (make ⟨[], []⟩ (lenientPolicy.withStrict false) recordTwice none).toOption.map
      (·.entries.any (!·.hasLocator)) = some true := by
    decide +kernel
  obtain ⟨-, hmalformed, hfilter⟩ :=
    strict_agrees ⟨[], []⟩ lenientPolicy recordTwice none
  cases hplan : make ⟨[], []⟩ (lenientPolicy.withStrict false) recordTwice none with
  | error e => simp [hplan, Except.toOption] at hany
  | ok plan =>
    have hm : ∃ e ∈ plan.entries, e.hasLocator = false := by
      simpa [hplan, Except.toOption] using hany
    refine ⟨hd, plan, rfl, hm, hmalformed plan hplan hm, ?_⟩
    rw [hfilter .four hd, hplan]
    rfl

end Plan

end OfflineCache
