import OfflineCache.Proofs.Version.Exact

/-! Wildcards in the last place of a range. The bounds that a wildcard is spelt out to are read back
as a requirement that admits the releases with the numbers in front of it and no other version. The
upper bound is the last number and one, so it is missing where that is the largest one of 64 bits;
and a number may have a plus sign in front, which no version has. `Range.wildcards_exact` says that
these are the only exceptions. -/

namespace OfflineCache.Version.Range

open Text

/-! ## Numbers -/

theorem isDigit_of_mem_number (n : Nat) : ∀ c ∈ number n, isDigit c = true := by
  rw [number, toList_toString]
  exact isDigit_of_mem_toDigits n

theorem number_ne_nil (n : Nat) : number n ≠ [] := by
  rw [number, toList_toString]
  exact Nat.toDigits_ne_nil

theorem number_notMem {c : Char} (hc : isDigit c = false) (n : Nat) : c ∉ number n := by
  intro hm
  rw [isDigit_of_mem_number n c hm] at hc
  cases hc

theorem naturalBelow?_number {n : Nat} (hn : n < word64) :
    naturalBelow? word64 (number n) = some n := by
  have hvalue : digitsValue? 0 (number n) = some n := by
    rw [number, toList_toString]
    exact digitsValue?_toDigits n
  have hsign : ∀ r, number n ≠ '+' :: r := by
    intro r he
    have hmem : '+' ∈ number n := he ▸ List.mem_cons_self
    exact number_notMem (by decide) n hmem
  rw [naturalBelow?.eq_2 word64 _ hsign, digitsBelow?, if_neg (number_ne_nil n), hvalue]
  simp [hn]

theorem isDigit_of_digitsValue? {acc n : Nat} {ds : List Char}
    (h : digitsValue? acc ds = some n) : ∀ c ∈ ds, isDigit c = true := by
  induction ds generalizing acc with
  | nil => simp
  | cons x r ih =>
    obtain ⟨d, hd, hr⟩ := Option.bind_eq_some_iff.mp h
    exact List.forall_mem_cons.mpr ⟨by simp [isDigit, hd], ih hr⟩

theorem isNumeric_of_digitsBelow? {limit n : Nat} {ds : List Char}
    (h : digitsBelow? limit ds = some n) : isNumeric ds = true := by
  unfold digitsBelow? at h
  split at h
  · cases h
  · rename_i hne
    obtain ⟨hvalue, -⟩ := Option.filter_eq_some_iff.mp h
    simpa [isNumeric, hne] using isDigit_of_digitsValue? hvalue

/-- A number that is read is written in digits, with or without a plus sign in front. -/
theorem isNumeric_of_naturalBelow? {limit n : Nat} {s : List Char}
    (h : naturalBelow? limit s = some n) :
    isNumeric s = true ∨ ∃ ds, s = '+' :: ds ∧ isNumeric ds = true := by
  unfold naturalBelow? at h
  split at h
  · exact Or.inr ⟨_, rfl, isNumeric_of_digitsBelow? h⟩
  · exact Or.inl (isNumeric_of_digitsBelow? h)

/-- Digits without leading zeros, and their value, which fits into 64 bits. -/
structure Numeral (ds : List Char) (n : Nat) : Prop where
  value : digitsValue? 0 ds = some n
  nonempty : ds ≠ []
  plain : ds.head? = some '0' → ds = ['0']
  fits : n < word64

theorem Numeral.eq_number {ds : List Char} {n : Nat} (h : Numeral ds n) : ds = number n := by
  have hdigits : ∀ c ∈ ds, isDigit c = true := isDigit_of_digitsValue? h.value
  have htake : ds.takeWhile isDigit = ds := by
    have := takeWhile_of_stops hdigits (stops_nil isDigit)
    rwa [List.append_nil] at this
  have hdrop : ds.dropWhile isDigit = [] := by
    have := dropWhile_of_stops hdigits (stops_nil isDigit)
    rwa [List.append_nil] at this
  have hlead : ¬(ds.length > 1 ∧ ds.head? = some '0') := by
    rintro ⟨hlong, hzero⟩
    rw [h.plain hzero] at hlong
    exact absurd hlong (by decide)
  have hread : number? ds = some (n, []) := by
    simp only [number?, htake, hdrop, if_neg hlead, digitsBelow?, if_neg h.nonempty, h.value]
    simp [h.fits]
  rw [(eq_append_of_number? hread).1, List.append_nil]
  rfl

/-- The release with these numbers, as it is written. -/
def release (a b c : Nat) : List Char := number a ++ '.' :: (number b ++ '.' :: number c)

theorem isDigit_of_release {a b c : Nat} {x : Char} {r rest : List Char}
    (h : release a b c ++ rest = x :: r) : isDigit x = true := by
  have hdigits := isDigit_of_mem_number a
  rw [release] at h
  cases hn : number a with
  | nil => exact absurd hn (number_ne_nil a)
  | cons y ds =>
    rw [hn, List.cons_append, List.cons_append] at h
    obtain rfl : y = x := (List.cons.inj h).1
    exact hdigits y (hn ▸ List.mem_cons_self)

/-! ## Bounds -/

/-- At least the release with these numbers, or below it. -/
def bound (o : Operator) (a b c : Nat) : Comparator := ⟨o, a, some b, some c, []⟩

theorem bound_greaterEq_admits {v : Version} (hv : v.pre = []) (a b c : Nat) :
    (bound .greaterEq a b c).admits v = true ↔
      a < v.major ∨ v.major = a ∧ (b < v.minor ∨ v.minor = b ∧ c ≤ v.patch) := by
  simp only [bound, Comparator.admits, Comparator.matchesExact, Comparator.matchesGreater, hv,
    comparePre]
  grind

theorem bound_less_admits {v : Version} (hv : v.pre = []) (a b c : Nat) :
    (bound .less a b c).admits v = true ↔
      v.major < a ∨ v.major = a ∧ (v.minor < b ∨ v.minor = b ∧ v.patch < c) := by
  simp only [bound, Comparator.admits, Comparator.matchesLess, hv, comparePre]
  grind

/-- No pre-release is within bounds that name none. -/
theorem admits_bounds (o o' : Operator) (a b c a' b' c' : Nat) (v : Version) :
    Requirement.admits [bound o a b c, bound o' a' b' c'] v = true ↔
      v.pre = [] ∧ (bound o a b c).admits v = true ∧ (bound o' a' b' c').admits v = true := by
  simp only [Requirement.admits, isRelease, List.all_cons, List.all_nil, List.any_cons,
    List.any_nil, Comparator.asksForPre, bound]
  cases v.pre <;> simp

/-- Identifiers begin with their mark. -/
theorem suffix?_of_stops {mark : Char} (hmark : isVersionChar mark = true)
    (ok : List Char → Bool) {rest : List Char} (hr : Stops isVersionChar rest) :
    suffix? mark ok rest = some ([], rest) := by
  cases rest with
  | nil => rfl
  | cons c r =>
    have hc : isVersionChar c = false := hr c rfl
    have hne : c ≠ mark := by
      rintro rfl
      rw [hmark] at hc
      cases hc
    rw [suffix?, if_neg hne]

/-- A release behind an operator is a comparator. -/
theorem comparator?_release {o : Operator} {s rest : List Char} {a b c : Nat} (ha : a < word64)
    (hb : b < word64) (hc : c < word64) (hr : Stops isVersionChar rest)
    (ho : operator? s = (some o, release a b c ++ rest)) :
    comparator? s = some (bound o a b c, skipSpaces rest) := by
  have hdot : ∀ r, Stops isDigit ('.' :: r) := stops_cons (by decide)
  have hdigit : Stops isDigit rest := by
    intro x hx
    have hversion : isVersionChar x = false := hr x hx
    by_contra hd
    rw [isVersionChar_of_digit (by simpa using hd)] at hversion
    cases hversion
  have hspaces : skipSpaces (release a b c ++ rest) = release a b c ++ rest := by
    cases hs : release a b c ++ rest with
    | nil => rfl
    | cons x r =>
      have hne : x ≠ ' ' := by
        rintro rfl
        exact absurd (isDigit_of_release hs) (by decide)
      rw [skipSpaces, List.dropWhile_cons_of_neg (by simpa using hne)]
  have hpre : pre? rest = some ([], rest) := by
    rw [pre?_eq_suffix?]
    exact suffix?_of_stops (by decide) _ hr
  have hbuild : build? rest = some ([], rest) := by
    rw [build?_eq_suffix?]
    exact suffix?_of_stops (by decide) _ hr
  rw [comparator?, ho]
  simp only [hspaces]
  simp only [release, number, List.append_assoc, List.cons_append, number?_append ha (hdot _),
    part?_append hb (hdot _), part?_append hc hdigit, Part.toOption, Option.isSome_some,
    Option.bind_eq_bind, Option.bind_some, if_true, hpre, hbuild, bound]
  rfl

/-- At least one release and below another one, as an expansion writes them. -/
def between (a b c a' b' c' : Nat) : List Char :=
  '>' :: '=' :: (release a b c ++ ',' :: ' ' :: '<' :: release a' b' c')

theorem parse?_between {a b c a' b' c' : Nat} (ha : a < word64) (hb : b < word64) (hc : c < word64)
    (ha' : a' < word64) (hb' : b' < word64) (hc' : c' < word64) :
    Requirement.parse? (between a b c a' b' c') =
      some [bound .greaterEq a b c, bound .less a' b' c'] := by
  have hlow : comparator? (between a b c a' b' c') =
      some (bound .greaterEq a b c, ',' :: ' ' :: '<' :: release a' b' c') :=
    comparator?_release ha hb hc (stops_cons (c := ',') (by decide) _) rfl
  have hhigh : comparator? ('<' :: release a' b' c') = some (bound .less a' b' c', []) := by
    have hdigit : ∀ r, release a' b' c' ≠ '=' :: r := by
      intro r he
      rw [← List.append_nil (release a' b' c')] at he
      exact absurd (isDigit_of_release he) (by decide)
    refine comparator?_release ha' hb' hc' (stops_nil _) ?_
    rw [List.append_nil, operator?.eq_5 _ hdigit]
  have hspaces : skipSpaces (between a b c a' b' c') = between a b c a' b' c' := rfl
  have hnext : skipSpaces (' ' :: '<' :: release a' b' c') = '<' :: release a' b' c' := rfl
  rw [Requirement.parse?, hspaces]
  show comparators? maxComparators (between a b c a' b' c') = _
  simp only [maxComparators, comparators?, hlow, hnext, hhigh, Option.bind_eq_bind,
    Option.bind_some, Option.map_some]

/-! ## Words -/

theorem splitWhen_of_forall {p : Char → Bool} {s : List Char} (h : ∀ c ∈ s, p c = false) :
    splitWhen p s = [s] := by
  induction s with
  | nil => rfl
  | cons c r ih =>
    have hc : p c = false := h c List.mem_cons_self
    rw [splitWhen, hc, ih fun x hx => h x (List.mem_cons_of_mem _ hx)]
    rfl

theorem words_of_forall {s : List Char} (hs : s ≠ []) (h : ∀ c ∈ s, isBlank c = false) :
    words s = [s] := by
  rw [words, splitWhen_of_forall h, List.filter_cons_of_pos (by simpa using hs), List.filter_nil]

/-- A word of the characters of versions and stars, with a dot in it. -/
structure Word (s : List Char) : Prop where
  chars : ∀ c ∈ s, isVersionChar c = true ∨ c = '*'
  dotted : '.' ∈ s

section Words

variable {s : List Char}

theorem Word.notMem (h : Word s) {c : Char} (hc : isVersionChar c = false) (hstar : c ≠ '*') :
    c ∉ s := by
  intro hm
  rcases h.chars c hm with hv | hv
  · rw [hv] at hc
    cases hc
  · exact hstar hv

theorem Word.not_isBlank (h : Word s) : ∀ c ∈ s, isBlank c = false := by
  intro c hc
  rcases h.chars c hc with hv | rfl
  · exact not_isBlank_of_isVersionChar hv
  · decide

theorem Word.ne (h : Word s) {t : List Char} (ht : '.' ∉ t) : s ≠ t := by
  rintro rfl
  exact ht h.dotted

theorem Word.not_containsText (h : Word s) : ¬containsText "||".toList s = true := by
  rw [containsText, cutText_eq_none (c := '|') (by decide) (h.notMem (by decide) (by decide))]
  decide

theorem Word.trim (h : Word s) : Text.trim s = s :=
  trim_of_tight (tight_of_forall h.not_isBlank)

/-- A word that is no exact version is rewritten as one word. -/
theorem Word.canonical (h : Word s) (hparse : Version.parse? s = none) :
    canonical s = canonicalWord s := by
  have hplain : ¬(s = [] ∨ s = ['*'] ∨ s = "latest".toList) := by
    rintro (he | he | he)
    · exact h.ne (by decide) he
    · exact h.ne (by decide) he
    · exact h.ne (by decide) he
  have hhyphen : hyphenRange? s = none := by
    rw [hyphenRange?, cutText_eq_none (c := ' ') (by decide) (h.notMem (by decide) (by decide)),
      Option.bind_none]
  have hwords : words s = [s] := words_of_forall (h.ne (by decide)) h.not_isBlank
  simp only [Range.canonical, h.trim, if_neg hplain, if_neg h.not_containsText, hparse, hhyphen,
    hwords, Option.isSome_none, Bool.false_eq_true, if_false]

theorem Word.isRange (h : Word s) : isRange s = isAlternative s := by
  simp only [Range.isRange, h.trim, if_neg (h.ne (t := []) (by decide)), if_neg h.not_containsText]

/-- A word with a wildcard at its end is rewritten by expansion. -/
theorem Word.canonical_of_wildcard (h : Word s) (hparse : Version.parse? s = none) {t : List Char}
    {w : Char} (hw : isWildcard w = true) (hs : s = t ++ ['.', w]) :
    Range.canonical s = expandWildcard s := by
  have hnumeric : ¬isNumeric s = true := by
    intro hn
    simp only [isNumeric, Bool.and_eq_true, List.all_eq_true] at hn
    exact absurd (hn.2 '.' h.dotted) (by decide)
  have hend : endsWithWildcard s = true := by
    have hsuffix : ['.', w] <:+ s := ⟨t, hs.symm⟩
    simp only [isWildcard, Bool.or_eq_true, beq_iff_eq] at hw
    simp only [endsWithWildcard, endsWith, Bool.or_eq_true, List.isSuffixOf_iff_suffix]
    rcases hw with (rfl | rfl) | rfl
    · exact Or.inl (Or.inr hsuffix)
    · exact Or.inl (Or.inl hsuffix)
    · exact Or.inr hsuffix
  rw [h.canonical hparse, canonicalWord, if_neg hnumeric, if_pos hend]

end Words

/-! ## Expansion -/

theorem number_zero : number 0 = ['0'] := by decide

section Expansion

variable {m n : Nat} {w : Char}

theorem expandWildcard_major (hm : m < word64) (hw : isWildcard w = true) :
    expandWildcard (number m ++ ['.', w]) = (next m).map fun above => between m 0 0 above 0 0 := by
  have hdot : w ≠ '.' := by
    rintro rfl
    exact absurd hw (by decide)
  have hbetween : ∀ above, ">=".toList ++ number m ++ ".0.0, <".toList ++ number above ++
      ".0.0".toList = between m 0 0 above 0 0 := by
    intro above
    simp [between, release, number_zero]
  rw [expandWildcard, splitAll_append (number_notMem (by decide) m),
    splitAll_of_notMem (by simpa using hdot.symm)]
  simp only [naturalBelow?_number hm]
  simp only [isWildcard, Bool.or_eq_true, beq_iff_eq] at hw
  rcases hw with (rfl | rfl) | rfl
  all_goals
    show next m >>= _ = _
    cases next m with
    | error e => rfl
    | ok above => exact congrArg Except.ok (hbetween above)

theorem expandWildcard_minor (hm : m < word64) (hn : n < word64) (hw : isWildcard w = true) :
    expandWildcard (number m ++ '.' :: (number n ++ ['.', w])) =
      (next n).map fun above => between m n 0 m above 0 := by
  have hdot : w ≠ '.' := by
    rintro rfl
    exact absurd hw (by decide)
  have hbetween : ∀ above, ">=".toList ++ number m ++ '.' :: number n ++ ".0, <".toList ++
      number m ++ '.' :: number above ++ ".0".toList = between m n 0 m above 0 := by
    intro above
    simp [between, release, number_zero]
  rw [expandWildcard, splitAll_append (number_notMem (by decide) m),
    splitAll_append (number_notMem (by decide) n), splitAll_of_notMem (by simpa using hdot.symm)]
  simp only [naturalBelow?_number hm, naturalBelow?_number hn]
  simp only [isWildcard, Bool.or_eq_true, beq_iff_eq] at hw
  rcases hw with (rfl | rfl) | rfl
  all_goals
    show next n >>= _ = _
    cases next n with
    | error e => rfl
    | ok above => exact congrArg Except.ok (hbetween above)

end Expansion

/-! ## Exactness -/

/-- Rewritten to a requirement that admits the releases with the property and no other version. -/
structure SpeltOut (s : List Char) (P : Version → Prop) : Prop where
  requirement : ∃ c q, canonical s = .ok c ∧ Requirement.parse? c = some q ∧
    ∀ v, q.admits v = true ↔ v.isRelease = true ∧ P v
  range : isRange s = .ok true

theorem speltOut_of_canonical {s : List Char} (h : Word s) {P : Version → Prop}
    {a b c a' b' c' : Nat} (ha : a < word64) (hb : b < word64) (hc : c < word64)
    (ha' : a' < word64) (hb' : b' < word64) (hc' : c' < word64)
    (hs : canonical s = .ok (between a b c a' b' c'))
    (hP : ∀ v : Version, v.pre = [] → ((bound .greaterEq a b c).admits v = true ∧
      (bound .less a' b' c').admits v = true ↔ P v)) :
    SpeltOut s P := by
  have hparse := parse?_between ha hb hc ha' hb' hc'
  refine ⟨⟨_, _, hs, hparse, fun v => ?_⟩, ?_⟩
  · have hrelease : v.isRelease = true ↔ v.pre = [] := by simp [isRelease]
    rw [admits_bounds, hrelease]
    exact and_congr_right (hP v)
  · simp only [h.isRange, isAlternative, hs, hparse, bind, Except.bind, pure, Except.pure,
      Option.isSome_some, Bool.or_true]

section Forms

variable {m n : Nat} {w : Char}

theorem word_wildcard (hw : isWildcard w = true) : Word ['.', w] := by
  have hmark : isVersionChar w = true ∨ w = '*' := by
    simp only [isWildcard, Bool.or_eq_true, beq_iff_eq] at hw
    rcases hw with (rfl | rfl) | rfl <;> decide
  refine ⟨List.forall_mem_cons.mpr ⟨Or.inl (by decide), ?_⟩, List.mem_cons_self⟩
  exact List.forall_mem_cons.mpr ⟨hmark, List.forall_mem_nil _⟩

theorem Word.dot_cons {s : List Char} (h : Word s) : Word ('.' :: s) :=
  ⟨List.forall_mem_cons.mpr ⟨Or.inl (by decide), h.chars⟩, List.mem_cons_self⟩

theorem Word.number_append {s : List Char} (h : Word s) (n : Nat) : Word (number n ++ s) := by
  refine ⟨List.forall_mem_append.mpr ⟨fun c hc => Or.inl ?_, h.chars⟩,
    List.mem_append_right _ h.dotted⟩
  exact isVersionChar_of_digit (isDigit_of_mem_number n c hc)

theorem number?_wildcard (hw : isWildcard w = true) : Version.number? [w] = none := by
  simp only [isWildcard, Bool.or_eq_true, beq_iff_eq] at hw
  rcases hw with (rfl | rfl) | rfl <;> decide

theorem canonical_major (hm : m < word64) (hw : isWildcard w = true) :
    canonical (number m ++ ['.', w]) = (next m).map fun above => between m 0 0 above 0 0 := by
  have hdot : ∀ r, Stops isDigit ('.' :: r) := stops_cons (by decide)
  have hparse : Version.parse? (number m ++ ['.', w]) = none := by
    simp only [Version.parse?, number, number?_append hm (hdot _), dot?, number?_wildcard hw,
      Option.bind_eq_bind, Option.bind_some, Option.bind_none]
  rw [((word_wildcard hw).number_append m).canonical_of_wildcard hparse hw rfl,
    expandWildcard_major hm hw]

theorem canonical_minor (hm : m < word64) (hn : n < word64) (hw : isWildcard w = true) :
    canonical (number m ++ '.' :: (number n ++ ['.', w])) =
      (next n).map fun above => between m n 0 m above 0 := by
  have hdot : ∀ r, Stops isDigit ('.' :: r) := stops_cons (by decide)
  have hparse : Version.parse? (number m ++ '.' :: (number n ++ ['.', w])) = none := by
    simp only [Version.parse?, number, number?_append hm (hdot _), number?_append hn (hdot _),
      dot?, number?_wildcard hw, Option.bind_eq_bind, Option.bind_some, Option.bind_none]
  have hword := ((word_wildcard hw).number_append n).dot_cons.number_append m
  rw [hword.canonical_of_wildcard hparse hw (t := number m ++ '.' :: number n) (by simp),
    expandWildcard_minor hm hn hw]

theorem speltOut_major (hm : m + 1 < word64) (hw : isWildcard w = true) :
    SpeltOut (number m ++ ['.', w]) fun v => v.major = m := by
  have hzero : 0 < word64 := by decide
  have hcanonical := canonical_major (m := m) (by omega) hw
  rw [next, if_pos hm] at hcanonical
  refine speltOut_of_canonical ((word_wildcard hw).number_append m) (by omega) hzero hzero hm hzero
    hzero hcanonical fun v hv => ?_
  rw [bound_greaterEq_admits hv, bound_less_admits hv]
  omega

theorem speltOut_minor (hm : m < word64) (hn : n + 1 < word64) (hw : isWildcard w = true) :
    SpeltOut (number m ++ '.' :: (number n ++ ['.', w])) fun v => v.major = m ∧ v.minor = n := by
  have hzero : 0 < word64 := by decide
  have hcanonical := canonical_minor (n := n) hm (by omega) hw
  rw [next, if_pos hn] at hcanonical
  refine speltOut_of_canonical (((word_wildcard hw).number_append n).dot_cons.number_append m) hm
    (by omega) hzero hm hn hzero hcanonical fun v hv => ?_
  rw [bound_greaterEq_admits hv, bound_less_admits hv]
  omega

end Forms

/-- What is rewritten has a wildcard behind the numbers. -/
theorem parts_of_expandWildcard {s : List Char} (h : expandWildcard s ≠ .ok s) :
    ∃ ps w, splitAll '.' s = ps ++ [[w]] ∧ isWildcard w = true ∧
      ∀ p ∈ ps, ∃ n, naturalBelow? word64 p = some n := by
  have hmark : ∀ {t : List Char}, (t == ['x'] || t == ['X'] || t == ['*']) = true →
      ∃ w, t = [w] ∧ isWildcard w = true := by
    intro t ht
    simp only [Bool.or_eq_true, beq_iff_eq] at ht
    rcases ht with (rfl | rfl) | rfl
    · exact ⟨'x', rfl, by decide⟩
    · exact ⟨'X', rfl, by decide⟩
    · exact ⟨'*', rfl, by decide⟩
  unfold expandWildcard at h
  split at h
  · rename_i major t hs
    split at h
    · rename_i m hw hm
      obtain ⟨w, rfl, hwild⟩ := hmark hw
      exact ⟨[major], w, hs, hwild, by simpa using ⟨m, hm⟩⟩
    · exact absurd rfl h
  · rename_i major minor t hs
    split at h
    · rename_i m n hw hm hn
      obtain ⟨w, rfl, hwild⟩ := hmark hw
      exact ⟨[major, minor], w, hs, hwild, by simpa using ⟨⟨m, hm⟩, ⟨n, hn⟩⟩⟩
    · exact absurd rfl h
  · exact absurd rfl h

theorem notMem_of_isNumeric {p : List Char} {c : Char} (hc : isDigit c = false)
    (hp : isNumeric p = true) : c ∉ p := by
  intro hm
  simp only [isNumeric, Bool.and_eq_true, List.all_eq_true] at hp
  rw [hp.2 c hm] at hc
  cases hc

/-- The numbers of what is rewritten. -/
theorem numeric_of_expandWildcard {s : List Char} (h : expandWildcard s ≠ .ok s) :
    ∀ p ∈ (splitAll '.' s).dropLast,
      isNumeric p = true ∨ ∃ ds, p = '+' :: ds ∧ isNumeric ds = true := by
  obtain ⟨ps, w, hsplit, -, hparts⟩ := parts_of_expandWildcard h
  rw [hsplit, List.dropLast_concat]
  intro p hp
  obtain ⟨n, hn⟩ := hparts p hp
  exact isNumeric_of_naturalBelow? hn

theorem numeric_iff {s : List Char} (h : expandWildcard s ≠ .ok s) :
    (∀ p ∈ (splitAll '.' s).dropLast, isNumeric p = true) ↔ '+' ∉ s := by
  have hform := numeric_of_expandWildcard h
  obtain ⟨ps, w, hsplit, hw, -⟩ := parts_of_expandWildcard h
  rw [hsplit, List.dropLast_concat] at hform ⊢
  have hsign : '+' ∈ s ↔ ∃ p ∈ ps, '+' ∈ p := by
    have hne : '+' ≠ w := by
      rintro rfl
      exact absurd hw (by decide)
    rw [mem_iff_mem_splitAll (c := '.') (by decide) s, hsplit]
    simp [hne]
  constructor
  · intro hnumeric hmem
    obtain ⟨p, hp, hplus⟩ := hsign.mp hmem
    exact notMem_of_isNumeric (by decide) (hnumeric p hp) hplus
  · intro hmem p hp
    rcases hform p hp with h | ⟨ds, rfl, -⟩
    · exact h
    · exact absurd (hsign.mpr ⟨_, hp, List.mem_cons_self⟩) hmem

/-- **Wildcards in the last place are exact up to 64 bits, and to a sign.** A number and a wildcard,
alone or behind another number, are the releases with these numbers, unless the number is the
largest of 64 bits. What is rewritten has digits in front of its wildcard exactly if there is no plus
sign in it. -/
theorem wildcards_exact {ds : List Char} {m : Nat} (hds : Numeral ds m) {w : Char}
    (hw : w ∈ ['x', 'X', '*']) :
    (m + 1 < word64 → SpeltOut (ds ++ ['.', w]) (fun v => v.major = m) ∧
      ∀ es l, Numeral es l →
        SpeltOut (es ++ '.' :: (ds ++ ['.', w])) fun v => v.major = l ∧ v.minor = m) ∧
    (m + 1 = word64 → canonical (ds ++ ['.', w]) = .error .upperBound ∧
      ∀ es l, Numeral es l → canonical (es ++ '.' :: (ds ++ ['.', w])) = .error .upperBound) ∧
    ∀ s, expandWildcard s ≠ .ok s →
      (∀ p ∈ (splitAll '.' s).dropLast,
        isNumeric p = true ∨ ∃ ds, p = '+' :: ds ∧ isNumeric ds = true) ∧
      ((∀ p ∈ (splitAll '.' s).dropLast, isNumeric p = true) ↔ '+' ∉ s) := by
  have hwild : isWildcard w = true := by
    simp only [List.mem_cons, List.not_mem_nil, or_false] at hw
    rcases hw with rfl | rfl | rfl <;> decide
  obtain rfl := hds.eq_number
  refine ⟨?below, ?largest, ?rewritten⟩
  case below =>
    intro hm
    refine ⟨speltOut_major hm hwild, fun es l hes => ?_⟩
    obtain rfl := hes.eq_number
    exact speltOut_minor hes.fits hm hwild
  case largest =>
    intro hm
    have hnext : next m = .error .upperBound := if_neg (by omega)
    refine ⟨?_, fun es l hes => ?_⟩
    · rw [canonical_major hds.fits hwild, hnext]
      rfl
    · obtain rfl := hes.eq_number
      rw [canonical_minor hes.fits hds.fits hwild, hnext]
      rfl
  case rewritten => exact fun s hs => ⟨numeric_of_expandWildcard hs, numeric_iff hs⟩

theorem wildcards_exact_largest :
    SpeltOut "18446744073709551614.x".toList (fun v => v.major = 18446744073709551614) ∧
    SpeltOut "18446744073709551615.0.*".toList
      (fun v => v.major = 18446744073709551615 ∧ v.minor = 0) ∧
    canonical "0.18446744073709551615.X".toList = .error .upperBound ∧
    ∀ p ∈ ["1".toList, "2".toList], isNumeric p = true :=
  have hbelow : Numeral "18446744073709551614".toList 18446744073709551614 :=
    ⟨by decide, by decide, by decide, by decide⟩
  have hlargest : Numeral "18446744073709551615".toList 18446744073709551615 :=
    ⟨by decide, by decide, by decide, by decide⟩
  have hzero : Numeral "0".toList 0 := ⟨by decide, by decide, by decide, by decide⟩
  ⟨((wildcards_exact hbelow (w := 'x') (by simp)).1 (by decide)).1,
    ((wildcards_exact hzero (w := '*') (by simp)).1 (by decide)).2 _ _ hlargest,
    ((wildcards_exact hlargest (w := 'X') (by simp)).2.1 (by decide)).2 _ _ hzero,
    ((wildcards_exact hzero (w := 'x') (by simp)).2.2 "1.2.X".toList (by decide)).2.mpr (by decide)⟩

/-- The largest number of 64 bits has no upper bound, and a number with a sign is taken for a
version's. -/
theorem wildcards_inexact :
    Numeral "18446744073709551615".toList 18446744073709551615 ∧
    canonical "18446744073709551615.x".toList = .error .upperBound ∧
    expandWildcard "+1.x".toList = .ok ">=1.0.0, <2.0.0".toList ∧
    isNumeric "+1".toList = false ∧ isRange "+1.x".toList = .ok true :=
  ⟨⟨by decide, by decide, by decide, by decide⟩, by decide, by decide, by decide, by decide⟩

end OfflineCache.Version.Range
