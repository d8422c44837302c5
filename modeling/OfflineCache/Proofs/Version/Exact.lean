import OfflineCache.Proofs.Version.Alphabet

/-! Exact versions as they are written. Each reader of a part takes what was written for the part and
leaves the rest, so a text is read as a version exactly if it is what a well-formed version is
written as (`parse?_eq_some_iff`). The readers of requirements are made of the same parts, so an
exact version is a range, too (`Range.isRange_render`). -/

namespace OfflineCache.Version

open Text

/-! ## Numbers -/

/-- No character of the kind stands in front. -/
def Stops (p : Char → Bool) (rest : List Char) : Prop := ∀ c, rest.head? = some c → p c = false

theorem stops_nil (p : Char → Bool) : Stops p [] := nofun

theorem stops_cons {p : Char → Bool} {c : Char} (h : p c = false) (r : List Char) :
    Stops p (c :: r) := by
  rintro x hx
  obtain rfl : c = x := by simpa using hx
  exact h

variable {p : Char → Bool} {s rest : List Char}

theorem takeWhile_of_stops (hs : ∀ c ∈ s, p c = true) (hr : Stops p rest) :
    (s ++ rest).takeWhile p = s := by
  rw [List.takeWhile_append_of_pos hs]
  cases rest with
  | nil => simp
  | cons c r => rw [List.takeWhile_cons_of_neg (by simp [hr c rfl]), List.append_nil]

theorem dropWhile_of_stops (hs : ∀ c ∈ s, p c = true) (hr : Stops p rest) :
    (s ++ rest).dropWhile p = rest := by
  rw [List.dropWhile_append_of_pos hs]
  cases rest with
  | nil => simp
  | cons c r => rw [List.dropWhile_cons_of_neg (by simp [hr c rfl])]

theorem toList_toString (n : Nat) : (toString n).toList = Nat.toDigits 10 n := by
  rw [Nat.toString_eq_repr, Nat.toList_repr]

theorem digitValue?_digitChar : ∀ d < 10, digitValue? (Nat.digitChar d) = some d := by decide

theorem eq_digitChar_of_digitValue? {c : Char} {d : Nat} (h : digitValue? c = some d) :
    d < 10 ∧ c = Nat.digitChar d := by
  unfold digitValue? at h
  split at h
  · rename_i hc
    have hlow : 48 ≤ c.toNat := UInt32.le_iff_toNat_le.mp hc.1
    have hhigh : c.toNat ≤ 57 := UInt32.le_iff_toNat_le.mp hc.2
    obtain rfl : c.toNat - 48 = d := Option.some.inj h
    refine ⟨by omega, Char.toNat_inj.mp ?_⟩
    rw [Nat.toNat_digitChar_of_lt_ten (by omega)]
    omega
  · simp at h

/-- A number is a digit, or another number with a digit behind it. -/
theorem toDigits_induction {P : Nat → List Char → Prop}
    (digit : ∀ d < 10, P d [Nat.digitChar d])
    (behind : ∀ m d, 0 < m → d < 10 → P m (Nat.toDigits 10 m) →
      P (10 * m + d) (Nat.toDigits 10 m ++ [Nat.digitChar d])) (n : Nat) :
    P n (Nat.toDigits 10 n) := by
  induction n using Nat.strongRecOn with
  | ind n ih =>
    rw [Nat.toDigits_eq_if (by decide)]
    split
    · rename_i hn
      exact digit n hn
    · rename_i hn
      have hstep := behind (n / 10) (n % 10) (by omega) (by omega) (ih (n / 10) (by omega))
      rwa [Nat.div_add_mod] at hstep

theorem digitsValue?_concat (acc : Nat) (s : List Char) (c : Char) :
    digitsValue? acc (s ++ [c]) =
      (digitsValue? acc s).bind fun a => (digitValue? c).map fun d => a * 10 + d := by
  induction s generalizing acc with
  | nil =>
    simp only [List.nil_append, digitsValue?]
    cases digitValue? c <;> rfl
  | cons x s ih =>
    rw [List.cons_append, digitsValue?, digitsValue?]
    cases digitValue? x with
    | none => rfl
    | some d => simp only [Option.bind_some, ih]

theorem digitsValue?_toDigits (n : Nat) : digitsValue? 0 (Nat.toDigits 10 n) = some n := by
  induction n using toDigits_induction with
  | digit d hd => simp [digitsValue?, digitValue?_digitChar d hd]
  | behind m d _ hd ih =>
    rw [digitsValue?_concat, ih, digitValue?_digitChar d hd, Option.bind_some, Option.map_some,
      Nat.mul_comm]

/-- Digits behind a number that is not zero are its last digits. -/
theorem toDigits_of_digitsValue? {acc n : Nat} (hacc : 0 < acc) (h : digitsValue? acc s = some n) :
    Nat.toDigits 10 n = Nat.toDigits 10 acc ++ s := by
  induction s generalizing acc with
  | nil =>
    obtain rfl : acc = n := Option.some.inj h
    rw [List.append_nil]
  | cons c s ih =>
    obtain ⟨d, hd, hrest⟩ := Option.bind_eq_some_iff.mp h
    obtain ⟨hlt, rfl⟩ := eq_digitChar_of_digitValue? hd
    have hdigits := Nat.toDigits_append_toDigits (b := 10) (by decide) hacc hlt
    rw [Nat.toDigits_of_lt_base hlt, Nat.mul_comm] at hdigits
    rw [ih (by omega) hrest, ← hdigits, List.append_assoc, List.singleton_append]

theorem head?_toDigits {n : Nat} (h : 0 < n) : (Nat.toDigits 10 n).head? ≠ some '0' := by
  have hsmall : ∀ d < 10, 0 < d → Nat.digitChar d ≠ '0' := by decide
  induction n using toDigits_induction with
  | digit d hd => simpa using hsmall d hd h
  | behind m d hm _ ih =>
    rw [List.head?_append_of_ne_nil _ Nat.toDigits_ne_nil]
    exact ih hm

theorem isDigit_of_mem_toDigits (n : Nat) : ∀ c ∈ Nat.toDigits 10 n, isDigit c = true := by
  have hdigit : ∀ d < 10, isDigit (Nat.digitChar d) = true := by decide
  induction n using toDigits_induction with
  | digit d hd => simpa using hdigit d hd
  | behind m d _ hd ih =>
    intro c hc
    rcases List.mem_append.mp hc with hm | hm
    · exact ih c hm
    · rw [List.mem_singleton.mp hm]
      exact hdigit d hd

theorem number?_append {n : Nat} (hn : n < word64) (hr : Stops isDigit rest) :
    number? ((toString n).toList ++ rest) = some (n, rest) := by
  have hdigits : ∀ c ∈ Nat.toDigits 10 n, isDigit c = true := isDigit_of_mem_toDigits n
  have hlead : ¬((Nat.toDigits 10 n).length > 1 ∧ (Nat.toDigits 10 n).head? = some '0') := by
    rintro ⟨hlong, hzero⟩
    rcases Nat.eq_zero_or_pos n with rfl | hpos
    · exact absurd hlong (by decide)
    · exact head?_toDigits hpos hzero
  rw [toList_toString]
  simp only [number?, takeWhile_of_stops hdigits hr, dropWhile_of_stops hdigits hr, if_neg hlead,
    digitsBelow?, if_neg Nat.toDigits_ne_nil, digitsValue?_toDigits, Option.filter_some]
  simp [hn]

theorem eq_append_of_number? {n : Nat} (h : number? s = some (n, rest)) :
    s = (toString n).toList ++ rest ∧ n < word64 := by
  simp only [number?] at h
  split at h
  · simp at h
  · rename_i hlead
    obtain ⟨m, hm, he⟩ := Option.map_eq_some_iff.mp h
    obtain ⟨rfl, rfl⟩ : m = n ∧ s.dropWhile isDigit = rest := by simpa using he
    unfold digitsBelow? at hm
    split at hm
    · simp at hm
    · obtain ⟨hvalue, hlt⟩ := Option.filter_eq_some_iff.mp hm
      refine ⟨?_, by simpa using hlt⟩
      rw [toList_toString]
      conv_lhs => rw [← List.takeWhile_append_dropWhile (p := isDigit) (l := s)]
      congr 1
      generalize s.takeWhile isDigit = ds at *
      cases ds with
      | nil => contradiction
      | cons c r =>
        obtain ⟨d, hd, hrest⟩ := Option.bind_eq_some_iff.mp hvalue
        obtain ⟨hten, rfl⟩ := eq_digitChar_of_digitValue? hd
        rw [Nat.zero_mul, Nat.zero_add] at hrest
        cases r with
        | nil =>
          obtain rfl : d = m := Option.some.inj hrest
          rw [Nat.toDigits_of_lt_base hten]
        | cons c' r =>
          have hpos : 0 < d := by
            rcases Nat.eq_zero_or_pos d with rfl | hpos
            · exact absurd ⟨by simp, rfl⟩ hlead
            · exact hpos
          rw [toDigits_of_digitsValue? hpos hrest, Nat.toDigits_of_lt_base hten,
            List.singleton_append]

/-! ## Pre-releases and build metadata -/

def isMetadataChar (c : Char) : Bool := isIdentifierChar c || c == '.'

/-- Segments between dots, each of which passes `ok`. -/
structure Identifiers (ok : List Char → Bool) (text : List Char) : Prop where
  chars : ∀ c ∈ text, isMetadataChar c = true
  segments : (splitAll '.' text).all ok = true

/-- Identifiers behind their mark, or nothing at all. -/
def suffix? (mark : Char) (ok : List Char → Bool) : List Char → Option (List Char × List Char)
  | [] => some ([], [])
  | c :: r => if c = mark then identifiers? ok r else some ([], c :: r)

theorem pre?_eq_suffix? (s : List Char) : pre? s = suffix? '-' isPreSegment s := by
  cases s with
  | nil => rfl
  | cons c r =>
    rw [suffix?]
    split
    · rename_i hc
      rw [hc, pre?]
    · rename_i hc
      exact pre?.eq_2 (c :: r) fun r' he => hc (List.cons.inj he).1

theorem build?_eq_suffix? (s : List Char) : build? s = suffix? '+' isBuildSegment s := by
  cases s with
  | nil => rfl
  | cons c r =>
    rw [suffix?]
    split
    · rename_i hc
      rw [hc, build?]
    · rename_i hc
      exact build?.eq_2 (c :: r) fun r' he => hc (List.cons.inj he).1

/-- Identifiers as they are written. -/
def written (mark : Char) (text : List Char) : List Char := if text = [] then [] else mark :: text

theorem render_eq (v : Version) : v.render = (toString v.major).toList ++ '.' ::
    ((toString v.minor).toList ++ '.' :: ((toString v.patch).toList ++
      (written '-' v.pre ++ written '+' v.build))) := by
  simp [render, written]

section Suffix

variable {mark : Char} {ok : List Char → Bool} {text : List Char}

theorem suffix?_written (hok : text = [] ∨ Identifiers ok text) (hmark : rest.head? ≠ some mark)
    (hr : Stops isMetadataChar rest) : suffix? mark ok (written mark text ++ rest) =
      some (text, rest) := by
  unfold written
  split
  · rename_i ht
    subst ht
    cases rest with
    | nil => rfl
    | cons c r => rw [List.nil_append, suffix?, if_neg (by simpa using hmark)]
  · rename_i ht
    have h := hok.resolve_left ht
    rw [List.cons_append, suffix?, if_pos rfl, identifiers?]
    have htake : (text ++ rest).takeWhile (fun c => isIdentifierChar c || c == '.') = text :=
      takeWhile_of_stops h.chars hr
    have hdrop : (text ++ rest).dropWhile (fun c => isIdentifierChar c || c == '.') = rest :=
      dropWhile_of_stops h.chars hr
    simp only [htake, hdrop, if_pos h.segments]

theorem written_of_suffix? (hne : ok [] = false) (h : suffix? mark ok s = some (text, rest)) :
    s = written mark text ++ rest ∧ (text = [] ∨ Identifiers ok text) := by
  unfold suffix? at h
  split at h
  · cases h
    exact ⟨rfl, Or.inl rfl⟩
  · rename_i c r
    split at h
    · rename_i hc
      subst hc
      simp only [identifiers?] at h
      split at h
      · rename_i hok
        cases h
        have ht : Identifiers ok (r.takeWhile isMetadataChar) :=
          ⟨fun c hc => List.all_eq_true.mp List.all_takeWhile c hc, hok⟩
        have hempty : r.takeWhile isMetadataChar ≠ [] := by
          intro he
          have hall := ht.segments
          rw [he] at hall
          simp [splitAll, hne] at hall
        refine ⟨?_, Or.inr ht⟩
        show _ = written c (r.takeWhile isMetadataChar) ++ r.dropWhile isMetadataChar
        rw [written, if_neg hempty, List.cons_append, List.takeWhile_append_dropWhile]
      · simp at h
    · cases h
      exact ⟨rfl, Or.inl rfl⟩

end Suffix

/-! ## Versions -/

/-- Numbers below 2^64, and identifiers of the right form. -/
structure Valid (v : Version) : Prop where
  major : v.major < word64
  minor : v.minor < word64
  patch : v.patch < word64
  pre : v.pre = [] ∨ Identifiers isPreSegment v.pre
  build : v.build = [] ∨ Identifiers isBuildSegment v.build

/-- A run ends at identifiers whose mark ends it, and at what ends it if there are none. -/
theorem stops_written {mark : Char} (hp : p mark = false) {text : List Char} (hr : Stops p rest) :
    Stops p (written mark text ++ rest) := by
  unfold written
  split
  · exact hr
  · exact stops_cons hp _

section Readers

variable {v : Version}

theorem stops_suffixes (v : Version) : Stops isDigit (written '-' v.pre ++ written '+' v.build) := by
  have hbuild : Stops isDigit (written '+' v.build ++ []) :=
    stops_written (by decide) (stops_nil _)
  rw [List.append_nil] at hbuild
  exact stops_written (by decide) hbuild

theorem build?_written (h : v.Valid) : build? (written '+' v.build) = some (v.build, []) := by
  rw [build?_eq_suffix?, ← List.append_nil (written '+' v.build)]
  exact suffix?_written h.build (by simp) (stops_nil _)

theorem pre?_written (h : v.Valid) :
    pre? (written '-' v.pre ++ written '+' v.build) = some (v.pre, written '+' v.build) := by
  have hstops : Stops isMetadataChar (written '+' v.build ++ []) :=
    stops_written (by decide) (stops_nil _)
  rw [List.append_nil] at hstops
  rw [pre?_eq_suffix?]
  refine suffix?_written h.pre ?_ hstops
  unfold written
  split <;> simp

end Readers

theorem parse?_render {v : Version} (h : v.Valid) : parse? v.render = some v := by
  have hdot : ∀ r, Stops isDigit ('.' :: r) := stops_cons (by decide)
  rw [render_eq]
  simp only [parse?, number?_append h.major (hdot _), number?_append h.minor (hdot _),
    number?_append h.patch (stops_suffixes v), dot?, pre?_written h, build?_written h,
    Option.bind_eq_bind, Option.bind_some, if_true]

theorem eq_cons_of_dot? (h : dot? s = some rest) : s = '.' :: rest := by
  unfold dot? at h
  split at h
  · cases h
    rfl
  · simp at h

theorem valid_of_parse? {v : Version} (h : parse? s = some v) : v.Valid ∧ v.render = s := by
  simp only [parse?, Option.bind_eq_bind, Option.bind_eq_some_iff, pre?_eq_suffix?,
    build?_eq_suffix?] at h
  obtain ⟨⟨major, s₁⟩, h₁, s₂, h₂, ⟨minor, s₃⟩, h₃, s₄, h₄, ⟨patch, s₅⟩, h₅, ⟨pre, s₆⟩, h₆,
    ⟨build, s₇⟩, h₇, h⟩ := h
  obtain ⟨rfl, hmajor⟩ := eq_append_of_number? h₁
  obtain rfl := eq_cons_of_dot? h₂
  obtain ⟨rfl, hminor⟩ := eq_append_of_number? h₃
  obtain rfl := eq_cons_of_dot? h₄
  obtain ⟨rfl, hpatch⟩ := eq_append_of_number? h₅
  obtain ⟨rfl, hpre⟩ := written_of_suffix? (by decide) h₆
  obtain ⟨rfl, hbuild⟩ := written_of_suffix? (by decide) h₇
  split at h
  · rename_i hend
    cases h
    obtain rfl : s₇ = [] := hend
    exact ⟨⟨hmajor, hminor, hpatch, hpre, hbuild⟩, by rw [render_eq, List.append_nil]⟩
  · simp at h

/-- **A text is an exact version exactly if it is what a version is written as.** -/
theorem parse?_eq_some_iff {v : Version} : parse? s = some v ↔ v.Valid ∧ v.render = s :=
  ⟨valid_of_parse?, fun ⟨hv, hs⟩ => hs ▸ parse?_render hv⟩

/-! ## Exact versions as ranges -/

/-- The characters of exact versions. -/
def isVersionChar (c : Char) : Bool := isMetadataChar c || c == '+'

theorem isVersionChar_of_digit {c : Char} (h : isDigit c = true) : isVersionChar c = true := by
  simp [isVersionChar, isMetadataChar, isIdentifierChar_of_digit h]

theorem isVersionChar_of_mem_written {mark : Char} (hmark : isVersionChar mark = true)
    {ok : List Char → Bool} {text : List Char} (hok : text = [] ∨ Identifiers ok text) :
    ∀ c ∈ written mark text, isVersionChar c = true := by
  unfold written
  split
  · nofun
  · rename_i ht
    have hchars := (hok.resolve_left ht).chars
    exact List.forall_mem_cons.mpr ⟨hmark, fun c hc => by simp [isVersionChar, hchars c hc]⟩

theorem Valid.chars {v : Version} (h : v.Valid) : ∀ c ∈ v.render, isVersionChar c = true := by
  have hnumber : ∀ n : Nat, ∀ c ∈ (toString n).toList, isVersionChar c = true := by
    intro n c hc
    rw [toList_toString] at hc
    exact isVersionChar_of_digit (isDigit_of_mem_toDigits n c hc)
  have hpre : ∀ c ∈ written '-' v.pre, isVersionChar c = true :=
    isVersionChar_of_mem_written (by decide) h.pre
  have hbuild : ∀ c ∈ written '+' v.build, isVersionChar c = true :=
    isVersionChar_of_mem_written (by decide) h.build
  rw [render_eq]
  simp only [List.forall_mem_append, List.forall_mem_cons]
  exact ⟨hnumber _, by decide, hnumber _, by decide, hnumber _, hpre, hbuild⟩

theorem Valid.notMem {v : Version} (h : v.Valid) {c : Char} (hc : isVersionChar c = false) :
    c ∉ v.render := fun hm => by
  rw [h.chars c hm] at hc
  cases hc

theorem not_isBlank_of_isVersionChar {c : Char} (h : isVersionChar c = true) :
    isBlank c = false := by
  have hrange : (48 ≤ c.toNat ∧ c.toNat ≤ 57) ∨ (65 ≤ c.toNat ∧ c.toNat ≤ 90) ∨
      (97 ≤ c.toNat ∧ c.toNat ≤ 122) ∨ (43 ≤ c.toNat ∧ c.toNat ≤ 46) := by
    simp only [isVersionChar, isMetadataChar, isIdentifierChar, Bool.or_eq_true,
      Bool.and_eq_true, decide_eq_true_eq, beq_iff_eq] at h
    rcases h with ((((h | h) | h) | rfl) | rfl) | rfl
    · exact Or.inl h
    · exact Or.inr (Or.inl h)
    · exact Or.inr (Or.inr (Or.inl h))
    all_goals decide
  simp only [isBlank, Bool.or_eq_false_iff, Bool.and_eq_false_iff, decide_eq_false_iff_not,
    beq_eq_false_iff_ne]
  omega

theorem render_ne_nil (v : Version) : v.render ≠ [] := by
  simp [render]

theorem part?_append {n : Nat} (hn : n < word64) (hr : Stops isDigit rest) :
    part? ('.' :: ((toString n).toList ++ rest)) = some (.number n, rest) := by
  have hnumber := number?_append hn hr
  rw [toList_toString] at hnumber ⊢
  cases hds : Nat.toDigits 10 n with
  | nil => exact absurd hds Nat.toDigits_ne_nil
  | cons c r =>
    have hdigit : isDigit c = true := isDigit_of_mem_toDigits n c (by simp [hds])
    have hw : ¬isWildcard c = true := by
      intro hw
      simp only [isWildcard, Bool.or_eq_true, beq_iff_eq] at hw
      rcases hw with (rfl | rfl) | rfl <;> exact absurd hdigit (by decide)
    rw [hds, List.cons_append] at hnumber
    rw [List.cons_append, part?, if_neg hw, hnumber, Option.map_some]

theorem skipSpaces_of_notMem (h : ' ' ∉ s) : skipSpaces s = s := by
  cases s with
  | nil => rfl
  | cons c r =>
    have hc : c ≠ ' ' := fun hc => h (by simp [hc])
    rw [skipSpaces, List.dropWhile_cons_of_neg (by simpa using hc)]

/-- The version behind an equals sign is a comparator and nothing else. -/
theorem comparator?_render {v : Version} (h : v.Valid) :
    comparator? ('=' :: v.render) =
      some (⟨.exact, v.major, some v.minor, some v.patch, v.pre⟩, []) := by
  have hspaces := skipSpaces_of_notMem (h.notMem (c := ' ') (by decide))
  have hdot : ∀ r, Stops isDigit ('.' :: r) := stops_cons (by decide)
  rw [comparator?, operator?]
  simp only [hspaces]
  rw [render_eq]
  simp only [number?_append h.major (hdot _), part?_append h.minor (hdot _),
    part?_append h.patch (stops_suffixes v), pre?_written h, build?_written h,
    Part.toOption, Option.isSome_some, Option.bind_eq_bind, Option.bind_some, if_true]
  rfl

theorem Valid.trim_render {v : Version} (h : v.Valid) : trim v.render = v.render :=
  trim_of_tight (tight_of_forall fun c hc => not_isBlank_of_isVersionChar (h.chars c hc))

namespace Range

theorem not_containsText_bars {v : Version} (h : v.Valid) :
    ¬containsText "||".toList v.render = true := by
  rw [containsText, cutText_eq_none (c := '|') (by decide) (h.notMem (by decide))]
  decide

theorem canonical_render {v : Version} (h : v.Valid) :
    canonical v.render = .ok ('=' :: v.render) := by
  have hparse := parse?_render h
  have hplain : ¬(v.render = [] ∨ v.render = ['*'] ∨ v.render = "latest".toList) := by
    rintro (he | he | he)
    · exact render_ne_nil v he
    · exact h.notMem (c := '*') (by decide) (by simp [he])
    · have hlatest : parse? "latest".toList = none := by decide
      rw [he, hlatest] at hparse
      cases hparse
  simp only [canonical, h.trim_render, if_neg hplain, if_neg (not_containsText_bars h), hparse,
    Option.isSome_some, if_true]

/-- **An exact version is a range.** -/
theorem isRange_render {v : Version} (h : v.Valid) : isRange v.render = .ok true := by
  have hparse : Requirement.parse? ('=' :: v.render) =
      some [⟨.exact, v.major, some v.minor, some v.patch, v.pre⟩] := by
    have hspaces : skipSpaces ('=' :: v.render) = '=' :: v.render := rfl
    have hw : ¬isWildcard '=' = true := by decide
    rw [Requirement.parse?, hspaces]
    simp only [if_neg hw, maxComparators, comparators?, comparator?_render h]
    rfl
  simp only [isRange, h.trim_render, if_neg (render_ne_nil v), if_neg (not_containsText_bars h),
    isAlternative, canonical_render h, hparse, bind, Except.bind, pure, Except.pure,
    Option.isSome_some, Bool.or_true]

/-- What is written for a version pins it. -/
theorem pinned?_render {v : Version} (h : v.Valid) : pinned? v.render = some v := by
  rw [pinned?, h.trim_render, parse?_render h]

end Range

end OfflineCache.Version
