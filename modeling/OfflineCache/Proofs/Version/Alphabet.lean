import OfflineCache.Proofs.Text.Pieces
import OfflineCache.Version.Range

/-! The characters that ranges are written with: those of versions, of the comparators around them,
and blanks. What is read as a range has no other character, whichever of its forms it is in, so none
of the characters that structure a locator can stand in one. -/

namespace OfflineCache.Version

open Text

def isRangeChar (c : Char) : Bool :=
  isIdentifierChar c || isBlank c || "^~<>=*+.,|".toList.contains c

/-- All of `s` but range characters is still in `rest`. -/
def Covers (s rest : List Char) : Prop := ∀ c ∈ s, isRangeChar c = true ∨ c ∈ rest

def OfRange (s : List Char) : Prop := ∀ c ∈ s, isRangeChar c = true

theorem Covers.refl (s : List Char) : Covers s s := fun _ h => Or.inr h

theorem Covers.trans {s t u : List Char} (h : Covers s t) (h' : Covers t u) : Covers s u := by
  intro c hc
  rcases h c hc with hr | ht
  · exact Or.inl hr
  · exact h' c ht

theorem Covers.ofRange {s t : List Char} (h : Covers s t) (ht : OfRange t) : OfRange s := by
  intro c hc
  rcases h c hc with hr | hc'
  · exact hr
  · exact ht c hc'

theorem covers_cons {c : Char} (h : isRangeChar c = true) (r : List Char) : Covers (c :: r) r := by
  intro x hx
  rcases List.mem_cons.mp hx with rfl | hr
  · exact Or.inl h
  · exact Or.inr hr

theorem covers_dropWhile {p : Char → Bool} (hp : ∀ c, p c = true → isRangeChar c = true)
    (s : List Char) : Covers s (s.dropWhile p) := by
  intro c hc
  rw [← List.takeWhile_append_dropWhile (p := p) (l := s), List.mem_append] at hc
  rcases hc with h | h
  · exact Or.inl (hp c (List.all_eq_true.mp List.all_takeWhile c h))
  · exact Or.inr h

theorem isRangeChar_of_identifier {c : Char} (h : isIdentifierChar c = true) :
    isRangeChar c = true := by
  simp [isRangeChar, h]

theorem isRangeChar_of_blank {c : Char} (h : isBlank c = true) : isRangeChar c = true := by
  simp [isRangeChar, h]

theorem isIdentifierChar_of_digit {c : Char} (h : isDigit c = true) :
    isIdentifierChar c = true := by
  unfold isDigit digitValue? at h
  split at h
  · rename_i hc
    simp [isIdentifierChar, hc.1, hc.2]
  · simp at h

theorem isRangeChar_of_digit {c : Char} (h : isDigit c = true) : isRangeChar c = true :=
  isRangeChar_of_identifier (isIdentifierChar_of_digit h)

theorem ofRange_of_blank_or_mem_trim {s : List Char} (h : OfRange (trim s)) : OfRange s := by
  intro c hc
  rcases blank_or_mem_trim hc with hb | ht
  · exact isRangeChar_of_blank hb
  · exact h c ht

theorem ofRange_of_all {s : List Char} (h : s.all isRangeChar = true) : OfRange s :=
  List.all_eq_true.mp h

theorem ofRange_append {s t : List Char} (hs : OfRange s) (ht : OfRange t) : OfRange (s ++ t) := by
  intro c hc
  rcases List.mem_append.mp hc with h | h
  · exact hs c h
  · exact ht c h

/-! ## Requirements -/

theorem covers_skipSpaces (s : List Char) : Covers s (skipSpaces s) := by
  apply covers_dropWhile
  intro c hc
  obtain rfl : c = ' ' := by simpa using hc
  decide

theorem covers_of_number? {s rest : List Char} {n : Nat} (h : number? s = some (n, rest)) :
    Covers s rest := by
  simp only [number?] at h
  split at h
  · simp at h
  · obtain ⟨m, -, he⟩ := Option.map_eq_some_iff.mp h
    obtain ⟨-, rfl⟩ : m = n ∧ s.dropWhile isDigit = rest := by simpa using he
    exact covers_dropWhile (fun _ => isRangeChar_of_digit) s

theorem covers_of_identifiers? {ok : List Char → Bool} {s t rest : List Char}
    (h : identifiers? ok s = some (t, rest)) : Covers s rest := by
  simp only [identifiers?] at h
  split at h
  · obtain ⟨-, rfl⟩ : _ = t ∧ _ = rest := by simpa using h
    apply covers_dropWhile
    intro c hc
    rcases Bool.or_eq_true_iff.mp hc with hi | hd
    · exact isRangeChar_of_identifier hi
    · obtain rfl : c = '.' := by simpa using hd
      decide
  · simp at h

theorem covers_of_pre? {s t rest : List Char} (h : pre? s = some (t, rest)) : Covers s rest := by
  unfold pre? at h
  split at h
  · exact (covers_cons (by decide) _).trans (covers_of_identifiers? h)
  · obtain ⟨-, rfl⟩ : [] = t ∧ s = rest := by simpa using h
    exact Covers.refl _

theorem covers_of_build? {s t rest : List Char} (h : build? s = some (t, rest)) :
    Covers s rest := by
  unfold build? at h
  split at h
  · exact (covers_cons (by decide) _).trans (covers_of_identifiers? h)
  · obtain ⟨-, rfl⟩ : [] = t ∧ s = rest := by simpa using h
    exact Covers.refl _

theorem covers_operator? (s : List Char) : Covers s (operator? s).2 := by
  unfold operator?
  split
  · exact covers_cons (by decide) _
  · exact (covers_cons (by decide) _).trans (covers_cons (by decide) _)
  · exact covers_cons (by decide) _
  · exact (covers_cons (by decide) _).trans (covers_cons (by decide) _)
  · exact covers_cons (by decide) _
  · exact covers_cons (by decide) _
  · exact covers_cons (by decide) _
  · exact Covers.refl _

theorem isRangeChar_of_wildcard {c : Char} (h : isWildcard c = true) : isRangeChar c = true := by
  simp only [isWildcard, Bool.or_eq_true, beq_iff_eq] at h
  rcases h with (rfl | rfl) | rfl <;> decide

theorem covers_of_part? {s rest : List Char} {p : Part} (h : part? s = some (p, rest)) :
    Covers s rest := by
  unfold part? at h
  split at h
  · rename_i c r
    have hdot : Covers ('.' :: c :: r) (c :: r) := covers_cons (by decide) _
    split at h
    · rename_i hw
      obtain ⟨-, rfl⟩ : Part.any = p ∧ r = rest := by simpa using h
      exact hdot.trans (covers_cons (isRangeChar_of_wildcard hw) _)
    · obtain ⟨⟨n, r'⟩, hn, he⟩ := Option.map_eq_some_iff.mp h
      obtain ⟨-, rfl⟩ : Part.number n = p ∧ r' = rest := by simpa using he
      exact hdot.trans (covers_of_number? hn)
  · simp at h
  · obtain ⟨-, rfl⟩ : Part.absent = p ∧ s = rest := by simpa using h
    exact Covers.refl _

theorem covers_of_comparator? {s rest : List Char} {c : Comparator}
    (h : comparator? s = some (c, rest)) : Covers s rest := by
  simp only [comparator?, Option.bind_eq_bind, Option.bind_eq_some_iff] at h
  obtain ⟨⟨major, s₁⟩, h₁, ⟨minor, s₂⟩, h₂, ⟨patch, s₃⟩, h₃, h⟩ := h
  have hfront : Covers s s₃ :=
    (covers_operator? s).trans <| (covers_skipSpaces _).trans <| (covers_of_number? h₁).trans <|
      (covers_of_part? h₂).trans (covers_of_part? h₃)
  cases hw : patch.toOption.isSome with
  | false =>
    simp only [hw, Bool.false_eq_true, if_false, Option.bind_some] at h
    split at h
    · simp at h
    · obtain ⟨-, rfl⟩ : _ = c ∧ skipSpaces s₃ = rest := by simpa using h
      exact hfront.trans (covers_skipSpaces s₃)
  | true =>
    -- pre-release and build metadata are read behind three numbers only
    simp only [hw, if_true] at h
    split at h
    · simp at h
    · obtain ⟨⟨pre, s₄⟩, h₄, h⟩ := Option.bind_eq_some_iff.mp h
      obtain ⟨⟨build, s₅⟩, h₅, he⟩ := Option.bind_eq_some_iff.mp h
      obtain ⟨-, rfl⟩ : _ = c ∧ skipSpaces s₅ = rest := by simpa using he
      exact hfront.trans <| (covers_of_pre? h₄).trans <| (covers_of_build? h₅).trans
        (covers_skipSpaces s₅)

theorem ofRange_of_comparators? {n : Nat} {s : List Char} {cs : List Comparator}
    (h : comparators? n s = some cs) : OfRange s := by
  induction n generalizing s cs with
  | zero => simp [comparators?] at h
  | succ n ih =>
    simp only [comparators?, Option.bind_eq_bind, Option.bind_eq_some_iff] at h
    obtain ⟨⟨c, rest⟩, hc, h⟩ := h
    have hs := covers_of_comparator? hc
    split at h
    · rename_i hr
      obtain rfl : rest = [] := hr
      exact hs.ofRange (by intro x hx; simp at hx)
    · rename_i r hr
      obtain rfl : rest = ',' :: r := hr
      obtain ⟨cs', hcs, -⟩ := Option.map_eq_some_iff.mp h
      have hr : Covers (',' :: r) (skipSpaces r) :=
        (covers_cons (by decide) r).trans (covers_skipSpaces r)
      exact hs.ofRange (hr.ofRange (ih hcs))
    · simp at h

theorem ofRange_of_parse? {s : List Char} {r : Requirement} (h : Requirement.parse? s = some r) :
    OfRange s := by
  apply (covers_skipSpaces s).ofRange
  unfold Requirement.parse? at h
  split at h
  · rename_i c r' hs
    rw [hs]
    split at h
    · rename_i hw
      split at h
      · rename_i hr
        apply (covers_cons (isRangeChar_of_wildcard hw) r').ofRange
        apply (covers_skipSpaces r').ofRange
        rw [hr]
        intro x hx
        simp at hx
      · simp at h
    · exact ofRange_of_comparators? h
  · simp at h

/-! ## Ranges -/

theorem ofRange_of_digitsValue? {s : List Char} {acc n : Nat} (h : digitsValue? acc s = some n) :
    OfRange s := by
  induction s generalizing acc with
  | nil => intro c hc; simp at hc
  | cons x r ih =>
    obtain ⟨d, hd, hr⟩ := Option.bind_eq_some_iff.mp h
    exact (covers_cons (isRangeChar_of_digit (by simp [isDigit, hd])) r).ofRange (ih hr)

theorem ofRange_of_digitsBelow? {s : List Char} {limit n : Nat}
    (h : digitsBelow? limit s = some n) : OfRange s := by
  unfold digitsBelow? at h
  split at h
  · simp at h
  · exact ofRange_of_digitsValue? (Option.filter_eq_some_iff.mp h).1

theorem ofRange_of_naturalBelow? {s : List Char} {limit n : Nat}
    (h : naturalBelow? limit s = some n) : OfRange s := by
  unfold naturalBelow? at h
  split at h
  · exact (covers_cons (by decide) _).ofRange (ofRange_of_digitsBelow? h)
  · exact ofRange_of_digitsBelow? h

theorem mem_intercalate {sep : List Char} {ts : List (List Char)} {t : List Char} (h : t ∈ ts)
    {c : Char} (hc : c ∈ t) : c ∈ sep.intercalate ts := by
  induction ts with
  | nil => simp at h
  | cons u us ih =>
    cases us with
    | nil =>
      obtain rfl : t = u := by simpa using h
      simpa using hc
    | cons v vs =>
      rw [List.intercalate_cons_cons, List.mem_append, List.mem_append]
      rcases List.mem_cons.mp h with rfl | ht
      · exact Or.inl (Or.inl hc)
      · exact Or.inr (ih ht)

namespace Range

theorem mem_of_joinOperators {ts us : List (List Char)} (h : joinOperators ts = some us)
    {t : List Char} (ht : t ∈ ts) {c : Char} (hc : c ∈ t) : ∃ u ∈ us, c ∈ u := by
  fun_induction joinOperators ts generalizing us with
  | case1 => simp at ht
  | case2 t' hop => simp at h
  | case3 t' hop =>
    obtain rfl : [t'] = us := by simpa using h
    exact ⟨t, ht, hc⟩
  | case4 t' u rest hop ih =>
    obtain ⟨vs, hvs, rfl⟩ := Option.map_eq_some_iff.mp h
    rcases List.mem_cons.mp ht with rfl | ht
    · exact ⟨t ++ u, by simp, by simp [hc]⟩
    · rcases List.mem_cons.mp ht with rfl | ht
      · exact ⟨t' ++ t, by simp, by simp [hc]⟩
      · obtain ⟨v, hv, hcv⟩ := ih hvs ht
        exact ⟨v, by simp [hv], hcv⟩
  | case5 t' u rest hop ih =>
    obtain ⟨vs, hvs, rfl⟩ := Option.map_eq_some_iff.mp h
    rcases List.mem_cons.mp ht with rfl | ht
    · exact ⟨t, by simp, hc⟩
    · obtain ⟨v, hv, hcv⟩ := ih hvs ht
      exact ⟨v, by simp [hv], hcv⟩

theorem ofRange_of_looksLikeVersion {s : List Char} (h : looksLikeVersion s = true) : OfRange s := by
  intro c hc
  have hall := List.all_eq_true.mp (Bool.and_eq_true_iff.mp h).2 c hc
  simp only [Bool.or_eq_true, beq_iff_eq] at hall
  rcases hall with ((hi | rfl) | rfl) | rfl
  · exact isRangeChar_of_identifier hi
  · decide
  · decide
  · decide

theorem ofRange_of_hyphenRange? {s r : List Char} (h : hyphenRange? s = some r) : OfRange s := by
  obtain ⟨⟨a, b⟩, hcut, h⟩ := Option.bind_eq_some_iff.mp h
  simp only at h
  split at h
  · rename_i hv
    obtain ⟨ha, hb⟩ := Bool.and_eq_true_iff.mp hv
    rw [eq_append_of_cutText hcut]
    apply ofRange_append (ofRange_append _ _)
    · exact ofRange_of_blank_or_mem_trim (ofRange_of_looksLikeVersion hb)
    · exact ofRange_of_blank_or_mem_trim (ofRange_of_looksLikeVersion ha)
    · exact ofRange_of_all (by decide)
  · simp at h

theorem ofRange_of_splitAll {s : List Char} (h : ∀ t ∈ splitAll '.' s, OfRange t) : OfRange s := by
  rw [← intercalate_splitAll '.' s]
  generalize splitAll '.' s = ts at h
  induction ts with
  | nil => intro c hc; simp at hc
  | cons t us ih =>
    cases us with
    | nil => simpa using h t
    | cons u us =>
      rw [List.intercalate_cons_cons]
      apply ofRange_append (ofRange_append (h t (by simp)) (ofRange_of_all (by decide)))
      exact ih fun v hv => h v (List.mem_cons_of_mem t hv)

private theorem ofRange_of_any {w : List Char}
    (h : (w == ['x'] || w == ['X'] || w == ['*']) = true) : OfRange w := by
  simp only [Bool.or_eq_true, beq_iff_eq] at h
  rcases h with (rfl | rfl) | rfl <;> exact ofRange_of_all (by decide)

theorem ofRange_of_expandWildcard {s r : List Char} (h : expandWildcard s = .ok r)
    (hr : OfRange r) : OfRange s := by
  unfold expandWildcard at h
  split at h
  · rename_i major w hs
    split at h
    · rename_i m hw hm
      apply ofRange_of_splitAll
      rw [hs]
      simpa using ⟨ofRange_of_naturalBelow? hm, ofRange_of_any hw⟩
    · cases h; exact hr
  · rename_i major minor w hs
    split at h
    · rename_i m n hw hm hn
      apply ofRange_of_splitAll
      rw [hs]
      simpa using ⟨ofRange_of_naturalBelow? hm, ofRange_of_naturalBelow? hn, ofRange_of_any hw⟩
    · cases h; exact hr
  · cases h; exact hr

theorem ofRange_of_canonicalWord {s r : List Char} (h : canonicalWord s = .ok r)
    (hr : OfRange r) : OfRange s := by
  unfold canonicalWord at h
  split at h
  · rename_i hn
    intro c hc
    exact isRangeChar_of_digit (List.all_eq_true.mp (Bool.and_eq_true_iff.mp hn).2 c hc)
  · split at h
    · exact ofRange_of_expandWildcard h hr
    · cases h; exact hr

theorem ofRange_of_words {s r : List Char}
    (h : ((joinOperators (words s)).map commaSeparated).getD s = r) (hr : OfRange r) :
    OfRange s := by
  cases hj : joinOperators (words s) with
  | none =>
    obtain rfl : s = r := by simpa [hj] using h
    exact hr
  | some us =>
    obtain rfl : commaSeparated us = r := by simpa [hj] using h
    intro c hc
    rcases mem_words hc with hb | ⟨w, hw, hcw⟩
    · exact isRangeChar_of_blank hb
    · obtain ⟨u, hu, hcu⟩ := mem_of_joinOperators hj hw hcw
      exact hr c (mem_intercalate hu hcu)

theorem ofRange_of_canonical {s r : List Char} (h : canonical s = .ok r) (hr : OfRange r) :
    OfRange s := by
  apply ofRange_of_blank_or_mem_trim
  simp only [canonical] at h
  split at h
  · rename_i hs
    rcases hs with hs | hs | hs <;> rw [hs] <;> exact ofRange_of_all (by decide)
  split at h
  · cases h; exact hr
  split at h
  · cases h
    exact fun c hc => hr c (List.mem_cons_of_mem '=' hc)
  split at h
  · rename_i r' hh
    exact ofRange_of_hyphenRange? hh
  split at h
  · exact ofRange_of_words (Except.ok.inj h) hr
  · exact ofRange_of_canonicalWord h hr

theorem ofRange_of_isAlternative {s : List Char} (h : isAlternative s = .ok true) :
    OfRange s := by
  unfold isAlternative at h
  cases hc : canonical s with
  | error e => simp [hc, bind, Except.bind] at h
  | ok r =>
    apply ofRange_of_canonical hc
    have hr : (r == ['*'] || (Requirement.parse? r).isSome) = true := by
      simpa [hc, bind, Except.bind, pure, Except.pure] using h
    rcases Bool.or_eq_true_iff.mp hr with he | hp
    · rw [beq_iff_eq.mp he]
      exact ofRange_of_all (by decide)
    · obtain ⟨q, hq⟩ := Option.isSome_iff_exists.mp hp
      exact ofRange_of_parse? hq

theorem ofRange_of_allAlternatives {ts : List (List Char)} (h : allAlternatives ts = .ok true) :
    ∀ t ∈ ts, OfRange t := by
  induction ts with
  | nil => simp
  | cons s rest ih =>
    simp only [allAlternatives] at h
    split at h
    · simp at h
    · cases ha : isAlternative (trim s) with
      | error e => simp [ha, bind, Except.bind] at h
      | ok b =>
        cases b with
        | false => simp [ha, bind, Except.bind] at h
        | true =>
          have hrest : allAlternatives rest = .ok true := by
            simpa [ha, bind, Except.bind] using h
          intro t ht
          rcases List.mem_cons.mp ht with rfl | ht
          · exact ofRange_of_blank_or_mem_trim (ofRange_of_isAlternative ha)
          · exact ih hrest t ht

/-- **A range has range characters only.** -/
theorem ofRange_of_isRange {s : List Char} (h : isRange s = .ok true) : OfRange s := by
  apply ofRange_of_blank_or_mem_trim
  simp only [isRange] at h
  split at h
  · simp at h
  split at h
  · intro c hc
    have hpart : c ∈ "||".toList ∨ ∃ t ∈ splitAllText "||".toList (trim s), c ∈ t :=
      mem_splitAllText hc
    rcases hpart with hb | ⟨t, ht, hct⟩
    · obtain rfl : c = '|' := by simpa using hb
      decide
    · exact ofRange_of_allAlternatives h t ht c hct
  · exact ofRange_of_isAlternative h

end Range

end OfflineCache.Version
