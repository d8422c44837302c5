import Mathlib.Data.List.Basic
import OfflineCache.Text.Blank
import OfflineCache.Text.Cut
import OfflineCache.Text.Percent

/-! What trimming, cutting and decoding keep of a text. Trimming and cutting lose blanks and
separators and nothing else, so each of them is undone by putting the separators back; a text
without a percent sign decodes to itself. -/

namespace OfflineCache.Text

/-! ## Trimming -/

/-- Neither end is blank. -/
def Tight (s : List Char) : Prop :=
  (∀ c, s.head? = some c → isBlank c = false) ∧ ∀ c, s.getLast? = some c → isBlank c = false

theorem head_trimStart (s : List Char) (c : Char) (h : (trimStart s).head? = some c) :
    isBlank c = false := by
  have hd := List.head?_dropWhile_not isBlank s
  unfold trimStart at h
  rw [h] at hd
  exact hd

theorem trimEnd_isPrefix (s : List Char) : trimEnd s <+: s := by
  have h := List.reverse_prefix.mpr (List.dropWhile_suffix isBlank (l := s.reverse))
  rw [List.reverse_reverse] at h
  exact h

theorem head_trimEnd (s : List Char) (c : Char) (h : (trimEnd s).head? = some c) :
    s.head? = some c := by
  obtain ⟨t, ht⟩ := trimEnd_isPrefix s
  cases he : trimEnd s with
  | nil => rw [he] at h; simp at h
  | cons x r =>
    rw [he] at h ht
    rw [← ht]
    exact h

theorem trim_tight (s : List Char) : Tight (trim s) := by
  constructor
  · intro c hc
    exact head_trimStart s c (head_trimEnd _ c hc)
  · intro c hc
    have hd := List.head?_dropWhile_not isBlank (trimStart s).reverse
    simp only [trim, trimEnd, List.getLast?_reverse] at hc
    rw [hc] at hd
    exact hd

theorem trim_of_tight {s : List Char} (h : Tight s) : trim s = s := by
  have hs : trimStart s = s := by
    cases s with
    | nil => rfl
    | cons x r => simp [trimStart, h.1 x rfl]
  have he : trimEnd s = s := by
    unfold trimEnd
    cases hr : s.reverse with
    | nil => simpa using hr
    | cons x r =>
      have hx : isBlank x = false := h.2 x (by rw [← List.head?_reverse, hr]; rfl)
      rw [List.dropWhile_cons_of_neg (by simp [hx]), ← hr, List.reverse_reverse]
  rw [trim, hs, he]

theorem tight_of_forall {s : List Char} (h : ∀ c ∈ s, isBlank c = false) : Tight s :=
  ⟨fun c hc => h c (List.mem_of_head? hc), fun c hc => h c (List.mem_of_getLast? hc)⟩

/-- What is tight and has only blanks behind it ends what is left. -/
theorem trim_append {a t b : List Char} (ht : Tight t) (hne : t ≠ [])
    (hb : ∀ c ∈ b, isBlank c = true) : trim (a ++ t ++ b) = trimStart a ++ t := by
  have hback : ∀ s : List Char, trimEnd (s ++ t ++ b) = s ++ t := by
    intro s
    obtain ⟨y, r, hr⟩ := List.exists_cons_of_ne_nil (List.reverse_ne_nil_iff.mpr hne)
    have hy : isBlank y = false := ht.2 y (by rw [← List.head?_reverse, hr]; rfl)
    unfold trimEnd
    rw [List.reverse_append, List.dropWhile_append_of_pos fun c hc => hb c (List.mem_reverse.mp hc),
      List.reverse_append, hr, List.cons_append, List.dropWhile_cons_of_neg (by simp [hy]),
      ← List.cons_append, ← hr, ← List.reverse_append, List.reverse_reverse]
  have hfront : trimStart (a ++ t ++ b) = trimStart a ++ t ++ b := by
    obtain ⟨x, r, rfl⟩ := List.exists_cons_of_ne_nil hne
    have hx : isBlank x = false := ht.1 x rfl
    unfold trimStart
    rw [List.append_assoc, List.dropWhile_append]
    split
    · rename_i he
      rw [List.isEmpty_iff.mp he, List.cons_append, List.dropWhile_cons_of_neg (by simp [hx])]
      rfl
    · rw [List.append_assoc]
  rw [trim, hfront, hback]

/-- A tight text stays tight when its end is exchanged for one with the same last character. -/
theorem Tight.append_congr {a r r' : List Char} (h : Tight (a ++ r)) (ha : a ≠ []) (hr : r ≠ [])
    (hl : r'.getLast? = r.getLast?) : Tight (a ++ r') := by
  obtain ⟨x, a, rfl⟩ := List.exists_cons_of_ne_nil ha
  constructor
  · intro c hc
    exact h.1 c hc
  · intro c hc
    rw [List.getLast?_append, hl] at hc
    refine h.2 c ?_
    rw [List.getLast?_append]
    cases hg : r.getLast? with
    | none => exact absurd (List.getLast?_eq_none_iff.mp hg) hr
    | some y => rw [hg] at hc; exact hc

private theorem blank_or_mem_dropWhile {s : List Char} {c : Char} (h : c ∈ s) :
    isBlank c = true ∨ c ∈ s.dropWhile isBlank := by
  rw [← List.takeWhile_append_dropWhile (p := isBlank) (l := s), List.mem_append] at h
  rcases h with h | h
  · exact Or.inl (List.all_eq_true.mp List.all_takeWhile c h)
  · exact Or.inr h

theorem blank_or_mem_trim {s : List Char} {c : Char} (h : c ∈ s) :
    isBlank c = true ∨ c ∈ trim s := by
  rcases blank_or_mem_dropWhile h with hb | hs
  · exact Or.inl hb
  · rcases blank_or_mem_dropWhile (List.mem_reverse.mpr hs) with hb | he
    · exact Or.inl hb
    · exact Or.inr (List.mem_reverse.mpr he)

/-! ## Cutting -/

theorem eq_append_of_cutText {sep s a b : List Char} (h : cutText sep s = some (a, b)) :
    s = a ++ sep ++ b := by
  induction s generalizing a b with
  | nil =>
    simp only [cutText] at h
    split at h <;> simp_all
  | cons x r ih =>
    simp only [cutText] at h
    split at h
    · rename_i rest hp
      obtain ⟨rfl, rfl⟩ : [] = a ∧ rest = b := by simpa using h
      simpa using (List.append_eq_of_isPrefixOf?_eq_some hp).symm
    · obtain ⟨⟨a', b'⟩, h', he⟩ := Option.map_eq_some_iff.mp h
      obtain ⟨rfl, rfl⟩ : x :: a' = a ∧ b' = b := by simpa using he
      rw [ih h']
      simp

theorem mem_sep_of_cutText {sep s : List Char} {p : List Char × List Char}
    (h : cutText sep s = some p) {c : Char} (hc : c ∈ sep) : c ∈ s := by
  rw [eq_append_of_cutText (a := p.1) (b := p.2) h]
  simp [hc]

theorem cutText_eq_none {sep s : List Char} {c : Char} (hc : c ∈ sep) (hs : c ∉ s) :
    cutText sep s = none := by
  cases h : cutText sep s with
  | none => rfl
  | some p => exact absurd (mem_sep_of_cutText h hc) hs

theorem not_prefix_of_isPrefixOf?_eq_none {sep s : List Char}
    (h : sep.isPrefixOf? s = none) : ¬ sep <+: s := by
  rintro ⟨rest, hrest⟩
  rw [List.isPrefixOf?_eq_some_iff_append_eq.mpr hrest] at h
  cases h

theorem not_infix_of_cutText_eq_none {sep s : List Char} (h : cutText sep s = none) :
    ¬ sep <:+: s := by
  induction s with
  | nil =>
    simp only [cutText, ite_eq_right_iff] at h
    rw [List.infix_nil]
    exact fun hsep => nomatch h hsep
  | cons x r ih =>
    simp only [cutText] at h
    split at h
    · cases h
    · rename_i hp
      rw [List.infix_cons_iff]
      exact fun hin => hin.elim (not_prefix_of_isPrefixOf?_eq_none hp)
        (ih (Option.map_eq_none_iff.mp h))

/-- A text is cut at the first occurrence. -/
theorem not_infix_of_cutText {sep s a b : List Char} (hsep : sep ≠ [])
    (h : cutText sep s = some (a, b)) : ¬ sep <:+: a := by
  induction s generalizing a b with
  | nil =>
    simp only [cutText, if_neg hsep] at h
    cases h
  | cons x r ih =>
    have hs := eq_append_of_cutText h
    simp only [cutText] at h
    split at h
    · obtain ⟨rfl, -⟩ := Prod.mk.inj (Option.some.inj h)
      rwa [List.infix_nil]
    · rename_i hp
      obtain ⟨⟨a', b'⟩, hcut, he⟩ := Option.map_eq_some_iff.mp h
      obtain ⟨rfl, rfl⟩ := Prod.mk.inj he
      rw [List.infix_cons_iff]
      rintro (hstarts | hinfix)
      · refine not_prefix_of_isPrefixOf?_eq_none hp ?_
        rw [hs, List.append_assoc]
        exact hstarts.trans (List.prefix_append _ _)
      · exact ih hcut hinfix

theorem cutLast_append {c : Char} {a b : List Char} (h : c ∉ b) :
    cutLast c (a ++ c :: b) = some (a, b) := by
  have hcut : cut c (b.reverse ++ c :: a.reverse) = some (b.reverse, a.reverse) :=
    cut_append fun hm => h (List.mem_reverse.mp hm)
  rw [cutLast, List.reverse_append, List.reverse_cons, List.append_assoc, List.singleton_append,
    hcut]
  simp

theorem cutLast_eq_none {c : Char} {s : List Char} (h : c ∉ s) : cutLast c s = none := by
  rw [cutLast, cut_eq_none_iff.mpr fun hm => h (List.mem_reverse.mp hm)]
  rfl

theorem splitAll_ne_nil (c : Char) (s : List Char) : splitAll c s ≠ [] := by
  cases s with
  | nil => simp [splitAll]
  | cons x r => simp only [splitAll]; split <;> (try split) <;> simp

/-- The pieces with their separators between them are the text. -/
theorem intercalate_splitAll (c : Char) (s : List Char) : [c].intercalate (splitAll c s) = s := by
  induction s with
  | nil => rfl
  | cons x r ih =>
    simp only [splitAll]
    cases hr : splitAll c r with
    | nil => exact absurd hr (splitAll_ne_nil c r)
    | cons w ws =>
      rw [hr] at ih
      by_cases hx : x = c
      · rw [if_pos hx, List.intercalate_cons_cons, ih, hx]
        simp
      · rw [if_neg hx]
        cases ws with
        | nil => simpa using ih
        | cons v vs =>
          rw [List.intercalate_cons_cons] at ih ⊢
          rw [List.cons_append, List.cons_append, ih]

theorem notMem_of_mem_splitAll {c : Char} {s p : List Char} (h : p ∈ splitAll c s) : c ∉ p := by
  induction s generalizing p with
  | nil =>
    obtain rfl : p = [] := by simpa [splitAll] using h
    simp
  | cons x r ih =>
    simp only [splitAll] at h
    split at h
    · rcases List.mem_cons.mp h with rfl | h
      · simp
      · exact ih h
    · rename_i hx
      split at h
      · obtain rfl : p = [x] := by simpa using h
        simpa using Ne.symm hx
      · rename_i w ws hw
        rcases List.mem_cons.mp h with rfl | h
        · have := ih (p := w) (by rw [hw]; simp)
          simp [this, Ne.symm hx]
        · exact ih (by rw [hw]; simp [h])

/-- A character other than the separator is in the text if it is in one of its pieces. -/
theorem mem_iff_mem_splitAll {c x : Char} (hx : x ≠ c) (s : List Char) :
    x ∈ s ↔ ∃ p ∈ splitAll c s, x ∈ p := by
  induction s with
  | nil => simp [splitAll]
  | cons y r ih =>
    rw [List.mem_cons, ih, splitAll]
    by_cases hy : y = c
    · have hne : x ≠ y := hy ▸ hx
      simp [hy, hx]
    · rw [if_neg hy]
      cases splitAll c r <;> simp [or_assoc]

theorem splitAll_append {c : Char} {a : List Char} (h : c ∉ a) (s : List Char) :
    splitAll c (a ++ c :: s) = a :: splitAll c s := by
  induction a with
  | nil => simp [splitAll]
  | cons x a ih =>
    obtain ⟨hx, ha⟩ : c ≠ x ∧ c ∉ a := by simpa using h
    rw [List.cons_append, splitAll, if_neg (Ne.symm hx), ih ha]

theorem splitAll_of_notMem {c : Char} {a : List Char} (h : c ∉ a) : splitAll c a = [a] := by
  induction a with
  | nil => rfl
  | cons x a ih =>
    obtain ⟨hx, ha⟩ : c ≠ x ∧ c ∉ a := by simpa using h
    rw [splitAll, if_neg (Ne.symm hx), ih ha]

private theorem mem_go_splitAllText {sep : List Char} (n : Nat) {s : List Char} {c : Char}
    (h : c ∈ s) : c ∈ sep ∨ ∃ p ∈ splitAllText.go sep n s, c ∈ p := by
  induction n generalizing s with
  | zero => exact Or.inr ⟨s, by simp [splitAllText.go], h⟩
  | succ n ih =>
    simp only [splitAllText.go]
    cases hs : cutText sep s with
    | none => exact Or.inr ⟨s, by simp, h⟩
    | some p =>
      obtain ⟨a, b⟩ := p
      rw [eq_append_of_cutText hs, List.mem_append, List.mem_append] at h
      rcases h with (ha | hsep) | hb
      · exact Or.inr ⟨a, by simp, ha⟩
      · exact Or.inl hsep
      · rcases ih hb with h' | ⟨q, hq, hc⟩
        · exact Or.inl h'
        · exact Or.inr ⟨q, by simp [hq], hc⟩

theorem mem_splitAllText {sep s : List Char} {c : Char} (h : c ∈ s) :
    c ∈ sep ∨ ∃ p ∈ splitAllText sep s, c ∈ p := mem_go_splitAllText s.length h

/-- What is no separator stands in one of the pieces. -/
theorem mem_splitWhen {p : Char → Bool} {s : List Char} {c : Char} (h : c ∈ s) :
    p c = true ∨ ∃ w ∈ splitWhen p s, c ∈ w := by
  induction s with
  | nil => simp at h
  | cons x r ih =>
    simp only [splitWhen]
    cases hx : p x with
    | true =>
      rcases List.mem_cons.mp h with rfl | hr
      · exact Or.inl hx
      · rcases ih hr with h' | ⟨w, hw, hc⟩
        · exact Or.inl h'
        · exact Or.inr ⟨w, by simp [hw], hc⟩
    | false =>
      cases hw : splitWhen p r with
      | nil => exact absurd hw (splitWhen_ne_nil p r)
      | cons w ws =>
        rw [hw] at ih
        rcases List.mem_cons.mp h with rfl | hr
        · exact Or.inr ⟨c :: w, by simp, by simp⟩
        · rcases ih hr with h' | ⟨v, hv, hc⟩
          · exact Or.inl h'
          · rcases List.mem_cons.mp hv with rfl | hv
            · exact Or.inr ⟨x :: v, by simp, by simp [hc]⟩
            · exact Or.inr ⟨v, by simp [hv], hc⟩

theorem mem_words {s : List Char} {c : Char} (h : c ∈ s) :
    isBlank c = true ∨ ∃ w ∈ words s, c ∈ w := by
  rcases mem_splitWhen (p := isBlank) h with hb | ⟨w, hw, hc⟩
  · exact Or.inl hb
  · refine Or.inr ⟨w, List.mem_filter.mpr ⟨hw, ?_⟩, hc⟩
    cases w with
    | nil => simp at hc
    | cons _ _ => rfl

/-! ## Decoding -/

theorem Percent.decode_of_notMem {s : List Char} (h : '%' ∉ s) : Percent.decode s = s := by
  unfold Percent.decode
  induction s with
  | nil => simp [Percent.decodeRun, Utf8.decodeLossy]
  | cons c r ih =>
    obtain ⟨hc, hr⟩ : '%' ≠ c ∧ '%' ∉ r := by simpa using h
    rw [Percent.decodeRun, ih hr]
    · simp [Utf8.decodeLossy]
    · intro a b rest hc' _
      exact hc hc'.symm

end OfflineCache.Text
