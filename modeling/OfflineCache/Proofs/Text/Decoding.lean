import Mathlib.Data.String.Defs
import OfflineCache.Text.Percent

/-! Where a decoded text begins. A byte from 128 on is never read as an ASCII character, whatever
follows it, since no sequence of UTF-8 is longer than it has to be; so a decoded text begins with a
hyphen only if the text does, or its first escape is that of one. -/

namespace OfflineCache.Text

namespace Utf8

theorem ne_zero_of_sequence {lead lo hi : UInt8} {n : Nat} (hs : sequence lead = some (n, lo, hi)) :
    n ≠ 0 := by
  rintro rfl
  unfold sequence at hs
  repeat' split at hs
  all_goals simp at hs

/-- The lead byte and the first byte behind it rule out the values of shorter sequences. -/
theorem le_of_sequence {lead b lo hi : UInt8} {n : Nat} (hs : sequence lead = some (n + 1, lo, hi))
    (hb : lo ≤ b) :
    128 ≤ (lead.toNat % Nat.pow 2 (6 - (n + 1)) * 64 + (b.toNat - 0x80)) * Nat.pow 64 n := by
  have hb := UInt8.le_iff_toNat_le.mp hb
  unfold sequence at hs
  simp only [UInt8.lt_iff_toNat_lt, UInt8.le_iff_toNat_le, ← UInt8.toNat_inj] at hs
  repeat' split at hs
  all_goals simp only [Option.some.injEq, Prod.mk.injEq, reduceCtorEq] at hs
  all_goals
    obtain ⟨hn, rfl, -⟩ := hs
    obtain rfl := Nat.succ.inj hn
    simp only [UInt8.reduceToNat, Nat.pow_eq, Nat.reduceAdd, Nat.reduceSub, Nat.reducePow] at *
    omega

theorem le_foldl (tail : Bytes) (v : Nat) :
    v * Nat.pow 64 tail.length ≤ tail.foldl (fun v b => v * 64 + (b.toNat - 0x80)) v := by
  induction tail generalizing v with
  | nil => simp
  | cons b tail ih =>
    have hv : v * 64 ≤ v * 64 + (b.toNat - 0x80) := Nat.le_add_right _ _
    rw [List.length_cons, Nat.pow_eq, Nat.pow_succ', ← Nat.mul_assoc, List.foldl_cons]
    exact Nat.le_trans (Nat.mul_le_mul_right _ hv) (ih _)

/-- The value of a whole sequence is not that of a single byte. -/
theorem le_scalarValue {lead : UInt8} {n : Nat} {lo hi : UInt8}
    (hs : sequence lead = some (n + 1, lo, hi)) {rest : Bytes}
    (hl : (continuation (n + 1) lo hi rest).length = n + 1) :
    128 ≤ scalarValue (n + 1) lead (continuation (n + 1) lo hi rest) := by
  cases rest with
  | nil => simp [continuation] at hl
  | cons b r =>
    rw [continuation] at hl ⊢
    split at hl
    · rename_i hb
      rw [if_pos hb]
      have hlength : (continuation n 0x80 0xBF r).length = n := Nat.succ.inj hl
      have hfirst := le_of_sequence hs hb.1
      rw [scalarValue, List.foldl_cons]
      have hfold := le_foldl (continuation n 0x80 0xBF r)
        (lead.toNat % Nat.pow 2 (6 - (n + 1)) * 64 + (b.toNat - 0x80))
      rw [hlength] at hfold
      exact Nat.le_trans hfirst hfold
    · simp at hl

theorem ofNat_ne_hyphen {v : Nat} (h : 128 ≤ v) : Char.ofNat v ≠ '-' := by
  intro he
  unfold Char.ofNat at he
  by_cases hv : v.isValidChar
  · rw [dif_pos hv] at he
    have hvalue : v = 45 := congrArg Char.toNat he
    omega
  · rw [dif_neg hv] at he
    exact absurd he (by decide)

theorem scan_ne_hyphen (lead : UInt8) (rest : Bytes) : (scan lead rest).1.getD '\uFFFD' ≠ '-' := by
  unfold scan
  split
  · exact (by decide : '\uFFFD' ≠ '-')
  · rename_i n lo hi hs
    simp only
    split
    · rename_i hl
      obtain ⟨n, rfl⟩ := Nat.exists_eq_succ_of_ne_zero (ne_zero_of_sequence hs)
      exact ofNat_ne_hyphen (le_scalarValue hs hl)
    · exact (by decide : '\uFFFD' ≠ '-')

theorem ofNat_eq_hyphen_iff : ∀ n < 128, Char.ofNat n = '-' ↔ n = 45 := by decide

/-- The first byte decides whether a hyphen comes first. -/
theorem decodeLossy_cons (b : UInt8) (bs : Bytes) :
    ∃ c rest, decodeLossy (b :: bs) = c :: rest ∧ (c = '-' ↔ b.toNat = 45) := by
  rw [decodeLossy]
  split
  · rename_i hb
    exact ⟨_, _, rfl, ofNat_eq_hyphen_iff b.toNat (UInt8.lt_iff_toNat_lt.mp hb)⟩
  · rename_i hb
    have hlarge : ¬ b.toNat < 128 := fun h => hb (UInt8.lt_iff_toNat_lt.mpr h)
    refine ⟨_, _, rfl, fun h => absurd h (scan_ne_hyphen b bs), fun h => ?_⟩
    omega

end Utf8

theorem Hex.value?_spec {c : Char} {v : Nat} (h : value? c = some v) :
    v < 16 ∧ (v = 2 ↔ c.toNat = 50) ∧ (v = 13 ↔ c.toNat = 68 ∨ c.toNat = 100) := by
  unfold value? at h
  simp only at h
  repeat' split at h
  all_goals simp only [Option.some.injEq, reduceCtorEq] at h
  all_goals omega

namespace Percent

/-- A run of escaped bytes begins with the character of its first byte. -/
theorem decodeRun_cons (b : UInt8) (bs : Bytes) (s : List Char) :
    ∃ c rest, decodeRun (b :: bs) s = c :: rest ∧ (c = '-' ↔ b.toNat = 45) := by
  generalize hrun : b :: bs = run
  fun_induction decodeRun run s generalizing bs with
  | case1 run => exact hrun ▸ Utf8.decodeLossy_cons b bs
  | case2 run x y rest hi lo hx hy ih => exact ih (bs ++ [_]) (by rw [← hrun]; rfl)
  | case3 run x y rest h ih =>
    obtain ⟨c, more, hc, hiff⟩ := Utf8.decodeLossy_cons b bs
    rw [← hrun, hc]
    exact ⟨c, _, rfl, hiff⟩
  | case4 run x rest h ih =>
    obtain ⟨c, more, hc, hiff⟩ := Utf8.decodeLossy_cons b bs
    rw [← hrun, hc]
    exact ⟨c, _, rfl, hiff⟩

/-- The escape of a hyphen, in two spellings. -/
theorem toNat_escaped {x y : Char} {hi lo : Nat} (hx : Hex.value? x = some hi)
    (hy : Hex.value? y = some lo) :
    (UInt8.ofNat (hi * 16 + lo)).toNat = 45 ↔ x = '2' ∧ (y = 'D' ∨ y = 'd') := by
  obtain ⟨hhi, htwo, -⟩ := Hex.value?_spec hx
  obtain ⟨hlo, -, hthirteen⟩ := Hex.value?_spec hy
  have hchars : '2'.toNat = 50 ∧ 'D'.toNat = 68 ∧ 'd'.toNat = 100 := ⟨rfl, rfl, rfl⟩
  rw [UInt8.toNat_ofNat', Nat.mod_eq_of_lt (by omega), ← Char.toNat_inj, ← Char.toNat_inj,
    ← Char.toNat_inj, hchars.1, hchars.2.1, hchars.2.2, ← htwo, ← hthirteen]
  omega

/-- A text begins with a hyphen or with the escape of one. -/
def LeadsHyphen (s : List Char) : Prop :=
  s.head? = some '-' ∨ "%2D".toList <+: s ∨ "%2d".toList <+: s

theorem leadsHyphen_escape {x y : Char} {rest : List Char} :
    LeadsHyphen ('%' :: x :: y :: rest) ↔ x = '2' ∧ (y = 'D' ∨ y = 'd') := by
  simp [LeadsHyphen, List.cons_prefix_cons, eq_comm, and_or_left]

/-- What is decoded begins where the text does. -/
theorem decode_cons (x : Char) (s : List Char) :
    ∃ c rest, decode (x :: s) = c :: rest ∧ (c = '-' ↔ LeadsHyphen (x :: s)) := by
  unfold decode
  generalize hs : x :: s = text
  fun_cases decodeRun [] text with
  | case1 => cases hs
  | case2 a b rest hi lo hb ha =>
    obtain ⟨c, more, hc, hiff⟩ := decodeRun_cons (UInt8.ofNat (hi * 16 + lo)) [] rest
    exact ⟨c, more, hc, hiff.trans ((toNat_escaped ha hb).trans leadsHyphen_escape.symm)⟩
  | case3 a b rest h =>
    refine ⟨'%', decodeRun [] (a :: b :: rest), by simp [Utf8.decodeLossy], ?_⟩
    refine iff_of_false (by decide) fun hl => ?_
    obtain ⟨rfl, rfl | rfl⟩ := leadsHyphen_escape.mp hl
    · exact h 2 13 rfl rfl
    · exact h 2 13 rfl rfl
  | case4 c rest h =>
    refine ⟨c, decodeRun [] rest, by simp [Utf8.decodeLossy], ?_⟩
    constructor
    · rintro rfl
      exact Or.inl rfl
    · rintro (hc | ⟨more, he⟩ | ⟨more, he⟩)
      · exact Option.some.inj hc
      · obtain ⟨rfl, rfl⟩ : '%' = c ∧ '2' :: 'D' :: more = rest := by simpa using he
        cases h '2' 'D' more rfl rfl
      · obtain ⟨rfl, rfl⟩ : '%' = c ∧ '2' :: 'd' :: more = rest := by simpa using he
        cases h '2' 'd' more rfl rfl

end Percent

end OfflineCache.Text
