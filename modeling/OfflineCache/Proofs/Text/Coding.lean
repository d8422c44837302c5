import Mathlib.Data.List.Basic
import OfflineCache.Text.Base64
import OfflineCache.Text.Blank
import OfflineCache.Text.Hex

/-! Bytes written as text and read back. Hexadecimal text reads back in every choice of letter case
(`Hex.decode_of_toLower`) and what is read has two digits a byte; base64 text reads back as it is
written (`Base64.decode?_encode`). -/

namespace OfflineCache.Text

theorem Utf8.length_encode (s : List Char) : (Utf8.encode s).length = Utf8.length s := by
  induction s with
  | nil => rfl
  | cons c s ih =>
    rw [Utf8.length_cons, ← ih, Utf8.encode, List.flatMap_cons, List.length_append,
      String.length_utf8EncodeChar]
    rfl

theorem Utf8.encode_cons_of_lt {c : Char} (h : c.toNat < 128) (s : List Char) :
    Utf8.encode (c :: s) = UInt8.ofNat c.toNat :: Utf8.encode s := by
  have hc : String.utf8EncodeChar c = [UInt8.ofNat c.toNat] := if_pos (Nat.le_of_lt_succ h)
  rw [Utf8.encode, List.flatMap_cons, hc]
  rfl

/-! ## Hexadecimal -/

namespace Hex

theorem lt_of_value? {c : Char} {v : Nat} (h : value? c = some v) : c.toNat < 128 := by
  unfold value? at h
  simp only at h
  split at h
  · omega
  · split at h
    · omega
    · split at h
      · omega
      · cases h

private theorem value?_capital : ∀ n < 26,
    value? (Char.ofNat (n + 65)).toLower = value? (Char.ofNat (n + 65)) := by decide

/-- Letters of either case have the same value. -/
theorem value?_toLower (c : Char) : value? c.toLower = value? c := by
  by_cases hc : c.val ≥ 'A'.val ∧ c.val ≤ 'Z'.val
  · have hlow : 65 ≤ c.toNat := UInt32.le_iff_toNat_le.mp hc.1
    have hhigh : c.toNat ≤ 90 := UInt32.le_iff_toNat_le.mp hc.2
    have hcapital := value?_capital (c.toNat - 65) (by omega)
    rwa [Nat.sub_add_cancel hlow, Char.ofNat_toNat] at hcapital
  · have hsame : c.toLower = c := dif_neg hc
    rw [hsame]

theorem value?_digit : ∀ n < 16, value? (digit n) = some n := by decide

theorem encode_cons (b : UInt8) (bs : Bytes) :
    encode (b :: bs) = digit (b.toNat / 16) :: digit (b.toNat % 16) :: encode bs := rfl

theorem length_encode (bs : Bytes) : (encode bs).length = 2 * bs.length := by
  induction bs with
  | nil => rfl
  | cons b bs ih =>
    simp only [encode_cons, List.length_cons, ih]
    omega

theorem value?_of_mem_encode {c : Char} {bs : Bytes} (h : c ∈ encode bs) :
    ∃ v, value? c = some v := by
  obtain ⟨b, -, hc⟩ := List.mem_flatMap.mp h
  have hb := b.toNat_lt
  rcases List.mem_pair.mp hc with rfl | rfl
  · exact ⟨_, value?_digit _ (by omega)⟩
  · exact ⟨_, value?_digit _ (by omega)⟩

theorem not_isBlank_of_value? {c : Char} {v : Nat} (h : value? c = some v) : isBlank c = false := by
  have hrange : (0x30 ≤ c.toNat ∧ c.toNat ≤ 0x39) ∨ (0x61 ≤ c.toNat ∧ c.toNat ≤ 0x66) ∨
      (0x41 ≤ c.toNat ∧ c.toNat ≤ 0x46) := by
    by_contra hnot
    simp only [not_or] at hnot
    simp [value?, hnot] at h
  simp only [isBlank, Bool.or_eq_false_iff, Bool.and_eq_false_iff, decide_eq_false_iff_not,
    beq_eq_false_iff_ne]
  omega

variable {h : List Char} {bs : Bytes}

theorem value?_of_mem (hh : h.map Char.toLower = encode bs) {c : Char} (hc : c ∈ h) :
    ∃ v, value? c = some v := by
  rw [← value?_toLower]
  exact value?_of_mem_encode (hh ▸ List.mem_map_of_mem hc)

theorem length_utf8_of_toLower (hh : h.map Char.toLower = encode bs) :
    Utf8.length h = 2 * bs.length := by
  have hsize : ∀ h : List Char, (∀ c ∈ h, ∃ v, value? c = some v) → Utf8.length h = h.length := by
    intro h hall
    rw [← Utf8.length_encode]
    induction h with
    | nil => rfl
    | cons c h ih =>
      obtain ⟨v, hv⟩ := hall c (by simp)
      rw [Utf8.encode_cons_of_lt (lt_of_value? hv), List.length_cons, List.length_cons,
        ih fun d hd => hall d (List.mem_cons_of_mem c hd)]
  rw [hsize h fun c hc => value?_of_mem hh hc, ← length_encode, ← hh, List.length_map]

theorem decodeFrom_of_toLower (hh : h.map Char.toLower = encode bs) (index : Nat) :
    decodeFrom index (Utf8.encode h) = .ok bs := by
  induction bs generalizing h index with
  | nil =>
    obtain rfl := List.map_eq_nil_iff.mp hh
    rfl
  | cons b bs ih =>
    have hb := b.toNat_lt
    rw [encode_cons] at hh
    obtain ⟨x, h, rfl, hx, hh⟩ := List.map_eq_cons_iff.mp hh
    obtain ⟨y, h, rfl, hy, hh⟩ := List.map_eq_cons_iff.mp hh
    have hread : ∀ {c : Char} {n : Nat}, n < 16 → c.toLower = digit n →
        c.toNat < 128 ∧ value? (Char.ofNat (UInt8.ofNat c.toNat).toNat) = some n := by
      intro c n hn hc
      have hv : value? c = some n := by rw [← value?_toLower, hc, value?_digit n hn]
      have hlt := lt_of_value? hv
      refine ⟨hlt, ?_⟩
      rw [UInt8.toNat_ofNat', Nat.mod_eq_of_lt (by omega), Char.ofNat_toNat, hv]
    obtain ⟨hxlt, hxv⟩ := hread (by omega) hx
    obtain ⟨hylt, hyv⟩ := hread (by omega) hy
    rw [Utf8.encode_cons_of_lt hxlt, Utf8.encode_cons_of_lt hylt, decodeFrom_digits hxv hyv, ih hh,
      Nat.div_add_mod', UInt8.ofNat_toNat]
    rfl

/-- **Hexadecimal text reads back** in every choice of letter case. -/
theorem decode_of_toLower (hh : h.map Char.toLower = encode bs) : decode h = .ok bs := by
  have hlen : (Utf8.encode h).length = 2 * bs.length := by
    rw [Utf8.length_encode, length_utf8_of_toLower hh]
  rw [decode, hlen, if_neg (by omega), decodeFrom_of_toLower hh]

/-- What is read has two digits a byte. -/
theorem length_of_decode (hd : decode h = .ok bs) : Utf8.length h = 2 * bs.length := by
  simp only [decode] at hd
  split at hd
  · cases hd
  · rw [← Utf8.length_encode]
    exact length_of_decodeFrom hd

theorem toLower_digit : ∀ n < 16, (digit n).toLower = digit n := by decide

theorem encode_toLower (bs : Bytes) : (encode bs).map Char.toLower = encode bs := by
  induction bs with
  | nil => rfl
  | cons b bs ih =>
    have hb := b.toNat_lt
    rw [encode_cons, List.map_cons, List.map_cons, ih, toLower_digit _ (by omega),
      toLower_digit _ (by omega)]

theorem encode_injective {bs ds : Bytes} (he : encode bs = encode ds) : bs = ds := by
  have hread := decode_of_toLower (encode_toLower bs)
  rw [he, decode_of_toLower (encode_toLower ds)] at hread
  exact (Except.ok.inj hread).symm

end Hex

/-! ## Base64 -/

namespace Base64

theorem value?_digit : ∀ n < 64, value? (digit n) = some n := by decide +kernel

theorem digit_ne_pad {n : Nat} (h : n < 64) : digit n ≠ '=' := by
  intro he
  have hv := value?_digit n h
  rw [he] at hv
  cases hv

/-- **Base64 text reads back.** -/
theorem decode?_encode (bs : Bytes) : decode? (encode bs) = some bs := by
  fun_induction encode bs with
  | case1 => rfl
  | case2 x =>
    have hx := x.toNat_lt
    have hbyte : x.toNat / 4 * 4 + x.toNat % 4 * 16 / 16 = x.toNat := by omega
    simp only [decode?, value?_digit (x.toNat / 4) (by omega),
      value?_digit (x.toNat % 4 * 16) (by omega), Option.bind_eq_bind, Option.bind_some, hbyte,
      UInt8.ofNat_toNat, Nat.mul_mod_left, if_true]
  | case3 x y =>
    have hx := x.toNat_lt
    have hy := y.toNat_lt
    have hfirst : x.toNat / 4 * 4 + (x.toNat % 4 * 16 + y.toNat / 16) / 16 = x.toNat := by omega
    have hsecond : (x.toNat % 4 * 16 + y.toNat / 16) % 16 * 16 + y.toNat % 16 * 4 / 4 =
        y.toNat := by omega
    rw [decode?]
    · simp only [value?_digit (x.toNat / 4) (by omega),
        value?_digit (x.toNat % 4 * 16 + y.toNat / 16) (by omega),
        value?_digit (y.toNat % 16 * 4) (by omega), Option.bind_eq_bind, Option.bind_some, hfirst,
        hsecond, UInt8.ofNat_toNat, Nat.mul_mod_left, if_true]
    · exact digit_ne_pad (by omega)
  | case4 x y z rest ih =>
    have hx := x.toNat_lt
    have hy := y.toNat_lt
    have hz := z.toNat_lt
    have hfirst : x.toNat / 4 * 4 + (x.toNat % 4 * 16 + y.toNat / 16) / 16 = x.toNat := by omega
    have hsecond : (x.toNat % 4 * 16 + y.toNat / 16) % 16 * 16 +
        (y.toNat % 16 * 4 + z.toNat / 64) / 4 = y.toNat := by omega
    have hthird : (y.toNat % 16 * 4 + z.toNat / 64) % 4 * 64 + z.toNat % 64 = z.toNat := by omega
    rw [decode?]
    · simp only [value?_digit (x.toNat / 4) (by omega),
        value?_digit (x.toNat % 4 * 16 + y.toNat / 16) (by omega),
        value?_digit (y.toNat % 16 * 4 + z.toNat / 64) (by omega),
        value?_digit (z.toNat % 64) (by omega), Option.bind_eq_bind, Option.bind_some, hfirst,
        hsecond, hthird, UInt8.ofNat_toNat, ih]
    · exact fun _ hpad _ => digit_ne_pad (by omega) hpad
    · exact fun hpad _ => digit_ne_pad (by omega) hpad

private theorem not_isBlank_digit : ∀ n < 64, isBlank (digit n) = false := by decide +kernel

theorem not_isBlank_of_mem_encode {c : Char} {bs : Bytes} (h : c ∈ encode bs) :
    isBlank c = false := by
  fun_induction encode bs with
  | case1 => cases h
  | case2 x =>
    have hx := x.toNat_lt
    simp only [List.mem_cons, List.not_mem_nil, or_false] at h
    rcases h with rfl | rfl | rfl | rfl
    · exact not_isBlank_digit _ (by omega)
    · exact not_isBlank_digit _ (by omega)
    · rfl
    · rfl
  | case3 x y =>
    have hx := x.toNat_lt
    have hy := y.toNat_lt
    simp only [List.mem_cons, List.not_mem_nil, or_false] at h
    rcases h with rfl | rfl | rfl | rfl
    · exact not_isBlank_digit _ (by omega)
    · exact not_isBlank_digit _ (by omega)
    · exact not_isBlank_digit _ (by omega)
    · rfl
  | case4 x y z rest ih =>
    have hx := x.toNat_lt
    have hy := y.toNat_lt
    have hz := z.toNat_lt
    simp only [List.mem_cons] at h
    rcases h with rfl | rfl | rfl | rfl | h
    · exact not_isBlank_digit _ (by omega)
    · exact not_isBlank_digit _ (by omega)
    · exact not_isBlank_digit _ (by omega)
    · exact not_isBlank_digit _ (by omega)
    · exact ih h

end Base64

end OfflineCache.Text
