import Mathlib.Data.List.TakeWhile
import OfflineCache.Checksum
import OfflineCache.Proofs.Text.Coding
import OfflineCache.Proofs.Text.Pieces

/-! The spellings of a checksum. The algorithm's name with base64, bare hexadecimal in any choice of
letter case and hexadecimal behind a cache key are read as one checksum, with or without blanks
around them; whatever is read has a digest of its algorithm's length, and the first spelling leads
back to it (`Checksum.spellings_agree`). -/

namespace OfflineCache

open Text

namespace Algorithm

theorem ofName?_name (a : Algorithm) : ofName? (String.ofList a.name.toList) = some a := by
  cases a <;> rfl

theorem name_injective {a b : Algorithm} (h : a.name.toList = b.name.toList) : a = b :=
  Option.some.inj ((ofName?_name a).symm.trans (h ▸ ofName?_name b))

theorem hyphen_notMem_name (a : Algorithm) : '-' ∉ a.name.toList := by
  cases a <;> decide

theorem not_isBlank_name (a : Algorithm) : ∀ c ∈ a.name.toList, isBlank c = false := by
  have hall : (a.name.toList.all fun c => !isBlank c) = true := by cases a <;> rfl
  simpa using hall

theorem ofHexLength?_eq_some_iff {n : Nat} {a : Algorithm} :
    ofHexLength? n = some a ↔ n = 2 * a.size := by
  unfold ofHexLength?
  cases a <;> split <;> simp_all [size]

end Algorithm

namespace Checksum

theorem ext {x y : Checksum} (ha : x.algorithm = y.algorithm) (hd : x.digest = y.digest) :
    x = y := by
  cases x
  cases y
  cases ha
  cases hd
  rfl

/-- The digest is as long as those of the algorithm are. -/
def Whole (x : Checksum) : Prop := x.digest.length = x.algorithm.size

theorem toList_render (x : Checksum) :
    x.render.toList = x.algorithm.name.toList ++ '-' :: Base64.encode x.digest := by
  simp [render]

theorem toList_hex (x : Checksum) : x.hex.toList = Hex.encode x.digest := String.toList_ofList ..

variable {x : Checksum}

theorem Whole.digest_ne_nil (h : x.Whole) : x.digest ≠ [] := by
  intro he
  have hsize : x.digest.length = x.algorithm.size := h
  rw [he] at hsize
  cases ha : x.algorithm <;> simp [ha, Algorithm.size] at hsize

/-! ## Base64 behind the algorithm's name -/

theorem parseTrimmed_render (h : x.Whole) : parseTrimmed x.render.toList = .ok x := by
  rw [toList_render, parseTrimmed, cut_append x.algorithm.hyphen_notMem_name]
  simp only [Algorithm.ofName?_name, parseBase64, Base64.decode?_encode]
  exact if_pos h

theorem tight_render (x : Checksum) : Tight x.render.toList := by
  refine tight_of_forall fun c hc => ?_
  rw [toList_render, List.mem_append, List.mem_cons] at hc
  rcases hc with hc | rfl | hc
  · exact x.algorithm.not_isBlank_name c hc
  · rfl
  · exact Base64.not_isBlank_of_mem_encode hc

/-- The spelling tells the checksum. -/
theorem render_injective {x y : Checksum} (h : x.render = y.render) : x = y := by
  have hcut : ∀ z : Checksum, cut '-' z.render.toList =
      some (z.algorithm.name.toList, Base64.encode z.digest) := by
    intro z
    rw [toList_render, cut_append z.algorithm.hyphen_notMem_name]
  have hpair := (hcut x).symm.trans (h ▸ hcut y)
  obtain ⟨hname, hdigest⟩ := Prod.mk.inj (Option.some.inj hpair)
  have hbytes : some x.digest = some y.digest := by
    rw [← Base64.decode?_encode, ← Base64.decode?_encode, hdigest]
  exact ext (Algorithm.name_injective hname) (Option.some.inj hbytes)

/-! ## Hexadecimal digits -/

section Digits

variable {digits : List Char} (hd : digits.map Char.toLower = x.hex.toList)

include hd

theorem notMem_digits {c : Char} (hc : Hex.value? c = none) : c ∉ digits := by
  intro hm
  obtain ⟨v, hv⟩ := Hex.value?_of_mem (hd.trans x.toList_hex) hm
  rw [hc] at hv
  cases hv

theorem digits_ne_nil (h : x.Whole) : digits ≠ [] := by
  rintro rfl
  have hlen := Hex.length_encode x.digest
  rw [← toList_hex, ← hd] at hlen
  have hzero : 0 = 2 * x.digest.length := hlen
  exact h.digest_ne_nil (List.length_eq_zero_iff.mp (by omega))

theorem not_isBlank_digits {c : Char} (hc : c ∈ digits) : isBlank c = false := by
  obtain ⟨v, hv⟩ := Hex.value?_of_mem (hd.trans x.toList_hex) hc
  exact Hex.not_isBlank_of_value? hv

theorem parseHex_digits (h : x.Whole) {s : List Char}
    (hs : ((cutLast '/' s).map (·.2)).getD s = digits) : parseHex s = .ok x := by
  have hread := hd.trans x.toList_hex
  have hsize : Algorithm.ofHexLength? (Utf8.length digits) = some x.algorithm := by
    rw [Algorithm.ofHexLength?_eq_some_iff, Hex.length_utf8_of_toLower hread]
    exact congrArg (2 * ·) h
  simp only [parseHex, hs, hsize, Hex.decode_of_toLower hread]

theorem parseTrimmed_digits (h : x.Whole) : parseTrimmed digits = .ok x := by
  rw [parseTrimmed, cut_eq_none_iff.mpr (notMem_digits hd rfl)]
  refine parseHex_digits hd h ?_
  rw [cutLast_eq_none (notMem_digits hd rfl)]
  rfl

theorem parseTrimmed_key (h : x.Whole) {key : List Char} (hkey : '-' ∉ key) :
    parseTrimmed (key ++ '/' :: digits) = .ok x := by
  have hhyphen : '-' ∉ key ++ '/' :: digits := by
    simp only [List.mem_append, List.mem_cons, not_or]
    exact ⟨hkey, by decide, notMem_digits hd rfl⟩
  rw [parseTrimmed, cut_eq_none_iff.mpr hhyphen]
  refine parseHex_digits hd h ?_
  rw [cutLast_append (notMem_digits hd rfl)]
  rfl

end Digits

/-! ## Blanks around a spelling -/

theorem trimStart_of_blank {front : List Char} (h : ∀ c ∈ front, isBlank c = true) :
    trimStart front = [] := List.dropWhile_eq_nil_iff.mpr h

theorem parse_of_tight {front back s : List Char} (hfront : ∀ c ∈ front, isBlank c = true)
    (hback : ∀ c ∈ back, isBlank c = true) (hs : Tight s) (hne : s ≠ []) :
    parse (String.ofList (front ++ s ++ back)) = parseTrimmed s := by
  have htrim : trim (String.ofList (front ++ s ++ back)).toList = s := by
    rw [String.toList_ofList, trim_append hs hne hback, trimStart_of_blank hfront, List.nil_append]
  simp only [parse, htrim, hne, if_false]

theorem parse_of_key (h : x.Whole) {digits key front back : List Char}
    (hd : digits.map Char.toLower = x.hex.toList) (hkey : '-' ∉ key)
    (hfront : ∀ c ∈ front, isBlank c = true) (hback : ∀ c ∈ back, isBlank c = true) :
    parse (String.ofList (front ++ (key ++ '/' :: digits) ++ back)) = .ok x := by
  have htight : Tight ('/' :: digits) := by
    refine tight_of_forall fun c hc => ?_
    rcases List.mem_cons.mp hc with rfl | hc
    · rfl
    · exact not_isBlank_digits hd hc
  have htrim : trim (String.ofList (front ++ (key ++ '/' :: digits) ++ back)).toList =
      trimStart (front ++ key) ++ '/' :: digits := by
    rw [String.toList_ofList, ← List.append_assoc, trim_append htight (List.cons_ne_nil _ _) hback]
  have hhyphen : '-' ∉ trimStart (front ++ key) := by
    intro hm
    rcases List.mem_append.mp ((List.dropWhile_sublist _).mem hm) with hm | hm
    · cases hfront _ hm
    · exact hkey hm
  simp only [parse, htrim, List.append_eq_nil_iff, List.cons_ne_nil, and_false, if_false]
  exact parseTrimmed_key hd h hhyphen

/-! ## What is read -/

theorem whole_of_parseHex {s : List Char} (h : parseHex s = .ok x) : x.Whole := by
  simp only [parseHex] at h
  split at h
  · cases h
  · rename_i a ha
    split at h
    · cases h
    · rename_i digest hdigest
      cases h
      have hlen := Hex.length_of_decode hdigest
      rw [Algorithm.ofHexLength?_eq_some_iff.mp ha] at hlen
      exact (Nat.eq_of_mul_eq_mul_left Nat.two_pos hlen).symm

theorem whole_of_parseBase64 {a : Algorithm} {s : List Char} (h : parseBase64 a s = .ok x) :
    x.Whole := by
  unfold parseBase64 at h
  split at h
  · cases h
  · split at h
    · cases h
      assumption
    · cases h

theorem whole_of_parse {s : String} (h : parse s = .ok x) : x.Whole := by
  simp only [parse] at h
  split at h
  · cases h
  · unfold parseTrimmed at h
    split at h
    · exact whole_of_parseHex h
    · split at h
      · exact whole_of_parseBase64 h
      · split at h
        · cases h
        · exact whole_of_parseHex h

/-- **All spellings of a checksum are read as it,** in either case of letters and with blanks around
them. What is read has a digest of its algorithm's length and is read again from the first spelling,
and no two checksums share that spelling. -/
theorem spellings_agree :
    (∀ x : Checksum, x.Whole →
      ∀ digits key front back : List Char, digits.map Char.toLower = x.hex.toList → '-' ∉ key →
        (∀ c ∈ front, isBlank c = true) → (∀ c ∈ back, isBlank c = true) →
        ∀ s ∈ [x.render.toList, digits, key ++ '/' :: digits],
          parse (String.ofList (front ++ s ++ back)) = .ok x) ∧
    (∀ s x, parse s = .ok x → x.Whole ∧ parse x.render = .ok x) ∧
    ∀ x y : Checksum, x.render = y.render → x = y := by
  refine ⟨?_, fun s x h => ?_, fun x y => render_injective⟩
  · intro x h digits key front back hd hkey hfront hback s hs
    have hs' : s = x.render.toList ∨ s = digits ∨ s = key ++ '/' :: digits := by simpa using hs
    rcases hs' with rfl | rfl | rfl
    · rw [parse_of_tight hfront hback (tight_render x) (by simp [toList_render])]
      exact parseTrimmed_render h
    · rw [parse_of_tight hfront hback (tight_of_forall fun c => not_isBlank_digits hd)
        (digits_ne_nil hd h)]
      exact parseTrimmed_digits hd h
    · exact parse_of_key h hd hkey hfront hback
  · have hwhole := whole_of_parse h
    have hread : parse (String.ofList ([] ++ x.render.toList ++ [])) =
        parseTrimmed x.render.toList :=
      parse_of_tight nofun nofun (tight_render x) (by simp [toList_render])
    rw [List.nil_append, List.append_nil, String.ofList_toList] at hread
    exact ⟨hwhole, hread.trans (parseTrimmed_render hwhole)⟩

def repeated : Checksum := ⟨.sha256, List.replicate 32 0xAB⟩

def repeatedDigits : List Char := (List.replicate 32 ['a', 'B']).flatten

/-- Digits in both cases of letters, behind a key that has a slash itself. -/
theorem spellings_agree_key :
    parse (String.ofList (['\t'] ++ ("10c0/x".toList ++ '/' :: repeatedDigits) ++ [' ', '\n'])) =
        .ok repeated ∧
      parse repeated.render = .ok repeated := by
  have hkey := spellings_agree.1 repeated rfl repeatedDigits "10c0/x".toList ['\t'] [' ', '\n']
    (by decide +kernel) (by decide) (List.all_eq_true.mp rfl) (List.all_eq_true.mp rfl)
    ("10c0/x".toList ++ '/' :: repeatedDigits)
    (List.mem_cons_of_mem _ (List.mem_cons_of_mem _ List.mem_cons_self))
  exact ⟨hkey, (spellings_agree.2.1 _ _ hkey).2⟩

end Checksum

end OfflineCache
