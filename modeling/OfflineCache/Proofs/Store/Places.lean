import OfflineCache.Store
import OfflineCache.Proofs.Path.Below

/-! Where a store works. The path of an entry is the cache root with plain names behind it, and the
temporary file stands beside it under a name that tells one use from another. -/

namespace OfflineCache

open OfflineCache.Path

/-! ## Paths of entries -/

theorem Layout.plain_of_isPlain {s : List Char} (hs : s ≠ []) (h : isPlain ⟨s⟩ = true) :
    Plain ⟨s⟩ (dotless (pieces s)) := by
  have hall : ∀ c ∈ components ⟨s⟩, ∃ n, c = .name n := by
    intro c hc
    have hcase := List.all_eq_true.mp h c hc
    cases c with
    | name n => exact ⟨n, rfl⟩
    | _ => simp at hcase
  have hrel : isAbsolute ⟨s⟩ = false := by
    by_contra habs
    have hc := components_eq ⟨s⟩
    rw [Bool.not_eq_false] at habs
    rw [habs] at hc
    obtain ⟨n, hn⟩ := hall .root (by simp [hc])
    cases hn
  have hhead : (pieces s).head? ≠ some ['.'] := by
    intro hd
    have hc := components_eq ⟨s⟩
    rw [hrel, body, hrel] at hc
    obtain ⟨n, hn⟩ := hall .here (by simp [hc, hd])
    cases hn
  have hc : components ⟨s⟩ = (dotless (pieces s)).map .ofPiece := by
    rw [components_eq, hrel, body, hrel]
    simp [hhead]
  refine ⟨hrel, hhead, rfl, ?_, ?_⟩
  · intro n hn
    obtain ⟨hm, hd⟩ := List.mem_filter.mp hn
    obtain ⟨m, hm'⟩ := hall (.ofPiece n) (by rw [hc]; exact List.mem_map_of_mem hn)
    rcases Component.ofPiece_eq_up_or_name (of_mem_pieces hm) (by simpa using hd) with hu | hname
    · rw [hu] at hm'
      cases hm'
    · exact hname.1
  · obtain ⟨x, r, rfl⟩ := List.exists_cons_of_ne_nil hs
    have hx : x ≠ '/' := by
      rintro rfl
      simp [isAbsolute] at hrel
    obtain ⟨a, ps, hps⟩ := List.exists_cons_of_ne_nil (pieces_ne_nil (s := x :: r) rfl hx)
    have ha : a ≠ ['.'] := by
      rintro rfl
      exact hhead (by rw [hps]; rfl)
    simp [hps, dotless, ha]

theorem Layout.plain_of_relativePath {y : Layout} {l : Locator} {digest : Checksum} {q : Path}
    (h : y.relativePath l digest = .ok q) : ∃ names, Plain q names := by
  unfold relativePath at h
  split at h
  · cases h
  · rename_i s _
    split at h
    · rename_i hs
      cases h
      exact ⟨_, plain_of_isPlain hs.1 hs.2⟩
    · cases h

theorem Store.of_entry {s : Store} {l : Locator} {digest : Checksum} {e : CacheEntry}
    (h : s.entry l digest = .ok e) : e.digest = digest ∧
      ∃ q, s.layout.relativePath l digest = .ok q ∧ e.path = s.root / q := by
  unfold entry at h
  cases hq : s.layout.relativePath l digest with
  | error f =>
    rw [hq] at h
    cases h
  | ok q =>
    rw [hq] at h
    cases h
    exact ⟨rfl, q, rfl, rfl⟩

theorem Store.plain_of_entry {s : Store} {l : Locator} {digest : Checksum} {e : CacheEntry}
    (h : s.entry l digest = .ok e) : e.digest = digest ∧
      ∃ q names n, Plain q (names ++ [n]) ∧ e.path = s.root / q := by
  obtain ⟨hdigest, q, hq, hpath⟩ := of_entry h
  obtain ⟨names, hplain⟩ := Layout.plain_of_relativePath hq
  rcases List.eq_nil_or_concat names with rfl | ⟨front, n, rfl⟩
  · exact absurd rfl hplain.nonempty
  · rw [List.concat_eq_append] at hplain
    exact ⟨hdigest, q, front, n, hplain, hpath⟩

/-! ## Temporary names -/

namespace Replacement

open Decimal (digitsOf)

/-- What a file of this name is called while it is written. -/
def temporaryName (n : List Char) (process counter : Nat) : List Char :=
  '.' :: n ++ ".tmp-".toList ++ digitsOf process ++ '-' :: digitsOf counter

theorem isDigit_of_mem_digitsOf {n : Nat} {c : Char} (h : c ∈ digitsOf n) : c.isDigit = true :=
  Nat.isDigit_of_mem_toDigits (by decide) (by decide) h

theorem notMem_digitsOf {c : Char} (hc : c.isDigit = false) (n : Nat) : c ∉ digitsOf n := by
  intro h
  rw [isDigit_of_mem_digitsOf h] at hc
  cases hc

theorem digitsOf_inj {m n : Nat} (h : digitsOf m = digitsOf n) : m = n := by
  have hm := Nat.ofDigitChars_toDigits (b := 10) (n := m) (by decide) (by decide)
  have hn := Nat.ofDigitChars_toDigits (b := 10) (n := n) (by decide) (by decide)
  rw [← hm, ← hn]
  exact congrArg (Nat.ofDigitChars 10 · 0) h

/-- Names of different uses differ. -/
theorem counter_of_temporaryName {m n : List Char} {process process' i j : Nat}
    (h : temporaryName m process i = temporaryName n process' j) : i = j := by
  have hcut : ∀ (a : List Char) k, Text.cut '-' (a ++ '-' :: digitsOf k).reverse =
      some ((digitsOf k).reverse, a.reverse) := by
    intro a k
    have hk : '-' ∉ (digitsOf k).reverse := by
      rw [List.mem_reverse]
      exact notMem_digitsOf (by decide) k
    rw [List.reverse_append, List.reverse_cons, List.append_assoc, List.singleton_append]
    exact Text.cut_append hk
  have hi := hcut ('.' :: m ++ ".tmp-".toList ++ digitsOf process) i
  have hj := hcut ('.' :: n ++ ".tmp-".toList ++ digitsOf process') j
  have he : some ((digitsOf i).reverse, _) = some ((digitsOf j).reverse, _) :=
    hi.symm.trans ((congrArg (Text.cut '-' ·.reverse) h).trans hj)
  simp only [Option.some.injEq, Prod.mk.injEq, List.reverse_inj] at he
  exact digitsOf_inj he.1

theorem containsText_append (a sep b : List Char) :
    Text.containsText sep (a ++ sep ++ b) = true := by
  unfold Text.containsText
  induction a with
  | nil =>
    cases sep with
    | nil => cases b <;> simp [Text.cutText, List.isPrefixOf?]
    | cons c sep =>
      have hp : (c :: sep).isPrefixOf? (c :: (sep ++ b)) = some b :=
        List.isPrefixOf?_eq_some_iff_append_eq.mpr rfl
      simp only [List.nil_append, List.cons_append, Text.cutText, hp]
      rfl
  | cons x a ih =>
    simp only [List.cons_append, Text.cutText]
    split
    · rfl
    · simpa using ih

theorem isTemporaryName_temporaryName (n : List Char) (process counter : Nat) :
    isTemporaryName (temporaryName n process counter) = true := by
  have hc := containsText_append ('.' :: n) ".tmp-".toList
    (digitsOf process ++ '-' :: digitsOf counter)
  rw [← List.append_assoc] at hc
  unfold isTemporaryName
  rw [show Text.containsText ".tmp-".toList (temporaryName n process counter) = true from hc]
  rfl

theorem ne_temporaryName (n : List Char) (process counter : Nat) :
    n ≠ temporaryName n process counter := by
  intro hn
  have hl := congrArg List.length hn
  simp only [temporaryName, List.length_append, List.length_cons] at hl
  omega

theorem isName_temporaryName {n : List Char} (h : '/' ∉ n) (process counter : Nat) :
    IsName (temporaryName n process counter) := by
  have hlen : 5 < (temporaryName n process counter).length := by
    simp [temporaryName]
    omega
  refine ⟨?_, ?_, ?_, ?_⟩
  · intro he
    simp [he] at hlen
  · simp only [temporaryName, List.mem_append, List.mem_cons, not_or]
    exact ⟨⟨⟨⟨by decide, h⟩, by decide⟩, notMem_digitsOf (by decide) _⟩, by decide,
      notMem_digitsOf (by decide) _⟩
  · intro he
    simp [he] at hlen
  · intro he
    simp [he] at hlen

/-- The temporary path of any destination has a temporary name, also where the destination has
none. -/
theorem isTemporary_temporaryFor (dest : Path) (process counter : Nat) :
    (temporaryFor dest process counter).isTemporary = true := by
  have hslash : '/' ∉ dest.fileName?.getD [] := by
    cases hn : dest.fileName? with
    | none => simp
    | some n => exact slash_notMem_of_fileName? hn
  have hplain : Plain ⟨temporaryName (dest.fileName?.getD []) process counter⟩
      ([] ++ [temporaryName (dest.fileName?.getD []) process counter]) :=
    plain_name (isName_temporaryName hslash process counter)
  show Option.any isTemporaryName (Path.fileName? (dest.parent?.getD ⟨[]⟩ /
    ⟨temporaryName (dest.fileName?.getD []) process counter⟩)) = true
  rw [hplain.fileName?_join]
  exact isTemporaryName_temporaryName _ process counter

theorem temporaryFor_join {p q : Path} {names : List (List Char)} {n : List Char}
    (h : Plain q (names ++ [n])) (process counter : Nat) :
    temporaryFor (p / q) process counter =
      p.under names / ⟨temporaryName n process counter⟩ := by
  unfold temporaryFor
  rw [h.fileName?_join, h.parent?_join]
  rfl

end Replacement

end OfflineCache
