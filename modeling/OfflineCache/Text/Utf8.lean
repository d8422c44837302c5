/-! UTF-8 in both directions. Reading is strict or lossy: the lossy reader writes one U+FFFD for
each longest run of bytes that begins a character but does not finish it. -/

namespace OfflineCache

abbrev Bytes := List UInt8

namespace Text.Utf8

def encode (s : List Char) : Bytes := s.flatMap String.utf8EncodeChar

/-- The number of bytes a text takes. -/
def length (s : List Char) : Nat := s.foldr (fun c n => c.utf8Size + n) 0

@[simp] theorem length_cons (c : Char) (s : List Char) :
    length (c :: s) = c.utf8Size + length s := rfl

@[simp] theorem length_append (s t : List Char) : length (s ++ t) = length s + length t := by
  induction s with
  | nil => simp [length]
  | cons c s ih =>
    simp only [List.cons_append, length_cons, ih]
    omega

/-- How many bytes follow a lead byte, and the range of the first of them. -/
def sequence (lead : UInt8) : Option (Nat × UInt8 × UInt8) :=
  if lead < 0xC2 then none
  else if lead ≤ 0xDF then some (1, 0x80, 0xBF)
  else if lead = 0xE0 then some (2, 0xA0, 0xBF)
  else if lead = 0xED then some (2, 0x80, 0x9F)
  else if lead ≤ 0xEF then some (2, 0x80, 0xBF)
  else if lead = 0xF0 then some (3, 0x90, 0xBF)
  else if lead ≤ 0xF3 then some (3, 0x80, 0xBF)
  else if lead = 0xF4 then some (3, 0x80, 0x8F)
  else none

/-- The bytes that continue a sequence, at most `n`, the first in its own range. -/
def continuation : Nat → UInt8 → UInt8 → Bytes → Bytes
  | 0, _, _, _ => []
  | _ + 1, _, _, [] => []
  | n + 1, lo, hi, b :: r =>
    if lo ≤ b ∧ b ≤ hi then b :: continuation n 0x80 0xBF r else []

def scalarValue (n : Nat) (lead : UInt8) (tail : Bytes) : Nat :=
  tail.foldl (fun v b => v * 64 + (b.toNat - 0x80)) (lead.toNat % Nat.pow 2 (6 - n))

/-- The character that `lead` begins, if its sequence is whole, and the bytes used after `lead`. -/
def scan (lead : UInt8) (rest : Bytes) : Option Char × Nat :=
  match sequence lead with
  | none => (none, 0)
  | some (n, lo, hi) =>
    let tail := continuation n lo hi rest
    if tail.length = n then (some (Char.ofNat (scalarValue n lead tail)), n)
    else (none, tail.length)

def decodeLossy : Bytes → List Char
  | [] => []
  | b :: rest =>
    if b < 0x80 then Char.ofNat b.toNat :: decodeLossy rest
    else
      let (c, used) := scan b rest
      c.getD '\uFFFD' :: decodeLossy (rest.drop used)
termination_by bs => bs.length
decreasing_by all_goals (simp only [List.length_cons, List.length_drop]; omega)

def decode? : Bytes → Option (List Char)
  | [] => some []
  | b :: rest =>
    if b < 0x80 then (decode? rest).map (Char.ofNat b.toNat :: ·)
    else
      let s := scan b rest
      s.1.bind fun c => (decode? (rest.drop s.2)).map (c :: ·)
termination_by bs => bs.length
decreasing_by all_goals (simp only [List.length_cons, List.length_drop]; omega)

private theorem continuation_length_le (n : Nat) (lo hi : UInt8) (r : Bytes) :
    (continuation n lo hi r).length ≤ r.length := by
  induction r generalizing n lo hi with
  | nil => cases n <;> simp [continuation]
  | cons b r ih =>
    cases n with
    | zero => simp [continuation]
    | succ n =>
      simp only [continuation]
      split
      · simpa using ih n 0x80 0xBF
      · simp

private theorem one_le_of_sequence {lead : UInt8} {n : Nat} {lo hi : UInt8}
    (h : sequence lead = some (n, lo, hi)) : 1 ≤ n := by
  unfold sequence at h
  repeat' split at h
  all_goals simp_all <;> omega

/-- A scanned character, replaced or not, is no longer than three times the bytes it used. -/
theorem scan_size_le (lead : UInt8) (rest : Bytes) :
    ((scan lead rest).1.getD '\uFFFD').utf8Size ≤ 3 * (1 + (scan lead rest).2) ∧
      (scan lead rest).2 ≤ rest.length := by
  have hr : ('\uFFFD' : Char).utf8Size = 3 := by decide
  unfold scan
  split
  · simp [hr]
  · rename_i n lo hi hs
    have hn := one_le_of_sequence hs
    have hl := continuation_length_le n lo hi rest
    simp only
    split
    · rename_i ht
      have := Char.utf8Size_le_four (Char.ofNat (scalarValue n lead (continuation n lo hi rest)))
      simp only [Option.getD_some]
      omega
    · simp only [Option.getD_none, hr]
      omega

private theorem size_ascii : ∀ n : Nat, n < 128 → (Char.ofNat n).utf8Size = 1 := by decide

/-- Each byte gives at most the three bytes of U+FFFD. -/
theorem length_decodeLossy_le (bs : Bytes) : length (decodeLossy bs) ≤ 3 * bs.length := by
  induction bs using decodeLossy.induct with
  | case1 => simp [decodeLossy, length]
  | case2 b rest h ih =>
    have hb : (Char.ofNat b.toNat).utf8Size = 1 := size_ascii _ (UInt8.lt_iff_toNat_lt.1 h)
    rw [decodeLossy, if_pos h]
    simp only [length_cons, List.length_cons] at ih ⊢
    omega
  | case3 b rest h c used hs ih =>
    rw [decodeLossy, if_neg h]
    simp only [hs]
    have key := scan_size_le b rest
    simp only [hs] at key
    simp only [length_cons, List.length_cons, List.length_drop] at ih ⊢
    omega

end Text.Utf8

end OfflineCache
