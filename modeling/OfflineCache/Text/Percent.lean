import OfflineCache.Text.Hex

/-! Percent escapes. A run of escapes is read as bytes and then as lossy UTF-8; a percent sign
without two hexadecimal digits stands for itself, as does every other character. The decoded text
never takes more bytes than the text it came from. -/

namespace OfflineCache.Text.Percent

/-- Reads on after the escaped bytes `run`, which are not yet turned into characters. -/
def decodeRun (run : Bytes) : List Char → List Char
  | [] => Utf8.decodeLossy run
  | '%' :: a :: b :: rest =>
    match Hex.value? a, Hex.value? b with
    | some hi, some lo => decodeRun (run ++ [UInt8.ofNat (hi * 16 + lo)]) rest
    | _, _ => Utf8.decodeLossy run ++ '%' :: decodeRun [] (a :: b :: rest)
  | c :: rest => Utf8.decodeLossy run ++ c :: decodeRun [] rest

def decode (s : List Char) : List Char := decodeRun [] s

theorem length_decodeRun_le (run : Bytes) (s : List Char) :
    Utf8.length (decodeRun run s) ≤ 3 * run.length + Utf8.length s := by
  fun_induction decodeRun run s with
  | case1 run =>
    have := Utf8.length_decodeLossy_le run
    omega
  | case2 run a b rest hi lo ha hb ih =>
    have h1 := a.utf8Size_pos
    have h2 := b.utf8Size_pos
    have h3 : ('%' : Char).utf8Size = 1 := by decide
    simp only [Utf8.length_cons, h3] at *
    simp only [List.length_append, List.length_cons, List.length_nil] at ih
    omega
  | case3 run a b rest h ih =>
    have := Utf8.length_decodeLossy_le run
    simp only [Utf8.length_append, Utf8.length_cons, List.length_nil] at *
    omega
  | case4 run c rest h ih =>
    have := Utf8.length_decodeLossy_le run
    simp only [Utf8.length_append, Utf8.length_cons, List.length_nil] at *
    omega

/-- Decoding never makes a text longer, in bytes. -/
theorem length_decode_le (s : List Char) : Utf8.length (decode s) ≤ Utf8.length s := by
  simpa [decode] using length_decodeRun_le [] s

end OfflineCache.Text.Percent
