/-! White space, as the Unicode property White_Space has it: 25 characters, among them the
no-break space and the line separators. A byte order mark and a zero-width space are not
white space, so they survive trimming. -/

namespace OfflineCache.Text

def isBlank (c : Char) : Bool :=
  let n := c.toNat
  (0x09 ≤ n && n ≤ 0x0D) || n == 0x20 || n == 0x85 || n == 0xA0 || n == 0x1680 ||
    (0x2000 ≤ n && n ≤ 0x200A) || n == 0x2028 || n == 0x2029 || n == 0x202F ||
    n == 0x205F || n == 0x3000

def trimStart (s : List Char) : List Char := s.dropWhile isBlank

def trimEnd (s : List Char) : List Char := (s.reverse.dropWhile isBlank).reverse

def trim (s : List Char) : List Char := trimEnd (trimStart s)

/-- The pieces between separators: one more than there are separators. -/
def splitWhen (p : Char → Bool) : List Char → List (List Char)
  | [] => [[]]
  | c :: r =>
    if p c then [] :: splitWhen p r
    else match splitWhen p r with
      | [] => [[c]]
      | w :: ws => (c :: w) :: ws

/-- The nonempty runs of other characters between runs of white space. -/
def words (s : List Char) : List (List Char) :=
  (splitWhen isBlank s).filter (!·.isEmpty)

theorem splitWhen_ne_nil (p : Char → Bool) (s : List Char) : splitWhen p s ≠ [] := by
  cases s with
  | nil => simp [splitWhen]
  | cons c r => simp only [splitWhen]; split <;> (try split) <;> simp

end OfflineCache.Text
