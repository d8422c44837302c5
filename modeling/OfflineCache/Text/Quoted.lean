import OfflineCache.Text.Hidden

/-! Quoted text for messages and log fields: quotes, backslashes and hidden characters are escaped,
everything else stands for itself. -/

namespace OfflineCache.Text.Quoted

def codePoint (c : Char) : List Char :=
  "\\u".toList ++ '\x7b' :: Nat.toDigits 16 c.toNat ++ ['\x7d']

/-- One character between quotes of the kind `quote`. -/
def escape (quote : Char) (c : Char) : List Char :=
  if c = '\x00' then "\\0".toList
  else if c = '\t' then "\\t".toList
  else if c = '\r' then "\\r".toList
  else if c = '\n' then "\\n".toList
  else if c = quote ∨ c = '\\' then ['\\', c]
  else if isHidden c then codePoint c
  else [c]

def char (c : Char) : List Char := '\'' :: escape '\'' c ++ ['\'']

def string (s : List Char) : List Char := '"' :: s.flatMap (escape '"') ++ ['"']

end OfflineCache.Text.Quoted
