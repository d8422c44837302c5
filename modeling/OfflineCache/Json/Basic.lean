import OfflineCache.Decimal.Basic

/-! JSON documents of texts, whole numbers, lists and objects. The indented form has one item a
line, two spaces a level and nothing inside an empty list or object; the form on one line has no
blanks. -/

namespace OfflineCache.Json

inductive Value where
  | null
  | number (n : Nat)
  | text (s : String)
  | list (items : List Value)
  | object (fields : List (String × Value))

def Value.ofOption (s : Option String) : Value :=
  match s with
  | some s => .text s
  | none => .null

private def hexDigits (n : Nat) : List Char :=
  let ds := Nat.toDigits 16 n
  List.replicate (4 - ds.length) '0' ++ ds

/-- Quotes, backslashes and control characters are escaped. -/
def escape (c : Char) : List Char :=
  if c = '"' then ['\\', '"']
  else if c = '\\' then ['\\', '\\']
  else if c = '\n' then ['\\', 'n']
  else if c = '\r' then ['\\', 'r']
  else if c = '\t' then ['\\', 't']
  else if c = '\x08' then ['\\', 'b']
  else if c = '\x0c' then ['\\', 'f']
  else if c.toNat < 0x20 then '\\' :: 'u' :: hexDigits c.toNat
  else [c]

def quote (s : String) : List Char := '"' :: s.toList.flatMap escape ++ ['"']

def indent (depth : Nat) : List Char := List.replicate (2 * depth) ' '

/-- Items on lines of their own between brackets. -/
def block (opening closing : Char) (depth : Nat) (items : List (List Char)) : List Char :=
  match items with
  | [] => [opening, closing]
  | items =>
    opening :: '\n' ::
      ([',', '\n'].intercalate (items.map (indent (depth + 1) ++ ·))) ++
      '\n' :: indent depth ++ [closing]

mutual

def pretty (depth : Nat) : Value → List Char
  | .null => "null".toList
  | .number n => Decimal.digitsOf n
  | .text s => quote s
  | .list items => block '[' ']' depth (prettyItems (depth + 1) items)
  | .object fields => block '{' '}' depth (prettyFields (depth + 1) fields)

def prettyItems (depth : Nat) : List Value → List (List Char)
  | [] => []
  | j :: r => pretty depth j :: prettyItems depth r

def prettyFields (depth : Nat) : List (String × Value) → List (List Char)
  | [] => []
  | (k, j) :: r => (quote k ++ ": ".toList ++ pretty depth j) :: prettyFields depth r

end

def Value.render (j : Value) : String := String.ofList (pretty 0 j)

mutual

def flat : Value → List Char
  | .null => "null".toList
  | .number n => Decimal.digitsOf n
  | .text s => quote s
  | .list items => '[' :: [','].intercalate (flatItems items) ++ [']']
  | .object fields => '{' :: [','].intercalate (flatFields fields) ++ ['}']

def flatItems : List Value → List (List Char)
  | [] => []
  | j :: r => flat j :: flatItems r

def flatFields : List (String × Value) → List (List Char)
  | [] => []
  | (k, j) :: r => (quote k ++ ':' :: flat j) :: flatFields r

end

def Value.line (j : Value) : String := String.ofList (flat j)

end OfflineCache.Json
