/-! A place in a text together with what is left of it, and the character classes of YAML.
Columns and indices count characters; a carriage return before a line feed ends one line. -/

namespace OfflineCache.Yaml

def isBlank (c : Char) : Bool := c = ' ' || c = '\t'

def isBreak (c : Char) : Bool :=
  c = '\n' || c = '\r' || c = '\x85' || c = '\u2028' || c = '\u2029'

/-- The letters of handles, anchors and directive names. -/
def isWord (c : Char) : Bool := c.isAlphanum || c = '_' || c = '-'

/-- The marks that structure flow collections. -/
def isFlowMark (c : Char) : Bool := c = ',' || c = '[' || c = ']' || c = '{' || c = '}'

/-- The characters that a text may hold at all. -/
def isPrintable (c : Char) : Bool :=
  let n := c.toNat
  n == 0x09 || n == 0x0A || n == 0x0D || (0x20 ≤ n && n ≤ 0x7E) || n == 0x85 ||
    (0xA0 ≤ n && n ≤ 0xFFFD) || 0x10000 ≤ n

/-- What a line break stands for in a scalar. -/
def breakText (c : Char) : Char := if c = '\u2028' || c = '\u2029' then c else '\n'

structure Cursor where
  rest : List Char
  index : Nat
  line : Nat
  column : Nat
  /-- The index of the end of the text. -/
  stop : Nat

namespace Cursor

def ofText (s : List Char) : Cursor := ⟨s, 0, 0, 0, s.length⟩

/-- How many characters are left. -/
def left (c : Cursor) : Nat := c.stop - c.index

def head? (c : Cursor) : Option Char := c.rest.head?

def at? (c : Cursor) (n : Nat) : Option Char := c.rest[n]?

def isAtEnd (c : Cursor) : Bool := c.rest.isEmpty

def isAt (c : Cursor) (x : Char) (n : Nat := 0) : Bool := c.at? n == some x

def startsWith (c : Cursor) (s : String) : Bool := s.toList.isPrefixOf c.rest

def headIs (c : Cursor) (p : Char → Bool) : Bool := c.head?.any p

/-- Blank, line break or end of text. -/
def isGap (c : Cursor) (n : Nat := 0) : Bool :=
  match c.at? n with
  | none => true
  | some x => isBlank x || isBreak x

def isLineEnd (c : Cursor) : Bool :=
  match c.head? with
  | none => true
  | some x => isBreak x

def skip (c : Cursor) (n : Nat := 1) : Cursor :=
  let k := (c.rest.take n).length
  { c with rest := c.rest.drop n, index := c.index + k, column := c.column + k }

def skipWhile (c : Cursor) (p : Char → Bool) : Cursor := c.skip (c.rest.takeWhile p).length

def take (c : Cursor) (p : Char → Bool) : List Char × Cursor :=
  let taken := c.rest.takeWhile p
  (taken, c.skip taken.length)

private def nextLine (c : Cursor) (rest : List Char) (n : Nat) : Cursor :=
  ⟨rest, c.index + n, c.line + 1, 0, c.stop⟩

/-- Passes one line break, and says what it stands for. -/
def takeBreak (c : Cursor) : List Char × Cursor :=
  match c.rest with
  | '\r' :: '\n' :: r => (['\n'], c.nextLine r 2)
  | x :: r => if isBreak x then ([breakText x], c.nextLine r 1) else ([], c)
  | [] => ([], c)

def skipBreak (c : Cursor) : Cursor := c.takeBreak.2

def skipComment (c : Cursor) : Cursor :=
  if c.isAt '#' then c.skipWhile (!isBreak ·) else c

/-- Passes a byte order mark that starts a line. It takes up a column, so what stands behind it on
the line counts as indented. -/
def skipOrderMark (c : Cursor) : Cursor :=
  if c.column = 0 && c.isAt '\ufeff' then c.skip else c

/-- Whether `---` or `...` stands alone at the start of a line. -/
def isDocumentMark (c : Cursor) (s : String) : Bool :=
  c.column == 0 && c.startsWith s && c.isGap 3

def isAnyDocumentMark (c : Cursor) : Bool := c.isDocumentMark "---" || c.isDocumentMark "..."

end Cursor

end OfflineCache.Yaml
