import OfflineCache.Yaml.Token
import OfflineCache.Yaml.Scalar
import OfflineCache.Text.Utf8

/-! From a text to its tokens. A mapping key needs no mark of its own: it is recognised when the
colon after it is met, and its tokens are then put in front of the place where it began. A key
of this kind stands on one line, is at most 1024 characters long, and must not be left without
its colon where the block's indentation calls for a key. -/

namespace OfflineCache.Yaml

/-- A place where a key without a mark may have begun. -/
structure PendingKey where
  required : Bool
  tokenNumber : Nat
  index : Nat
  line : Nat
  column : Nat

/-- The state between two tokens: one slot for a pending key per open flow collection, and one
for the block around them. -/
structure Lexer where
  cursor : Cursor
  tokens : Array Token
  indent : Int
  outerIndents : List Int
  key : Option PendingKey
  outerKeys : List (Option PendingKey)
  keyAllowed : Bool

namespace Lexer

open Cursor

def start (text : List Char) : Lexer := ⟨.ofText text, #[], -1, [], none, [], true⟩

def inFlow (l : Lexer) : Bool := !l.outerKeys.isEmpty

def push (l : Lexer) (t : Token) : Lexer := { l with tokens := l.tokens.push t }

private def insertToken (l : Lexer) (n : Nat) (t : Token) : Lexer :=
  { l with tokens := l.tokens.insertIdxIfInBounds n t }

/-! ## Pending keys and indentation -/

/-- A key that was required cannot be given up. -/
def dropKey (l : Lexer) : Option Lexer :=
  if l.key.any PendingKey.required then none else some { l with key := none }

private def isStale (c : Cursor) (k : PendingKey) : Bool :=
  k.line < c.line || k.index + 1024 < c.index

private def refresh (c : Cursor) (k : Option PendingKey) : Option (Option PendingKey) :=
  if k.any (isStale c) then (if k.any PendingKey.required then none else some none) else some k

/-- Gives up the pending keys that can no longer be completed. -/
def refreshKeys (l : Lexer) : Option Lexer := do
  let key ← refresh l.cursor l.key
  let outerKeys ← l.outerKeys.mapM (refresh l.cursor)
  some { l with key, outerKeys }

/-- Notes that a key may begin here. -/
def noteKey (l : Lexer) : Option Lexer :=
  if !l.keyAllowed then some l
  else l.dropKey.map fun l =>
    { l with key := some {
        required := !l.inFlow && l.indent = l.cursor.column
        tokenNumber := l.tokens.size
        index := l.cursor.index
        line := l.cursor.line
        column := l.cursor.column } }

/-- Opens a block at `column`, if that is further in, with the token `t` at place `n`. -/
def openBlock (l : Lexer) (column n : Nat) (t : Token) : Lexer :=
  if !l.inFlow && l.indent < column then
    { l.insertToken n t with indent := column, outerIndents := l.indent :: l.outerIndents }
  else l

/-- Closes the blocks further in than `column`. -/
def closeBlocks (l : Lexer) (column : Int) : Lexer :=
  if l.inFlow then l else go l.outerIndents l
where
  go : List Int → Lexer → Lexer
    | [], l => l
    | i :: outer, l =>
      if column < l.indent then
        go outer { l.push .blockEnd with indent := i, outerIndents := outer }
      else l

/-! ## Between tokens -/

/-- Passes white space, comments and line breaks, and a byte order mark in front of them on each
line. A tab is white space only where no key can begin. A new line outside flows allows a key. -/
def skipGap (l : Lexer) : Lexer :=
  go (l.cursor.left + 1) l
where
  go : Nat → Lexer → Lexer
    | 0, l => l
    | n + 1, l =>
      let c := l.cursor.skipOrderMark
      let tabs := l.inFlow || !l.keyAllowed
      let c := (c.skipWhile fun x => x = ' ' || (tabs && x = '\t')).skipComment
      if c.headIs isBreak then
        go n { l with cursor := c.skipBreak, keyAllowed := l.keyAllowed || !l.inFlow }
      else { l with cursor := c }

/-! ## Marks of structure -/

private def endOfText (l : Lexer) : Option Lexer := (l.closeBlocks (-1)).dropKey

private def documentMark (l : Lexer) (t : Token) : Option Lexer :=
  (l.closeBlocks (-1)).dropKey.map fun l =>
    { l.push t with cursor := l.cursor.skip 3, keyAllowed := false }

private def openFlow (l : Lexer) (t : Token) : Option Lexer :=
  l.noteKey.map fun l =>
    { l.push t with
      cursor := l.cursor.skip, key := none, outerKeys := l.key :: l.outerKeys, keyAllowed := true }

private def closeFlow (l : Lexer) (t : Token) : Option Lexer :=
  l.dropKey.map fun l =>
    let l := { l.push t with cursor := l.cursor.skip, keyAllowed := false }
    match l.outerKeys with
    | [] => l
    | k :: outer => { l with key := k, outerKeys := outer }

private def flowEntry (l : Lexer) : Option Lexer :=
  l.dropKey.map fun l => { l.push .flowEntry with cursor := l.cursor.skip, keyAllowed := true }

/-- Opens a block at the cursor's column, where one may begin. -/
private def openBlockHere (l : Lexer) (t : Token) : Option Lexer :=
  if l.inFlow then some l
  else if l.keyAllowed then some (l.openBlock l.cursor.column l.tokens.size t)
  else none

private def blockEntry (l : Lexer) : Option Lexer := do
  let l ← (← l.openBlockHere .blockSequenceStart).dropKey
  some { l.push .blockEntry with cursor := l.cursor.skip, keyAllowed := true }

private def keyMark (l : Lexer) : Option Lexer := do
  let l ← (← l.openBlockHere .blockMappingStart).dropKey
  some { l.push .key with cursor := l.cursor.skip, keyAllowed := !l.inFlow }

private def valueMark (l : Lexer) : Option Lexer := do
  let l ← match l.key with
    | some k =>
      let l := (l.insertToken k.tokenNumber .key).openBlock k.column k.tokenNumber
        .blockMappingStart
      pure { l with key := none, keyAllowed := false }
    | none =>
      (l.openBlockHere .blockMappingStart).map fun l => { l with keyAllowed := !l.inFlow }
  some { l.push .value with cursor := l.cursor.skip }

/-! ## Anchors, aliases and tags -/

private def endsAnchor (c : Cursor) : Bool := c.isGap || c.headIs fun x =>
  isFlowMark x && x != '[' && x != '{' || "?:%@\x60".toList.contains x

private def anchorLike (l : Lexer) (t : List Char → Token) : Option Lexer := do
  let l ← l.noteKey
  let (name, c) := l.cursor.skip.take isWord
  if name = [] || !endsAnchor c then none
  else some { l.push (t name) with cursor := c, keyAllowed := false }

/-- A mark of a tag's handle: `!`, `!word` or `!word!`. -/
private def readHandle (c : Cursor) : Option (List Char × Cursor) :=
  if !c.isAt '!' then none
  else
    let (word, c) := c.skip.take isWord
    if c.isAt '!' then some ('!' :: word ++ ['!'], c.skip) else some ('!' :: word, c)

private def isHandle (h : List Char) : Bool := h.length > 1 && h.getLast? == some '!'

/-- How many octets the encoding of a character has whose first octet this is. -/
private def octetCount? (b : UInt8) : Option Nat :=
  if b &&& 0x80 = 0 then some 1
  else if b &&& 0xE0 = 0xC0 then some 2
  else if b &&& 0xF0 = 0xE0 then some 3
  else if b &&& 0xF8 = 0xF0 then some 4
  else none

private def readOctet (c : Cursor) : Option (UInt8 × Cursor) :=
  match c.rest with
  | '%' :: a :: b :: _ => do
    let x ← Text.Hex.value? a
    let y ← Text.Hex.value? b
    some (UInt8.ofNat (x * 16 + y), c.skip 3)
  | _ => none

private def readOctets : Nat → Cursor → Option (Bytes × Cursor)
  | 0, c => some ([], c)
  | n + 1, c => do
    let (b, c) ← readOctet c
    if b &&& 0xC0 ≠ 0x80 then none
    else (readOctets n c).map fun (bs, c) => (b :: bs, c)

private def isTagChar (verbatim : Bool) (x : Char) : Bool :=
  isWord x || ";/?:@&=+$.!~*'()".toList.contains x || (verbatim && ",[]".toList.contains x)

/-- The characters of a tag, some of them written as octets in hexadecimal. -/
private def readTagText (verbatim : Bool) (c : Cursor) : Option (List Char × Cursor) :=
  go c.left [] c
where
  go : Nat → List Char → Cursor → Option (List Char × Cursor)
    | 0, acc, c => some (acc, c)
    | n + 1, acc, c =>
      match c.head? with
      | none => some (acc, c)
      | some x =>
        if x = '%' then do
          let (b, c) ← readOctet c
          let (bs, c) ← readOctets ((← octetCount? b) - 1) c
          go n (acc ++ Text.Utf8.decodeLossy (b :: bs)) c
        else if isTagChar verbatim x then go n (acc ++ [x]) c.skip
        else some (acc, c)

/-- The three forms of a tag: `!<text>`, `!handle!suffix` and `!suffix`. -/
private def readTag (c : Cursor) : Option (List Char × List Char × Cursor) :=
  if c.isAt '<' 1 then do
    let (text, c) ← readTagText true (c.skip 2)
    if text = [] || !c.isAt '>' then none else some ([], text, c.skip)
  else do
    let (h, c) ← readHandle c
    let (text, c) ← readTagText false c
    if isHandle h then (if text = [] then none else some (h, text, c))
    else
      let suffix := h.drop 1 ++ text
      if suffix = [] then some ([], ['!'], c) else some (['!'], suffix, c)

private def tagMark (l : Lexer) : Option Lexer := do
  let l ← l.noteKey
  let (h, s, c) ← readTag l.cursor
  if c.isGap || (l.inFlow && c.isAt ',') then
    some { l.push (.tag h s) with cursor := c, keyAllowed := false }
  else none

/-! ## Directives -/

private def readVersionPart (c : Cursor) : Option (Nat × Cursor) :=
  let (ds, c) := c.take Char.isDigit
  if ds = [] || 9 < ds.length then none
  else some (ds.foldl (fun a d => a * 10 + (d.toNat - '0'.toNat)) 0, c)

private def readVersion (c : Cursor) : Option (Token × Cursor) := do
  let (major, c) ← readVersionPart (c.skipWhile isBlank)
  if !c.isAt '.' then none else
  let (minor, c) ← readVersionPart c.skip
  some (.versionDirective major minor, c)

private def readTagDirective (c : Cursor) : Option (Token × Cursor) := do
  let (h, c) ← readHandle (c.skipWhile isBlank)
  if (h ≠ ['!'] && !isHandle h) || !c.headIs isBlank then none else
  let (path, c) ← readTagText true (c.skipWhile isBlank)
  if path = [] || !c.isGap then none else some (.tagDirective h path, c)

private def directive (l : Lexer) : Option Lexer := do
  let l ← (l.closeBlocks (-1)).dropKey
  let (name, c) := l.cursor.skip.take isWord
  if !c.isGap then none else
  let (t, c) ←
    if name = "YAML".toList then readVersion c
    else if name = "TAG".toList then readTagDirective c
    else none
  let c := (c.skipWhile isBlank).skipComment
  if c.isLineEnd then some { l.push t with cursor := c.skipBreak, keyAllowed := false } else none

/-! ## Scalars -/

private def blockScalar (l : Lexer) (literal : Bool) : Option Lexer := do
  let l ← l.dropKey
  let (s, c) ← readBlock literal l.indent l.cursor
  some { l.push (.scalar s (if literal then .literal else .folded)) with cursor := c, keyAllowed := true }

private def quotedScalar (l : Lexer) (quote : Char) : Option Lexer := do
  let l ← l.noteKey
  let (s, c) ← readQuoted quote l.cursor
  some { l.push (.scalar s .quoted) with cursor := c, keyAllowed := false }

private def plainScalar (l : Lexer) : Option Lexer := do
  let l ← l.noteKey
  let (s, broke, c) ← readPlain l.inFlow (l.indent + 1).toNat l.cursor
  some { l.push (.scalar s .plain) with cursor := c, keyAllowed := broke }

/-- Whether a plain scalar can begin here. -/
private def beginsPlain (l : Lexer) : Bool :=
  let c := l.cursor
  if c.isAt '-' then !(c.at? 1).any isBlank
  else if c.isAt '?' || c.isAt ':' then !l.inFlow && !c.isGap 1
  else !c.isGap && !c.headIs fun x =>
    isFlowMark x || "#&*!|>'\"%@\x60".toList.contains x

/-! ## One token and all of them -/

/-- The next token; `false` at the end of the text. -/
def step (l : Lexer) : Option (Bool × Lexer) := do
  let l ← l.skipGap.refreshKeys
  let l := l.closeBlocks l.cursor.column
  let c := l.cursor
  match c.head? with
  | none => l.endOfText.map (false, ·)
  | some x =>
    let gap := c.isGap 1
    (true, ·) <$>
      if c.column == 0 && x = '%' then l.directive
      else if c.isDocumentMark "---" then l.documentMark .documentStart
      else if c.isDocumentMark "..." then l.documentMark .documentEnd
      else if x = '[' then l.openFlow .flowSequenceStart
      else if x = '{' then l.openFlow .flowMappingStart
      else if x = ']' then l.closeFlow .flowSequenceEnd
      else if x = '}' then l.closeFlow .flowMappingEnd
      else if x = ',' then l.flowEntry
      else if x = '-' && gap then l.blockEntry
      else if x = '?' && (l.inFlow || gap) then l.keyMark
      else if x = ':' && (l.inFlow || gap) then l.valueMark
      else if x = '*' then l.anchorLike .alias
      else if x = '&' then l.anchorLike .anchor
      else if x = '!' then l.tagMark
      else if x = '|' && !l.inFlow then l.blockScalar true
      else if x = '>' && !l.inFlow then l.blockScalar false
      else if x = '\'' || x = '"' then l.quotedScalar x
      else if l.beginsPlain then l.plainScalar
      else none

/-- Each step but the last passes at least one character. -/
def run (l : Lexer) : Option (Array Token) :=
  go (l.cursor.left + 1) l
where
  go : Nat → Lexer → Option (Array Token)
    | 0, _ => none
    | n + 1, l => l.step.bind fun (more, l) => if more then go n l else some l.tokens

end Lexer

/-- The tokens of a text, if all its characters are allowed and every token is well formed. -/
def Token.ofText? (s : List Char) : Option (Array Token) :=
  if s.all isPrintable then (Lexer.start s).run else none

end OfflineCache.Yaml
