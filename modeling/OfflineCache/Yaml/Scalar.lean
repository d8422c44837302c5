import OfflineCache.Yaml.Cursor
import OfflineCache.Text.Hex

/-! Reading the three written forms of a scalar from a cursor: block scalars, which keep or fold
their lines, quoted scalars, and plain ones, which end where an indicator stands. Line breaks
inside quoted and plain scalars fold: one is a space, of several the first is lost. -/

namespace OfflineCache.Yaml

open Cursor

/-! ## Folded lines -/

/-- White space met inside a scalar: blanks on one line, or a first break and later ones. -/
structure Gap where
  blanks : List Char
  first : List Char
  later : List Char
  brokeLine : Bool

namespace Gap

def empty : Gap := ⟨[], [], [], false⟩

/-- What the gap adds to the scalar. -/
def text (g : Gap) : List Char :=
  if g.brokeLine then
    if g.first = ['\n'] then (if g.later = [] then [' '] else g.later)
    else g.first ++ g.later
  else g.blanks

/-- Reads blanks and breaks. After a break, a tab before column `indent` is refused. -/
def read (indent : Nat) (g : Gap) (c : Cursor) : Option (Gap × Cursor) :=
  go c.left g c
where
  go : Nat → Gap → Cursor → Option (Gap × Cursor)
    | 0, g, c => some (g, c)
    | n + 1, g, c =>
      match c.head? with
      | none => some (g, c)
      | some x =>
        if isBlank x then
          if g.brokeLine then
            if c.column < indent ∧ x = '\t' then none else go n g c.skip
          else go n { g with blanks := g.blanks ++ [x] } c.skip
        else if isBreak x then
          let (b, c) := c.takeBreak
          if g.brokeLine then go n { g with later := g.later ++ b } c
          else go n { g with blanks := [], first := b, brokeLine := true } c
        else some (g, c)

end Gap

/-! ## Plain scalars -/

/-- Whether a plain scalar cannot go on at this character. -/
private def endsPlain (inFlow : Bool) (c : Cursor) : Bool :=
  (c.isAt ':' && c.isGap 1) || (inFlow && c.headIs isFlowMark)

/-- In a flow, a colon right before an indicator is neither text nor a value mark. -/
private def isStrayColon (inFlow : Bool) (c : Cursor) : Bool :=
  inFlow && c.isAt ':' && (c.at? 1).any fun x => x = '?' || isFlowMark x

/-- The unbroken text from here on. -/
private def plainRun (inFlow : Bool) (c : Cursor) : Option (List Char × Cursor) :=
  go c.left [] c
where
  go : Nat → List Char → Cursor → Option (List Char × Cursor)
    | 0, acc, c => some (acc.reverse, c)
    | n + 1, acc, c =>
      match c.head? with
      | none => some (acc.reverse, c)
      | some x =>
        if isBlank x || isBreak x then some (acc.reverse, c)
        else if isStrayColon inFlow c then none
        else if endsPlain inFlow c then some (acc.reverse, c)
        else go n (x :: acc) c.skip

/-- A plain scalar whose lines stand at column `indent` or further. Also says whether a line
was broken after its last character. -/
def readPlain (inFlow : Bool) (indent : Nat) (c : Cursor) : Option (List Char × Bool × Cursor) :=
  go (c.left + 1) [] Gap.empty c
where
  go : Nat → List Char → Gap → Cursor → Option (List Char × Bool × Cursor)
    | 0, acc, g, c => some (acc, g.brokeLine, c)
    | n + 1, acc, g, c =>
      if c.isAnyDocumentMark || c.isAt '#' then some (acc, g.brokeLine, c)
      else do
        let (run, c) ← plainRun inFlow c
        let (acc, g) := if run = [] then (acc, g) else (acc ++ g.text ++ run, Gap.empty)
        if c.headIs fun x => isBlank x || isBreak x then
          let (g, c) ← Gap.read indent g c
          if !inFlow && c.column < indent then some (acc, g.brokeLine, c) else go n acc g c
        else some (acc, g.brokeLine, c)

/-! ## Quoted scalars -/

/-- What a single character after a backslash stands for. -/
def escape? : Char → Option Char
  | '0' => some '\x00'
  | 'a' => some '\x07'
  | 'b' => some '\x08'
  | 't' | '\t' => some '\t'
  | 'n' => some '\n'
  | 'v' => some '\x0b'
  | 'f' => some '\x0c'
  | 'r' => some '\r'
  | 'e' => some '\x1b'
  | ' ' => some ' '
  | '"' => some '"'
  | '/' => some '/'
  | '\\' => some '\\'
  | 'N' => some '\x85'
  | '_' => some '\u00a0'
  | 'L' => some '\u2028'
  | 'P' => some '\u2029'
  | _ => none

/-- How many hexadecimal digits follow `\x`, `\u` and `\U`. -/
def escapeDigits? : Char → Option Nat
  | 'x' => some 2
  | 'u' => some 4
  | 'U' => some 8
  | _ => none

/-- The character after a backslash, written in short or by its number. -/
private def readEscape (c : Cursor) : Option (Char × Cursor) := do
  let x ← c.head?
  match escape? x with
  | some y => some (y, c.skip)
  | none =>
    let n ← escapeDigits? x
    let digits := (c.rest.drop 1).take n
    if digits.length < n then none else
    let value ← digits.foldlM (fun a d => (Text.Hex.value? d).map (a * 16 + ·)) 0
    if h : value.isValidChar then some (Char.ofNatAux value h, c.skip (n + 1)) else none

private structure QuotedRun where
  text : List Char
  brokeLine : Bool
  cursor : Cursor

/-- The unbroken text up to the closing quote, white space, or an escaped line break. -/
private def quotedRun (quote : Char) (c : Cursor) : Option QuotedRun :=
  go c.left [] c
where
  go : Nat → List Char → Cursor → Option QuotedRun
    | 0, acc, c => some ⟨acc.reverse, false, c⟩
    | n + 1, acc, c =>
      match c.head? with
      | none => some ⟨acc.reverse, false, c⟩
      | some x =>
        if isBlank x || isBreak x then some ⟨acc.reverse, false, c⟩
        else if quote = '\'' && x = '\'' && c.isAt '\'' 1 then go n ('\'' :: acc) (c.skip 2)
        else if x = quote then some ⟨acc.reverse, false, c⟩
        else if quote = '"' && x = '\\' then
          if (c.at? 1).any isBreak then some ⟨acc.reverse, true, c.skip.skipBreak⟩
          else (readEscape c.skip).bind fun (y, c) => go n (y :: acc) c
        else go n (x :: acc) c.skip

/-- A scalar between quotes; the cursor stands on the opening one. -/
def readQuoted (quote : Char) (c : Cursor) : Option (List Char × Cursor) :=
  go (c.left + 1) [] c.skip
where
  go : Nat → List Char → Cursor → Option (List Char × Cursor)
    | 0, _, _ => none
    | n + 1, acc, c =>
      if c.isAnyDocumentMark || c.isAtEnd then none
      else do
        let run ← quotedRun quote c
        let acc := acc ++ run.text
        if run.cursor.isAt quote then some (acc, run.cursor.skip)
        else
          let (g, c) ← Gap.read 0 { Gap.empty with brokeLine := run.brokeLine } run.cursor
          go n (acc ++ g.text) c

/-! ## Block scalars -/

/-- What becomes of the line breaks at the end of a block scalar. -/
inductive Chomping where
  | strip
  | clip
  | keep

private def chomping? : Char → Option Chomping
  | '+' => some .keep
  | '-' => some .strip
  | _ => none

/-- An indentation indicator: one digit from 1 to 9. -/
private def readIncrement (c : Cursor) : Option (Nat × Cursor) :=
  match c.head? with
  | some x =>
    if x = '0' then none
    else if x.isDigit then some (x.toNat - '0'.toNat, c.skip) else some (0, c)
  | none => some (0, c)

/-- The indicators after `|` or `>`, in either order. -/
private def readHeader (c : Cursor) : Option (Chomping × Nat × Cursor) :=
  match c.head?.bind chomping? with
  | some k => (readIncrement c.skip).map fun (n, c) => (k, n, c)
  | none => (readIncrement c).map fun (n, c) =>
    if n = 0 then (.clip, 0, c)
    else match c.head?.bind chomping? with
      | some k => (k, n, c.skip)
      | none => (.clip, n, c)

/-- Passes indentation and empty lines. With no indentation known (`indent = 0`) the deepest
line met decides it, but it is at least `least`. A tab in place of indentation is refused. -/
private def readEmptyLines (indent least : Nat) (c : Cursor) :
    Option (Nat × List Char × Cursor) :=
  go (c.left + 1) 0 [] c
where
  go : Nat → Nat → List Char → Cursor → Option (Nat × List Char × Cursor)
    | 0, _, _, _ => none
    | n + 1, deepest, breaks, c =>
      let spaces := (c.rest.takeWhile (· = ' ')).length
      let c := c.skip (if indent = 0 then spaces else min spaces (indent - c.column))
      let deepest := max deepest c.column
      if (indent = 0 ∨ c.column < indent) ∧ c.isAt '\t' then none
      else if c.headIs isBreak then
        let (b, c) := c.takeBreak
        go n deepest (breaks ++ b) c
      else some (if indent = 0 then max (max deepest least) 1 else indent, breaks, c)

private structure BlockState where
  text : List Char
  lead : List Char
  trail : List Char
  afterBlank : Bool

/-- The lines of a block scalar. Folding turns a break between two lines that start with text
into a space. -/
private def readLines (literal : Bool) (indent : Nat) (s : BlockState) (c : Cursor) :
    Option (BlockState × Cursor) :=
  go (c.left + 1) s c
where
  go : Nat → BlockState → Cursor → Option (BlockState × Cursor)
    | 0, _, _ => none
    | n + 1, s, c =>
      if c.column ≠ indent ∨ c.isAtEnd then some (s, c)
      else do
        let blank := c.headIs isBlank
        let joint :=
          if !literal && s.lead = ['\n'] && !s.afterBlank && !blank then
            (if s.trail = [] then [' '] else [])
          else s.lead
        let (line, c) := c.take (!isBreak ·)
        let (lead, c) := c.takeBreak
        let (_, trail, c) ← readEmptyLines indent 0 c
        go n ⟨s.text ++ joint ++ s.trail ++ line, lead, trail, blank⟩ c

/-- A block scalar inside a block at column `parent`; the cursor stands on its indicator. -/
def readBlock (literal : Bool) (parent : Int) (c : Cursor) : Option (List Char × Cursor) := do
  let (chomping, increment, c) ← readHeader c.skip
  let c := (c.skipWhile isBlank).skipComment
  if !c.isLineEnd then none else
  let c := c.skipBreak
  let indent := if increment = 0 then 0 else parent.toNat + increment
  let (indent, breaks, c) ← readEmptyLines indent (parent + 1).toNat c
  let (s, c) ← readLines literal indent ⟨[], [], breaks, false⟩ c
  some (match chomping with
    | .strip => s.text
    | .clip => s.text ++ s.lead
    | .keep => s.text ++ s.lead ++ s.trail, c)

end OfflineCache.Yaml
