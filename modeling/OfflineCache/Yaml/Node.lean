import OfflineCache.Yaml.Lexer

/-! From tokens to the nodes of one document. Anchored nodes are numbered in the order in which
their names are first met, and an alias holds the number that its name has at that place; the
table says which node each number ends up with. A name given twice takes the next number
without using it up, so the next new name shares it. -/

namespace OfflineCache.Yaml

mutual

/-- A place in a document: a node of its own, or a second mention of an anchored one. -/
inductive Node where
  | alias (number : Nat)
  | content (c : Content)

inductive Content where
  | scalar (tag : Option (List Char)) (text : List Char) (style : Style)
  | sequence (tag : Option (List Char)) (items : List Node)
  | mapping (tag : Option (List Char)) (entries : List (Node × Node))

end

instance : Inhabited Node := ⟨.content (.scalar none [] .plain)⟩

/-- What a plain scalar of no characters is read as. -/
def Content.empty : Content := .scalar none [] .plain

/-- The nodes of a document with the anchored ones, in the order in which they begin. -/
structure Document where
  root : Node
  anchored : Array (Nat × Content)

/-- The last of the nodes with this number. -/
def Document.target? (d : Document) (n : Nat) : Option Content :=
  d.anchored.toList.reverse.lookup n

/-- The tokens left, and what the document has said so far. -/
structure Composer where
  tokens : List Token
  handles : List (List Char × List Char)
  names : List (List Char × Nat)
  anchored : Array (Nat × Content)

abbrev Compose := StateT Composer Option

namespace Compose

def peek : Compose (Option Token) := fun s => some (s.tokens.head?, s)

def skip : Compose Unit := fun s => some ((), { s with tokens := s.tokens.drop 1 })

/-- Passes the token if it is the next one. -/
def accept (t : Token) : Compose Bool := fun s =>
  if s.tokens.head? = some t then some (true, { s with tokens := s.tokens.drop 1 })
  else some (false, s)

def expect (t : Token) : Compose Unit := do
  if !(← accept t) then failure

/-- Whether one of these tokens is next. -/
def isNext (ts : List Token) : Compose Bool := do
  return (← peek).any ts.contains

/-- Keeps a place in the table for a node with this anchor. -/
def declare (name : Option (List Char)) : Compose (Option Nat) := fun s =>
  match name with
  | none => some (none, s)
  | some a =>
    let n := s.names.length
    some (some s.anchored.size, { s with
      names := (a, n) :: s.names.filter (·.1 ≠ a)
      anchored := s.anchored.push (n, .empty) })

/-- Fills the place kept for this node. -/
def record (place : Option Nat) (c : Content) : Compose Node := fun s =>
  match place with
  | none => some (.content c, s)
  | some i => some (.content c, { s with
      anchored := s.anchored.modify i fun (n, _) => (n, c) })

def aliasNumber (name : List Char) : Compose Nat := fun s =>
  (s.names.lookup name).map (·, s)

/-- The full text of a tag. -/
def resolveTag (handle suffix : List Char) : Compose (List Char) := fun s =>
  if handle = [] then some (suffix, s)
  else (s.handles.lookup handle).map fun p => (p ++ suffix, s)

/-- An anchor and a tag, in either order. -/
def properties : Compose (Option (List Char) × Option (List Char)) := do
  match ← peek with
  | some (.anchor a) =>
    skip
    match ← peek with
    | some (.tag h s) => skip; return (some a, some (← resolveTag h s))
    | _ => return (some a, none)
  | some (.tag h s) =>
    skip
    match ← peek with
    | some (.anchor a) => skip; return (some a, some (← resolveTag h s))
    | _ => return (none, some (← resolveTag h s))
  | _ => return (none, none)

def emptyNode : Compose Node := return .content .empty

private def afterBlockEntry : List Token := [.blockEntry, .blockEnd]

private def afterIndentlessEntry : List Token := [.blockEntry, .key, .value, .blockEnd]

private def afterBlockKey : List Token := [.key, .value, .blockEnd]

private def afterFlowKey : List Token := [.value, .flowEntry, .flowMappingEnd]

private def afterFlowValue : List Token := [.flowEntry, .flowMappingEnd]

private def afterPairKey : List Token := [.value, .flowEntry, .flowSequenceEnd]

private def afterPairValue : List Token := [.flowEntry, .flowSequenceEnd]

mutual

/-- A node, where `inBlock` says whether a block collection may stand here and `indentless`
whether a sequence may stand at the indentation of its parent. -/
def node (fuel : Nat) (inBlock indentless : Bool) : Compose Node :=
  match fuel with
  | 0 => failure
  | fuel + 1 => do
    if let some (.alias name) ← peek then
      skip
      return .alias (← aliasNumber name)
    let (anchor, tag) ← properties
    match ← peek with
    | some .blockEntry =>
      if indentless then
        let n ← declare anchor
        record n (.sequence tag (← indentlessItems fuel))
      else bare anchor tag
    | some (.scalar s style) =>
      skip
      let n ← declare anchor
      record n (.scalar tag s style)
    | some .flowSequenceStart =>
      skip
      let n ← declare anchor
      record n (.sequence tag (← flowItems fuel true))
    | some .flowMappingStart =>
      skip
      let n ← declare anchor
      record n (.mapping tag (← flowEntries fuel true))
    | some .blockSequenceStart =>
      if inBlock then
        skip
        let n ← declare anchor
        record n (.sequence tag (← blockItems fuel))
      else bare anchor tag
    | some .blockMappingStart =>
      if inBlock then
        skip
        let n ← declare anchor
        record n (.mapping tag (← blockEntries fuel))
      else bare anchor tag
    | _ => bare anchor tag
where
  /-- Properties alone stand before an empty scalar. -/
  bare (anchor tag : Option (List Char)) : Compose Node := do
    if anchor = none ∧ tag = none then failure
    let n ← declare anchor
    record n (.scalar tag [] .plain)

def blockItems (fuel : Nat) : Compose (List Node) :=
  match fuel with
  | 0 => failure
  | fuel + 1 => do
    if ← accept .blockEntry then
      let x ← if ← isNext afterBlockEntry then emptyNode else node fuel true false
      return x :: (← blockItems fuel)
    else
      expect .blockEnd
      return []

def indentlessItems (fuel : Nat) : Compose (List Node) :=
  match fuel with
  | 0 => failure
  | fuel + 1 => do
    if ← accept .blockEntry then
      let x ← if ← isNext afterIndentlessEntry then emptyNode else node fuel true false
      return x :: (← indentlessItems fuel)
    else return []

def blockEntries (fuel : Nat) : Compose (List (Node × Node)) :=
  match fuel with
  | 0 => failure
  | fuel + 1 => do
    if ← accept .key then
      let k ← if ← isNext afterBlockKey then emptyNode else node fuel true true
      let v ←
        if ← accept .value then
          if ← isNext afterBlockKey then emptyNode else node fuel true true
        else emptyNode
      return (k, v) :: (← blockEntries fuel)
    else
      expect .blockEnd
      return []

/-- The items after `[` or after one of them; a single `key: value` is a mapping of its own. -/
def flowItems (fuel : Nat) (first : Bool) : Compose (List Node) :=
  match fuel with
  | 0 => failure
  | fuel + 1 => do
    if ← accept .flowSequenceEnd then return []
    if !first then
      expect .flowEntry
      if ← accept .flowSequenceEnd then return []
    if ← accept .key then
      let k ←
        if ← isNext afterPairKey then
          skip
          emptyNode
        else node fuel false false
      let v ←
        if ← accept .value then
          if ← isNext afterPairValue then emptyNode else node fuel false false
        else emptyNode
      return .content (.mapping none [(k, v)]) :: (← flowItems fuel false)
    else
      let x ← node fuel false false
      return x :: (← flowItems fuel false)

def flowEntries (fuel : Nat) (first : Bool) : Compose (List (Node × Node)) :=
  match fuel with
  | 0 => failure
  | fuel + 1 => do
    if ← accept .flowMappingEnd then return []
    if !first then
      expect .flowEntry
      if ← accept .flowMappingEnd then return []
    if ← accept .key then
      let k ← if ← isNext afterFlowKey then emptyNode else node fuel false false
      let v ←
        if ← accept .value then
          if ← isNext afterFlowValue then emptyNode else node fuel false false
        else emptyNode
      return (k, v) :: (← flowEntries fuel false)
    else
      let k ← node fuel false false
      return (k, .content .empty) :: (← flowEntries fuel false)

end

/-! ## Directives and the document around the node -/

private def addVersion (seen : Bool) (major minor : Nat) : Option Bool :=
  if seen ∨ major ≠ 1 ∨ (minor ≠ 1 ∧ minor ≠ 2) then none else some true

/-- Directives before a document; each version and each handle is given at most once. -/
private def directives : Nat → Bool → Compose Unit
  | 0, _ => failure
  | fuel + 1, versionSeen => do
    match ← peek with
    | some (.versionDirective major minor) =>
      match addVersion versionSeen major minor with
      | none => failure
      | some seen => skip; directives fuel seen
    | some (.tagDirective h p) =>
      let s ← get
      if (s.handles.lookup h).isSome then failure
      skip
      modify fun s => { s with handles := s.handles ++ [(h, p)] }
      directives fuel versionSeen
    | _ => return ()

private def defaultHandles : List (List Char × List Char) :=
  [(['!'], ['!']), (['!', '!'], "tag:yaml.org,2002:".toList)]

private def skipDocumentEnds : Nat → Compose Unit
  | 0 => failure
  | fuel + 1 => do
    if ← accept .documentEnd then skipDocumentEnds fuel

private def isDirective : Option Token → Bool
  | some (.versionDirective ..) | some (.tagDirective ..) => true
  | _ => false

private def startsDocument (t : Option Token) : Bool := isDirective t || t == some .documentStart

/-- The one document of a text, or nothing if the text holds none. A second one is refused. -/
def document (fuel : Nat) : Compose (Option Node) := do
  let first ← peek
  if first = none then return none
  let explicit := startsDocument first
  if explicit then
    directives fuel false
    expect .documentStart
  modify fun s => { s with handles := s.handles ++ defaultHandles }
  let next ← peek
  let root ←
    if explicit && (startsDocument next || next == some .documentEnd || next == none) then
      emptyNode
    else node fuel true false
  skipDocumentEnds fuel
  if (← peek) ≠ none then failure
  return some root

end Compose

/-- The document that the tokens of a text make up: `some none` for a text without one. -/
def Document.ofTokens? (ts : Array Token) : Option (Option Document) :=
  (Compose.document (4 * ts.size + 8) ⟨ts.toList, [], [], #[]⟩).map fun (root, s) =>
    root.map (⟨·, s.anchored⟩)

def Document.ofText? (s : List Char) : Option (Option Document) :=
  (Token.ofText? s).bind Document.ofTokens?

end OfflineCache.Yaml
