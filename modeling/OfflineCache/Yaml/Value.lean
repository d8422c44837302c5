import OfflineCache.Yaml.Node
import OfflineCache.Decimal.Binary64

/-! Values of a YAML document. A plain scalar is read as null, a boolean, a number or a text, in
this order; a quoted or block scalar is a text. A mapping keeps the order of its entries and
has no key twice. Nesting is at most 128 deep and aliases are followed a bounded number of
times, so a short text cannot stand for an enormous value. -/

namespace OfflineCache.Yaml

inductive Number where
  | int (i : Int)
  | float (negative : Bool) (magnitude : Binary64)
  | infinity (negative : Bool)
  | nan
  deriving DecidableEq, Repr

inductive Value where
  | null
  | bool (b : Bool)
  | number (n : Number)
  | text (s : List Char)
  | sequence (items : List Value)
  | mapping (entries : List (Value × Value))
  | tagged (tag : List Char) (v : Value)

instance : Inhabited Value := ⟨.null⟩

/-! ## Plain scalars -/

def isNullWord (s : List Char) : Bool :=
  ["null", "Null", "NULL", "~"].any (·.toList = s)

def boolWord? (s : List Char) : Option Bool :=
  if ["true", "True", "TRUE"].any (·.toList = s) then some true
  else if ["false", "False", "FALSE"].any (·.toList = s) then some false
  else none

private def radixDigit? (radix : Nat) (c : Char) : Option Nat :=
  (Text.Hex.value? c).filter (· < radix)

private def radixValue? (radix : Nat) (s : List Char) : Option Nat :=
  if s = [] then none
  else s.foldlM (fun a c => (radixDigit? radix c).map (a * radix + ·)) 0

private def stripSign (s : List Char) : List Char :=
  match s with
  | '+' :: r | '-' :: r => r
  | r => r

/-- Digits after a leading zero are a text, as in a postal code. -/
def hasIdleZero (s : List Char) : Bool :=
  match stripSign s with
  | '0' :: c :: r => (c :: r).all Char.isDigit
  | _ => false

private def radixPrefixed? (s : List Char) : Option Nat :=
  match s with
  | '0' :: 'x' :: r => radixValue? 16 r
  | '0' :: 'o' :: r => radixValue? 8 r
  | '0' :: 'b' :: r => radixValue? 2 r
  | _ => none

/-- A whole number without a minus sign. -/
def unsigned? (s : List Char) : Option Nat :=
  let body := match s with
    | '+' :: r => r
    | r => r
  (radixPrefixed? body).or (if hasIdleZero s then none else radixValue? 10 body)

private def negative? (s : List Char) : Option Nat :=
  match s with
  | '-' :: r => (radixPrefixed? r).or (if hasIdleZero s then none else radixValue? 10 r)
  | _ => none

/-- A whole number as a scalar spells it, in any size. -/
def wholeNumber? (s : List Char) : Option Int :=
  match unsigned? s with
  | some n => some n
  | none => (negative? s).map fun n => -(n : Int)

/-- What becomes of a spelled whole number: it fits, it fits only in twice the width, which no
value holds, or it is no whole number here. -/
inductive Whole where
  | fits (i : Int)
  | tooWide
  | other

def whole (s : List Char) : Whole :=
  match wholeNumber? s with
  | none => .other
  | some i =>
    if -(Nat.pow 2 63 : Int) ≤ i ∧ i < Nat.pow 2 64 then .fits i
    else if -(Nat.pow 2 127 : Int) ≤ i ∧ i < Nat.pow 2 128 then .tooWide
    else .other

private def isOneOf (s : List Char) (ws : List String) : Bool := ws.any (·.toList = s)

/-- A number with a point or an exponent, or one of the spellings of the other floats. -/
def float? (s : List Char) : Option Number :=
  let body := match s with
    | '+' :: r => r
    | r => r
  if body.length < s.length ∧ (body.head? = some '+' ∨ body.head? = some '-') then none
  else if isOneOf body [".inf", ".Inf", ".INF"] then some (.infinity false)
  else if isOneOf s ["-.inf", "-.Inf", "-.INF"] then some (.infinity true)
  else if isOneOf s [".nan", ".NaN", ".NAN"] then some .nan
  else
    let (negative, magnitude) := match body with
      | '-' :: r => (true, r)
      | r => (false, r)
    ((Decimal.parse? magnitude).bind Binary64.nearest?).map (.float negative)

/-- The value of a plain scalar; none for a whole number that is too wide. -/
def plainValue? (s : List Char) : Option Value :=
  if s = [] ∨ isNullWord s then some .null
  else match boolWord? s with
    | some b => some (.bool b)
    | none =>
      match whole s with
      | .fits i => some (.number (.int i))
      | .tooWide => none
      | .other =>
        match if hasIdleZero s then none else float? s with
        | some n => some (.number n)
        | none => some (.text s)

/-! ## Tags -/

/-- The word of a tag of the document's own, `!word`; a lone `!` is a word itself. -/
def localTag? (tag : Option (List Char)) : Option (List Char) :=
  match tag with
  | some ('!' :: r) => some (if r = [] then ['!'] else r)
  | _ => none

/-- The full text of a tag that every document knows. -/
def coreTag (word : String) : List Char := "tag:yaml.org,2002:".toList ++ word.toList

/-- The value of a scalar with a tag that is no tag of the document's own. -/
private def coreTagged? (tag s : List Char) : Option Value :=
  if tag = coreTag "bool" then (boolWord? s).map .bool
  else if tag = coreTag "int" then
    match whole s with
    | .fits i => some (.number (.int i))
    | _ => none
  else if tag = coreTag "float" then (float? s).map .number
  else if tag = coreTag "null" then (if isNullWord s then some .null else none)
  else some (.text s)

/-- The value of a scalar, the tag of the document's own being left to the caller. -/
def scalarValue? (tag : Option (List Char)) (s : List Char) (style : Style) : Option Value :=
  match tag with
  | some t =>
    if t.head? = some '!' then (if style = .plain then plainValue? s else some (.text s))
    else coreTagged? t s
  | none => if style = .plain then plainValue? s else some (.text s)

/-! ## Equality of keys -/

def Number.same : Number → Number → Bool
  | .float s a, .float t b => a == b && (s == t || a.significand == 0)
  | a, b => a == b

mutual

/-- Equality as keys have it: entries of mappings may come in any order. -/
def Value.same : Value → Value → Bool
  | .null, .null => true
  | .bool a, .bool b => a == b
  | .number a, .number b => a.same b
  | .text a, .text b => a == b
  | .sequence a, .sequence b => sameItems a b
  | .mapping a, .mapping b => a.length == b.length && sameEntries a b
  | .tagged s a, .tagged t b => s == t && a.same b
  | _, _ => false

def sameItems : List Value → List Value → Bool
  | [], [] => true
  | a :: as, b :: bs => a.same b && sameItems as bs
  | _, _ => false

def sameEntries : List (Value × Value) → List (Value × Value) → Bool
  | [], _ => true
  | (k, v) :: r, bs => bs.any (fun b => k.same b.1 && v.same b.2) && sameEntries r bs

end

/-! ## From nodes to values -/

def maxDepth : Nat := 128

/-- The number of nodes, collections counted at both ends. -/
def Content.size : Content → Nat
  | .scalar .. => 1
  | .sequence _ items => 2 + sizes items
  | .mapping _ entries => 2 + entrySizes entries
where
  nodeSize : Node → Nat
    | .alias _ => 1
    | .content c => c.size
  sizes : List Node → Nat
    | [] => 0
    | n :: r => nodeSize n + sizes r
  entrySizes : List (Node × Node) → Nat
    | [] => 0
    | (k, v) :: r => nodeSize k + nodeSize v + entrySizes r

/-- Reading counts how many more aliases it may follow. -/
abbrev Reading := StateT Nat Option

def Reading.follow : Reading Unit := fun n => if n = 0 then none else some ((), n - 1)

/-- The node that a place in the document stands for. -/
def Document.content (d : Document) (n : Node) : Reading Content :=
  match n with
  | .content c => pure c
  | .alias k => do
    Reading.follow
    match d.target? k with
    | some c => pure c
    | none => failure

private def withLocalTag (tag : Option (List Char)) (v : Value) : Value :=
  match localTag? tag with
  | some t => .tagged t v
  | none => v

def Document.valueAt (d : Document) (depth : Nat) (n : Node) : Reading Value := do
  match ← d.content n with
  | .scalar tag s style =>
    match scalarValue? tag s style with
    | some v => return withLocalTag tag v
    | none => failure
  | .sequence tag items =>
    match depth with
    | 0 => failure
    | depth + 1 => return withLocalTag tag (.sequence (← items.mapM (d.valueAt depth)))
  | .mapping tag entries =>
    match depth with
    | 0 => failure
    | depth + 1 =>
      let read ← entries.foldlM (fun (read : List (Value × Value)) (k, v) => do
        let k ← d.valueAt depth k
        if read.any (·.1.same k) then failure
        return (k, ← d.valueAt depth v) :: read) []
      return withLocalTag tag (.mapping read.reverse)

/-- How many aliases reading a document may follow. -/
def Document.aliasLimit (d : Document) : Nat :=
  100 * match d.root with
    | .alias _ => 1
    | .content c => c.size

def Document.value? (d : Document) : Option Value :=
  (d.valueAt maxDepth d.root d.aliasLimit).map (·.1)

/-- The value of a text that holds at most one document; a text without one is null. -/
def Value.ofText? (s : List Char) : Option Value :=
  (Document.ofText? s).bind fun
    | none => some .null
    | some d => d.value?

/-! ## Looking into values -/

/-- The value below the tags of the document's own. -/
def Value.untagged : Value → Value
  | .tagged _ v => v.untagged
  | v => v

/-- The entry under a text key, in a mapping. -/
def Value.get? (v : Value) (key : String) : Option Value :=
  match v.untagged with
  | .mapping entries => (entries.find? fun e => e.1.same (.text key.toList)).map (·.2)
  | _ => none

def Number.render : Number → List Char
  | .int (.ofNat n) => Decimal.digitsOf n
  | .int (.negSucc n) => '-' :: Decimal.digitsOf (n + 1)
  | .float negative m =>
    (if negative then ['-'] else []) ++ Decimal.render Decimal.plainFormat m.shortest
  | .infinity negative => (if negative then "-.inf" else ".inf").toList
  | .nan => ".nan".toList

/-- A text, or a number in its written form. -/
def Value.scalarText? : Value → Option String
  | .text s => some (String.ofList s)
  | .number n => some (String.ofList n.render)
  | _ => none

end OfflineCache.Yaml
