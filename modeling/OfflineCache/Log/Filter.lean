import OfflineCache.Log.Event
import OfflineCache.Log.FieldMatch
import OfflineCache.Text.Letter

/-! Which events are written out. A filter is a list of directives separated by commas, such as
`warn` or `lockfetch::fetch=trace`; a target matches all targets that begin with it, and the
most specific directive that matches an event decides. Directives on spans are read and kept,
but there are no spans here, so they decide nothing. -/

namespace OfflineCache.Log

/-- The least level that is shown; `none` shows nothing. -/
abbrev Threshold := Option Level

namespace Threshold

def name (t : Threshold) : String :=
  match t with
  | some l => l.name
  | none => "off"

def ofNumber? : Nat → Option Threshold
  | 0 => some none
  | 1 => some (some .error)
  | 2 => some (some .warn)
  | 3 => some (some .info)
  | 4 => some (some .debug)
  | 5 => some (some .trace)
  | _ => none

/-- A name in any case or a number up to five. -/
def ofText? (s : List Char) : Option Threshold :=
  match Text.naturalBelow? Text.word64 s with
  | some n => ofNumber? n
  | none =>
    match String.ofList (s.map Char.toLower) with
    | "" | "error" => some (some .error)
    | "warn" => some (some .warn)
    | "info" => some (some .info)
    | "debug" => some (some .debug)
    | "trace" => some (some .trace)
    | "off" => some none
    | _ => none

/-- After the equals sign nothing means everything. -/
def afterEquals? (s : List Char) : Option Threshold :=
  if s = [] then some (some .trace) else ofText? s

def shows (t : Threshold) (l : Level) : Bool := t.any fun least => least.rank ≤ l.rank

end Threshold

structure Directive where
  threshold : Threshold := some .trace
  target : Option (List Char) := none
  span : Option (List Char) := none
  fields : List FieldMatch := []
  deriving DecidableEq, Repr

namespace Directive

/-- What has been read of a directive. Numbers are places of the text. -/
private inductive Reading where
  | start
  | levelOrTarget (start : Nat)
  | span (start : Nat)
  | field (start : Nat)
  | fields
  | target
  | level (start : Nat)

private def begins (c : Char) : Bool :=
  c = '-' || c = ':' || c = '_' || Text.isLetterOrNumber c

/-- One character, standing at place `i`; `part a` is the text from place `a` to it. -/
private def read (part : Nat → List Char) (i : Nat) (c : Char) (d : Directive) :
    Reading → Option (Directive × Reading)
  | .start =>
    if c = '[' then some (d, .span (i + 1))
    else if begins c then some (d, .levelOrTarget i) else none
  | .levelOrTarget a =>
    if c = '=' then some ({ d with target := some (part a) }, .level (i + 1))
    else if c = '[' then some ({ d with target := some (part a) }, .span (i + 1))
    else some (d, .levelOrTarget a)
  | .span a =>
    if c = ']' then some ({ d with span := some (part a) }, .target)
    else if c = '{' then
      some ({ d with span := if part a = [] then none else some (part a) }, .field (i + 1))
    else some (d, .span a)
  | .field a =>
    if c = '}' then
      (FieldMatch.parse? (part a)).map fun f => ({ d with fields := d.fields ++ [f] }, .fields)
    else some (d, .field a)
  | .fields => if c = ']' then some (d, .target) else none
  | .target => if c = '=' then some (d, .level (i + 1)) else none
  | .level a => some (d, .level a)

/-- A word alone is a level, or else a target of which everything is shown. -/
private def finish (rest : Nat → List Char) (d : Directive) : Reading → Option Directive
  | .levelOrTarget a =>
    match Threshold.ofText? (rest a) with
    | some t => some { d with threshold := t }
    | none => some { d with target := some (rest a) }
  | .level a => (Threshold.afterEquals? (rest a)).map fun t => { d with threshold := t }
  | .target => some d
  | _ => none

/-- Places are counted without blanks in front, but the parts are cut from the whole text, so
blanks in front shift every part. -/
def parse? (s : List Char) : Option Directive :=
  go 0 (Text.trim s) {} .start
where
  go (i : Nat) : List Char → Directive → Reading → Option Directive
    | [], d, r => finish (fun a => s.drop a) d r
    | c :: cs, d, r =>
      (read (fun a => (s.drop a).take (i - a)) i c d r).bind fun (d, r) => go (i + 1) cs d r

def isDynamic (d : Directive) : Bool := d.span.isSome || !d.fields.isEmpty

/-- Whether events alone can match. -/
def isStatic (d : Directive) : Bool := d.span.isNone && !d.fields.any (·.value.isSome)

/-! ## Order -/

private def textOrder (a b : List Char) : Ordering := compare (String.ofList a) (String.ofList b)

private def optionOrder (f : α → α → Ordering) : Option α → Option α → Ordering
  | none, none => .eq
  | none, some _ => .lt
  | some _, none => .gt
  | some a, some b => f a b

private def listOrder (f : α → α → Ordering) : List α → List α → Ordering
  | [], [] => .eq
  | [], _ :: _ => .lt
  | _ :: _, [] => .gt
  | a :: x, b :: y => (f a b).then (listOrder f x y)

/-- The more specific directive comes first: the longer target, then a span, then more fields. -/
def order (a b : Directive) : Ordering :=
  let size (d : Directive) := d.target.map Text.Utf8.length
  ((optionOrder compare (size a) (size b)).then
    ((compare a.span.isSome.toNat b.span.isSome.toNat).then
      ((compare a.fields.length b.fields.length).then
        ((optionOrder textOrder a.target b.target).then
          ((optionOrder textOrder a.span b.span).then
            (listOrder FieldMatch.order a.fields b.fields)))))).swap

/-- Puts a directive in its place; it replaces one that differs in its level alone. -/
def insert (ds : List Directive) (d : Directive) : List Directive :=
  match ds with
  | [] => [d]
  | e :: r =>
    match order d e with
    | .lt => d :: e :: r
    | .eq => d :: r
    | .gt => e :: insert r d

/-! ## Written form -/

private def fieldsText (fs : List FieldMatch) : List Char :=
  if fs = [] then []
  else '{' :: [','].intercalate (fs.map FieldMatch.render) ++ ['}']

def render (d : Directive) : String :=
  let scope := (d.target.getD []) ++
    (if d.isDynamic then '[' :: d.span.getD [] ++ fieldsText d.fields ++ [']'] else [])
  let bare := d.target.isNone && !d.isDynamic
  String.ofList (if bare then [] else scope ++ ['=']) ++ d.threshold.name

def covers (d : Directive) (e : Entry) : Bool :=
  d.target.all (·.isPrefixOf e.target.toList) &&
    d.fields.all fun f => f.name = "message".toList || e.fields.any (·.1.toList = f.name)

end Directive

/-- Directives in the order of their specificity. -/
structure Filter where
  statics : List Directive
  dynamics : List Directive
  deriving DecidableEq, Repr

namespace Filter

def ofDirectives (ds : List Directive) : Filter :=
  let dynamics := ds.filter (·.isDynamic)
  let statics := ds.filter (!·.isDynamic) ++ dynamics.filter (·.isStatic)
  ⟨statics.foldl Directive.insert [], dynamics.foldl Directive.insert []⟩

/-- Directives between commas; a text with one that cannot be read is no filter. -/
def parse? (s : String) : Option Filter :=
  (((Text.splitAll ',' s.toList).filter (· ≠ [])).mapM Directive.parse?).map ofDirectives

/-- The filter of the program's own events from a level on. -/
def ofLevel (l : Level) : Filter :=
  ofDirectives [{ threshold := some l, target := some "lockfetch".toList }]

/-- The filter that is asked for, or else that of the level. -/
def choose (l : Level) (asked : Option String) : Filter :=
  (asked.bind parse?).getD (ofLevel l)

def render (f : Filter) : String :=
  ",".intercalate ((f.statics ++ f.dynamics).map (·.render))

def shows (f : Filter) (e : Entry) : Bool :=
  match f.statics.find? (·.covers e) with
  | some d => d.threshold.shows e.level
  | none => false

end Filter

end OfflineCache.Log
