import OfflineCache.Yaml.Value

/-! Reading a document of a known shape. Where a text is wanted any scalar will do, as it is
written; booleans and numbers must be plain; nothing written where a list or mapping is wanted
counts as an empty one. -/

namespace OfflineCache.Yaml

namespace Document

variable (d : Document)

/-- The node itself or the one that an alias stands for. -/
def resolve? (n : Node) : Option Content :=
  match n with
  | .content c => some c
  | .alias k => d.target? k

def asText? (n : Node) : Option String :=
  match d.resolve? n with
  | some (.scalar _ s _) => some (String.ofList s)
  | _ => none

/-- The text of a scalar that is plain, or literal with the tag `word`. -/
private def asPlain? (word : String) (n : Node) : Option (List Char) :=
  match d.resolve? n with
  | some (.scalar _ s .plain) => some s
  | some (.scalar tag s .literal) => if tag = some (coreTag word) then some s else none
  | _ => none

def asBool? (n : Node) : Option Bool := (d.asPlain? "bool" n).bind boolWord?

/-- A whole number below `limit`. -/
def asNatural? (limit : Nat) (n : Node) : Option Nat :=
  ((d.asPlain? "int" n).bind unsigned?).filter (· < limit)

private def isEmpty (c : Content) : Bool :=
  match c with
  | .scalar _ s style => s == [] && style == .plain
  | _ => false

def asList? (read : Node → Option α) (n : Node) : Option (List α) :=
  match d.resolve? n with
  | some (.sequence _ items) => items.mapM read
  | some c => if isEmpty c then some [] else none
  | none => none

/-- The entries of a mapping, whose keys must be texts. -/
def asEntries? (n : Node) : Option (List (String × Node)) :=
  match d.resolve? n with
  | some (.mapping _ entries) => entries.mapM fun (k, v) => (d.asText? k).map (·, v)
  | some c => if isEmpty c then some [] else none
  | none => none

/-- Whether a value is left out: nothing is written, or null. -/
private def isAbsent? (n : Node) : Option Bool :=
  match d.resolve? n with
  | some (.scalar tag s .plain) =>
    match tag with
    | none => some (s == [] || isNullWord s)
    | some t =>
      if t = coreTag "null" then (if isNullWord s then some true else none) else some false
  | some _ => some false
  | none => none

def asOptional? (read : Node → Option α) (n : Node) : Option (Option α) :=
  (d.isAbsent? n).bind fun absent => if absent then some none else (read n).map some

end Document

/-- The entry of this name: `some none` if there is none, and nothing at all if there are two. -/
def uniqueNode? (entries : List (String × Node)) (name : String) : Option (Option Node) :=
  match entries.filter (·.1 = name) with
  | [] => some none
  | [e] => some (some e.2)
  | _ => none

/-- Reads an entry that may be missing. -/
def readNode? (entries : List (String × Node)) (name : String) (missing : α)
    (read : Node → Option α) : Option α :=
  (uniqueNode? entries name).bind fun
    | none => some missing
    | some n => read n

end OfflineCache.Yaml
