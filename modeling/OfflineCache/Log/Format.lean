import OfflineCache.Json.Basic
import OfflineCache.Log.Event

/-! The forms that a log is written in. -/

namespace OfflineCache.Log

inductive Format where
  | pretty
  | compact
  | json
  deriving DecidableEq, Repr

namespace Format

def name : Format → String
  | .pretty => "pretty"
  | .compact => "compact"
  | .json => "json"

def all : List Format := [.pretty, .compact, .json]

end Format

def FieldValue.json : FieldValue → Json.Value
  | .number n => .number n
  | .shown s => .text s
  | .word s => .text s

namespace Entry

/-- The message is a field among the others. -/
def fieldsJson (e : Entry) : Json.Value :=
  .object (("message", .text e.message) :: e.fields.map fun (k, v) => (k, v.json))

def json (e : Entry) : Json.Value :=
  .object [("level", .text e.level.label), ("fields", e.fieldsJson), ("target", .text e.target)]

/-- The fields stand on a line of their own, below the part of the program they come from. -/
def paragraph (e : Entry) : String :=
  let fields := ", ".intercalate (e.fields.map fun (k, v) => k ++ ": " ++ v.text)
  s!"{e.level.label} {e.target}: {e.message}\n    {fields}\n"

def write (f : Format) (e : Entry) : String :=
  match f with
  | .pretty => e.paragraph
  | .compact => e.line
  | .json => e.json.line

end Entry

end OfflineCache.Log
