import OfflineCache.Fetch.Error
import OfflineCache.Text.Utf8

/-! The source of remote bytes, seen from outside: what it answers may depend on the call and on
all calls before it. During a call the run may be cancelled. -/

namespace OfflineCache

inductive Request where
  | get (url : String)
  | gitExport (url : String) (revision : Option String)
  deriving DecidableEq, Repr

/-- The address alone, or with the revision behind it. -/
def Request.key : Request → String
  | .get url => url
  | .gitExport url revision => url ++ "#" ++ revision.getD "HEAD"

structure Answer where
  result : Except Fetch.Error Bytes
  cancels : Bool := false

/-- The answer to a call, given the calls before it in order. -/
abbrev Transport := List Request → Request → Answer

end OfflineCache
