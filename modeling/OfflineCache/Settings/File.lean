import OfflineCache.Fetch.Retry
import OfflineCache.Layout
import OfflineCache.Text.Blank
import OfflineCache.Text.Natural
import OfflineCache.Yaml.Shape

/-! The settings file. Every setting may be left out; one that is not known is refused, as is one
given twice. -/

namespace OfflineCache

structure FileSettings where
  allow : Option (List Protocol) := none
  hardened : Option Bool := none
  strict : Option Bool := none
  registry : Option String := none
  jobs : Option Nat := none
  retry : Option RetryPolicy := none
  timeoutSeconds : Option Nat := none
  layout : Option String := none
  /-- Layouts beside the built-in ones, the later of two with one name. -/
  layouts : List Layout := []

namespace FileSettings

open Yaml (Document Node readNode?)

def names : List String :=
  ["allow", "hardened", "strict", "registry", "jobs", "retry", "timeout_secs", "layout", "layouts"]

private def protocol? (d : Document) (n : Node) : Option Protocol :=
  (d.asText? n).bind fun s => (Protocol.ofName s).toOption

private def millis? (d : Document) (n : Node) : Option Duration :=
  (d.asNatural? Text.word64 n).map Duration.ofMillis

/-- Other entries of a retry policy mean nothing. -/
private def retryPolicy? (d : Document) (n : Node) : Option RetryPolicy := do
  let es ← d.asEntries? n
  let std := RetryPolicy.standard
  let attempts ← readNode? es "max_attempts" std.maxAttempts fun n =>
    (d.asNatural? Text.word32 n).map UInt32.ofNat
  let base ← readNode? es "base_delay_ms" std.baseDelay (millis? d)
  let most ← readNode? es "max_delay_ms" std.maxDelay (millis? d)
  some ⟨attempts, base, most⟩

private def layouts? (d : Document) (n : Node) : Option (List Layout) := do
  let es ← d.asEntries? n
  let all ← es.mapM fun (name, n) => (d.asText? n).map (Layout.mk name)
  some (all.foldl LayoutTable.insert ⟨[]⟩).layouts

def ofDocument? (d : Document) : Option FileSettings := do
  let es ← d.asEntries? d.root
  if !es.all fun e => names.contains e.1 then none else
  let setting {α : Type} (name : String) (read : Node → Option α) : Option (Option α) :=
    readNode? es name none (d.asOptional? read)
  let allow ← setting "allow" (d.asList? (protocol? d))
  let hardened ← setting "hardened" d.asBool?
  let strict ← setting "strict" d.asBool?
  let registry ← setting "registry" d.asText?
  let jobs ← setting "jobs" (d.asNatural? Text.word64)
  let retry ← setting "retry" (retryPolicy? d)
  let timeoutSeconds ← setting "timeout_secs" (d.asNatural? Text.word64)
  let layout ← setting "layout" d.asText?
  let layouts ← readNode? es "layouts" [] (layouts? d)
  some { allow, hardened, strict, registry, jobs, retry, timeoutSeconds, layout, layouts }

/-- The settings of a text; one that is blank or holds no document has none. -/
def parse? (text : List Char) : Option FileSettings :=
  if Text.trim text = [] then some {}
  else match Document.ofText? text with
    | none => none
    | some none => some {}
    | some (some d) => ofDocument? d

end FileSettings

end OfflineCache
