import OfflineCache.FileTree.Listing
import OfflineCache.Report

/-! What is shown to the reader of a terminal: lines that begin with the name of the program, with
the words that matter in colour. -/

namespace OfflineCache.CommandLine

inductive Ink where
  | dim
  | red
  | green
  | yellow
  | gray
  deriving DecidableEq, Repr

def Ink.code : Ink → String
  | .dim => "2"
  | .red => "31"
  | .green => "32"
  | .yellow => "33"
  | .gray => "90"

def Ink.paint (i : Ink) (s : String) : String := s!"\x1b[{i.code}m{s}\x1b[0m"

open Ink

/-- A line of the program's own. -/
def line (s : String) : String := gray.paint "[lockfetch]" ++ " " ++ s ++ "\n"

/-- One item of a list. -/
def item (s : String) : String := line (" " ++ dim.paint "-" ++ " " ++ s)

/-- What will become of an entry. -/
def labelOf (e : PlannedEntry) : String :=
  match e.classification? with
  | some .fetchable => green.paint "fetch"
  | some (.skip r) => dim.paint s!"skip ({r.message})"
  | some (.deny r) => yellow.paint s!"deny ({r.message})"
  | none => red.paint "malformed"

/-- Denied and malformed entries block a run. -/
def isBlocked (e : PlannedEntry) : Bool :=
  match e.classification? with
  | some (.deny _) | none => true
  | _ => false

def showPlan (p : Plan) : String :=
  line s!"dialect {p.dialect.major} ({p.entries.length} entries)" ++
    String.join (p.entries.map fun e => item (e.raw ++ " " ++ labelOf e))

/-- Fetched entries are not listed. -/
def showOutcome (e : ReportEntry) : String :=
  match e.outcome with
  | .fetched .. => ""
  | .skipped r => line (dim.paint "skip" ++ s!" {e.raw} " ++ dim.paint s!"({r})")
  | .denied r => line (yellow.paint "deny" ++ s!" {e.raw} ({r})")
  | .failed _ cause => line (red.paint "fail" ++ s!" {e.raw}: {cause}")

/-- The last line of a run; how long it took is given as text. -/
def showSummary (r : Report) (elapsed : String) : String :=
  let s := r.summary
  let status := if r.success then green.paint "ok" else red.paint "incomplete"
  let fetched := green.paint s!"{s.fetched} fetched"
  let denied := yellow.paint s!"{s.denied} denied"
  let failed := red.paint s!"{s.failed} failed"
  line s!"{status}: {fetched}, {s.skipped} skipped, {denied}, {failed} in {elapsed}"

def showReport (r : Report) (elapsed : String) : String :=
  String.join (r.entries.map showOutcome) ++ showSummary r elapsed

def showListing (root : Path) (files : List FileTree.ListedFile) : String :=
  line s!"{files.length} cached artifacts under {root.render}" ++
    String.join (files.map fun f => item (f.path.render ++ " " ++ dim.paint s!"({f.size} bytes)"))

def listingJson (files : List FileTree.ListedFile) : Json.Value :=
  .list (files.map fun f => .object [("path", .text f.path.render), ("size", .number f.size)])

end OfflineCache.CommandLine
