import OfflineCache.CommandLine.Basic
import OfflineCache.FileTree.Difference
import OfflineCache.Git.Hosting
import OfflineCache.Log.Filter

/-! The program. It looks at the directories that a command line names, carries the command out
on what it has seen, and makes the disk the same as the result. It has no network, so only
entries inside the project can be fetched. -/

namespace OfflineCache.Main

open CommandLine

def placeOf (p : Path) : Place :=
  p.components.filterMap fun
    | .name n => some n
    | _ => none

def textOf (p : Place) : String := (FileTree.placePath p).render

/-! ## Looking at the disk -/

mutual

/-- Adds the node at a place, and everything below it if that is asked for. -/
partial def look (below : Bool) (p : Place) (t : FileTree) : IO FileTree := do
  let some file ← try some <$> IO.FS.realPath (textOf p) catch _ => pure none | return t
  if file.toString ≠ textOf p then
    let target := placeOf (.ofString file.toString)
    let t := t.put p (.link (FileTree.placePath target))
    if (t.node? target).isSome then return t else lookFrom below target t
  else if ← file.isDir then
    let t := if p = [] then t else t.put p .directory
    if below then
      (← file.readDir).foldlM (fun t e => look true (p ++ [e.fileName.toList]) t) t
    else return t
  else
    let content ← IO.FS.readBinFile file
    return t.put p (.file content.toList false)

/-- The same, with the directories on the way. -/
partial def lookFrom (below : Bool) (p : Place) (t : FileTree) : IO FileTree := do
  let outer := ((List.range p.length).map p.take).filter (· ≠ [])
  let t ← outer.foldlM (fun t d => if (t.node? d).isSome then pure t else look false d t) t
  look below p t

end

def lookAt (below : Bool) (p : Path) (t : FileTree) : IO FileTree :=
  lookFrom below (placeOf (FileTree.placePath t.home / p).normalize) t

/-- What a task may read or change: trees, and single places. -/
def surroundings (m : Machine) : Task → List Path × List Path
  | .overview => ([], [])
  | .check o => ([o.project], o.lockfile.toList ++ o.config.toList)
  | .fetch o =>
    ([o.project, o.overrides.output.getD m.cacheRoot],
      o.lockfile.toList ++ o.config.toList ++ o.report.toList)
  | .cache root _ => ([root.getD m.cacheRoot], [])

/-! ## Changing the disk -/

def apply : FileTree.Change → IO Unit
  | .remove p => IO.FS.removeFile (textOf p)
  | .removeDirectory p => IO.FS.removeDir (textOf p)
  | .makeDirectory p => IO.FS.createDirAll (textOf p)
  | .write p b => IO.FS.writeBinFile (textOf p) ⟨b.toArray⟩

/-! ## Running -/

def defaultCacheRoot : IO Path := do
  let name := Path.ofString "lockfetch"
  match ← IO.getEnv "XDG_CACHE_HOME", ← IO.getEnv "HOME" with
  | some d, home =>
    if (Path.ofString d).isAbsolute then return .ofString d / name
    else return .ofString (home.getD "") / .ofString ".cache" / name
  | none, some home => return .ofString home / .ofString ".cache" / name
  | none, none => return .ofString ".cache" / name

/-- Stands in the output for the time that a run took. -/
def elapsedMark : String := "\x01"

/-- Seconds with two places. -/
def secondsText (millis : Nat) : String :=
  let hundredths := (millis + 5) / 10
  let rest := hundredths % 100
  s!"{hundredths / 100}.{rest / 10}{rest % 10}s"

def perform (i : Invocation) : IO UInt32 := do
  let started ← IO.monoMsNow
  let m : Machine := {
    jobs := 4
    cacheRoot := ← defaultCacheRoot
    transport := Git.Hosting.transport ⟨⟨[], []⟩, []⟩
    elapsed := elapsedMark }
  let home := placeOf (.ofString (← IO.currentDir).toString)
  let (trees, places) := surroundings m i.task
  let t ← lookFrom false home ⟨[], home⟩
  let t ← trees.foldlM (fun t p => lookAt true p t) t
  let t ← places.foldlM (fun t p => lookAt false p t) t
  let (s, r) := run m i (.ofFiles t)
  (t.changes s.world.files).forM apply
  let took := secondsText ((← IO.monoMsNow) - started)
  IO.print (s.output.replace elapsedMark took)
  let filter := Log.Filter.choose i.level (← IO.getEnv "LOCKFETCH_LOG")
  let entries := (s.world.events.map (·.entry)).filter filter.shows
  entries.forM fun e => IO.eprintln (e.write i.format)
  match r with
  | .ok code => return UInt32.ofNat code
  | .error f =>
    IO.eprintln s!"lockfetch error: {f.render}"
    return 1

end OfflineCache.Main

def main (words : List String) : IO UInt32 := do
  match OfflineCache.CommandLine.Invocation.read words with
  | .ok i => OfflineCache.Main.perform i
  | .error r =>
    IO.print (OfflineCache.CommandLine.Refusal.output r)
    if r.exitCode ≠ 0 then IO.eprintln "lockfetch: the arguments are not understood; see --help"
    return UInt32.ofNat r.exitCode
