import OfflineCache.Fetch.Basic
import OfflineCache.Layout

/-! Storing a verified artifact. A path is written by one worker at a time; what is there already
and has the right digest stays; everything else is replaced in one move by a temporary file
written beside it. Every stage may fail with a fault of the files. -/

namespace OfflineCache

/-- A fault at some stage, and how much a failing write has written. -/
structure Mishap where
  fault : FileTree.Fault
  written : Nat
  deriving DecidableEq, Repr

/-- The replacement of a file: where it stands. -/
inductive Replacement where
  | preparing
  | creating
  | writing
  | renaming
  | abandoning (f : FileTree.Fault)
  | done (r : Except FileTree.Fault Unit)
  deriving Repr

namespace Replacement

open FileTree (Fault)

/-- The result of one change to the files, unless a mishap forestalls it. -/
def attempt (m : Option Mishap) (t : FileTree) (change : Except Fault FileTree)
    (next : Replacement) (failed : Fault → Replacement) : FileTree × Replacement :=
  match m, change with
  | some x, _ => (t, failed x.fault)
  | none, .ok t => (t, next)
  | none, .error f => (t, failed f)

/-- One stage of putting `b` at `dest` by way of `temporary`. -/
def step (dest temporary : Path) (b : Bytes) (m : Option Mishap) (t : FileTree) :
    Replacement → FileTree × Replacement
  | .preparing =>
    match dest.parent? with
    | none => (t, .done (.error .noParent))
    | some dir =>
      match m, t.layDirectories dir with
      | some x, _ => (t, .done (.error x.fault))
      | none, (t, .ok ()) => (t, .creating)
      | none, (t, .error f) => (t, .done (.error f))
  | .creating => attempt m t (t.createFile temporary) .writing .abandoning
  | .writing =>
    match m with
    | some x => ((t.writeFile temporary (b.take x.written)).toOption.getD t, .abandoning x.fault)
    | none => attempt none t (t.writeFile temporary b) .renaming .abandoning
  | .renaming => attempt m t (t.renameFile temporary dest) (.done (.ok ())) .abandoning
  | .abandoning f =>
    match m with
    | some _ => (t, .done (.error f))
    | none => ((t.removeFile temporary).toOption.getD t, .done (.error f))
  | .done r => (t, .done r)

def isDone : Replacement → Bool
  | .done _ => true
  | _ => false

/-- All stages without a mishap. -/
def run (dest temporary : Path) (b : Bytes) (t : FileTree) : FileTree × Except Fault Unit :=
  go 5 t .preparing
where
  go : Nat → FileTree → Replacement → FileTree × Except Fault Unit
    | _, t, .done r => (t, r)
    | 0, t, _ => (t, .error .noParent)
    | n + 1, t, s =>
      let (t, s) := step dest temporary b none t s
      go n t s

/-- The name of a temporary file beside `dest`, different in every program and at every use. -/
def temporaryFor (dest : Path) (process counter : Nat) : Path :=
  let name := '.' :: (dest.fileName?.getD []) ++ ".tmp-".toList ++ Decimal.digitsOf process ++
    '-' :: Decimal.digitsOf counter
  dest.parent?.getD ⟨[]⟩ / ⟨name⟩

end Replacement

/-- A cache on disk. -/
structure Store where
  root : Path
  layout : Layout

structure CacheEntry where
  ident : String
  version : String
  path : Path
  digest : Checksum
  deriving DecidableEq, Repr

namespace Store

inductive Error where
  | layout (e : Layout.Error)
  | io (path : Path) (fault : FileTree.Fault)
  deriving DecidableEq, Repr

def Error.message : Error → String
  | .layout e => e.message
  | .io p f => s!"write cache entry {p.render}: {f.message}"

def entry (s : Store) (l : Locator) (digest : Checksum) : Except Layout.Error CacheEntry :=
  (s.layout.relativePath l digest).map fun p =>
    ⟨l.ident.render, Layout.versionOf l, s.root / p, digest⟩

end Store

/-- Where the storing of an artifact stands. -/
inductive Storing where
  | starting
  | locking (e : CacheEntry)
  | comparing (e : CacheEntry)
  | replacing (e : CacheEntry) (temporary : Path) (r : Replacement)
  | unlocking (e : CacheEntry) (r : Except FileTree.Fault Unit)
  | done (r : Except Store.Error CacheEntry)

namespace Storing

/-- The look at the file that is there; what cannot be read is replaced. -/
def compare (a : Artifact) (e : CacheEntry) (m : Option Mishap) (w : World) : World × Storing :=
  let path := e.path.render
  let replace (w : World) : World × Storing :=
    ({ w with temporaries := w.temporaries + 1 },
      .replacing e (Replacement.temporaryFor e.path w.process w.temporaries) .preparing)
  match m, w.files.readBytes e.path with
  | none, .ok b =>
    if a.digest.accepts b then (w.tell (.alreadyStored path), .unlocking e (.ok ()))
    else replace (w.tell (.replacing path))
  | _, _ => replace w

def step (s : Store) (l : Locator) (a : Artifact) (m : Option Mishap) (w : World) :
    Storing → World × Storing
  | .starting =>
    match s.entry l a.digest with
    | .error e => (w, .done (.error (.layout e)))
    | .ok e => (w, .locking e)
  | .locking e =>
    if w.locked.contains e.path.components then (w, .locking e)
    else ({ w with locked := e.path.components :: w.locked }, .comparing e)
  | .comparing e => compare a e m w
  | .replacing e _ (.done (.ok ())) =>
    (w.tell (.stored l.render e.path.render), .unlocking e (.ok ()))
  | .replacing e _ (.done (.error f)) =>
    (w.tell (.writeFailed e.path.render f), .unlocking e (.error f))
  | .replacing e tmp r =>
    let (files, r) := r.step e.path tmp a.bytes m w.files
    ({ w with files }, .replacing e tmp r)
  | .unlocking e r =>
    ({ w with locked := w.locked.erase e.path.components },
      .done ((r.map fun _ => e).mapError (.io e.path)))
  | .done r => (w, .done r)

/-- How many steps are left at most, once the path is free. -/
def maxSteps : Nat := 12

def steps (s : Store) (l : Locator) (a : Artifact) : Nat → World → Storing → World × Storing
  | 0, w, st => (w, st)
  | _ + 1, w, .done r => (w, .done r)
  | n + 1, w, st =>
    let (w, st) := step s l a none w st
    steps s l a n w st

/-- Stores one artifact from start to end; `none` if its path stays locked. -/
def run (s : Store) (l : Locator) (a : Artifact) (w : World) :
    World × Option (Except Store.Error CacheEntry) :=
  match steps s l a maxSteps w .starting with
  | (w, .done r) => (w, some r)
  | (w, _) => (w, none)

end Storing

end OfflineCache
