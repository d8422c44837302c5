import OfflineCache.Fetch.Transport
import OfflineCache.FileTree.Change
import OfflineCache.Log.Event

/-! What the workers of a run share: the files, the paths that are locked, the calls made so far,
the signal to stop, and what has been told. -/

namespace OfflineCache

structure World where
  files : FileTree
  /-- The paths being written, by their components. -/
  locked : List (List Path.Component)
  /-- Makes the names of temporary files unlike those of other programs. -/
  process : Nat
  /-- How many temporary names have been used. -/
  temporaries : Nat
  calls : List Request
  cancelled : Bool
  sleeps : List Duration
  events : List Log.Event
  deriving Inhabited

namespace World

def ofFiles (t : FileTree) : World := ⟨t, [], 1, 0, [], false, [], []⟩

def tell (w : World) (e : Log.Event) : World := { w with events := w.events ++ [e] }

def tellAll (w : World) (es : List Log.Event) : World := { w with events := w.events ++ es }

def sleep (w : World) (d : Duration) : World := { w with sleeps := w.sleeps ++ [d] }

/-- One call of the transport. -/
def call (w : World) (t : Transport) (r : Request) : World × Except Fetch.Error Bytes :=
  let a := t w.calls r
  ({ w with calls := w.calls ++ [r], cancelled := w.cancelled || a.cancels }, a.result)

end World

end OfflineCache
