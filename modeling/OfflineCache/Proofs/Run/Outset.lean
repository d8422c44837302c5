import OfflineCache.Proofs.Run.Workers
import OfflineCache.Proofs.Store.Faults

/-! What a run sets out from, and what it is to find there if the order of the work is to make no
difference (`Outset.Undisturbed`). Everything is said of the tree at the start and of the tree once the
cache root has been made: what each locator gives, whether its artifact is there already, and the
fault that keeps it from being put there. -/

namespace OfflineCache

open OfflineCache.Path FileTree Replacement

/-- The file at the path has this digest. -/
def FileTree.holds (t : FileTree) (path : Path) (digest : Checksum) : Bool :=
  (t.readBytes path).toOption.any digest.accepts

/-- The fault of a result, if it has one. -/
def FileTree.faultOf : Except Fault Unit → Option Fault
  | .ok _ => none
  | .error f => some f

theorem FileTree.resultOf_faultOf (r : Except Fault Unit) : resultOf (faultOf r) = r := by
  cases r <;> rfl

/-- What the workers are given, the files they find, and what there is to do. -/
structure Outset where
  workplace : Workplace
  tree : FileTree
  plan : Plan

namespace Outset

variable (s : Outset)

abbrev root : Path := s.workplace.store.root

/-- The tree once the cache root has been made. -/
def made : FileTree := (s.tree.layDirectories (s.root.under [])).1

/-- What a locator gives. -/
def fetched (l : Locator) : Except Fetch.Error Artifact :=
  (Fetching.run s.workplace.fetcher s.workplace.transport l (.ofFiles s.tree)).2

/-- The artifact of a pending locator, and the entry it is stored as. -/
structure Stores (l : Locator) (a : Artifact) (e : CacheEntry) : Prop where
  pending : ∃ entry ∈ s.plan.entries, entry.pending? = some l
  fetched : s.fetched l = .ok a
  entry : s.workplace.store.entry l a.digest = .ok e

/-- The cache root is a directory once it has been made. -/
def Seated (place : Place) : Prop :=
  s.tree.layDirectories (s.root.under []) = (s.made, .ok ()) ∧ Leads s.made s.root place

/-- No directory below the cache root can be made, and nothing is by trying. -/
def Barred : Prop :=
  ∀ names, (∀ m ∈ names, IsName m) → ∃ f, s.tree.layDirectories (s.root.under names) =
    (s.tree, .error f)

/-- Elsewhere than below the cache root, every node is as at the start or as once the cache root has
been made. -/
structure Aside (t : FileTree) : Prop where
  home : t.home = s.tree.home
  node : ∀ q, (∀ place, Leads s.made s.root place → place <+: q → q = place) →
    t.node? q = s.tree.node? q ∨ t.node? q = s.made.node? q

/-- The order of the work makes no difference. The pairs of `uses` are the programs and counters of the
temporary files that may be made. -/
structure Undisturbed (uses : Nat → Nat → Prop) : Prop where
  steady : s.workplace.transport.Steady
  rooted : s.tree.Rooted
  linkFree : LinkFree s.tree s.root
  seat : (∃ place, s.Seated place) ∨ s.Barred
  /-- No file reference is read through the cache root or what is below. -/
  references : ∀ entry ∈ s.plan.entries, ∀ l, entry.locator? = some l → l.protocol = .file →
    ∀ t, s.Aside t →
      Containment.contained? t l s.workplace.fetcher.root =
        Containment.contained? s.tree l s.workplace.fetcher.root ∧
      ∀ target, Containment.contained? s.tree l s.workplace.fetcher.root = some target →
        t.readBytes target = s.tree.readBytes target
  /-- It makes no difference to an artifact whether the cache root has been made. -/
  alike : ∀ l a e, s.Stores l a e → ∀ directory, e.path.parent? = some directory →
    (s.tree.layDirectories directory).2 = (s.made.layDirectories directory).2 ∧
      s.tree.holds e.path a.digest = s.made.holds e.path a.digest
  /-- What has one place is one artifact, and has one path. -/
  same : ∀ l a e l' a' e', s.Stores l a e → s.Stores l' a' e' →
    e.path.components = e'.path.components →
      e.path = e'.path ∧ a.bytes = a'.bytes ∧ a.digest = a'.digest
  /-- No artifact is above another. -/
  apart : ∀ l a e l' a' e', s.Stores l a e → s.Stores l' a' e' →
    e.path.components <+: e'.path.components → e.path.components = e'.path.components
  /-- Neither paths nor directories have the names of temporary files. -/
  names : ∀ l a e, s.Stores l a e → ∀ m ∈ e.path.namesBelow s.root, ∀ n process counter,
    m ≠ temporaryName n process counter
  directories : ∀ place, Leads s.made s.root place → ∀ q, place <+: q → ∀ n process counter,
    s.made.node? (q ++ [temporaryName n process counter]) ≠ some .directory
  /-- The temporary path is short enough for every use or for none. -/
  even : ∀ l a e, s.Stores l a e → ∀ process counter process' counter', uses process counter →
    uses process' counter' →
      scratchFault? e.path process counter = scratchFault? e.path process' counter'

end Outset

/-! ## What becomes of an artifact -/

/-- An outset where the order makes no difference, with the place that the cache root leads to if it
can be made, and one use of temporary files that stands for all. -/
structure Ground extends Outset where
  uses : Nat → Nat → Prop
  place : Place
  process : Nat
  counter : Nat
  undisturbed : toOutset.Undisturbed uses
  seat : toOutset.Seated place ∨ toOutset.Barred
  even : ∀ {l a e process' counter'}, toOutset.Stores l a e → uses process' counter' →
    scratchFault? e.path process' counter' = scratchFault? e.path process counter

theorem Outset.Undisturbed.ground {s : Outset} {uses : Nat → Nat → Prop} (h : s.Undisturbed uses) :
    ∃ g : Ground, g.toOutset = s ∧ g.uses = uses := by
  obtain ⟨process, counter, heven⟩ : ∃ process counter, ∀ {l a e process' counter'},
      s.Stores l a e → uses process' counter' →
        scratchFault? e.path process' counter' = scratchFault? e.path process counter := by
    by_cases hu : ∃ process counter, uses process counter
    · obtain ⟨process, counter, hu⟩ := hu
      exact ⟨process, counter, fun hs hu' => h.even _ _ _ hs _ _ _ _ hu' hu⟩
    · exact ⟨0, 0, fun _ hu' => absurd ⟨_, _, hu'⟩ hu⟩
  rcases h.seat with ⟨place, hseat⟩ | hbarred
  · exact ⟨⟨s, uses, place, process, counter, h, .inl hseat, heven⟩, rfl, rfl⟩
  · exact ⟨⟨s, uses, [], process, counter, h, .inr hbarred, heven⟩, rfl, rfl⟩

namespace Ground

variable (g : Ground)

/-- The names of a path below the cache root. -/
def names (path : Path) : List (List Char) := path.namesBelow g.root

/-- Where a path leads. -/
def final (path : Path) : Place := g.place ++ g.names path

/-- The fault of making the directories of a path. -/
def layFault? (path : Path) : Option Fault :=
  match path.parent? with
  | none => some .noParent
  | some directory => faultOf (g.made.layDirectories directory).2

/-- The fault of writing the temporary file. -/
def writeFault? (path : Path) : Option Fault := scratchFault? path g.process g.counter

/-- The fault of putting an artifact at a path. -/
def fault? (path : Path) : Option Fault :=
  (g.layFault? path).or ((g.writeFault? path).or (moveFault? path (g.made.node? (g.final path))))

/-- What comes of storing an artifact: it is there already, or it is put there. -/
def stored (a : Artifact) (path : Path) : Except Fault Unit :=
  if g.made.holds path a.digest then .ok () else resultOf (g.fault? path)

theorem laid_made : Laid g.tree g.made := laid_layDirectories _ _

theorem rooted_made : g.made.Rooted := g.undisturbed.rooted.layDirectories _

theorem linkFree_made : LinkFree g.made g.root := g.undisturbed.linkFree.tended g.laid_made.tended

variable {g}

theorem stores_spelt {l : Locator} {a : Artifact} {e : CacheEntry} (h : g.Stores l a e) :
    ∃ q names n, Plain q (names ++ [n]) ∧ e.path = g.root / q ∧ g.names e.path = names ++ [n] := by
  obtain ⟨-, q, names, n, hplain, hpath⟩ := Store.plain_of_entry h.entry
  refine ⟨q, names, n, hplain, hpath, ?_⟩
  unfold Ground.names
  rw [hpath, hplain.namesBelow_join]

end Ground

end OfflineCache
