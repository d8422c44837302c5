import OfflineCache.Checksum
import OfflineCache.Locator.Ident
import OfflineCache.Locator.Protocol

/-! Locators: the exact place a lockfile record resolved to. A locator of protocol `patch` holds the
locator that the patch applies to. The reference is kept as it is written, percent escapes included;
the checksum and the resolved version come from the record, not from the locator's text. -/

namespace OfflineCache

open Text

/-- What a patch applies to (`base`), and where the patch comes from. -/
structure PatchTarget (L : Type) where
  base : L
  source : String
  optional : Bool
deriving DecidableEq, Repr

structure Locator where
  ident : Ident
  protocol : Protocol
  reference : String
  subdirectory : Option String
  /-- Binding parameters in the order they are written. -/
  params : List (String × String)
  patch : Option (PatchTarget Locator)
  checksum : Option Checksum
  resolvedVersion : Option String
deriving Repr

namespace Locator

/-- A locator with the given parts and nothing else. -/
def simple (ident : Ident) (protocol : Protocol) (reference : List Char)
    (params : List (String × String)) : Locator :=
  ⟨ident, protocol, String.ofList reference, none, params, none, none, none⟩

def decEq (a b : Locator) : Decidable (a = b) :=
  match a, b with
  | ⟨i, p, r, s, ps, none, c, v⟩, ⟨i', p', r', s', ps', none, c', v'⟩ =>
    if h : i = i' ∧ p = p' ∧ r = r' ∧ s = s' ∧ ps = ps' ∧ c = c' ∧ v = v' then
      isTrue (by obtain ⟨rfl, rfl, rfl, rfl, rfl, rfl, rfl⟩ := h; rfl)
    else isFalse (by intro e; injection e; simp_all)
  | ⟨i, p, r, s, ps, some ⟨b, src, o⟩, c, v⟩, ⟨i', p', r', s', ps', some ⟨b', src', o'⟩, c', v'⟩ =>
    match decEq b b' with
    | isFalse h => isFalse (by intro e; injection e; simp_all)
    | isTrue hb =>
      if h : i = i' ∧ p = p' ∧ r = r' ∧ s = s' ∧ ps = ps' ∧ src = src' ∧ o = o' ∧ c = c' ∧ v = v' then
        isTrue (by obtain ⟨rfl, rfl, rfl, rfl, rfl, rfl, rfl, rfl, rfl⟩ := h; rw [hb])
      else isFalse (by intro e; injection e; simp_all)
  | ⟨_, _, _, _, _, none, _, _⟩, ⟨_, _, _, _, _, some _, _, _⟩ =>
    isFalse (by intro e; injection e; simp_all)
  | ⟨_, _, _, _, _, some _, _, _⟩, ⟨_, _, _, _, _, none, _, _⟩ =>
    isFalse (by intro e; injection e; simp_all)

instance : DecidableEq Locator := decEq

def param? (l : Locator) (key : String) : Option String :=
  (l.params.find? (·.1 == key)).map (·.2)

def withChecksum (l : Locator) (c : Option Checksum) : Locator := { l with checksum := c }

/-- The version of packages that were never published. -/
def unresolvedVersion : String := "0.0.0-use.local"

/-- Blank versions and the placeholder of unpublished packages say nothing and are dropped. -/
def withResolvedVersion (l : Locator) (version : Option String) : Locator :=
  { l with
    resolvedVersion := (version.map fun v => String.ofList (trim v.toList)).filter
      fun v => v != "" && v != unresolvedVersion }

end Locator

end OfflineCache
