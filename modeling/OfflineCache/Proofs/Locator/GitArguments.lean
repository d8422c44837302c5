import OfflineCache.Proofs.Dialect.Meaning
import OfflineCache.Proofs.Run.Pinned
import OfflineCache.Proofs.Text.Decoding

/-! What a git reference hands to the commands that clone and check out. The address always begins
with a letter, whichever of its forms the reference is in. The revision is the decoded text that the
fragment picks, and nothing keeps that text from being empty or from beginning with a hyphen, as an
option does. In hardened mode it is a commit hash.

Main statement: `gitSource_arguments`. -/

namespace OfflineCache

open Text

/-- A text that stands for itself on a command line, and for no option. -/
def IsArgument (s : String) : Prop := s ≠ "" ∧ s.toList.head? ≠ some '-'

theorem isArgument_of_cons {s : String} {c : Char} {r : List Char} (h : s.toList = c :: r) :
    IsArgument s ↔ c ≠ '-' := by
  have hne : s ≠ "" := by
    rintro rfl
    cases h
  simp [IsArgument, hne, h]

namespace Locator

/-- The part of a fragment that names the revision: all of it, or the value of the first key that
occurs, in the order of the keys. -/
inductive Picks (fragment : List Char) : List Char → Prop
  | bare : fragment ≠ [] → '=' ∉ fragment → Picks fragment fragment
  | keyed {key : String} {name value : List Char} : '=' ∈ fragment → key ∈ revisionKeys →
      ((splitAll '&' fragment).filterMap (cut '=')).find? (·.1 == key.toList) = some (name, value) →
      Picks fragment value

/-! ## The address -/

/-- How git references begin. -/
def gitFronts : List (List Char) :=
  ["git@".toList, "http:".toList, "https:".toList, "github:".toList, "git:".toList,
    "git+ssh:".toList, "git+http:".toList, "git+https:".toList, "git+file:".toList]

theorem hash_notMem_gitFronts : ∀ front ∈ gitFronts, '#' ∉ front := by decide

theorem gitFront_of_tag {reference tag payload : List Char} (ht : Tagged reference tag payload)
    (hp : Protocol.ofPrefix (String.ofList tag) = .git ∨
      Protocol.ofPrefix (String.ofList tag) = .http) :
    ∃ front ∈ gitFronts, front <+: reference := by
  refine ⟨tag ++ [':'], ?_, payload, by simp [ht.eq]⟩
  generalize hs : String.ofList tag = s at hp
  have htag : tag = s.toList := by rw [← hs, String.toList_ofList]
  unfold Protocol.ofPrefix at hp
  split at hp
  all_goals simp at hp
  all_goals subst htag; decide

theorem Form.gitFront {ident : Ident} {reference : List Char} {l : Locator}
    (h : Form ident reference (.whole l)) (hg : l.protocol = .git) :
    ∃ front ∈ gitFronts, front <+: l.reference.toList := by
  cases h with
  | scp hscp =>
    exact ⟨"git@".toList, by decide, by simpa [simple] using List.isPrefixOf_iff_prefix.mp hscp⟩
  | range => cases hg
  | repository ht hp => simpa [simple] using gitFront_of_tag ht (Or.inr hp)
  | url ht hp => simpa [simple] using gitFront_of_tag ht (Or.inl (hp.trans hg))
  | plain ht hp hk =>
    obtain rfl := hg
    simp at hk
  | file => cases hg
  | subdirectory => cases hg

/-- The beginning stands in front of the fragment. -/
theorem prefix_of_cut {front s a b : List Char} {c : Char} (h : front <+: s) (hc : c ∉ front)
    (hs : cut c s = some (a, b)) : front <+: a := by
  obtain ⟨rfl, -⟩ := eq_append_of_cut hs
  rcases List.prefix_or_prefix_of_prefix h (List.prefix_append a (c :: b)) with hf | ⟨more, rfl⟩
  · exact hf
  · cases more with
    | nil => simp
    | cons x r =>
      obtain ⟨rfl, -⟩ := List.cons_prefix_cons.mp ((List.prefix_append_right_inj a).mp h)
      simp at hc

theorem isArgument_cloneUrl {front address : List Char} (hf : front ∈ gitFronts)
    (h : front <+: address) : IsArgument (cloneUrl address) := by
  obtain ⟨rest, rfl⟩ := h
  simp only [gitFronts, List.mem_cons, List.not_mem_nil, or_false] at hf
  rcases hf with rfl | rfl | rfl | rfl | rfl | rfl | rfl | rfl | rfl
  all_goals simp [cloneUrl, List.isPrefixOf?, IsArgument]

/-! ## The revision -/

theorem isArgument_decodeText_iff {raw : List Char} :
    IsArgument (decodeText raw) ↔ raw ≠ [] ∧ ¬ Percent.LeadsHyphen raw := by
  cases raw with
  | nil => simp [IsArgument, decodeText, Percent.decode, Percent.decodeRun, Utf8.decodeLossy]
  | cons x r =>
    obtain ⟨c, rest, hc, hiff⟩ := Percent.decode_cons x r
    have htext : (decodeText (x :: r)).toList = c :: rest := by
      rw [decodeText, String.toList_ofList, hc]
    rw [isArgument_of_cons htext, Ne, hiff]
    simp

theorem exists_picks {fragment : List Char} {r : String} (h : gitRevision? fragment = some r) :
    ∃ raw, Picks fragment raw ∧ r = decodeText raw := by
  unfold gitRevision? at h
  split at h
  · cases h
  · rename_i hne
    split at h
    · rename_i hn
      exact ⟨fragment, .bare hne hn, (Option.some.inj h).symm⟩
    · rename_i hn
      obtain ⟨key, hkey, hfound⟩ := List.exists_of_findSome?_eq_some h
      obtain ⟨⟨name, value⟩, hpair, rfl⟩ := Option.map_eq_some_iff.mp hfound
      exact ⟨value, .keyed (by simpa using hn) hkey hpair, rfl⟩

theorem isArgument_of_isCommitHash {rev : String} (h : Policy.isCommitHash rev = true) :
    IsArgument rev := by
  obtain ⟨hlength, hdigits⟩ := Policy.of_isCommitHash h
  cases hrev : rev.toList with
  | nil => simp [hrev] at hlength
  | cons c r =>
    rw [isArgument_of_cons hrev]
    rintro rfl
    exact absurd (hdigits '-' (by simp [hrev])) (by decide)

/-- **The arguments of an export from git.**  The address of a git locator is never taken for an
option. Its revision, if it has one, is what the fragment picks, decoded; it is an argument exactly
if the picked text is not empty and begins with no hyphen, escaped or not. What a hardened policy
lets through has a revision, and one that is an argument. -/
theorem gitSource_arguments {s : String} {l : Locator} (h : parse s = .ok l)
    (hg : l.protocol = .git) :
    ∃ url revision, l.gitSource? = some (url, revision) ∧ IsArgument url ∧
      (∀ r, revision = some r → ∃ address fragment raw,
        l.reference.toList = address ++ '#' :: fragment ∧ '#' ∉ address ∧ Picks fragment raw ∧
          r = decodeText raw ∧ (IsArgument r ↔ raw ≠ [] ∧ ¬ Percent.LeadsHyphen raw)) ∧
      ∀ p : Policy, p.hardened = true → p.classify l = .fetchable →
        ∃ r, revision = some r ∧ IsArgument r := by
  have hshape := (parse_eq_ok_iff.mp h).shape_eq_whole (by simp [hg])
  obtain ⟨ident, reference, -, -, -, hform⟩ := shape_eq_ok_iff.mp hshape
  obtain ⟨front, hfront, hprefix⟩ := hform.gitFront hg
  have hpinned : ∀ url revision, l.gitSource? = some (url, revision) → ∀ p : Policy,
      p.hardened = true → p.classify l = .fetchable → ∃ r, revision = some r ∧ IsArgument r := by
    intro url revision hs p hp hc
    obtain ⟨r, hr, hhash⟩ := Policy.revision_of_pinned (Policy.pinned_of_fetchable hc hp) hg hs
    exact ⟨r, hr, isArgument_of_isCommitHash hhash⟩
  cases hcut : cut '#' l.reference.toList with
  | none =>
    have hs : l.gitSource? = some (cloneUrl l.reference.toList, none) := by
      simp [gitSource?, hg, hcut]
    exact ⟨_, _, hs, isArgument_cloneUrl hfront hprefix, nofun, hpinned _ _ hs⟩
  | some parts =>
    obtain ⟨address, fragment⟩ := parts
    have hs : l.gitSource? = some (cloneUrl address, gitRevision? fragment) := by
      simp [gitSource?, hg, hcut]
    have haddress := prefix_of_cut hprefix (hash_notMem_gitFronts front hfront) hcut
    refine ⟨_, _, hs, isArgument_cloneUrl hfront haddress, fun r hr => ?_, hpinned _ _ hs⟩
    obtain ⟨raw, hpicks, rfl⟩ := exists_picks hr
    obtain ⟨hreference, hhash⟩ := eq_append_of_cut hcut
    exact ⟨address, fragment, raw, hreference, hhash, hpicks, rfl, isArgument_decodeText_iff⟩

theorem gitSource_arguments_escaped :
    ∃ l url, parse "a@git+ssh://git@h.org/r.git#semver=%2D&head=%6Dain" = .ok l ∧
      l.protocol = .git ∧ l.gitSource? = some (url, some "main") ∧ IsArgument url ∧
      ∃ raw, "main" = decodeText raw ∧ raw ≠ [] ∧ ¬ Percent.LeadsHyphen raw := by
  have hl : parse "a@git+ssh://git@h.org/r.git#semver=%2D&head=%6Dain" = .ok (.simple ⟨none, "a"⟩
      .git "git+ssh://git@h.org/r.git#semver=%2D&head=%6Dain".toList []) := by
    decide +kernel
  have hs : (simple ⟨none, "a"⟩ .git
      "git+ssh://git@h.org/r.git#semver=%2D&head=%6Dain".toList []).gitSource? =
        some ("ssh://git@h.org/r.git", some "main") := by
    decide +kernel
  obtain ⟨url, revision, hsource, hurl, hrevision, -⟩ := gitSource_arguments hl rfl
  obtain ⟨rfl, rfl⟩ := Prod.mk.inj (Option.some.inj (hs.symm.trans hsource))
  obtain ⟨address, fragment, raw, -, -, -, hr, hiff⟩ := hrevision "main" rfl
  exact ⟨_, _, hl, rfl, hs, hurl, raw, hr, hiff.mp ⟨by decide, by decide⟩⟩

/-- The revision that a fragment names can be an option. -/
theorem gitSource_option :
    ¬ ∀ (s : String) (l : Locator), parse s = .ok l → l.protocol = .git →
      ∃ url revision, l.gitSource? = some (url, revision) ∧ IsArgument url ∧
        ∀ r, revision = some r → IsArgument r := by
  intro hall
  have hl : parse "a@git@github.com:o/r.git#--quiet" =
      .ok (.simple ⟨none, "a"⟩ .git "git@github.com:o/r.git#--quiet".toList []) := by
    decide +kernel
  have hs : (simple ⟨none, "a"⟩ .git "git@github.com:o/r.git#--quiet".toList []).gitSource? =
      some ("git@github.com:o/r.git", some "--quiet") := by
    decide +kernel
  obtain ⟨url, revision, hsource, -, hrevision⟩ := hall _ _ hl rfl
  obtain ⟨-, rfl⟩ := Prod.mk.inj (Option.some.inj (hs.symm.trans hsource))
  exact absurd (hrevision "--quiet" rfl).2 (by decide)

end Locator

end OfflineCache
