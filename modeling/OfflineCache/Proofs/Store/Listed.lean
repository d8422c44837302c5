import OfflineCache.Proofs.FileTree.Listing
import OfflineCache.Proofs.Layout.FinishedNames
import OfflineCache.Proofs.Run.Workers

/-! What the listing of a cache shows of a stored artifact. A store keeps the tree proper, and ends
well only with a file at the path of the entry, so the file is listed unless its name passes for a
temporary one (`Store.listed_of_stored`). -/

namespace OfflineCache

open OfflineCache.Path OfflineCache.FileTree OfflineCache.Replacement

/-! ## Stages of a replacement -/

namespace FileTree.Proper

variable {t : FileTree} (h : t.Proper)

include h

theorem attempt {change : Except Fault FileTree} (hchange : ∀ t', change = .ok t' → t'.Proper)
    (m : Option Mishap) (next : Replacement) (failed : Fault → Replacement) :
    (attempt m t change next failed).1.Proper := by
  unfold Replacement.attempt
  split
  · exact h
  · exact hchange _ rfl
  · exact h

theorem getD_toOption {change : Except Fault FileTree} (hchange : ∀ t', change = .ok t' → t'.Proper) :
    (change.toOption.getD t).Proper := by
  cases change with
  | error f => exact h
  | ok t' => exact hchange t' rfl

/-- Whatever goes wrong, a stage of a replacement leaves a proper tree. -/
theorem stage (dest tmp : Path) (b : Bytes) (m : Option Mishap) (r : Replacement) :
    (r.step dest tmp b m t).1.Proper := by
  cases r with
  | preparing =>
    simp only [Replacement.step]
    split
    · exact h
    · rename_i directory _
      have hlaid := h.layDirectories directory
      split
      · exact h
      · rename_i hmade
        rw [hmade] at hlaid
        exact hlaid
      · rename_i hmade
        rw [hmade] at hlaid
        exact hlaid
  | creating => exact h.attempt (fun t' hw => h.writeFile (createFile_eq t tmp ▸ hw)) _ _ _
  | writing =>
    cases m with
    | some x => exact h.getD_toOption fun t' hw => h.writeFile hw
    | none => exact h.attempt (fun t' hw => h.writeFile hw) _ _ _
  | «renaming» => exact h.attempt (fun t' hr => h.renameFile hr) _ _ _
  | abandoning f =>
    cases m with
    | some x => exact h
    | none => exact h.getD_toOption fun t' hr => h.removeFile hr
  | done r => exact h

end FileTree.Proper

/-! ## The run of a store -/

namespace Storing

variable {s : Store} {l : Locator} {a : Artifact}

/-- What every step keeps holds at the end. -/
theorem run_induction {P : World → Storing → Prop}
    (hstep : ∀ w st, P w st → P (st.step s l a none w).1 (st.step s l a none w).2)
    {w w' : World} (h : P w .starting) {r : Except Store.Error CacheEntry}
    (hr : run s l a w = (w', some r)) : P w' (.done r) := by
  have hsteps : ∀ (n : Nat) (w : World) (st : Storing), P w st →
      P (steps s l a n w st).1 (steps s l a n w st).2 := by
    intro n
    induction n with
    | zero => exact fun _ _ hst => hst
    | succ n ih =>
      intro w st hst
      cases st with
      | done r => exact hst
      | _ => exact ih _ _ (hstep w _ hst)
  have hend := hsteps maxSteps w .starting h
  unfold run at hr
  split at hr
  · rename_i heq
    rw [heq] at hend
    cases hr
    exact hend
  · cases hr

/-- What every step of a store keeps. The file is at the path of the entry once that is delivered,
and right before it is moved there it is in the temporary file. -/
structure Kept (s : Store) (l : Locator) (a : Artifact) (w : World) (st : Storing) : Prop where
  proper : w.files.Proper
  linkFree : LinkFree w.files s.root
  entry : ∀ e, st.known? = some e → s.entry l a.digest = .ok e
  replacing : ∀ e tmp r, st.replacing? = some (e, tmp, r) → ∃ site : Target, site.root = s.root ∧
    site.Spells e.path tmp ∧ site.name ≠ site.scratch ∧
      (r = .renaming → site.Ready a.bytes w.files)
  delivered : ∀ e, st.delivered? = some e → ∃ q b x, w.files.find e.path = .ok (q, .file b x)

variable {w w' : World} {st st' : Storing} {m : Option Mishap}

theorem Kept.change (h : Kept s l a w st) (hc : Change s l a m w st w' st') :
    Kept s l a w' st' := by
  have hentry : ∀ e, st'.known? = some e → s.entry l a.digest = .ok e := fun e he =>
    (known?_change s l a m w hc he).elim (h.entry e) id
  cases hc with
  | quiet hfiles _ _ hnone hsame _ =>
    refine ⟨hfiles ▸ h.proper, hfiles ▸ h.linkFree, hentry, fun e tmp r he => ?_, fun e he => ?_⟩
    · rw [hnone] at he
      cases he
    · rw [hfiles]
      exact h.delivered e (hsame ▸ he)
  | @matched e _ b hfiles _ hread _ =>
    refine ⟨hfiles ▸ h.proper, hfiles ▸ h.linkFree, hentry, fun _ _ _ he => ?_, fun e' he => ?_⟩
    · cases he
    obtain rfl : e = e' := Option.some.inj he
    obtain ⟨q, x, hfind⟩ := readBytes_eq_ok_iff.mp hread
    exact ⟨q, b, x, by rw [hfiles]; exact hfind⟩
  | @begun e _ hfiles _ =>
    refine ⟨hfiles ▸ h.proper, hfiles ▸ h.linkFree, hentry, fun e' tmp r he => ?_, nofun⟩
    obtain ⟨rfl, rfl, rfl⟩ : e = e' ∧ temporaryFor e.path w.process w.temporaries = tmp ∧
        Replacement.preparing = r := by simpa [replacing?] using he
    obtain ⟨-, q, names, n, hplain, hpath⟩ := Store.plain_of_entry (h.entry e rfl)
    refine ⟨⟨s.root, names, n, temporaryName n w.process w.temporaries⟩, rfl, ?_,
      ne_temporaryName n _ _, nofun⟩
    rw [hpath]
    exact spells_temporaryFor hplain s.root w.process w.temporaries
  | @staged e tmp r hr =>
    obtain ⟨site, hroot, hspells, hne, hready⟩ :=
      h.replacing e tmp r (replacing?_of_not_done e tmp hr)
    have hlink : LinkFree w.files site.root := hroot ▸ h.linkFree
    have heffect := effect_step (b := a.bytes) hspells hlink m r
    have htended := heffect.tended hspells hlink hne hready
    refine ⟨h.proper.stage _ _ _ _ _, h.linkFree.tended htended, hentry,
      fun e' tmp' r' he => ?_, fun e' he => ?_⟩
    · obtain ⟨heq, -⟩ := replacing?_eq_some_iff.mp he
      obtain ⟨rfl, rfl, hr'⟩ := Storing.replacing.inj heq
      refine ⟨site, hroot, hspells, hne, fun hrenaming => ?_⟩
      rw [hr', hrenaming] at heffect
      exact heffect.ready
    · obtain ⟨hdone, rfl⟩ := of_delivered?_replacing he
      rw [hdone] at heffect
      obtain rfl := heffect.eq_renaming hr
      obtain ⟨place, x, -, hfind⟩ := heffect.delivered hspells hlink hne (hready rfl)
      exact ⟨_, _, x, hfind⟩

theorem kept_of_run (hw : w.files.Proper) (hf : LinkFree w.files s.root)
    {r : Except Store.Error CacheEntry} (hr : run s l a w = (w', some r)) :
    Kept s l a w' (.done r) :=
  run_induction (P := Kept s l a) (fun w st hk => hk.change (change_step s l a none w st))
    ⟨hw, hf, nofun, nofun, nofun⟩ hr

end Storing

/-! ## The listing -/

namespace Store

theorem listFiles_of_empty {root : Path} (h : root.chars = []) (t : FileTree) :
    t.listFiles root = [] := by
  have hspot : ∀ follow, t.spot root follow = .error .notFound := by
    intro follow
    simp [spot, h]
  simp [listFiles, find, hspot, Except.bind]

/-- How a file below the root of a cache is listed. -/
theorem listFiles_below {t : FileTree} (ht : t.Proper) {root : Path} (hf : LinkFree t root)
    (hroot : root.chars ≠ []) {q : Path} {names : List (List Char)} (hq : Plain q names)
    {r : Place} {b : Bytes} {x : Bool} (hfind : t.find (root / q) = .ok (r, .file b x)) :
    (t.listFiles root).filter (·.path.components = q.components) =
      if q.isTemporary then [] else [⟨ofComponents q.components, b.length⟩] := by
  have hspot := find_eq_ok_iff_spot.mp hfind
  obtain ⟨place, hleads, hplace, -⟩ := place_of_spot (hq.below root) hq.isName hf hspot
  obtain rfl : r = place ++ names := hplace
  have hq' := (spot_eq_ok_iff.mp hspot).1
  have hopens : Opens root := Opens.of_prefix hq' (chars_prefix_join hq.relative) hroot
  have hlast : (relative names).isTemporary = q.isTemporary := by
    rw [isTemporary, isTemporary, fileName?, fileName?, components_relative hq.isName,
      hq.components]
  rw [hq.components, ht.listFiles_at (hleads.find hopens) hq.nonempty (node?_of_find hfind), hlast]
  rfl

/-- **The listing after a store.** A store in a cache without links that ends well has put a file at
the path of the layout below the root. The listing shows that path once, with the size of the file,
unless its name passes for a temporary one, and never a name that does. Only names of yarn's layout
can do so, and those that a replacement gives to its temporary files all do. -/
theorem listed_of_stored {s : Store} (hy : s.layout ∈ LayoutTable.builtin.layouts) {l : Locator}
    {a : Artifact} {w w' : World} (hw : w.files.Proper) (hf : LinkFree w.files s.root)
    {e : CacheEntry} (h : Storing.run s l a w = (w', some (.ok e))) :
    (∃ q b, s.layout.relativePath l a.digest = .ok q ∧ e.path = s.root / q ∧
      w'.files.readBytes e.path = .ok b ∧
      (w'.files.listFiles s.root).filter (·.path.components = q.components) =
        (if q.isTemporary ∨ s.root.chars = [] then []
          else [⟨ofComponents q.components, b.length⟩]) ∧
      (q.isTemporary = true ↔ s.layout = .yarn ∧
        ∃ n, (pieces (Layout.yarnFile l a.digest)).getLast? = some n ∧
          isTemporaryName n = true)) ∧
    (∀ f ∈ w'.files.listFiles s.root, f.path.isTemporary = false) ∧
    ∀ dest process counter, (temporaryFor dest process counter).isTemporary = true := by
  have hkept := Storing.kept_of_run hw hf h
  obtain ⟨-, q, hq, hpath⟩ := of_entry (hkept.entry e rfl)
  obtain ⟨names, hplain⟩ := Layout.plain_of_relativePath hq
  obtain ⟨r, b, x, hfind⟩ := hkept.delivered e rfl
  refine ⟨⟨q, b, hq, hpath, readBytes_eq_ok_iff.mpr ⟨r, x, hfind⟩, ?_,
    Layout.isTemporary_builtin hy hq⟩, fun f => hkept.proper.isTemporary_of_mem_listFiles,
    isTemporary_temporaryFor⟩
  by_cases hroot : s.root.chars = []
  · rw [listFiles_of_empty hroot, if_pos (Or.inr hroot)]
    rfl
  · rw [hpath] at hfind
    rw [listFiles_below hkept.proper hkept.linkFree hroot hplain hfind]
    simp [hroot]

/-- A package of this name. -/
def named (name : String) : Locator := .simple ⟨none, name⟩ .registry "1.0.0".toList []

/-- The store of three bytes for a package, in an empty tree. -/
def yarnRun (name : String) : World × Option (Except Error CacheEntry) :=
  Storing.run ⟨⟨"/c".toList⟩, .yarn⟩ (named name) ⟨[1, 2, 3], Layout.zeros .sha256, 1⟩
    (.ofFiles ⟨[], []⟩)

theorem listed_of_stored_hidden :
    (yarnRun ".x").2 = some (.ok ⟨".x", "1.0.0", ⟨"/c/cache/.x-npm-1.0.0-0000000000.tgz".toList⟩,
        Layout.zeros .sha256⟩) ∧
      ((yarnRun ".x").1.files.listFiles ⟨"/c".toList⟩).filter (·.path.components =
          components ⟨"cache/.x-npm-1.0.0-0000000000.tgz".toList⟩) =
        [⟨⟨"cache/.x-npm-1.0.0-0000000000.tgz".toList⟩, 3⟩] := by
  obtain ⟨hrun, hread⟩ : (yarnRun ".x").2 = some (.ok ⟨".x", "1.0.0",
        ⟨"/c/cache/.x-npm-1.0.0-0000000000.tgz".toList⟩, Layout.zeros .sha256⟩) ∧
      (yarnRun ".x").1.files.readBytes ⟨"/c/cache/.x-npm-1.0.0-0000000000.tgz".toList⟩ =
        .ok [1, 2, 3] := by
    decide +kernel
  have hpath : Layout.yarn.relativePath (named ".x") (Layout.zeros .sha256) =
      .ok ⟨"cache/.x-npm-1.0.0-0000000000.tgz".toList⟩ := by
    rw [Layout.relativePath_of_render (Layout.render_yarn _ _)]
    decide +kernel
  obtain ⟨⟨q, b, hq, -, hb, hlist, -⟩, -⟩ := listed_of_stored (w := .ofFiles ⟨[], []⟩)
    (by simp [LayoutTable.builtin]) proper_empty (linkFree_empty _ _) (Prod.ext rfl hrun)
  cases hpath.symm.trans hq
  cases hread.symm.trans hb
  exact ⟨hrun, hlist.trans (by decide +kernel)⟩

/-- A file that was stored can be missing from the listing. -/
theorem stored_unlisted :
    ¬ ∀ (s : Store) (l : Locator) (a : Artifact) (w w' : World) (e : CacheEntry),
      s.layout ∈ LayoutTable.builtin.layouts → w.files.Proper → LinkFree w.files s.root →
      Storing.run s l a w = (w', some (.ok e)) →
      ∃ q b, s.layout.relativePath l a.digest = .ok q ∧ e.path = s.root / q ∧
        w'.files.readBytes e.path = .ok b ∧
        (w'.files.listFiles s.root).filter (·.path.components = q.components) =
          [⟨ofComponents q.components, b.length⟩] := by
  intro hall
  have hrun : (yarnRun ".tmp-x").2 = some (.ok ⟨".tmp-x", "1.0.0",
      ⟨"/c/cache/.tmp-x-npm-1.0.0-0000000000.tgz".toList⟩, Layout.zeros .sha256⟩) := by
    decide +kernel
  have hpath : Layout.yarn.relativePath (named ".tmp-x") (Layout.zeros .sha256) =
      .ok ⟨"cache/.tmp-x-npm-1.0.0-0000000000.tgz".toList⟩ := by
    rw [Layout.relativePath_of_render (Layout.render_yarn _ _)]
    decide +kernel
  obtain ⟨q, b, hq, -, -, hlist⟩ := hall _ _ _ (.ofFiles ⟨[], []⟩) _ _
    (by simp [LayoutTable.builtin]) proper_empty (linkFree_empty _ _) (Prod.ext rfl hrun)
  cases hpath.symm.trans hq
  have hproper := (Storing.kept_of_run proper_empty (linkFree_empty _ _)
    (Prod.ext rfl hrun)).proper
  have hfile := List.mem_of_mem_filter (hlist ▸ List.mem_singleton_self _)
  have hname : (ofComponents (components
      ⟨"cache/.tmp-x-npm-1.0.0-0000000000.tgz".toList⟩)).isTemporary = false :=
    hproper.isTemporary_of_mem_listFiles hfile
  exact absurd hname (by decide +kernel)

end Store

end OfflineCache
