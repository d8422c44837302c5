import Mathlib.Logic.Function.Iterate
import OfflineCache.Locator.Source
import OfflineCache.Proofs.Locator.Names
import OfflineCache.Proofs.Text.Coding

/-! How deep patches are nested. Reading a patch calls for reading its base, which is decoded first.
Decoding never makes a text longer in bytes, and a patch has ten bytes at least around its base, so
the base is shorter by as many (`Calls.size_le`). No more readings than a tenth of the bytes are
inside each other (`size_of_isChain`), and what a text is read as depends on nothing further inside
(`iterate_parseBy`), so that one function alone reads patches from their bases (`eq_parse_iff`). -/

namespace OfflineCache

open Text

/-! ## Bytes -/

namespace Text.Utf8

theorem length_eq_utf8ByteSize (s : List Char) : length s = (String.ofList s).utf8ByteSize := by
  rw [← String.size_toByteArray, String.toByteArray_ofList, ← length_encode]
  exact List.size_toByteArray.symm

theorem length_pos {s : List Char} (h : s ≠ []) : 0 < length s := by
  obtain ⟨c, r, rfl⟩ := List.exists_cons_of_ne_nil h
  exact Nat.add_pos_left c.utf8Size_pos (length r)

theorem length_trim_le (s : List Char) : length (trim s) ≤ length s := by
  obtain ⟨front, back, hs, -, -⟩ := exists_blanks_around s
  have hlength := congrArg length hs
  simp only [length_append] at hlength
  omega

end Text.Utf8

namespace Locator

/-- Decoding never makes a text longer. -/
theorem utf8ByteSize_decodeText_le (s : List Char) :
    (decodeText s).utf8ByteSize ≤ (String.ofList s).utf8ByteSize := by
  rw [decodeText, ← Utf8.length_eq_utf8ByteSize, ← Utf8.length_eq_utf8ByteSize]
  exact Percent.length_decode_le s

/-! ## One reading inside another -/

/-- What has to be read for reading the text: the base of a patch. -/
def base? (raw : String) : Option String :=
  match shape raw.toList with
  | .ok (.patched _ _ _ coded _) => some (decodeText coded)
  | _ => none

def Calls (raw base : String) : Prop := base? raw = some base

/-- Around the base there are a name, `@patch:`, a hash and a source. -/
theorem length_of_patched {s : List Char} {ident : Ident} {body coded source : List Char}
    {params : List (String × String)}
    (h : shape s = .ok (.patched ident body params coded source)) :
    Utf8.length coded + 10 ≤ Utf8.length s := by
  obtain ⟨ident, reference, htrim, hi, -, hf⟩ := shape_eq_ok_iff.mp h
  cases hf with
  | @patch tag payload _ _ _ _ ht hp hs hc hsource =>
    have htag : tag = "patch".toList := by
      rw [← String.toList_ofList (l := tag), Protocol.eq_tag_of_ofPrefix hp (by simp)]
      rfl
    have hname := Utf8.length_pos hi.render_ne_nil
    have hsource := Utf8.length_pos hsource
    have hlength := Utf8.length_trim_le s
    have hpatch : Utf8.length "patch".toList = 5 := by decide
    have hmarks : Char.utf8Size '@' = 1 ∧ Char.utf8Size ':' = 1 ∧ Char.utf8Size '#' = 1 := by decide
    rw [htrim, ht.eq, htag, eq_append_of_splitParams hs, (eq_append_of_cut hc).1] at hlength
    simp only [Utf8.length_append, Utf8.length_cons, hpatch, hmarks] at hlength
    omega

theorem Calls.size_le {raw base : String} (h : Calls raw base) :
    base.utf8ByteSize + 10 ≤ raw.utf8ByteSize := by
  unfold Calls base? at h
  split at h
  · rename_i coded _ hs
    cases h
    have hpatched := length_of_patched hs
    have hdecoded := utf8ByteSize_decodeText_le coded
    rw [Utf8.length_eq_utf8ByteSize, Utf8.length_eq_utf8ByteSize, String.ofList_toList] at hpatched
    omega
  · cases h

/-! ## Readings inside each other -/

theorem size_of_isChain {raw : String} {bases : List String}
    (h : List.IsChain Calls (raw :: bases)) : 10 * bases.length ≤ raw.utf8ByteSize := by
  induction bases generalizing raw with
  | nil => exact Nat.zero_le _
  | cons base bases ih =>
    obtain ⟨hcall, hrest⟩ := List.isChain_cons_cons.mp h
    have hbase := hcall.size_le
    have hinside := ih hrest
    rw [List.length_cons]
    omega

/-- One reading, with the base of a patch left to `f`. -/
def parseBy (f : String → Except Malformed Locator) (raw : String) : Except Malformed Locator :=
  match shape raw.toList with
  | .error e => .error ⟨raw, e⟩
  | .ok (.whole l) => .ok l
  | .ok (.patched ident body params coded source) =>
    match f (decodeText coded) with
    | .error e => .error ⟨raw, .badPatchBase e.reason⟩
    | .ok b => .ok { simple ident .patch body params with patch := some (patchTarget b source) }

theorem parse_eq_parseBy (raw : String) : parse raw = parseBy parse raw := by
  rw [parse, read, parseBy]
  split
  · rename_i hs
    simp only [hs]
    rfl
  · rename_i hs
    simp only [hs]
    rfl
  · rename_i coded source hs
    have hbase : (decodeText coded).toList = Percent.decode coded := String.toList_ofList
    simp only [hs, parse, hbase]
    cases read (Percent.decode coded) <;> rfl

/-- Only what is called for matters. -/
theorem parseBy_congr {f g : String → Except Malformed Locator} {raw : String}
    (h : ∀ base, Calls raw base → f base = g base) : parseBy f raw = parseBy g raw := by
  unfold parseBy
  unfold Calls base? at h
  split
  · rfl
  · rfl
  · rename_i hs
    rw [hs] at h
    rw [h _ rfl]

/-- Readings further inside than a tenth of the bytes are never begun: anything may stand in for
them. -/
theorem iterate_parseBy (f : String → Except Malformed Locator) {raw : String} {n : Nat}
    (h : raw.utf8ByteSize < 10 * n) : parseBy^[n] f raw = parse raw := by
  induction n generalizing raw with
  | zero => exact absurd h (Nat.not_lt_zero _)
  | succ n ih =>
    rw [Function.iterate_succ_apply', parse_eq_parseBy raw]
    refine parseBy_congr fun base hcall => ih ?_
    have hshorter := hcall.size_le
    omega

theorem eq_parse_iff {f : String → Except Malformed Locator} :
    f = parse ↔ ∀ raw, f raw = parseBy f raw := by
  constructor
  · rintro rfl
    exact parse_eq_parseBy
  · intro hf
    funext raw
    have hfixed : parseBy f = f := funext fun text => (hf text).symm
    rw [← iterate_parseBy f (Nat.lt_mul_div_succ raw.utf8ByteSize (by decide)),
      Function.iterate_fixed hfixed]

/-- **Reading ends on every text.** Decoding never makes a text longer, the base of a patch is
shorter by ten bytes at least, no more readings than a tenth of the bytes are inside each other,
and what is read depends on nothing further inside: one function alone obeys the rule. -/
theorem parse_ends :
    (∀ raw : String, (decodeText raw.toList).utf8ByteSize ≤ raw.utf8ByteSize) ∧
      (∀ raw base, Calls raw base → base.utf8ByteSize + 10 ≤ raw.utf8ByteSize) ∧
        (∀ raw bases, List.IsChain Calls (raw :: bases) →
          10 * bases.length ≤ raw.utf8ByteSize) ∧
          (∀ f raw n, raw.utf8ByteSize < 10 * n → parseBy^[n] f raw = parse raw) ∧
            ∀ f, f = parse ↔ ∀ raw, f raw = parseBy f raw := by
  refine ⟨?_, fun _ _ => Calls.size_le, fun _ _ => size_of_isChain,
    fun f _ _ => iterate_parseBy f, fun _ => eq_parse_iff⟩
  intro raw
  have hdecoded := utf8ByteSize_decodeText_le raw.toList
  rwa [String.ofList_toList] at hdecoded

/-- A patch of a patch is read in three readings; a function that refuses every text may stand in
for what is further inside. -/
theorem parse_ends_nested :
    List.IsChain Calls [nestedPatch, "b@patch:c@npm%3A1.0.0#fix.patch", "c@npm:1.0.0"] ∧
      10 * ["b@patch:c@npm%3A1.0.0#fix.patch", "c@npm:1.0.0"].length ≤ nestedPatch.utf8ByteSize ∧
        "b@patch:c@npm%3A1.0.0#fix.patch".utf8ByteSize + 10 ≤ nestedPatch.utf8ByteSize ∧
          parseBy^[9] (fun raw => .error ⟨raw, .noReference⟩) nestedPatch = parse nestedPatch := by
  have houter : Calls nestedPatch "b@patch:c@npm%3A1.0.0#fix.patch" := by
    unfold Calls
    decide +kernel
  have hinner : Calls "b@patch:c@npm%3A1.0.0#fix.patch" "c@npm:1.0.0" := by
    unfold Calls
    decide +kernel
  have hchain : List.IsChain Calls
      [nestedPatch, "b@patch:c@npm%3A1.0.0#fix.patch", "c@npm:1.0.0"] :=
    .cons_cons houter (.cons_cons hinner (.singleton _))
  exact ⟨hchain, parse_ends.2.2.1 _ _ hchain, parse_ends.2.1 _ _ houter,
    parse_ends.2.2.2.1 _ _ _ (by decide +kernel)⟩

end Locator

end OfflineCache
