import OfflineCache.Proofs.Locator.Names

/-! What a dialect reads is what the grammar alone reads. A bare range that is given its protocol
keeps its name and its reference, so the grammar gives the same answer for both spellings, faults
included; and of what the grammar reads a dialect changes one thing, the older marker of an optional
builtin patch.

Main statement: `parseLocator_faithful`. -/

namespace OfflineCache

open Text

namespace Locator

/-! ## Two spellings of a range -/

/-- A range behind a name may as well be written behind its protocol. -/
theorem shape_qualified {s name range : List Char} (hs : trim s = name ++ '@' :: range)
    (hne : name ≠ []) (hat : '@' ∉ name.tail) (hr : Version.Range.isRange range = .ok true) :
    shape (name ++ "@npm:".toList ++ range) = shape s := by
  have hsplit : splitIdent (trim s) = some (name, range) :=
    splitIdent_eq_some_iff.mpr ⟨hs, hne, hat⟩
  have hends : ("@npm:".toList ++ range).getLast? = ('@' :: range).getLast? := by
    obtain ⟨x, r, rfl⟩ := List.exists_cons_of_ne_nil (ne_nil_of_isRange hr)
    simp
  have htight : Tight (name ++ "@npm:".toList ++ range) := by
    rw [List.append_assoc]
    exact (hs ▸ trim_tight s).append_congr hne (by simp) hends
  have hsplit' : splitIdent (trim (name ++ "@npm:".toList ++ range)) =
      some (name, "npm:".toList ++ range) := by
    rw [trim_of_tight htight]
    exact splitIdent_eq_some_iff.mpr ⟨by simp, hne, hat⟩
  simp only [shape, hsplit, hsplit']
  cases Ident.parse? name with
  | none => rfl
  | some ident =>
    have hshape : shapeOf ident range = .ok (.whole (.simple ident .registry range [])) :=
      shapeOf_of_form (.range hr)
    have hshape' := shapeOf_of_form (Form.range_tag ident hr)
    simp only [if_neg (ne_nil_of_isRange hr), hshape]
    exact hshape'

theorem shape_congr {s s' : List Char} (h : trim s = trim s') : shape s = shape s' := by
  rw [shape, shape, h]

/-- A separator that starts with an at sign keeps its name and its range, and what is blank around them
goes. -/
theorem trim_around_separator {blanks name separator range back : List Char}
    (hblanks : ∀ c ∈ blanks, isBlank c = true) (hback : ∀ c ∈ back, isBlank c = true)
    (hname : ∀ c, name.head? = some c → isBlank c = false) (hat : separator.head? = some '@')
    (hne : range ≠ []) (hrange : ∀ c, range.getLast? = some c → isBlank c = false) :
    trim (blanks ++ name ++ separator ++ (range ++ back)) = name ++ separator ++ range := by
  have htight : Tight (name ++ separator ++ range) := by
    constructor
    · intro c hc
      rw [List.append_assoc, List.head?_append, List.head?_append, hat] at hc
      cases hhead : name.head? with
      | none =>
        obtain rfl : '@' = c := by simpa [hhead] using hc
        decide
      | some x => exact hname c (by simpa [hhead] using hc)
    · intro c hc
      exact hrange c (by rwa [List.getLast?_append_of_ne_nil _ hne] at hc)
  have h := trim_blanks_around hblanks hback htight (by simp [hne])
  simpa using h

/-- An at sign in front is taken for that of a scope, and names no ident by itself. -/
theorem splitIdent_of_scope {rest : List Char} (h : '@' ∉ rest) :
    splitIdent ('@' :: rest) = none := by
  rw [splitIdent, cut_eq_none_iff.mpr h, Option.map_none]

/-- Both spellings are cut behind the same name, however many blanks stand in front of it. -/
theorem shape_bare_eq_shape_tagged {name range : List Char} (hat : '@' ∉ name.tail)
    (hr : Version.Range.isRange range = .ok true) :
    shape (name ++ '@' :: range) = shape (name ++ "@npm:".toList ++ range) := by
  obtain ⟨front, core, back, rfl, hb, hr', hne, hl⟩ := exists_core_of_isRange hr
  obtain ⟨blanks, bare, rfl, hblanks, hhead⟩ : ∃ blanks bare, name = blanks ++ bare ∧
      (∀ c ∈ blanks, isBlank c = true) ∧ ∀ c, bare.head? = some c → isBlank c = false :=
    ⟨name.takeWhile isBlank, trimStart name, (List.takeWhile_append_dropWhile).symm,
      List.all_eq_true.mp List.all_takeWhile, head_trimStart name⟩
  have htrim : ∀ separator : List Char, separator.head? = some '@' →
      trim (blanks ++ bare ++ separator ++ (front ++ core ++ back)) =
        bare ++ separator ++ (front ++ core) := fun separator hseparator =>
    trim_around_separator hblanks hb hhead hseparator (by simp [hne]) fun c hc =>
      hl c (by rwa [List.getLast?_append_of_ne_nil _ hne] at hc)
  have hbare : trim (blanks ++ bare ++ '@' :: (front ++ core ++ back)) =
      bare ++ '@' :: (front ++ core) := by simpa using htrim ['@'] rfl
  have htagged := htrim "@npm:".toList rfl
  by_cases hname : bare = []
  · -- nothing stands in front of the at sign
    subst hname
    have hat' : '@' ∉ front ++ core := fun hm =>
      absurd (Version.Range.ofRange_of_isRange hr' '@' hm) (by decide)
    have hsplit := splitIdent_of_scope hat'
    have hsplit' : splitIdent ("@npm:".toList ++ (front ++ core)) = none :=
      @splitIdent_of_scope ("npm:".toList ++ (front ++ core)) (by simpa using hat')
    rw [List.nil_append] at hbare htagged
    simp only [shape, hbare, htagged, hsplit, hsplit']
  · have hat' : '@' ∉ bare.tail := by
      cases blanks with
      | nil => exact hat
      | cons c r => exact fun hm => hat (by simp [List.mem_of_mem_tail hm])
    rw [← shape_qualified hbare hname hat' hr']
    refine shape_congr ?_
    rw [htagged, ← htagged, trim_of_tight (trim_tight _)]

/-- Reading a text goes by its shape. -/
theorem read_congr {s s' : List Char} (h : shape s = shape s') : read s = read s' := by
  rw [read.eq_def s, read.eq_def s']
  generalize shape s = sh at h ⊢
  subst h
  rfl

theorem parse_congr {s s' : String} (h : shape s.toList = shape s'.toList) :
    parse s = (parse s').mapError fun e => ⟨s, e.reason⟩ := by
  rw [parse, parse, read_congr h]
  cases read s'.toList <;> rfl

theorem raw_of_parse {s : String} {e : Malformed} (h : parse s = .error e) : e.raw = s := by
  unfold parse at h
  cases hr : read s.toList with
  | error r =>
    rw [hr] at h
    cases h
    rfl
  | ok l =>
    rw [hr] at h
    cases h

/-! ## Patches as they are read -/

theorem Reads.shape_eq_whole {s : List Char} {l : Locator} (h : Reads s l)
    (hp : l.protocol ≠ .patch) : shape s = .ok (.whole l) := by
  cases h with
  | whole hs => exact hs
  | patched => exact absurd rfl hp

/-- The grammar takes the marker of the newer dialect off every patch that has one. -/
theorem Reads.unmarked {s : List Char} {l : Locator} {p : PatchTarget Locator} (h : Reads s l)
    (hp : l.patch = some p) (ho : p.optional = false) :
    optionalMarker.isPrefixOf? p.source.toList = none := by
  cases h with
  | whole hs =>
    rw [patch_of_whole hs] at hp
    cases hp
  | patched hs hb =>
    cases hp
    unfold patchTarget at ho ⊢
    split at ho
    · cases ho
    · rename_i hn
      simpa using hn

end Locator

/-! ## Dialects -/

namespace Dialect

open Locator (Reads)

theorem bareRange?_eq_some {raw name range : List Char} (h : bareRange? raw = some (name, range)) :
    trim raw = name ++ '@' :: range ∧ name ≠ [] ∧ '@' ∉ name.tail ∧
      Version.Range.isRange range = .ok true := by
  obtain ⟨hs, hr⟩ := Option.filter_eq_some_iff.mp h
  obtain ⟨ht, hne, hat⟩ := Locator.splitIdent_eq_some_iff.mp hs
  refine ⟨ht, hne, hat, ?_⟩
  have hr := (Bool.and_eq_true_iff.mp hr).2
  split at hr
  · assumption
  · cases hr

theorem shape_normalize (raw : String) :
    Locator.shape (normalize raw).toList = Locator.shape raw.toList := by
  unfold normalize
  split
  · rename_i name range hb
    obtain ⟨ht, hne, hat, hr⟩ := bareRange?_eq_some hb
    rw [String.toList_ofList]
    exact Locator.shape_qualified ht hne hat hr
  · rfl

/-- A dialect reads what the grammar reads, with the marker of its own. -/
theorem parseLocator_eq_map (d : Dialect) (raw : String) :
    d.parseLocator raw = (Locator.parse raw).map d.markOptional := by
  rw [parseLocator, Locator.parse_congr (shape_normalize raw)]
  cases h : Locator.parse raw with
  | error e =>
    have he := Locator.raw_of_parse h
    subst he
    rfl
  | ok l => rfl

theorem markOptional_of_patch_eq_none {d : Dialect} {l : Locator} (h : l.patch = none) :
    d.markOptional l = l := by
  rw [markOptional, h]

theorem parseLocator_of_shape {d : Dialect} {s : String} {l : Locator}
    (h : Locator.shape s.toList = .ok (.whole l)) : d.parseLocator s = .ok l := by
  rw [parseLocator_eq_map, Locator.parse_of_shape h, Except.map,
    markOptional_of_patch_eq_none (Locator.patch_of_whole h)]

/-- What a dialect reads where the grammar reads `l`: the same, but for a builtin patch that the
older dialect marks as optional. -/
inductive Reading (d : Dialect) (l : Locator) : Locator → Prop
  | marked {p : PatchTarget Locator} {rest : String} : d.major = 3 → l.patch = some p →
      p.optional = false → p.source = "~builtin<" ++ rest →
      Reading d l { l with patch := some ⟨p.base, "builtin<" ++ rest, true⟩ }
  | same : (∀ p rest, d.major = 3 → l.patch = some p → p.optional = false →
      p.source ≠ "~builtin<" ++ rest) → Reading d l l

theorem Reading.eq {d : Dialect} {l a b : Locator} (ha : Reading d l a) (hb : Reading d l b) :
    a = b := by
  cases ha with
  | marked hd hp ho hs =>
    cases hb with
    | marked _ hp' _ hs' =>
      cases hp.symm.trans hp'
      have hrest := congrArg String.toList (hs.symm.trans hs')
      simp only [String.toList_append, List.append_cancel_left_eq, String.toList_inj] at hrest
      rw [hrest]
    | same hn => exact absurd hs (hn _ _ hd hp ho)
  | same hn =>
    cases hb with
    | marked hd hp ho hs => exact absurd hs (hn _ _ hd hp ho)
    | same => rfl

/-- A patch without the older marker is read as it is. -/
theorem Reading.unmarked {d : Dialect} {l : Locator} {p : PatchTarget Locator}
    (hp : l.patch = some p)
    (hn : p.optional = false → ∀ rest, p.source ≠ "~builtin<" ++ rest) : Reading d l l := by
  refine .same fun p' rest _ hp' ho hs => ?_
  cases hp.symm.trans hp'
  exact hn ho rest hs

theorem reading_three (l : Locator) : Reading three l (three.markOptional l) := by
  unfold markOptional
  split
  · rename_i hp
    exact .same fun p rest _ hp' => by cases hp.symm.trans hp'
  · rename_i p hp
    split
    · rename_i ho
      exact .unmarked hp fun ho' => by simp [ho] at ho'
    · rename_i ho
      split
      · rename_i hn
        refine .unmarked hp fun _ rest hs => ?_
        rw [hs] at hn
        simp [three, List.isPrefixOf?] at hn
      · rename_i rest hrest
        have hsource : p.source.toList = '~' :: rest :=
          (List.append_eq_of_isPrefixOf?_eq_some hrest).symm
        split
        · rename_i hb
          obtain ⟨inner, rfl⟩ := List.isPrefixOf_iff_prefix.mp hb
          have hs : p.source = "~builtin<" ++ String.ofList inner := by
            apply String.toList_inj.mp
            rw [hsource]
            simp
          have he : String.ofList ("builtin<".toList ++ inner) = "builtin<" ++ String.ofList inner := by
            apply String.toList_inj.mp
            simp
          rw [he]
          exact .marked rfl hp (by simpa using ho) hs
        · rename_i hb
          refine .unmarked hp fun _ inner hs => hb ?_
          rw [hs] at hsource
          rw [List.isPrefixOf_iff_prefix]
          exact ⟨inner.toList, by simpa using hsource⟩

/-- The newer dialect has nothing to add to the grammar. -/
theorem markOptional_four {s : List Char} {l : Locator} (h : Reads s l) :
    four.markOptional l = l := by
  unfold markOptional
  split
  · rfl
  · rename_i p hp
    split
    · rfl
    · rename_i ho
      have hn : four.optionalMarker.toList.isPrefixOf? p.source.toList = none :=
        h.unmarked hp (by simpa using ho)
      rw [hn]

end Dialect

end OfflineCache
