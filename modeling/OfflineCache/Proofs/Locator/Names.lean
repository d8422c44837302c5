import OfflineCache.Proofs.Locator.RoundTrip

/-! Names that stand in front of locators. Such a name does not begin with a blank and has no at sign
behind its first character, so a text that is put together from it and a reference is cut there
again, whatever blanks follow. -/

namespace OfflineCache

open Text

/-! ## Blanks around a text -/

namespace Text

theorem exists_blanks_around (s : List Char) : ∃ front back : List Char,
    s = front ++ trim s ++ back ∧ (∀ c ∈ front, isBlank c = true) ∧
      ∀ c ∈ back, isBlank c = true := by
  have hback : trimStart s =
      trim s ++ ((trimStart s).reverse.takeWhile isBlank).reverse := by
    rw [trim, trimEnd, ← List.reverse_append, List.takeWhile_append_dropWhile, List.reverse_reverse]
  refine ⟨s.takeWhile isBlank, ((trimStart s).reverse.takeWhile isBlank).reverse, ?_,
    List.all_eq_true.mp List.all_takeWhile, fun c hc => ?_⟩
  · rw [List.append_assoc, ← hback, trimStart, List.takeWhile_append_dropWhile]
  · exact List.all_eq_true.mp List.all_takeWhile c (List.mem_reverse.mp hc)

theorem trim_blanks_around {front t back : List Char} (hf : ∀ c ∈ front, isBlank c = true)
    (hb : ∀ c ∈ back, isBlank c = true) (ht : Tight t) (hne : t ≠ []) :
    trim (front ++ t ++ back) = t := by
  have hfront : trimStart front = [] := by
    rw [trimStart, ← List.append_nil front, List.dropWhile_append_of_pos hf, List.dropWhile_nil]
  rw [trim_append ht hne hb, hfront, List.nil_append]

end Text

/-- The name of a locator that can be read. -/
def Ident.Occurs (i : Ident) : Prop := ∃ s l, Locator.parse s = .ok l ∧ l.ident = i

namespace Ident.Occurs

variable {i : Ident}

theorem leads (h : i.Occurs) : i.Leads := by
  obtain ⟨s, l, hl, rfl⟩ := h
  exact (Locator.parse_eq_ok_iff.mp hl).leads

theorem not_isBlank_head (h : i.Occurs) {c : Char} (hc : i.render.toList.head? = some c) :
    isBlank c = false := by
  obtain ⟨s, l, hl, rfl⟩ := h
  obtain ⟨sh, hw, he⟩ := (Locator.parse_eq_ok_iff.mp hl).exists_written
  rw [← he] at hc
  refine hw.tight.1 c ?_
  rw [Locator.Shape.text, List.head?_append, hc]
  rfl

end Ident.Occurs

namespace Locator

variable {i : Ident} {reference back : List Char}

/-- A reference behind a name is read as its form says. -/
theorem shape_behind {sh : Shape} (hi : i.Leads)
    (hhead : ∀ c, i.render.toList.head? = some c → isBlank c = false) (hne : reference ≠ [])
    (hl : ∀ c, reference.getLast? = some c → isBlank c = false) (hf : Form i reference sh)
    (hb : ∀ c ∈ back, isBlank c = true) :
    shape (i.render.toList ++ '@' :: (reference ++ back)) = .ok sh := by
  have htight : Tight (i.render.toList ++ '@' :: reference) := by
    obtain ⟨x, r, hx⟩ := List.exists_cons_of_ne_nil hi.render_ne_nil
    obtain ⟨y, t, rfl⟩ := List.exists_cons_of_ne_nil hne
    constructor
    · intro c hc
      rw [hx] at hc
      exact hhead c (hx ▸ hc)
    · intro c hc
      refine hl c ?_
      simpa [List.getLast?_append, List.getLast?_cons] using hc
  have htrim := trim_append (a := []) htight (by simp) hb
  simp only [List.nil_append, List.append_assoc, List.cons_append] at htrim
  exact shape_eq_ok_iff.mpr ⟨i, reference, htrim, hi, hne, hf⟩

theorem shape_of_form {sh : Shape} (hi : i.Occurs) (hne : reference ≠ [])
    (hl : ∀ c, reference.getLast? = some c → isBlank c = false) (hf : Form i reference sh) :
    shape (i.render.toList ++ '@' :: reference) = .ok sh := by
  have hshape : shape (i.render.toList ++ '@' :: (reference ++ [])) = .ok sh :=
    shape_behind hi.leads (fun _ => hi.not_isBlank_head) hne hl hf (by simp)
  rwa [List.append_nil] at hshape

theorem parse_of_shape {s : String} {l : Locator} (h : shape s.toList = .ok (.whole l)) :
    parse s = .ok l := parse_eq_ok_iff.mpr (.whole h)

/-- What is read without its base is no patch. -/
theorem patch_of_whole {s : List Char} {l : Locator} (h : shape s = .ok (.whole l)) :
    l.patch = none := by
  obtain ⟨ident, reference, -, -, -, hf⟩ := shape_eq_ok_iff.mp h
  cases hf <;> rfl

/-- A range, but for the blanks around it. -/
theorem exists_core_of_isRange {range : List Char} (hr : Version.Range.isRange range = .ok true) :
    ∃ front core back, range = front ++ core ++ back ∧ (∀ c ∈ back, isBlank c = true) ∧
      Version.Range.isRange (front ++ core) = .ok true ∧ core ≠ [] ∧
        ∀ c, core.getLast? = some c → isBlank c = false := by
  obtain ⟨front, back, hs, hf, hb⟩ := exists_blanks_around range
  have ht := trim_tight range
  have hne : trim range ≠ [] := by
    intro he
    simp [Version.Range.isRange, he] at hr
  refine ⟨front, trim range, back, hs, hb, ?_, hne, ht.2⟩
  have htrim : trim (front ++ trim range ++ []) = trim range :=
    trim_blanks_around hf (by simp) ht hne
  rw [List.append_nil] at htrim
  rw [← hr, Version.Range.isRange, Version.Range.isRange, htrim]

/-- A range and the blanks around it, behind a name. -/
theorem shape_range {range : List Char} (hi : i.Occurs)
    (hr : Version.Range.isRange range = .ok true) :
    ∃ l, l.ident = i ∧ l.protocol = .registry ∧
      shape (i.render.toList ++ '@' :: range) = .ok (.whole l) := by
  obtain ⟨front, core, back, rfl, hb, hr', hne, hl⟩ := exists_core_of_isRange hr
  refine ⟨simple i .registry (front ++ core) [], rfl, rfl,
    shape_behind hi.leads (fun _ => hi.not_isBlank_head) (by simp [hne]) (fun c hc => hl c ?_)
      (.range hr') hb⟩
  rwa [List.getLast?_append_of_ne_nil _ hne] at hc

end Locator

/-- A name that leads occurs, unless a blank stands in front of it. -/
theorem Ident.occurs_iff {i : Ident} :
    i.Occurs ↔ i.Leads ∧ i.render.toList.head?.any isBlank = false := by
  constructor
  · refine fun h => ⟨h.leads, ?_⟩
    cases hc : i.render.toList.head? with
    | none => rfl
    | some c => exact h.not_isBlank_head hc
  · rintro ⟨hi, hblank⟩
    have hhead : ∀ c, i.render.toList.head? = some c → isBlank c = false := by
      intro c hc
      rwa [hc] at hblank
    have hlast : ∀ c, ['1'].getLast? = some c → isBlank c = false := by
      rintro c ⟨⟩
      rfl
    have hrange : Version.Range.isRange ['1'] = .ok true := by decide
    have hshape : Locator.shape (i.render.toList ++ '@' :: (['1'] ++ [])) =
        .ok (.whole (.simple i .registry ['1'] [])) :=
      Locator.shape_behind hi hhead (by simp) hlast (.range hrange) (by simp)
    have htext : (String.ofList (i.render.toList ++ ['@', '1'])).toList =
        i.render.toList ++ '@' :: (['1'] ++ []) := by simp
    exact ⟨_, _, Locator.parse_of_shape (htext ▸ hshape), rfl⟩

end OfflineCache
