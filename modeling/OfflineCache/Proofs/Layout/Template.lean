import OfflineCache.Layout

/-! Rendering a template, one placeholder after the other: a text without an opening brace stays as
it is, and a placeholder that is known gives way to its value, which is not looked at again. -/

namespace OfflineCache.Template

open Text

variable {lookup lookup' : List Char → Option (List Char)}

theorem render_of_notMem {s : List Char} (h : '\x7b' ∉ s) : render lookup s = .ok s := by
  rw [render]
  split
  · rfl
  · rename_i hcut
    rw [cut_eq_none_iff.mpr h] at hcut
    cases hcut

theorem render_placeholder {lead key v : List Char} (hlead : '\x7b' ∉ lead) (hkey : '\x7d' ∉ key)
    (hv : lookup key = some v) (rest : List Char) :
    render lookup (lead ++ '\x7b' :: (key ++ '\x7d' :: rest)) =
      (render lookup rest).map (lead ++ v ++ ·) := by
  rw [render]
  split
  · rename_i hcut
    rw [cut_append hlead] at hcut
    cases hcut
  · rename_i hcut
    rw [cut_append hlead] at hcut
    cases hcut
    split
    · rename_i hcut
      rw [cut_append hkey] at hcut
      cases hcut
    · rename_i hcut
      rw [cut_append hkey] at hcut
      cases hcut
      rw [hv]

/-- Where more placeholders are known, what was rendered is rendered so again. -/
theorem render_of_le (h : ∀ key v, lookup key = some v → lookup' key = some v) {s r : List Char}
    (hr : render lookup s = .ok r) : render lookup' s = .ok r := by
  fun_induction render lookup s generalizing r with
  | case1 s hcut =>
    cases hr
    exact render_of_notMem (cut_eq_none_iff.mp hcut)
  | case2 => cases hr
  | case3 => cases hr
  | case4 s lead after hopen key rest hclose v hv ih =>
    obtain ⟨rfl, hlead⟩ := eq_append_of_cut hopen
    obtain ⟨rfl, hkey⟩ := eq_append_of_cut hclose
    rw [render_placeholder hlead hkey (h key v hv)]
    cases hrest : render lookup rest with
    | error f =>
      rw [hrest] at hr
      cases hr
    | ok r' =>
      rw [hrest] at hr
      rw [ih hrest]
      exact hr

end OfflineCache.Template
