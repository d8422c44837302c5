import OfflineCache.Dialect
import OfflineCache.Proofs.Locator.Form

/-! Writing a locator and reading it again. The written text has the reference of the text that was
read, but for two spellings: a bare range gets its protocol, and `portal` is written `link`. Neither
changes what the reference stands for, and both ends of the text stay what they were.

Main statement: `parse_render_of_parse`, for the grammar alone and for every dialect. -/

namespace OfflineCache

open Text

/-! ## Tags -/

theorem Protocol.eq_tag_of_ofPrefix {s : String} {p : Protocol} (h : ofPrefix s = p)
    (hp : p ∈ [.registry, .file, .workspace, .patch, .exec]) : s = p.tag := by
  subst h
  unfold ofPrefix at hp ⊢
  split at hp <;> simp_all [tag, name]

theorem Protocol.ofPrefix_tag {p : Protocol}
    (hp : p ∈ [.registry, .file, .link, .workspace, .patch, .exec]) : ofPrefix p.tag = p := by
  simp only [List.mem_cons, List.not_mem_nil, or_false] at hp
  rcases hp with rfl | rfl | rfl | rfl | rfl | rfl <;> rfl

namespace Locator

/-! ## The written text -/

/-- What is written behind the name and its at sign. -/
def tail (l : Locator) : List Char :=
  (l.renderReference ++ (match l.subdirectory with | some sub => "#" ++ sub | none => "") ++
    renderParams l.params).toList

theorem toList_render (l : Locator) :
    l.render.toList = l.ident.render.toList ++ '@' :: l.tail := by
  unfold render tail
  cases l.subdirectory <;> simp

def Shape.ident : Shape → Ident
  | .whole l => l.ident
  | .patched ident _ _ _ _ => ident

def Shape.tail : Shape → List Char
  | .whole l => l.tail
  | .patched ident body params _ _ => (simple ident .patch body params).tail

def Shape.text (sh : Shape) : List Char := sh.ident.render.toList ++ '@' :: sh.tail

theorem tail_simple_remote (ident : Ident) (reference : List Char) {p : Protocol}
    (hp : p = .git ∨ p = .http) : (simple ident p reference []).tail = reference := by
  rcases hp with rfl | rfl <;> simp [tail, simple, renderReference, renderParams]

theorem tail_simple (ident : Ident) (body : List Char) (params : List (String × String))
    {p : Protocol} (hp : p ∈ [.registry, .file, .link, .workspace, .patch, .exec]) :
    (simple ident p body params).tail =
      p.tag.toList ++ ':' :: (body ++ (renderParams params).toList) := by
  simp only [List.mem_cons, List.not_mem_nil, or_false] at hp
  rcases hp with rfl | rfl | rfl | rfl | rfl | rfl <;> simp [tail, simple, renderReference]

theorem Form.ident_eq {ident : Ident} {reference : List Char} {sh : Shape}
    (h : Form ident reference sh) : sh.ident = ident := by
  cases h <;> rfl

/-- The form does not hang on which of its tags a protocol is written with. -/
theorem Form.plain_tag {ident : Ident} {payload body : List Char}
    {params : List (String × String)} {p : Protocol}
    (hk : p ∈ [.registry, .link, .workspace, .exec])
    (hs : splitParams payload = .ok (body, params)) (hb : body ≠ [])
    (hr : p = .registry → checkRegistry body = .ok ()) :
    Form ident (p.tag.toList ++ ':' :: payload) (.whole (.simple ident p body params)) := by
  have hp : Protocol.ofPrefix (String.ofList p.tag.toList) = p := by
    rw [String.ofList_toList]
    apply Protocol.ofPrefix_tag
    simp only [List.mem_cons, List.not_mem_nil, or_false] at hk ⊢
    rcases hk with rfl | rfl | rfl | rfl <;> simp
  refine .plain ⟨rfl, ?_⟩ hp hk hs hb hr
  simp only [List.mem_cons, List.not_mem_nil, or_false] at hk
  rcases hk with rfl | rfl | rfl | rfl <;> decide

/-- A bare range may as well be written behind its protocol: it has no character that the grammar
would read in another way. -/
theorem checkRegistry_of_isRange {reference : List Char}
    (h : Version.Range.isRange reference = .ok true) : checkRegistry reference = .ok () := by
  have ho := Version.Range.ofRange_of_isRange h
  have hpercent : '%' ∉ reference := fun hm => absurd (ho '%' hm) (by decide)
  have hat : '@' ∉ reference := fun hm => absurd (ho '@' hm) (by decide)
  simp only [checkRegistry, Percent.decode_of_notMem hpercent, splitIdent_eq_none hat, h]

theorem ne_nil_of_isRange {reference : List Char}
    (h : Version.Range.isRange reference = .ok true) : reference ≠ [] := by
  rintro rfl
  simp [Version.Range.isRange, trim, trimEnd, trimStart] at h

/-- A bare range behind its protocol. -/
theorem Form.range_tag (ident : Ident) {reference : List Char}
    (h : Version.Range.isRange reference = .ok true) :
    Form ident ("npm".toList ++ ':' :: reference)
      (.whole (.simple ident .registry reference [])) := by
  have hcolon : ':' ∉ reference := fun hm =>
    absurd (Version.Range.ofRange_of_isRange h ':' hm) (by decide)
  exact .plain_tag (p := .registry) (by simp) (splitParams_of_notMem hcolon) (ne_nil_of_isRange h)
    fun _ => checkRegistry_of_isRange h

/-- Behind the tag of a protocol the reference is written as it was read. -/
theorem tail_of_tagged {reference tag payload body : List Char} {params : List (String × String)}
    {p : Protocol} (ident : Ident) (ht : Tagged reference tag payload)
    (hp : Protocol.ofPrefix (String.ofList tag) = p) (hk : p = .file ∨ p = .patch)
    (hs : splitParams payload = .ok (body, params)) :
    (simple ident p body params).tail = reference := by
  have htag : String.ofList tag = p.tag :=
    Protocol.eq_tag_of_ofPrefix hp (by rcases hk with rfl | rfl <;> simp)
  rw [tail_simple ident body params (by rcases hk with rfl | rfl <;> simp), ht.eq,
    eq_append_of_splitParams hs, ← htag, String.toList_ofList]

/-- What is written is of the form that was read, and ends as it did. -/
theorem Form.tail {ident : Ident} {reference : List Char} {sh : Shape}
    (h : Form ident reference sh) :
    Form ident sh.tail sh ∧ sh.tail.getLast? = reference.getLast? := by
  have hsame : sh.tail = reference →
      Form ident sh.tail sh ∧ sh.tail.getLast? = reference.getLast? := by
    intro he
    rw [he]
    exact ⟨h, rfl⟩
  cases h with
  | scp hscp => exact hsame (tail_simple_remote ident _ (Or.inl rfl))
  | repository ht hp hg => exact hsame (tail_simple_remote ident _ (Or.inl rfl))
  | url ht hp hk hn => exact hsame (tail_simple_remote ident _ (hk.imp_right And.left))
  | range hr =>
    have ht : Shape.tail (.whole (.simple ident .registry reference [])) =
        "npm".toList ++ ':' :: reference := by
      show (simple ident .registry reference []).tail = _
      rw [tail_simple ident reference [] (by simp)]
      simp [renderParams, Protocol.tag]
    rw [ht]
    refine ⟨.range_tag ident hr, ?_⟩
    obtain ⟨x, r, rfl⟩ := List.exists_cons_of_ne_nil (ne_nil_of_isRange hr)
    simp
  | @plain tag payload body params p ht hp hk hs hb hr =>
    have hk' : p ∈ [.registry, .file, .link, .workspace, .patch, .exec] := by
      simp only [List.mem_cons, List.not_mem_nil, or_false] at hk ⊢
      rcases hk with rfl | rfl | rfl | rfl <;> simp
    have he : Shape.tail (.whole (.simple ident p body params)) =
        p.tag.toList ++ ':' :: payload := by
      show (simple ident p body params).tail = _
      rw [tail_simple ident body params hk', eq_append_of_splitParams hs]
    rw [he, ht.eq]
    exact ⟨.plain_tag hk hs hb hr, by simp [List.getLast?_cons]⟩
  | file ht hp hs _ _ => exact hsame (tail_of_tagged ident ht hp (Or.inl rfl) hs)
  | @subdirectory tag payload body path sub params ht hp hs hc hpath hsub =>
    apply hsame
    have htag := Protocol.eq_tag_of_ofPrefix hp (by simp)
    rw [ht.eq, eq_append_of_splitParams hs, (eq_append_of_cut hc).1,
      ← String.toList_ofList (l := tag), htag]
    simp [Shape.tail, Locator.tail, simple, renderReference]
  | patch ht hp hs _ _ => exact hsame (tail_of_tagged ident ht hp (Or.inr rfl) hs)

/-- A text that the grammar cuts into a name and a reference the way it was put together. -/
structure Written (sh : Shape) : Prop where
  leads : sh.ident.Leads
  form : Form sh.ident sh.tail sh
  nonempty : sh.tail ≠ []
  tight : Tight sh.text

theorem written_of_shape {s : List Char} {sh : Shape} (h : shape s = .ok sh) : Written sh := by
  obtain ⟨ident, reference, ht, hi, hr, hf⟩ := shape_eq_ok_iff.mp h
  obtain ⟨hf', hl⟩ := hf.tail
  obtain rfl : sh.ident = ident := hf.ident_eq
  have htight : Tight (sh.ident.render.toList ++ '@' :: reference) := ht ▸ trim_tight s
  have hends : ('@' :: sh.tail).getLast? = ('@' :: reference).getLast? := by
    rw [List.getLast?_cons, List.getLast?_cons, hl]
  refine ⟨hi, hf', ?_, htight.append_congr hi.render_ne_nil (by simp) hends⟩
  intro he
  rw [he, List.getLast?_nil] at hl
  exact hr (List.getLast?_eq_none_iff.mp hl.symm)

/-- **Writing undoes reading, one level deep.** The bases of patches are not touched: a patch is
written with the text of its base. -/
theorem shape_text_of_shape {s : List Char} {sh : Shape} (h : shape s = .ok sh) :
    shape sh.text = .ok sh := by
  have hw := written_of_shape h
  exact shape_eq_ok_iff.mpr
    ⟨sh.ident, sh.tail, trim_of_tight hw.tight, hw.leads, hw.nonempty, hw.form⟩

theorem Reads.exists_written {s : List Char} {l : Locator} (h : Reads s l) :
    ∃ sh : Shape, Written sh ∧ sh.ident = l.ident := by
  cases h with
  | whole hs => exact ⟨_, written_of_shape hs, rfl⟩
  | patched hs _ => exact ⟨_, written_of_shape hs, rfl⟩

theorem Reads.leads {s : List Char} {l : Locator} (h : Reads s l) : l.ident.Leads := by
  obtain ⟨sh, hw, he⟩ := h.exists_written
  exact he ▸ hw.leads

theorem Shape.text_whole (l : Locator) : Shape.text (.whole l) = l.render.toList := by
  rw [toList_render]
  rfl

theorem Shape.text_patched (ident : Ident) (body base source : List Char)
    (params : List (String × String)) (p : Option (PatchTarget Locator)) :
    Shape.text (.patched ident body params base source) =
      (Locator.render { simple ident .patch body params with patch := p }).toList := by
  rw [toList_render]
  rfl

theorem Reads.render {s : List Char} {l : Locator} (h : Reads s l) :
    Reads l.render.toList l := by
  cases h with
  | whole hs =>
    rw [← Shape.text_whole]
    exact .whole (shape_text_of_shape hs)
  | patched hs hb =>
    rw [← Shape.text_patched]
    exact .patched (shape_text_of_shape hs) hb

/-! ## Dialects -/

theorem Form.qualified {ident : Ident} {reference : List Char} {sh : Shape}
    (h : Form ident reference sh) :
    ':' ∈ reference ∨ "git@".toList.isPrefixOf reference = true ∨
      sh = .whole (.simple ident .registry reference []) := by
  have htagged : ∀ {tag payload}, Tagged reference tag payload → ':' ∈ reference := by
    intro tag payload ht
    rw [ht.eq]
    simp
  cases h with
  | scp hscp => exact Or.inr (Or.inl hscp)
  | range hr => exact Or.inr (Or.inr rfl)
  | repository ht => exact Or.inl (htagged ht)
  | url ht => exact Or.inl (htagged ht)
  | plain ht => exact Or.inl (htagged ht)
  | file ht => exact Or.inl (htagged ht)
  | subdirectory ht => exact Or.inl (htagged ht)
  | patch ht => exact Or.inl (htagged ht)

/-- A written reference says its protocol. -/
theorem Written.qualified {sh : Shape} (h : Written sh) :
    ':' ∈ sh.tail ∨ "git@".toList.isPrefixOf sh.tail = true := by
  rcases h.form.qualified with hc | hscp | hr
  · exact Or.inl hc
  · exact Or.inr hscp
  · have ht : sh.tail = (simple sh.ident .registry sh.tail []).tail := congrArg Shape.tail hr
    rw [tail_simple sh.ident sh.tail [] (by simp)] at ht
    rw [ht]
    simp

theorem Written.not_bareRange {sh : Shape} (h : Written sh) :
    Dialect.bareRange? sh.text = none := by
  have hs : splitIdent (trim sh.text) = some (sh.ident.render.toList, sh.tail) := by
    rw [trim_of_tight h.tight]
    exact splitIdent_eq_some_iff.mpr ⟨rfl, h.leads.render_ne_nil, h.leads.noAt⟩
  unfold Dialect.bareRange?
  rw [hs]
  rcases h.qualified with hc | hscp
  · simp [Option.filter, hc]
  · simp only [Option.filter, hscp]
    simp

theorem Reads.normalize_render {s : List Char} {l : Locator} (h : Reads s l) :
    Dialect.normalize l.render = l.render := by
  have hb : Dialect.bareRange? l.render.toList = none := by
    cases h with
    | whole hs =>
      rw [← Shape.text_whole]
      exact (written_of_shape hs).not_bareRange
    | patched hs hb =>
      rw [← Shape.text_patched]
      exact (written_of_shape hs).not_bareRange
  rw [Dialect.normalize, hb]

theorem render_markOptional (d : Dialect) (l : Locator) : (d.markOptional l).render = l.render := by
  unfold Dialect.markOptional
  split
  · rfl
  · split
    · rfl
    · split
      · rfl
      · split <;> rfl

/-- **Writing undoes reading**, by the grammar alone and by every dialect: the text that is written
for a locator is read as the same locator, with all its fields and the bases of its patches. -/
theorem parse_render_of_parse :
    (∀ (s : String) (l : Locator), parse s = .ok l → parse l.render = .ok l) ∧
      ∀ (d : Dialect) (s : String) (l : Locator),
        d.parseLocator s = .ok l → d.parseLocator l.render = .ok l := by
  have hparse : ∀ (s : String) (l : Locator), parse s = .ok l → parse l.render = .ok l := by
    intro s l h
    exact parse_eq_ok_iff.mpr (parse_eq_ok_iff.mp h).render
  refine ⟨hparse, ?_⟩
  intro d s l h
  unfold Dialect.parseLocator at h
  split at h
  · simp at h
  · rename_i l' hl
    obtain rfl : d.markOptional l' = l := by simpa using h
    have hn := (parse_eq_ok_iff.mp hl).normalize_render
    simp only [Dialect.parseLocator, render_markOptional, hn, hparse _ _ hl]

/-- A patch of a patch, with a marker that only one of the dialects knows. -/
def nestedPatch : String :=
  "a@patch:b@patch%3Ac@npm%253A1.0.0%23fix.patch#~builtin<b>::version=1.0.0&hash=ab"

theorem parse_render_of_parse_nested :
    ∃ l l' : Locator, l ≠ l' ∧ (parse nestedPatch = .ok l ∧ parse l.render = .ok l) ∧
      Dialect.three.parseLocator nestedPatch = .ok l' ∧
        Dialect.three.parseLocator l'.render = .ok l' := by
  have hd : (parse nestedPatch).toOption ≠ none ∧
      (Dialect.three.parseLocator nestedPatch).toOption ≠ none ∧
      (parse nestedPatch).toOption ≠ (Dialect.three.parseLocator nestedPatch).toOption := by
    decide +kernel
  cases hp : parse nestedPatch with
  | error e => simp [hp, Except.toOption] at hd
  | ok l =>
    cases hq : Dialect.three.parseLocator nestedPatch with
    | error e => simp [hq, Except.toOption] at hd
    | ok l' =>
      refine ⟨l, l', ?_, ⟨rfl, parse_render_of_parse.1 _ _ hp⟩, rfl,
        parse_render_of_parse.2 _ _ _ hq⟩
      rintro rfl
      simp [hp, hq, Except.toOption] at hd

end Locator

end OfflineCache
