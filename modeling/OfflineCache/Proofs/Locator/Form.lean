import OfflineCache.Locator.Grammar
import OfflineCache.Proofs.Version.Alphabet

/-! The grammar of locators as a relation. A text is a name, an at sign and a reference in one of
nine forms; `Form` says which locator a reference stands for, `Reads` follows the bases of patches.
Main statements: `shapeOf_eq_ok_iff`, `shape_eq_ok_iff` and `read_eq_ok_iff` say that the reading
functions accept exactly these texts, with exactly these results. -/

namespace OfflineCache

open Text

/-! ## Names -/

namespace Ident

theorem toList_render_of_parse? {s : List Char} {i : Ident} (h : parse? s = some i) :
    i.render.toList = s := by
  unfold parse? at h
  split at h
  · rename_i rest
    obtain ⟨⟨scope, name⟩, hc, h⟩ := Option.bind_eq_some_iff.mp h
    simp only at h
    split at h
    · cases h
      simp [render, (eq_append_of_cut hc).1]
    · simp at h
  · split at h
    · cases h
      simp [render]
    · simp at h

/-- The name stands in front of its locator's first at sign, that of a scope apart. -/
structure Leads (i : Ident) : Prop where
  parse : parse? i.render.toList = some i
  noAt : '@' ∉ i.render.toList.tail

theorem Leads.render_ne_nil {i : Ident} (h : i.Leads) : i.render.toList ≠ [] := by
  intro he
  have hp := h.parse
  rw [he] at hp
  simp [parse?, isName] at hp

theorem Leads.eq_of_render {i j : Ident} (hi : i.Leads) (hj : j.Leads)
    (h : i.render = j.render) : i = j := by
  have hp := hi.parse
  rw [h, hj.parse] at hp
  exact (Option.some.inj hp).symm

end Ident

namespace Locator

/-! ## Names and references -/

theorem splitIdent_eq_some_iff {s a b : List Char} :
    splitIdent s = some (a, b) ↔ s = a ++ '@' :: b ∧ a ≠ [] ∧ '@' ∉ a.tail := by
  unfold splitIdent
  split
  · rename_i r
    constructor
    · intro h
      obtain ⟨⟨a', b'⟩, hc, he⟩ := Option.map_eq_some_iff.mp h
      obtain ⟨rfl, rfl⟩ : '@' :: a' = a ∧ b' = b := by simpa using he
      obtain ⟨rfl, hn⟩ := eq_append_of_cut hc
      exact ⟨rfl, by simp, hn⟩
    · rintro ⟨hs, ha, hn⟩
      obtain ⟨x, a, rfl⟩ := List.exists_cons_of_ne_nil ha
      obtain ⟨rfl, rfl⟩ : '@' = x ∧ r = a ++ '@' :: b := by simpa using hs
      have hn' : '@' ∉ a := hn
      rw [cut_append hn']
      rfl
  · rename_i hs
    rw [cut_eq_some_iff]
    constructor
    · rintro ⟨rfl, hn⟩
      refine ⟨rfl, ?_, fun h => hn (List.mem_of_mem_tail h)⟩
      rintro rfl
      exact hs b rfl
    · rintro ⟨rfl, ha, hn⟩
      obtain ⟨x, a, rfl⟩ := List.exists_cons_of_ne_nil ha
      refine ⟨rfl, ?_⟩
      intro h
      rcases List.mem_cons.mp h with rfl | h
      · exact hs _ rfl
      · exact hn h

theorem splitIdent_eq_none {s : List Char} (h : '@' ∉ s) : splitIdent s = none := by
  cases hs : splitIdent s with
  | none => rfl
  | some p =>
    have := (splitIdent_eq_some_iff (a := p.1) (b := p.2)).mp hs
    rw [this.1] at h
    simp at h

/-! ## Binding parameters -/

theorem eq_of_parameter {pair : List Char} {k v : String} (h : parameter pair = .ok (k, v)) :
    pair = (k ++ "=" ++ v).toList := by
  unfold parameter at h
  split at h
  · simp at h
  · simp at h
  · rename_i a b _ hc
    obtain ⟨rfl, rfl⟩ : String.ofList a = k ∧ String.ofList b = v := by simpa using h
    simp [(eq_append_of_cut hc).1]

theorem of_mapM_parameter_cons {pair : List Char} {rest : List (List Char)}
    {params : List (String × String)} (h : (pair :: rest).mapM parameter = .ok params) :
    ∃ kv kvs, parameter pair = .ok kv ∧ rest.mapM parameter = .ok kvs ∧ params = kv :: kvs := by
  rw [List.mapM_cons] at h
  obtain ⟨kv, hp, h⟩ := bind_eq_ok_iff.mp h
  obtain ⟨kvs, hr, h⟩ := bind_eq_ok_iff.mp h
  cases h
  exact ⟨kv, kvs, hp, hr, rfl⟩

theorem eq_map_of_mapM_parameter {pairs : List (List Char)} {params : List (String × String)}
    (h : pairs.mapM parameter = .ok params) :
    pairs = (params.map fun (k, v) => k ++ "=" ++ v).map String.toList := by
  induction pairs generalizing params with
  | nil =>
    obtain rfl : [] = params := by simpa [pure, Except.pure] using h
    rfl
  | cons p rest ih =>
    obtain ⟨kv, kvs, hp, hr, rfl⟩ := of_mapM_parameter_cons h
    rw [ih hr, eq_of_parameter hp]
    rfl

/-- Writing the parameters behind the body gives the payload back. -/
theorem eq_append_of_splitParams {payload body : List Char} {params : List (String × String)}
    (h : splitParams payload = .ok (body, params)) :
    payload = body ++ (renderParams params).toList := by
  rcases of_splitParams h with ⟨-, rfl, rfl⟩ | ⟨text, hc, hm⟩
  · simp [renderParams]
  · have hp := intercalate_splitAll '&' text
    rw [eq_map_of_mapM_parameter hm] at hp
    rw [eq_append_of_cutText hc, ← hp]
    cases params with
    | nil => exact absurd (eq_map_of_mapM_parameter hm) (splitAll_ne_nil '&' text)
    | cons kv kvs =>
      simp only [renderParams, String.toList_append, String.toList_intercalate,
        List.append_assoc]
      rfl

theorem splitParams_of_notMem {payload : List Char} (h : ':' ∉ payload) :
    splitParams payload = .ok (payload, []) := by
  unfold splitParams
  rw [cutText_eq_none (c := ':') (by decide) h]

/-! ## References -/

/-- A tag of prefix characters, a colon and the payload. -/
structure Tagged (reference tag payload : List Char) : Prop where
  eq : reference = tag ++ ':' :: payload
  tag : tag.all isPrefixChar = true

theorem Tagged.cut {reference tag payload : List Char} (h : Tagged reference tag payload) :
    cut ':' reference = some (tag, payload) := by
  rw [h.eq]
  apply cut_append
  intro hc
  exact absurd (List.all_eq_true.mp h.tag ':' hc) (by decide)

theorem Tagged.not_scp {reference tag payload : List Char} (h : Tagged reference tag payload) :
    "git@".toList.isPrefixOf reference = false := by
  have hat : '@' ∉ tag := fun hc => absurd (List.all_eq_true.mp h.tag '@' hc) (by decide)
  rw [h.eq]
  rcases tag with _ | ⟨a, _ | ⟨b, _ | ⟨c, _ | ⟨d, r⟩⟩⟩⟩
  · simp [List.isPrefixOf]
  · simp [List.isPrefixOf]
  · simp [List.isPrefixOf]
  · simp [List.isPrefixOf]
  · have hd : '@' ≠ d := by simp at hat; exact hat.2.2.2.1
    simp [List.isPrefixOf, hd]

/-- What a reference behind the name `ident` stands for. -/
inductive Form (ident : Ident) : List Char → Shape → Prop
  | scp {reference : List Char} :
      "git@".toList.isPrefixOf reference = true →
      Form ident reference (.whole (.simple ident .git reference []))
  | range {reference : List Char} :
      Version.Range.isRange reference = .ok true →
      Form ident reference (.whole (.simple ident .registry reference []))
  | repository {reference tag payload : List Char} :
      Tagged reference tag payload → Protocol.ofPrefix (String.ofList tag) = .http →
      looksLikeGitUrl reference = true →
      Form ident reference (.whole (.simple ident .git reference []))
  | url {reference tag payload : List Char} {p : Protocol} :
      Tagged reference tag payload → Protocol.ofPrefix (String.ofList tag) = p →
      (p = .git ∨ p = .http ∧ looksLikeGitUrl reference = false) →
      payload.all (· == '/') = false →
      Form ident reference (.whole (.simple ident p reference []))
  | plain {reference tag payload body : List Char} {params : List (String × String)}
      {p : Protocol} :
      Tagged reference tag payload → Protocol.ofPrefix (String.ofList tag) = p →
      p ∈ [.registry, .link, .workspace, .exec] →
      splitParams payload = .ok (body, params) → body ≠ [] →
      (p = .registry → checkRegistry body = .ok ()) →
      Form ident reference (.whole (.simple ident p body params))
  | file {reference tag payload body : List Char} {params : List (String × String)} :
      Tagged reference tag payload → Protocol.ofPrefix (String.ofList tag) = .file →
      splitParams payload = .ok (body, params) → body ≠ [] → '#' ∉ body →
      Form ident reference (.whole (.simple ident .file body params))
  | subdirectory {reference tag payload body path sub : List Char}
      {params : List (String × String)} :
      Tagged reference tag payload → Protocol.ofPrefix (String.ofList tag) = .file →
      splitParams payload = .ok (body, params) → cut '#' body = some (path, sub) →
      path ≠ [] → sub ≠ [] →
      Form ident reference
        (.whole { simple ident .file path params with subdirectory := String.ofList sub })
  | patch {reference tag payload body base source : List Char}
      {params : List (String × String)} :
      Tagged reference tag payload → Protocol.ofPrefix (String.ofList tag) = .patch →
      splitParams payload = .ok (body, params) → cut '#' body = some (base, source) →
      source ≠ [] →
      Form ident reference (.patched ident body params base source)

variable {ident : Ident} {reference tag payload : List Char} {sh : Shape}

private theorem form_of_bareRange (h : bareRange ident reference = .ok sh) :
    Form ident reference sh := by
  unfold bareRange at h
  split at h
  · simp at h
  · simp at h
  · rename_i hr
    cases h
    exact .range hr

private theorem form_of_urlShape {p : Protocol} (ht : Tagged reference tag payload)
    (hp : Protocol.ofPrefix (String.ofList tag) = p)
    (hk : p = .git ∨ p = .http ∧ looksLikeGitUrl reference = false)
    (h : urlShape ident p payload reference = .ok sh) : Form ident reference sh := by
  unfold urlShape at h
  split at h
  · simp at h
  · rename_i ha
    cases h
    exact .url ht hp hk (Bool.eq_false_iff.mpr ha)

private theorem form_of_plainShape {p : Protocol} (ht : Tagged reference tag payload)
    (hp : Protocol.ofPrefix (String.ofList tag) = p)
    (hk : p ∈ [.registry, .link, .workspace, .exec]) (h : plainShape ident p payload = .ok sh) :
    Form ident reference sh := by
  obtain ⟨⟨body, params⟩, hs, h⟩ := bind_eq_ok_iff.mp h
  dsimp only at h
  split at h
  · cases h
  · rename_i hb
    split at h
    · obtain ⟨⟨⟩, hc, h⟩ := bind_eq_ok_iff.mp h
      cases h
      exact .plain ht hp hk hs hb fun _ => hc
    · rename_i hr
      cases h
      exact .plain ht hp hk hs hb fun h' => absurd h' hr

private theorem form_of_fileShape (ht : Tagged reference tag payload)
    (hp : Protocol.ofPrefix (String.ofList tag) = .file) (h : fileShape ident payload = .ok sh) :
    Form ident reference sh := by
  obtain ⟨⟨body, params⟩, hs, h⟩ := bind_eq_ok_iff.mp h
  dsimp only at h
  split at h
  · cases h
  · rename_i path sub hsub hc
    split at h
    · cases h
    · rename_i hpath
      cases h
      exact .subdirectory ht hp hs hc hpath hsub
  · rename_i hc
    split at h
    · cases h
    · rename_i hb
      cases h
      exact .file ht hp hs hb (cut_eq_none_iff.mp hc)

private theorem form_of_patchShape (ht : Tagged reference tag payload)
    (hp : Protocol.ofPrefix (String.ofList tag) = .patch)
    (h : patchShape ident payload = .ok sh) : Form ident reference sh := by
  obtain ⟨⟨body, params⟩, hs, h⟩ := bind_eq_ok_iff.mp h
  dsimp only at h
  split at h
  · cases h
  · rename_i base source hc
    split at h
    · cases h
    · rename_i hsource
      cases h
      exact .patch ht hp hs hc hsource

theorem form_of_shapeOf (h : shapeOf ident reference = .ok sh) : Form ident reference sh := by
  unfold shapeOf at h
  split at h
  · rename_i hscp
    cases h
    exact .scp hscp
  · split at h
    · exact form_of_bareRange h
    · rename_i tag payload hc
      split at h
      · exact form_of_bareRange h
      · rename_i ha
        have ht : Tagged reference tag payload := ⟨(cut_eq_some_iff.mp hc).1, by simpa using ha⟩
        split at h
        · rename_i hp
          exact form_of_patchShape ht hp h
        · rename_i hp
          exact form_of_fileShape ht hp h
        · rename_i hp
          split at h
          · rename_i hg
            cases h
            exact .repository ht hp hg
          · rename_i hg
            exact form_of_urlShape ht hp (Or.inr ⟨rfl, Bool.eq_false_iff.mpr hg⟩) h
        · rename_i hp
          exact form_of_urlShape ht hp (Or.inl rfl) h
        · simp at h
        · rename_i hpatch hfile hhttp hgit hother
          refine form_of_plainShape ht rfl ?_ h
          cases hp : Protocol.ofPrefix (String.ofList tag) <;> simp_all

theorem shapeOf_of_tagged (ht : Tagged reference tag payload) :
    shapeOf ident reference =
      match Protocol.ofPrefix (String.ofList tag) with
      | .patch => patchShape ident payload
      | .file => fileShape ident payload
      | .http =>
        if looksLikeGitUrl reference then .ok (.whole (.simple ident .git reference []))
        else urlShape ident .http payload reference
      | .git => urlShape ident .git payload reference
      | .other name => .error (.unknownProtocol name)
      | p => plainShape ident p payload := by
  unfold shapeOf
  rw [if_neg (Bool.eq_false_iff.mp ht.not_scp), ht.cut]
  cases hp : Protocol.ofPrefix (String.ofList tag) <;> simp [ht.tag, hp]

theorem shapeOf_of_form (h : Form ident reference sh) : shapeOf ident reference = .ok sh := by
  cases h with
  | scp hscp => simp only [shapeOf, hscp, if_true]
  | range hr =>
    have ho := Version.Range.ofRange_of_isRange hr
    have hc : cut ':' reference = none := by
      rw [cut_eq_none_iff]
      exact fun hm => absurd (ho ':' hm) (by decide)
    have hscp : ¬"git@".toList.isPrefixOf reference = true := by
      intro hm
      exact absurd (ho '@' ((List.isPrefixOf_iff_prefix.mp hm).subset (by decide))) (by decide)
    simp only [shapeOf, hscp, Bool.false_eq_true, if_false, hc, bareRange, hr]
  | repository ht hp hg => simp only [shapeOf_of_tagged ht, hp, hg, if_true]
  | url ht hp hk hn =>
    rcases hk with rfl | ⟨rfl, hg⟩
    · simp only [shapeOf_of_tagged ht, hp, urlShape, hn, Bool.false_eq_true, if_false]
    · simp only [shapeOf_of_tagged ht, hp, hg, urlShape, hn, Bool.false_eq_true, if_false]
  | plain ht hp hk hs hb hr =>
    rw [shapeOf_of_tagged ht, hp]
    simp only [List.mem_cons, List.not_mem_nil, or_false] at hk
    rcases hk with rfl | rfl | rfl | rfl
    · simp [plainShape, hs, hb, hr rfl, bind, Except.bind, pure, Except.pure]
    all_goals simp [plainShape, hs, hb, bind, Except.bind, pure, Except.pure]
  | file ht hp hs hb hn =>
    rw [shapeOf_of_tagged ht, hp]
    simp [fileShape, hs, hb, cut_eq_none_iff.mpr hn, bind, Except.bind]
  | subdirectory ht hp hs hc hpath hsub =>
    obtain ⟨x, r, rfl⟩ := List.exists_cons_of_ne_nil hsub
    rw [shapeOf_of_tagged ht, hp]
    simp [fileShape, hs, hc, hpath, bind, Except.bind]
  | patch ht hp hs hc hsource =>
    rw [shapeOf_of_tagged ht, hp]
    simp [patchShape, hs, hc, hsource, bind, Except.bind]

theorem shapeOf_eq_ok_iff : shapeOf ident reference = .ok sh ↔ Form ident reference sh :=
  ⟨form_of_shapeOf, shapeOf_of_form⟩

/-! ## Texts -/

/-- The text is a name, an at sign and a reference, blanks around them aside. -/
theorem shape_eq_ok_iff {s : List Char} {sh : Shape} :
    shape s = .ok sh ↔ ∃ (ident : Ident) (reference : List Char),
      trim s = ident.render.toList ++ '@' :: reference ∧ ident.Leads ∧ reference ≠ [] ∧
        Form ident reference sh := by
  constructor
  · intro h
    unfold shape at h
    split at h
    · simp at h
    · rename_i name reference hs
      obtain ⟨ht, -, hn⟩ := splitIdent_eq_some_iff.mp hs
      split at h
      · simp at h
      · rename_i ident hp
        split at h
        · simp at h
        · rename_i hr
          have hi := Ident.toList_render_of_parse? hp
          refine ⟨ident, reference, ?_, ⟨?_, ?_⟩, hr, form_of_shapeOf h⟩
          · rw [hi]; exact ht
          · rw [hi]; exact hp
          · rw [hi]; exact hn
  · rintro ⟨ident, reference, ht, hi, hr, hf⟩
    have hs := splitIdent_eq_some_iff.mpr ⟨ht, hi.render_ne_nil, hi.noAt⟩
    simp only [shape, hs, hi.parse, if_neg hr]
    exact shapeOf_of_form hf

/-- The locator that a text stands for, the base of a patch read from its decoded text. -/
inductive Reads : List Char → Locator → Prop
  | whole {s : List Char} {l : Locator} : shape s = .ok (.whole l) → Reads s l
  | patched {s : List Char} {ident : Ident} {body base source : List Char}
      {params : List (String × String)} {b : Locator} :
      shape s = .ok (.patched ident body params base source) → Reads (Percent.decode base) b →
      Reads s { simple ident .patch body params with patch := some (patchTarget b source) }

theorem reads_of_read {s : List Char} {l : Locator} (h : read s = .ok l) : Reads s l := by
  fun_induction read s generalizing l with
  | case1 s e hs => simp at h
  | case2 s l' hs =>
    cases h
    exact .whole hs
  | case3 s ident body params base source hs e hb ih => simp at h
  | case4 s ident body params base source hs b hb ih =>
    cases h
    exact .patched hs (ih hb)

theorem read_of_reads {s : List Char} {l : Locator} (h : Reads s l) : read s = .ok l := by
  induction h with
  | whole hs =>
    rw [read]
    split <;> simp_all
  | patched hs _ ih =>
    rw [read]
    split <;> simp_all

theorem read_eq_ok_iff {s : List Char} {l : Locator} : read s = .ok l ↔ Reads s l :=
  ⟨reads_of_read, read_of_reads⟩

theorem parse_eq_ok_iff {raw : String} {l : Locator} :
    parse raw = .ok l ↔ Reads raw.toList l := by
  rw [← read_eq_ok_iff, parse]
  cases read raw.toList with
  | error e => exact ⟨nofun, nofun⟩
  | ok l' =>
    change Except.ok l' = _ ↔ _
    simp

end Locator

end OfflineCache
