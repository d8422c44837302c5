import OfflineCache.Proofs.Path.Places

/-! Paths below a base. A path put behind a base has the pieces of the base and then its own; dots
among them count for nothing to a walk that goes on. `Below` says that the steps of a path are those
of the base and then certain names, dots aside: it holds of a path of plain names behind a base and
of every path beside it. -/

namespace OfflineCache

open Text

namespace Path

open FileTree (steps)

/-! ## Pieces -/

theorem splitAll_append_splitAll (c : Char) (a b : List Char) :
    splitAll c (a ++ c :: b) = splitAll c a ++ splitAll c b := by
  induction a with
  | nil => simp [splitAll]
  | cons x a ih =>
    by_cases hx : x = c
    · simp [splitAll, hx, ih]
    · simp only [List.cons_append, splitAll, hx, if_false, ih]
      cases ha : splitAll c a with
      | nil => exact absurd ha (splitAll_ne_nil c a)
      | cons w ws => rfl

theorem pieces_append (a b : List Char) : pieces (a ++ '/' :: b) = pieces a ++ pieces b := by
  simp only [pieces, splitAll_append_splitAll, List.filter_append]

theorem pieces_ne_nil {s : List Char} {x : Char} (h : s.head? = some x) (hx : x ≠ '/') :
    pieces s ≠ [] := by
  obtain ⟨r, rfl⟩ := List.head?_eq_some_iff.mp h
  obtain ⟨w, ws, hw⟩ := List.exists_cons_of_ne_nil (splitAll_ne_nil '/' r)
  simp [pieces, splitAll, hx, hw]

/-- The pieces without the dots that stand for where one is. -/
def dotless (ss : List (List Char)) : List (List Char) := ss.filter (· ≠ ['.'])

@[simp] theorem dotless_append (a b : List (List Char)) :
    dotless (a ++ b) = dotless a ++ dotless b := List.filter_append ..

@[simp] theorem dotless_dotless (ss : List (List Char)) : dotless (dotless ss) = dotless ss := by
  simp [dotless, List.filter_filter]

theorem dotless_of_isName {ns : List (List Char)} (h : ∀ n ∈ ns, IsName n) : dotless ns = ns := by
  rw [dotless, List.filter_eq_self]
  intro n hn
  simpa using (h n hn).notHere

theorem pieces_join {p q : Path} (hq : q.isAbsolute = false) :
    pieces (p / q).chars = pieces p.chars ++ pieces q.chars := by
  show pieces (join p q).chars = _
  unfold join
  by_cases hp : p.chars = []
  · simp [hp, pieces, splitAll]
  · rw [if_neg (by simp [hq, hp])]
    split
    · rename_i hl
      obtain ⟨front, hfront⟩ := List.getLast?_eq_some_iff.mp hl
      have hsplit : pieces (front ++ ['/']) = pieces front := by
        rw [pieces_append]
        simp [pieces, splitAll]
      show pieces (p.chars ++ q.chars) = _
      rw [hfront, List.append_assoc, List.singleton_append, pieces_append, hsplit]
    · exact pieces_append p.chars q.chars

theorem isAbsolute_join_of_relative {p q : Path} (hq : q.isAbsolute = false) :
    (p / q).isAbsolute = p.isAbsolute := by
  show (join p q).isAbsolute = _
  unfold join
  by_cases hp : p.chars = []
  · rw [if_pos (Or.inr hp), hq]
    simp [hp, isAbsolute]
  · rw [if_neg (by simp [hq, hp])]
    obtain ⟨x, r, hx⟩ := List.exists_cons_of_ne_nil hp
    split <;> simp [isAbsolute, hx]

theorem chars_prefix_join {p q : Path} (hq : q.isAbsolute = false) : p.chars <+: (p / q).chars := by
  show p.chars <+: (join p q).chars
  unfold join
  by_cases hp : p.chars = []
  · rw [hp]
    exact List.nil_prefix
  · rw [if_neg (by simp [hq, hp])]
    split
    · exact List.prefix_append _ _
    · exact List.prefix_append _ _

theorem pieces_spell_components {cs : List Component}
    (h : ∀ c ∈ cs, c ≠ .root ∧ c.chars ≠ [] ∧ '/' ∉ c.chars) :
    pieces (spell cs) = cs.map Component.chars := by
  induction cs with
  | nil => rfl
  | cons c cs ih =>
    obtain ⟨hr, hne, hs⟩ := h c (by simp)
    cases cs with
    | nil =>
      have hspell : spell [c] = c.chars := by cases c <;> simp_all [spell]
      rw [hspell]
      exact pieces_name hne hs
    | cons d ds =>
      have hspell : spell (c :: d :: ds) = c.chars ++ '/' :: spell (d :: ds) := by
        cases c <;> simp_all [spell]
      rw [hspell, pieces_append_slash hne hs, ih fun k hk => h k (List.mem_cons_of_mem c hk)]
      rfl

theorem getLast?_spell_components {cs : List Component}
    (h : ∀ c ∈ cs, c ≠ .root ∧ c.chars ≠ [] ∧ '/' ∉ c.chars) :
    (spell cs).getLast? ≠ some '/' := by
  induction cs with
  | nil => simp [spell]
  | cons c cs ih =>
    obtain ⟨hr, hne, hs⟩ := h c (by simp)
    have hrest := fun k hk => h k (List.mem_cons_of_mem c hk)
    cases cs with
    | nil =>
      have hspell : spell [c] = c.chars := by cases c <;> simp_all [spell]
      rw [hspell]
      exact fun hl => hs (List.mem_of_getLast? hl)
    | cons d ds =>
      have hspell : spell (c :: d :: ds) = (c.chars ++ ['/']) ++ spell (d :: ds) := by
        cases c <;> simp_all [spell]
      have htail : spell (d :: ds) ≠ [] := by
        intro he
        have hp := pieces_spell_components hrest
        rw [he] at hp
        simp [pieces, splitAll] at hp
      rw [hspell, List.getLast?_append_of_ne_nil _ htail]
      exact ih hrest

/-! ## Components -/

theorem Component.chars_ofPiece (s : List Char) : (ofPiece s).chars = s := by
  unfold ofPiece
  split
  · rename_i h
    exact h.symm
  · rfl

/-- What comes of the pieces behind the root. -/
def body (p : Path) : List Component :=
  (if p.isAbsolute = false ∧ (pieces p.chars).head? = some ['.'] then [.here] else []) ++
    (dotless (pieces p.chars)).map .ofPiece

theorem components_eq (p : Path) :
    p.components = (if p.isAbsolute then [.root] else []) ++ p.body := by
  unfold components body
  cases hp : p.isAbsolute with
  | true => rfl
  | false =>
    simp only [Bool.false_eq_true, if_false, true_and, List.nil_append]
    split
    · rename_i r hr
      simp only [hr, List.head?_cons, if_true]
      rfl
    · rename_i hr
      have hhead : (pieces p.chars).head? ≠ some ['.'] := by
        intro h
        obtain ⟨r, hr'⟩ := List.head?_eq_some_iff.mp h
        exact hr r hr'
      simp only [hhead, if_false, List.nil_append]
      rfl

theorem of_mem_body {p : Path} {c : Component} (h : c ∈ p.body) :
    c ≠ .root ∧ c.chars ≠ [] ∧ '/' ∉ c.chars := by
  unfold body at h
  rcases List.mem_append.mp h with h | h
  · split at h
    · obtain rfl : c = .here := by simpa using h
      simp [Component.chars]
    · simp at h
  · obtain ⟨s, hs, rfl⟩ := List.mem_map.mp h
    obtain ⟨hne, hsl⟩ := of_mem_pieces (List.mem_filter.mp hs).1
    rw [Component.chars_ofPiece]
    refine ⟨?_, hne, hsl⟩
    unfold Component.ofPiece
    split <;> simp

theorem dotless_body (p : Path) : dotless (p.body.map Component.chars) = dotless (pieces p.chars) := by
  have hchars : Component.chars ∘ Component.ofPiece = id := funext Component.chars_ofPiece
  unfold body
  rw [List.map_append, List.map_map, hchars, List.map_id, dotless_append, dotless_dotless]
  split <;> simp [dotless, Component.chars]

/-! ## Plain names behind a base -/

/-- Relative, with names only, and a name in front. -/
structure Plain (q : Path) (names : List (List Char)) : Prop where
  relative : q.isAbsolute = false
  head : (pieces q.chars).head? ≠ some ['.']
  names_eq : dotless (pieces q.chars) = names
  isName : ∀ n ∈ names, IsName n
  nonempty : names ≠ []

theorem Plain.components {q : Path} {names : List (List Char)} (h : Plain q names) :
    q.components = names.map .name := by
  rw [components_eq, body, h.relative]
  simp only [Bool.false_eq_true, if_false, h.head, and_false, List.nil_append, h.names_eq]
  exact List.map_congr_left fun n hn => ofPiece_of_isName (h.isName n hn)

theorem Plain.body_join {q : Path} {names : List (List Char)} (h : Plain q names) (p : Path) :
    (p / q).body = p.body ++ names.map .name := by
  unfold body
  rw [isAbsolute_join_of_relative h.relative, pieces_join h.relative, dotless_append,
    List.map_append, h.names_eq, ← List.append_assoc]
  have hnames : names.map Component.ofPiece = names.map .name :=
    List.map_congr_left fun n hn => ofPiece_of_isName (h.isName n hn)
  rw [hnames]
  congr 2
  cases hp : pieces p.chars with
  | nil => simp [h.head]
  | cons a r => rfl

theorem Plain.components_join {q : Path} {names : List (List Char)} (h : Plain q names)
    (p : Path) : (p / q).components = p.components ++ names.map .name := by
  rw [components_eq, components_eq p, isAbsolute_join_of_relative h.relative, h.body_join,
    List.append_assoc]

/-- The path at `names` below the base, spelt plainly. -/
def under (p : Path) (names : List (List Char)) : Path :=
  ofComponents (p.components ++ names.map .name)

theorem isName_component {n : List Char} (h : IsName n) :
    Component.name n ≠ .root ∧ (Component.name n).chars ≠ [] ∧ '/' ∉ (Component.name n).chars :=
  ⟨nofun, h.nonempty, h.noSlash⟩

variable {p : Path} {names : List (List Char)}

theorem of_mem_body_append (h : ∀ n ∈ names, IsName n) {c : Component}
    (hc : c ∈ p.body ++ names.map .name) : c ≠ .root ∧ c.chars ≠ [] ∧ '/' ∉ c.chars := by
  rcases List.mem_append.mp hc with hc | hc
  · exact of_mem_body hc
  · obtain ⟨n, hn, rfl⟩ := List.mem_map.mp hc
    exact isName_component (h n hn)

theorem chars_under (p : Path) (names : List (List Char)) :
    (p.under names).chars =
      (if p.isAbsolute then ['/'] else []) ++ spell (p.body ++ names.map .name) := by
  unfold under ofComponents
  rw [components_eq]
  cases p.isAbsolute with
  | true => rfl
  | false => rfl

theorem pieces_under (h : ∀ n ∈ names, IsName n) :
    pieces (p.under names).chars = p.body.map Component.chars ++ names := by
  have hspell := pieces_spell_components fun c hc => of_mem_body_append (p := p) h hc
  have hnames : (p.body ++ names.map Component.name).map Component.chars =
      p.body.map Component.chars ++ names := by
    rw [List.map_append, List.map_map]
    exact congrArg _ (List.map_id names)
  rw [chars_under, ← hnames, ← hspell]
  cases p.isAbsolute with
  | true => exact pieces_slash _
  | false => rfl

theorem isAbsolute_ofComponents {cs : List Component}
    (h : ∀ c ∈ cs, c ≠ .root ∧ c.chars ≠ [] ∧ '/' ∉ c.chars) :
    (ofComponents cs).isAbsolute = false := by
  cases cs with
  | nil => rfl
  | cons c cs =>
    obtain ⟨hr, hne, hs⟩ := h c List.mem_cons_self
    obtain ⟨a, r, ha⟩ := List.exists_cons_of_ne_nil hne
    have hhead : (spell (c :: cs)).head? = some a := by
      cases cs <;> cases c <;> simp_all [spell]
    have hslash : a ≠ '/' := by
      rintro rfl
      exact hs (by simp [ha])
    simp [isAbsolute, ofComponents, hhead, hslash]

theorem isAbsolute_under (h : ∀ n ∈ names, IsName n) :
    (p.under names).isAbsolute = p.isAbsolute := by
  have hchars := chars_under p names
  cases hp : p.isAbsolute with
  | true =>
    rw [isAbsolute, hchars, hp]
    rfl
  | false =>
    rw [hp] at hchars
    have hspell : p.under names = ofComponents (p.body ++ names.map .name) :=
      congrArg Path.mk hchars
    rw [hspell]
    exact isAbsolute_ofComponents fun c hc => of_mem_body_append h hc

theorem steps_under (h : ∀ n ∈ names, IsName n) :
    steps (p.under names) = p.body.map Component.chars ++ names := by
  unfold steps
  rw [pieces_under h]
  refine if_neg ?_
  rintro ⟨hne, hl⟩
  have hne' : p.body ++ names.map .name ≠ [] := by
    rintro he
    have := congrArg (List.map Component.chars) he
    simp_all
  have hspell : spell (p.body ++ names.map .name) ≠ [] := by
    intro he
    have hp := pieces_spell_components fun c hc => of_mem_body_append (p := p) h hc
    rw [he] at hp
    simp [pieces, splitAll] at hp
    simp_all
  rw [chars_under, List.getLast?_append_of_ne_nil _ hspell] at hl
  exact getLast?_spell_components (fun c hc => of_mem_body_append (p := p) h hc) hl

theorem components_under (hn : ∀ n ∈ names, IsName n) :
    (p.under names).components = p.components ++ names.map .name := by
  have hbody : (p.under names).body = p.body ++ names.map .name := by
    unfold body
    rw [isAbsolute_under hn, pieces_under hn, dotless_append, dotless_body,
      dotless_of_isName hn, List.map_append, ← List.append_assoc]
    have hnames : names.map Component.ofPiece = names.map .name :=
      List.map_congr_left fun n hm => ofPiece_of_isName (hn n hm)
    rw [hnames]
    congr 2
    -- a dot in front is the one of the base, for no name is a dot
    have hhead : (p.body.map Component.chars ++ names).head? = some ['.'] ↔
        p.isAbsolute = false ∧ (pieces p.chars).head? = some ['.'] := by
      have hnot : ∀ m ∈ dotless (pieces p.chars) ++ names, m ≠ ['.'] := by
        intro m hm
        rcases List.mem_append.mp hm with hm | hm
        · simpa using (List.mem_filter.mp hm).2
        · exact (hn m hm).notHere
      have hchars : Component.chars ∘ Component.ofPiece = id := funext Component.chars_ofPiece
      unfold body
      split
      · rename_i hd
        simpa [Component.chars] using hd
      · rename_i hd
        rw [List.nil_append, List.map_map, hchars, List.map_id]
        refine ⟨fun h => absurd rfl (hnot _ (List.mem_of_head? h)), fun h => absurd h hd⟩
    by_cases hd : p.isAbsolute = false ∧ (pieces p.chars).head? = some ['.']
    · rw [if_pos hd, if_pos ⟨hd.1, hhead.mpr hd⟩]
    · rw [if_neg hd, if_neg fun h => hd (hhead.mp h.2)]
  rw [components_eq, components_eq p, isAbsolute_under hn, hbody, List.append_assoc]

theorem parent?_under {s : List Char} (hn : ∀ n ∈ names ++ [s], IsName n) :
    (p.under (names ++ [s])).parent? = some (p.under names) := by
  have hc := components_under (p := p) hn
  rw [List.map_append, ← List.append_assoc] at hc
  rw [parent?, hc, List.map_singleton, List.getLast?_concat]
  simp only [List.dropLast_concat]
  rfl

theorem spell_append {cs : List Component} (h : ∀ c ∈ cs, c ≠ .root) (ds : List Component) :
    spell cs <+: spell (cs ++ ds) := by
  induction cs with
  | nil => exact List.nil_prefix
  | cons c cs ih =>
    have hc := h c (by simp)
    have hrest := ih fun k hk => h k (List.mem_cons_of_mem c hk)
    cases cs with
    | nil =>
      cases ds with
      | nil => exact List.prefix_rfl
      | cons d ds => cases c <;> simp_all [spell]
    | cons d ds' =>
      have hcons : ∀ e es, spell (c :: e :: es) = c.chars ++ '/' :: spell (e :: es) := by
        intro e es
        cases c <;> simp_all [spell]
      simp only [List.cons_append, hcons] at hrest ⊢
      exact (List.prefix_append_right_inj _).mpr (List.cons_prefix_cons.mpr ⟨rfl, hrest⟩)

theorem chars_under_append (p : Path) (names more : List (List Char)) :
    (p.under names).chars <+: (p.under (names ++ more)).chars := by
  rw [chars_under, chars_under, List.map_append, ← List.append_assoc p.body]
  refine (List.prefix_append_right_inj _).mpr (spell_append (fun c hc => ?_) _)
  rcases List.mem_append.mp hc with hc | hc
  · exact (of_mem_body hc).1
  · obtain ⟨n, -, rfl⟩ := List.mem_map.mp hc
    exact nofun

theorem Plain.getLast?_components {q : Path} {n : List Char} (h : Plain q (names ++ [n]))
    (p : Path) : (p / q).components.getLast? = some (.name n) := by
  rw [h.components_join, List.map_append, ← List.append_assoc]
  exact List.getLast?_concat

theorem Plain.fileName?_join {q : Path} {n : List Char} (h : Plain q (names ++ [n])) (p : Path) :
    (p / q).fileName? = some n := by
  rw [fileName?, h.getLast?_components p]

theorem Plain.parent?_join {q : Path} {n : List Char} (h : Plain q (names ++ [n])) (p : Path) :
    (p / q).parent? = some (p.under names) := by
  rw [parent?, h.getLast?_components p]
  simp only
  rw [h.components_join, List.map_append, ← List.append_assoc, List.map_singleton,
    List.dropLast_concat]
  rfl

/-! ## Walking below a base -/

/-- The steps of the path are those of the base and then the names, dots aside. -/
inductive Below (p : Path) (names : List (List Char)) (q : Path) : Prop
  | intro {ss rest : List (List Char)} : q.isAbsolute = p.isAbsolute → steps q = ss ++ rest →
      dotless ss = dotless (pieces p.chars) → dotless rest = names → rest ≠ [] → Below p names q

theorem Plain.below {q : Path} (h : Plain q names) (p : Path) : Below p names (p / q) := by
  have hpieces := pieces_join (p := p) h.relative
  have hne : pieces q.chars ≠ [] := by
    intro he
    refine h.nonempty ?_
    rw [← h.names_eq, he]
    rfl
  have habs := isAbsolute_join_of_relative (p := p) h.relative
  by_cases hl : pieces (p / q).chars ≠ [] ∧ (p / q).chars.getLast? = some '/'
  · have hsteps : steps (p / q) = pieces p.chars ++ (pieces q.chars ++ [['.']]) := by
      unfold steps
      rw [if_pos hl, hpieces, List.append_assoc]
    have hrest : dotless (pieces q.chars ++ [['.']]) = names := by
      rw [dotless_append, h.names_eq]
      simp [dotless]
    exact .intro habs hsteps rfl hrest (by simp)
  · have hsteps : steps (p / q) = pieces p.chars ++ pieces q.chars := by
      unfold steps
      rw [if_neg hl, hpieces]
    exact .intro habs hsteps rfl h.names_eq hne

theorem isAbsolute_name {n : List Char} (hn : IsName n) : (⟨n⟩ : Path).isAbsolute = false := by
  obtain ⟨a, r, rfl⟩ := List.exists_cons_of_ne_nil hn.nonempty
  have ha : a ≠ '/' := by
    rintro rfl
    exact hn.noSlash (by simp)
  simp [isAbsolute, ha]

theorem plain_name {n : List Char} (hn : IsName n) : Plain ⟨n⟩ [n] := by
  have hpieces : pieces n = [n] := pieces_name hn.nonempty hn.noSlash
  refine ⟨isAbsolute_name hn, ?_, ?_, by simpa using hn, by simp⟩
  · simpa [hpieces] using hn.notHere
  · rw [hpieces, dotless_of_isName (by simpa using hn)]

theorem slash_notMem_of_fileName? {q : Path} {n : List Char} (h : q.fileName? = some n) :
    '/' ∉ n := by
  unfold fileName? at h
  split at h
  · rename_i m hlast
    obtain rfl : m = n := Option.some.inj h
    have hm := List.mem_of_getLast? hlast
    rw [components_eq] at hm
    rcases List.mem_append.mp hm with hm | hm
    · split at hm <;> simp at hm
    · exact (of_mem_body hm).2.2
  · cases h

theorem steps_under_join (h : ∀ n ∈ names, IsName n) {n : List Char} (hn : IsName n) :
    steps (p.under names / ⟨n⟩) = p.body.map Component.chars ++ (names ++ [n]) := by
  have hlast : (p.under names / ⟨n⟩ : Path).chars.getLast? ≠ some '/' := by
    show (join (p.under names) ⟨n⟩).chars.getLast? ≠ _
    have hl : n.getLast? ≠ some '/' := fun hl => hn.noSlash (List.mem_of_getLast? hl)
    unfold join
    split
    · exact hl
    · split
      · rwa [List.getLast?_append_of_ne_nil _ hn.nonempty]
      · rw [← List.singleton_append, ← List.append_assoc,
          List.getLast?_append_of_ne_nil _ hn.nonempty]
        exact hl
  unfold steps
  rw [if_neg fun hl => hlast hl.2, pieces_join (isAbsolute_name hn), pieces_under h,
    pieces_name hn.nonempty hn.noSlash, List.append_assoc]

/-- A path beside the names below a base. -/
theorem below_under_join (h : ∀ n ∈ names, IsName n) {n : List Char} (hn : IsName n) :
    Below p (names ++ [n]) (p.under names / ⟨n⟩) := by
  have hall := isName_concat h hn
  exact .intro ((isAbsolute_join_of_relative (isAbsolute_name hn)).trans (isAbsolute_under h))
    (steps_under_join h hn) (dotless_body p) (dotless_of_isName hall) (by simp)

end Path

end OfflineCache
