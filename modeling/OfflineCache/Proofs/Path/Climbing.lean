import Mathlib.Data.List.Induction
import Mathlib.Logic.Function.Iterate
import OfflineCache.Proofs.Path.Below

/-! Relative paths in normal form: steps up, and then names. Behind the path of a place such a path
names the place so many steps above, and then the names (`normalComponents_of_relative`). Putting
paths behind each other is associative in their text (`join_assoc`), so it makes no difference
whether a base is put in front of a path or of the path's own base. -/

namespace OfflineCache.Path

open Text
open FileTree (placePath steps)

/-! ## Joining -/

theorem join_of_absolute (p : Path) {q : Path} (h : q.isAbsolute = true) : p / q = q :=
  if_pos (Or.inl h)

theorem join_of_empty {p : Path} (h : p.chars = []) (q : Path) : p / q = q :=
  if_pos (Or.inr h)

/-- The slash that a path needs before another one can follow. -/
def separator (p : Path) : List Char := if p.chars.getLast? = some '/' then [] else ['/']

theorem join_eq {p q : Path} (hp : p.chars ≠ []) (hq : q.isAbsolute = false) :
    p / q = ⟨p.chars ++ (p.separator ++ q.chars)⟩ := by
  show join p q = _
  rw [join, if_neg (by simp [hp, hq]), separator]
  split
  · rfl
  · rfl

theorem separator_append {p : Path} (s : List Char) {q : Path} (hp : p.chars = s ++ q.chars)
    (hq : q.chars ≠ []) : p.separator = q.separator := by
  rw [separator, separator, hp, List.getLast?_append_of_ne_nil s hq]

theorem join_assoc (p q r : Path) : p / q / r = p / (q / r) := by
  cases hr : r.isAbsolute with
  | true => rw [join_of_absolute _ hr, join_of_absolute q hr, join_of_absolute p hr]
  | false =>
    cases hq : q.isAbsolute with
    | true => rw [join_of_absolute p hq, join_of_absolute p (isAbsolute_join r hq)]
    | false =>
      by_cases hp : p.chars = []
      · rw [join_of_empty hp, join_of_empty hp]
      have hqr : (q / r).isAbsolute = false := by rw [isAbsolute_join_of_relative hr, hq]
      have hleft : (p / q).chars ≠ [] := by simp [join_eq hp hq, hp]
      rw [join_eq hleft hr, join_eq hp hqr, Path.mk.injEq]
      by_cases hqe : q.chars = []
      · -- behind the empty path the slash is there already
        have hsep : (p / q).separator = [] := by
          simp only [join_eq hp hq, hqe, separator]
          split <;> simp_all
        rw [hsep, join_of_empty hqe, join_eq hp hq, hqe]
        simp
      · have hsep : (p / q).separator = q.separator :=
          separator_append (p.chars ++ p.separator) (by simp [join_eq hp hq]) hqe
        rw [hsep, join_eq hqe hr, join_eq hp hq]
        simp only [List.append_assoc]

/-! ## Steps up and names -/

/-- So many steps up, and then names. -/
def climbing (k : Nat) (ns : List (List Char)) : List Component :=
  List.replicate k .up ++ ns.map .name

/-- The place so many steps above another one; nothing lies above the root. -/
def above (k : Nat) (p : Place) : Place := List.dropLast^[k] p

theorem above_succ (k : Nat) (p : Place) : above (k + 1) p = (above k p).dropLast :=
  Function.iterate_succ_apply' _ k p

theorem above_subset (k : Nat) (p : Place) : ∀ n ∈ above k p, n ∈ p := by
  induction k with
  | zero => exact fun n hn => hn
  | succ k ih =>
    rw [above_succ]
    exact fun n hn => ih n (List.dropLast_subset _ hn)

theorem climbing_concat (k : Nat) (ns : List (List Char)) (n : List Char) :
    climbing k (ns ++ [n]) = climbing k ns ++ [.name n] := by
  simp [climbing]

theorem normalComponents_concat (cs : List Component) (c : Component) :
    normalComponents (cs ++ [c]) = pushComponent (normalComponents cs) c := by
  rw [normalComponents, List.foldl_append]
  rfl

theorem pushComponent_climbing_nil (k : Nat) :
    pushComponent (climbing k []) .up = climbing (k + 1) [] := by
  cases k with
  | zero => rfl
  | succ k =>
    have hlast : (climbing (k + 1) []).getLast? = some .up := by
      simp [climbing, List.getLast?_replicate]
    simp only [pushComponent, hlast]
    simp [climbing, List.replicate_succ']

/-- A step up takes a name back. -/
theorem pushComponent_climbing_concat (k : Nat) (ns : List (List Char)) (n : List Char) :
    pushComponent (climbing k (ns ++ [n])) .up = climbing k ns := by
  simp [climbing_concat, pushComponent]

/-- Piece by piece, the text of a relative path and the path behind a place come to their normal
forms side by side. -/
theorem normalComponents_pieces (ps : List (List Char))
    (hps : ∀ p ∈ ps, (p ≠ [] ∧ '/' ∉ p) ∧ p ≠ ['.']) :
    ∃ k ns, (∀ n ∈ ns, IsName n) ∧ normalComponents (ps.map .ofPiece) = climbing k ns ∧
      ∀ place : Place, normalComponents ((.root :: place.map .name) ++ ps.map .ofPiece) =
        .root :: (above k place ++ ns).map .name := by
  induction ps using List.reverseRecOn with
  | nil =>
    refine ⟨0, [], by simp, rfl, fun place => ?_⟩
    have hzero : above 0 place ++ [] = place := List.append_nil _
    rw [hzero, List.map_nil, List.append_nil, normalComponents_names]
  | append_singleton ps p ih =>
    obtain ⟨k, ns, hns, hnormal, hplace⟩ := ih fun q hq => hps q (List.mem_append_left [p] hq)
    obtain ⟨hp, hd⟩ := hps p (by simp)
    have hfirst : normalComponents ((ps ++ [p]).map .ofPiece) =
        pushComponent (climbing k ns) (.ofPiece p) := by
      rw [List.map_append, List.map_singleton, normalComponents_concat, hnormal]
    have hbehind : ∀ place : Place,
        normalComponents ((.root :: place.map .name) ++ (ps ++ [p]).map .ofPiece) =
          pushComponent (.root :: (above k place ++ ns).map .name) (.ofPiece p) := by
      intro place
      rw [List.map_append, List.map_singleton, ← List.append_assoc, normalComponents_concat,
        hplace]
    rcases Component.ofPiece_eq_up_or_name hp hd with hu | ⟨hn, he⟩
    · rcases List.eq_nil_or_concat ns with rfl | ⟨ms, m, rfl⟩
      · refine ⟨k + 1, [], hns, by rw [hfirst, hu, pushComponent_climbing_nil], fun place => ?_⟩
        rw [hbehind, hu, pushComponent_up, List.append_nil, List.append_nil, above_succ]
      · rw [List.concat_eq_append] at *
        refine ⟨k, ms, fun n hm => hns n (List.mem_append_left [m] hm),
          by rw [hfirst, hu, pushComponent_climbing_concat], fun place => ?_⟩
        rw [hbehind, hu, pushComponent_up, ← List.append_assoc, List.dropLast_concat]
    · refine ⟨k, ns ++ [p], isName_concat hns hn, ?_, fun place => ?_⟩
      · rw [hfirst, he, pushComponent_name, climbing_concat]
      · rw [hbehind, he, pushComponent_name]
        simp

/-- The normal form of a relative path, and that of the path behind a place. -/
theorem normalComponents_of_relative {p : Path} (hp : p.isAbsolute = false) :
    ∃ k ns, (∀ n ∈ ns, IsName n) ∧ normalComponents p.components = climbing k ns ∧
      ∀ place : Place, (∀ n ∈ place, IsName n) →
        normalComponents (placePath place / p).components =
          .root :: (above k place ++ ns).map .name := by
  obtain ⟨k, ns, hns, hnormal, hplace⟩ := normalComponents_pieces (dotless (pieces p.chars)) (by
    intro s hs
    obtain ⟨hm, hd⟩ := List.mem_filter.mp hs
    exact ⟨of_mem_pieces hm, by simpa using hd⟩)
  refine ⟨k, ns, hns, ?_, fun place hn => ?_⟩
  · have hbody : p.components = p.body := by
      rw [components_eq, hp]
      rfl
    rw [← hnormal, hbody, body]
    split
    · rfl
    · rfl
  · have habs : (placePath place / p).isAbsolute = true := isAbsolute_join p (isAbsolute_placePath _)
    have hnames : place.map Component.ofPiece = place.map .name :=
      List.map_congr_left fun n hm => ofPiece_of_isName (hn n hm)
    rw [components_of_absolute habs, pieces_join hp, pieces_placePath hn]
    show normalComponents (.root :: (dotless (place ++ pieces p.chars)).map .ofPiece) = _
    rw [dotless_append, dotless_of_isName hn, List.map_append, hnames, ← List.cons_append, hplace]

/-! ## Spelling -/

section Spelling

variable {k : Nat} {ns : List (List Char)}

theorem of_mem_climbing (hn : ∀ n ∈ ns, IsName n) :
    ∀ c ∈ climbing k ns, c ≠ .root ∧ c.chars ≠ [] ∧ '/' ∉ c.chars := by
  intro c hc
  rcases List.mem_append.mp hc with hc | hc
  · rw [List.eq_of_mem_replicate hc]
    exact ⟨nofun, by decide, by decide⟩
  · obtain ⟨n, hm, rfl⟩ := List.mem_map.mp hc
    exact isName_component (hn n hm)

theorem pieces_climbing (hn : ∀ n ∈ ns, IsName n) :
    pieces (ofComponents (climbing k ns)).chars = List.replicate k ['.', '.'] ++ ns := by
  have hchars : (ns.map Component.name).map Component.chars = ns := by
    rw [List.map_map]
    exact List.map_id ns
  rw [ofComponents, pieces_spell_components (of_mem_climbing hn), climbing, List.map_append,
    List.map_replicate, hchars]
  rfl

theorem steps_climbing (hn : ∀ n ∈ ns, IsName n) :
    steps (ofComponents (climbing k ns)) = List.replicate k ['.', '.'] ++ ns := by
  have hlast := getLast?_spell_components (of_mem_climbing (k := k) hn)
  simp only [steps, pieces_climbing hn]
  exact if_neg fun h => hlast h.2

theorem mem_iff_mem_pieces {x : Char} (hx : x ≠ '/') (s : List Char) :
    x ∈ s ↔ ∃ p ∈ pieces s, x ∈ p := by
  rw [mem_iff_mem_splitAll hx]
  constructor
  · rintro ⟨p, hp, hm⟩
    exact ⟨p, List.mem_filter.mpr ⟨hp, by simpa using List.ne_nil_of_mem hm⟩, hm⟩
  · rintro ⟨p, hp, hm⟩
    exact ⟨p, (List.mem_filter.mp hp).1, hm⟩

theorem chars_climbing_ne_nil (hn : ∀ n ∈ ns, IsName n) (hne : climbing k ns ≠ []) :
    (ofComponents (climbing k ns)).chars ≠ [] := by
  intro he
  have hpieces := pieces_climbing (k := k) hn
  rw [he] at hpieces
  simp_all [pieces, splitAll, climbing]

theorem nul_mem_climbing (hn : ∀ n ∈ ns, IsName n) :
    '\x00' ∈ (ofComponents (climbing k ns)).chars ↔ ∃ n ∈ ns, '\x00' ∈ n := by
  rw [mem_iff_mem_pieces (by decide), pieces_climbing hn]
  constructor
  · rintro ⟨p, hp, hm⟩
    rcases List.mem_append.mp hp with hp | hp
    · rw [List.eq_of_mem_replicate hp] at hm
      exact absurd hm (by decide)
    · exact ⟨p, hp, hm⟩
  · rintro ⟨p, hp, hm⟩
    exact ⟨p, List.mem_append_right _ hp, hm⟩

/-- A path of names is made of them. -/
theorem components_names (hn : ∀ n ∈ ns, IsName n) :
    (ofComponents (ns.map .name)).components = ns.map .name :=
  components_under (p := ⟨[]⟩) hn

theorem spell_names_append {ms : List (List Char)} (hm : ms ≠ []) (hne : ns ≠ []) :
    spell ((ms ++ ns).map .name) = spell (ms.map .name) ++ '/' :: spell (ns.map .name) := by
  induction ms with
  | nil => exact absurd rfl hm
  | cons m ms ih =>
    cases ms with
    | nil =>
      obtain ⟨n, r, rfl⟩ := List.exists_cons_of_ne_nil hne
      rfl
    | cons x xs =>
      have hstep := ih (List.cons_ne_nil x xs)
      simp only [List.map_cons, List.cons_append, spell] at hstep ⊢
      rw [hstep, List.append_assoc, List.cons_append]

/-- Names behind the path of a place are the path of a place. -/
theorem placePath_join_names {place : Place} (hp : ∀ n ∈ place, IsName n)
    (hn : ∀ n ∈ ns, IsName n) (hne : ns ≠ []) :
    placePath place / ofComponents (ns.map .name) = placePath (place ++ ns) := by
  have hrelative : (ofComponents (ns.map .name)).isAbsolute = false :=
    isAbsolute_ofComponents (of_mem_climbing (k := 0) hn)
  rw [join_eq (by simp [placePath, ofComponents, spell]) hrelative, placePath, ofComponents,
    Path.mk.injEq]
  show '/' :: spell (place.map .name) ++ ((placePath place).separator ++ spell (ns.map .name)) =
    '/' :: spell ((place ++ ns).map .name)
  by_cases hplace : place = []
  · rw [hplace]
    rfl
  · have hsep : (placePath place).separator = ['/'] := by
      refine if_neg ?_
      have hlast := getLast?_spell fun n hm => ⟨(hp n hm).nonempty, (hp n hm).noSlash⟩
      obtain ⟨m, ms, hcons⟩ := List.exists_cons_of_ne_nil hplace
      have hspell : spell (place.map .name) ≠ [] := by
        rw [hcons]
        exact spell_ne_nil (hp m (by simp [hcons])).nonempty ms
      show ('/' :: spell (place.map .name)).getLast? ≠ some '/'
      rwa [← List.singleton_append, List.getLast?_append_of_ne_nil _ hspell]
    rw [hsep, spell_names_append hplace hne]
    rfl

end Spelling

end OfflineCache.Path
