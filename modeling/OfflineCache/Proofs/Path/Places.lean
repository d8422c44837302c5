import OfflineCache.FileTree.Basic
import OfflineCache.Proofs.Text.Pieces

/-! Absolute paths and the places they name. The normal form of an absolute path is the root and
names below it, and so is the spelling of a place: `normalize_eq_placePath` sends an absolute path
to the place it names in its text alone, and `components_placePath` reads a spelt place back. -/

namespace OfflineCache

open Text

namespace Path

/-- A name that a directory can hold: it is no separator and none of the dots. -/
structure IsName (n : List Char) : Prop where
  nonempty : n ≠ []
  noSlash : '/' ∉ n
  notHere : n ≠ ['.']
  notUp : n ≠ ['.', '.']

theorem isName_concat {ns : List (List Char)} {n : List Char} (h : ∀ m ∈ ns, IsName m)
    (hn : IsName n) : ∀ m ∈ ns ++ [n], IsName m := by
  intro m hm
  rcases List.mem_append.mp hm with hm | hm
  · exact h m hm
  · rw [List.mem_singleton.mp hm]
    exact hn

/-! ## Pieces -/

theorem of_mem_pieces {s p : List Char} (h : p ∈ pieces s) : p ≠ [] ∧ '/' ∉ p := by
  obtain ⟨hm, hn⟩ := List.mem_filter.mp h
  exact ⟨by simpa using hn, notMem_of_mem_splitAll hm⟩

theorem pieces_slash (s : List Char) : pieces ('/' :: s) = pieces s := by
  simp [pieces, splitAll]

theorem pieces_append_slash {a : List Char} (ha : a ≠ []) (h : '/' ∉ a) (s : List Char) :
    pieces (a ++ '/' :: s) = a :: pieces s := by
  simp [pieces, splitAll_append h, ha]

theorem pieces_name {a : List Char} (ha : a ≠ []) (h : '/' ∉ a) : pieces a = [a] := by
  simp [pieces, splitAll_of_notMem h, ha]

theorem pieces_spell {ns : List (List Char)} (h : ∀ n ∈ ns, n ≠ [] ∧ '/' ∉ n) :
    pieces (spell (ns.map .name)) = ns := by
  induction ns with
  | nil => rfl
  | cons n ns ih =>
    obtain ⟨hn, hs⟩ := h n (by simp)
    cases ns with
    | nil => exact pieces_name hn hs
    | cons m ms =>
      have hcons : spell ((n :: m :: ms).map .name) = n ++ '/' :: spell ((m :: ms).map .name) := rfl
      rw [hcons, pieces_append_slash hn hs, ih fun k hk => h k (List.mem_cons_of_mem n hk)]

theorem spell_ne_nil {n : List Char} (hn : n ≠ []) (ns : List (List Char)) :
    spell ((n :: ns).map .name) ≠ [] := by
  cases ns with
  | nil => exact hn
  | cons m ms => simp [spell, Component.chars]

theorem getLast?_spell {ns : List (List Char)} (h : ∀ n ∈ ns, n ≠ [] ∧ '/' ∉ n) :
    (spell (ns.map .name)).getLast? ≠ some '/' := by
  induction ns with
  | nil => simp [spell]
  | cons n ns ih =>
    cases ns with
    | nil => exact fun hl => (h n (by simp)).2 (List.mem_of_getLast? hl)
    | cons m ms =>
      have hcons : spell ((n :: m :: ms).map .name) = n ++ '/' :: spell ((m :: ms).map .name) := rfl
      obtain ⟨a, r, hr⟩ := List.exists_cons_of_ne_nil (spell_ne_nil (h m (by simp)).1 ms)
      have hlast := ih fun k hk => h k (List.mem_cons_of_mem n hk)
      rw [hcons]
      rw [hr] at hlast ⊢
      simpa [List.getLast?_append, List.getLast?_cons_cons] using hlast

theorem mem_spell {c : Char} (hc : c ≠ '/') (ns : List (List Char)) :
    c ∈ spell (ns.map .name) ↔ ∃ n ∈ ns, c ∈ n := by
  induction ns with
  | nil => simp [spell]
  | cons n ns ih =>
    cases ns with
    | nil => simp [spell, Component.chars]
    | cons m ms =>
      have hcons : spell ((n :: m :: ms).map .name) = n ++ '/' :: spell ((m :: ms).map .name) := rfl
      rw [hcons, List.mem_append, List.mem_cons, ih]
      simp [hc]

/-! ## Components -/

theorem components_of_absolute {p : Path} (h : p.isAbsolute = true) :
    p.components = .root :: ((pieces p.chars).filter (· ≠ ['.'])).map Component.ofPiece := by
  unfold components
  simp only [h, if_true]
  rfl

theorem Component.ofPiece_eq_up_or_name {s : List Char} (h : s ≠ [] ∧ '/' ∉ s) (hd : s ≠ ['.']) :
    ofPiece s = .up ∨ IsName s ∧ ofPiece s = .name s := by
  unfold ofPiece
  by_cases hu : s = ['.', '.']
  · exact Or.inl (if_pos hu)
  · exact Or.inr ⟨⟨h.1, h.2, hd, hu⟩, if_neg hu⟩

theorem ofPiece_of_isName {n : List Char} (h : IsName n) : Component.ofPiece n = .name n :=
  if_neg h.notUp

/-! ## Normal form -/

theorem pushComponent_name (cs : List Component) (n : List Char) :
    pushComponent cs (.name n) = cs ++ [.name n] := rfl

theorem foldl_pushComponent_names (cs : List Component) (ns : List (List Char)) :
    (ns.map Component.name).foldl pushComponent cs = cs ++ ns.map .name := by
  induction ns generalizing cs with
  | nil => simp
  | cons n ns ih => simp [pushComponent_name, ih]

/-- Going up from a place is leaving its last name off; nothing lies above the root. -/
theorem pushComponent_up (ns : List (List Char)) :
    pushComponent (.root :: ns.map .name) .up = .root :: ns.dropLast.map .name := by
  rcases List.eq_nil_or_concat ns with rfl | ⟨ms, m, rfl⟩
  · rfl
  · have hl : (Component.root :: (ms ++ [m]).map .name).getLast? = some (.name m) := by
      simp [List.getLast?_cons]
    simp only [List.concat_eq_append] at *
    simp only [pushComponent, hl]
    simp [List.dropLast_cons_of_ne_nil]

theorem normalComponents_append_names (cs : List Component) (ns : List (List Char)) :
    normalComponents (cs ++ ns.map .name) = normalComponents cs ++ ns.map .name := by
  rw [normalComponents, List.foldl_append, foldl_pushComponent_names]
  rfl

theorem normalComponents_names (ns : List (List Char)) :
    normalComponents (.root :: ns.map .name) = .root :: ns.map .name :=
  normalComponents_append_names [.root] ns

theorem foldl_pushComponent_pieces (ns : List (List Char)) (hns : ∀ n ∈ ns, IsName n)
    (ps : List (List Char)) (hps : ∀ p ∈ ps, (p ≠ [] ∧ '/' ∉ p) ∧ p ≠ ['.']) :
    ∃ ms : List (List Char), (∀ m ∈ ms, IsName m) ∧
      (ps.map Component.ofPiece).foldl pushComponent (.root :: ns.map .name) =
        .root :: ms.map .name := by
  induction ps generalizing ns with
  | nil => exact ⟨ns, hns, rfl⟩
  | cons p ps ih =>
    have hrest := fun q hq => hps q (List.mem_cons_of_mem p hq)
    obtain ⟨hp, hd⟩ := hps p (by simp)
    rcases Component.ofPiece_eq_up_or_name hp hd with hu | ⟨hn, he⟩
    · simp only [List.map_cons, List.foldl_cons, hu, pushComponent_up]
      exact ih ns.dropLast (fun n hm => hns n (List.dropLast_subset ns hm)) hrest
    · simp only [List.map_cons, List.foldl_cons, he, pushComponent_name]
      have := ih (ns ++ [p]) (isName_concat hns hn) hrest
      simpa using this

/-- The normal form of an absolute path has names only below the root. -/
theorem normalComponents_of_absolute {p : Path} (h : p.isAbsolute = true) :
    ∃ ns : Place, (∀ n ∈ ns, IsName n) ∧ normalComponents p.components = .root :: ns.map .name := by
  rw [components_of_absolute h]
  apply foldl_pushComponent_pieces [] (by simp)
  intro q hq
  obtain ⟨hm, hd⟩ := List.mem_filter.mp hq
  exact ⟨of_mem_pieces hm, by simpa using hd⟩

end Path

/-! ## Places -/

open OfflineCache.Path OfflineCache.FileTree

theorem pieces_placePath {ns : Place} (h : ∀ n ∈ ns, IsName n) :
    pieces (placePath ns).chars = ns := by
  show pieces ('/' :: spell (ns.map .name)) = ns
  rw [pieces_slash, pieces_spell fun n hn => ⟨(h n hn).nonempty, (h n hn).noSlash⟩]

theorem components_placePath {ns : Place} (h : ∀ n ∈ ns, IsName n) :
    (placePath ns).components = .root :: ns.map .name := by
  have hp := pieces_placePath h
  rw [components_of_absolute (show (placePath ns).isAbsolute = true from rfl)]
  have hf : ns.filter (· ≠ ['.']) = ns := by
    rw [List.filter_eq_self]
    intro n hn
    simpa using (h n hn).notHere
  rw [hp, hf]
  congr 1
  apply List.map_congr_left
  intro n hn
  exact ofPiece_of_isName (h n hn)

theorem normalize_placePath {ns : Place} (h : ∀ n ∈ ns, IsName n) :
    (placePath ns).normalize = placePath ns := by
  rw [Path.normalize, components_placePath h, normalComponents_names]
  rfl

theorem normalize_eq_placePath {p : Path} (h : p.isAbsolute = true) :
    ∃ ns : Place, (∀ n ∈ ns, IsName n) ∧ normalComponents p.components = .root :: ns.map .name ∧
      p.normalize = placePath ns := by
  obtain ⟨ns, hns, hcs⟩ := normalComponents_of_absolute h
  exact ⟨ns, hns, hcs, congrArg ofComponents hcs⟩

theorem isAbsolute_placePath (ns : Place) : (placePath ns).isAbsolute = true := rfl

theorem isAbsolute_join {p : Path} (q : Path) (h : p.isAbsolute = true) :
    (p / q).isAbsolute = true := by
  show (join p q).isAbsolute = true
  have hp : p.chars ≠ [] := by
    intro he
    simp [isAbsolute, he] at h
  obtain ⟨x, r, hx⟩ := List.exists_cons_of_ne_nil hp
  have hx' : x = '/' := by simpa [isAbsolute, hx] using h
  unfold join
  split
  · rename_i hq
    rcases hq with hq | he
    · exact hq
    · exact absurd he hp
  · split <;> simp [isAbsolute, hx, hx']

end OfflineCache
