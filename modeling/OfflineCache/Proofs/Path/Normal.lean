import OfflineCache.Proofs.Path.Climbing

/-! The normal form of a path: names below the root, or steps up and then names. The components of
the written normal form are those that were computed (`components_normalize`), so it is its own
normal form, and putting a path behind another one may be done before or after (`normalize_join`).
-/

namespace OfflineCache.Path

variable {cs : List Component}

/-- Names below the root; or steps up, and then names. -/
inductive IsNormal : List Component → Prop
  | below {ns : List (List Char)} : (∀ n ∈ ns, IsName n) → IsNormal (.root :: ns.map .name)
  | climbing (k : Nat) {ns : List (List Char)} : (∀ n ∈ ns, IsName n) →
      IsNormal (climbing k ns)

theorem isNormal_normalComponents (p : Path) : IsNormal (normalComponents p.components) := by
  cases hp : p.isAbsolute with
  | true =>
    obtain ⟨ns, hn, he⟩ := normalComponents_of_absolute hp
    exact he ▸ .below hn
  | false =>
    obtain ⟨k, ns, hn, he, -⟩ := normalComponents_of_relative hp
    exact he ▸ .climbing k hn

/-! ## What a normal form looks like -/

theorem IsNormal.here_notMem (h : IsNormal cs) : Component.here ∉ cs := by
  cases h with
  | below => simp
  | climbing k => simp [Path.climbing]

theorem IsNormal.up_notMem (h : IsNormal cs) (hr : .root ∈ cs) : Component.up ∉ cs := by
  cases h with
  | below => simp
  | climbing k => simp [Path.climbing] at hr

/-- Steps up have only steps up in front of them. -/
theorem IsNormal.eq_up (h : IsNormal cs) {front back : List Component}
    (hcs : cs = front ++ .up :: back) : ∀ c ∈ front, c = .up := by
  have hup : Component.up ∈ cs := by simp [hcs]
  cases h with
  | below => simp at hup
  | climbing k =>
    rcases List.append_eq_append_iff.mp hcs with ⟨names, -, hnames⟩ | ⟨ups, hfront, -⟩
    · -- a step up cannot stand among the names
      have hmem : Component.up ∈ names ++ .up :: back := by simp
      rw [← hnames] at hmem
      simp at hmem
    · intro c hc
      have hmem : c ∈ List.replicate k Component.up := hfront ▸ List.mem_append_left ups hc
      exact List.eq_of_mem_replicate hmem

/-! ## Spelling and reading -/

theorem components_climbing (k : Nat) {ns : List (List Char)} (hn : ∀ n ∈ ns, IsName n) :
    (ofComponents (climbing k ns)).components = climbing k ns := by
  have hdots : ∀ s ∈ List.replicate k ['.', '.'] ++ ns, s ≠ ['.'] := by
    intro s hs
    rcases List.mem_append.mp hs with hs | hs
    · rw [List.eq_of_mem_replicate hs]
      decide
    · exact (hn s hs).notHere
  have hhead : (pieces (ofComponents (climbing k ns)).chars).head? ≠ some ['.'] := by
    rw [pieces_climbing hn]
    exact fun h => hdots _ (List.mem_of_head? h) rfl
  have hdotless : dotless (pieces (ofComponents (climbing k ns)).chars) =
      List.replicate k ['.', '.'] ++ ns := by
    rw [pieces_climbing hn, dotless, List.filter_eq_self]
    simpa using hdots
  rw [components_eq, body, isAbsolute_ofComponents (of_mem_climbing hn), hdotless]
  simp only [Bool.false_eq_true, if_false, hhead, and_false, List.nil_append, List.map_append,
    List.map_replicate]
  have hnames : ns.map Component.ofPiece = ns.map .name :=
    List.map_congr_left fun n hm => ofPiece_of_isName (hn n hm)
  rw [hnames]
  rfl

theorem IsNormal.components_ofComponents (h : IsNormal cs) : (ofComponents cs).components = cs := by
  cases h with
  | below hn => exact components_placePath hn
  | climbing k hn => exact components_climbing k hn

/-- The components of the written normal form are those that were computed. -/
theorem components_normalize (p : Path) : p.normalize.components = normalComponents p.components :=
  (isNormal_normalComponents p).components_ofComponents

/-! ## Normal forms again -/

theorem normalComponents_climbing (k : Nat) (ns : List (List Char)) :
    normalComponents (climbing k ns) = climbing k ns := by
  have hups : normalComponents (climbing k []) = climbing k [] := by
    induction k with
    | zero => rfl
    | succ k ih =>
      have hconcat : climbing (k + 1) [] = climbing k [] ++ [.up] := by
        simp [climbing, List.replicate_succ']
      rw [hconcat, normalComponents_concat, ih, pushComponent_climbing_nil, hconcat]
  have happ : climbing k ns = climbing k [] ++ ns.map .name := by simp [climbing]
  rw [happ, normalComponents_append_names, hups]

theorem IsNormal.normalComponents_eq (h : IsNormal cs) : normalComponents cs = cs := by
  cases h with
  | @below ns _ => exact normalComponents_names ns
  | @climbing k ns _ => exact normalComponents_climbing k ns

theorem normalize_normalize (p : Path) : p.normalize.normalize = p.normalize := by
  rw [normalize, components_normalize, (isNormal_normalComponents p).normalComponents_eq]
  rfl

/-- The paths that are their own normal form. -/
theorem normalize_eq_self_iff {p : Path} :
    p.normalize = p ↔ ∃ cs, IsNormal cs ∧ p = ofComponents cs := by
  constructor
  · intro h
    exact ⟨normalComponents p.components, isNormal_normalComponents p, h.symm⟩
  · rintro ⟨cs, hcs, rfl⟩
    rw [normalize, hcs.components_ofComponents, hcs.normalComponents_eq]

/-! ## Joining -/

/-- Where the components of a path begin. -/
def origin (p : Path) : List Component := if p.isAbsolute then [.root] else []

/-- A dot in front is dropped like any other. -/
theorem normalComponents_eq_foldl (p : Path) :
    normalComponents p.components =
      ((dotless (pieces p.chars)).map .ofPiece).foldl pushComponent p.origin := by
  rw [components_eq, body, normalComponents, origin]
  split <;> split <;> rfl

theorem normalComponents_join (p : Path) {q : Path} (hq : q.isAbsolute = false) :
    normalComponents (p / q).components =
      ((dotless (pieces q.chars)).map .ofPiece).foldl pushComponent
        (normalComponents p.components) := by
  rw [normalComponents_eq_foldl, normalComponents_eq_foldl p, origin,
    isAbsolute_join_of_relative hq, pieces_join hq, dotless_append, List.map_append,
    List.foldl_append]
  rfl

/-- **It makes no difference whether a path is normalized before another one is put behind it.** -/
theorem normalize_join (p q : Path) : (p / q).normalize = (p.normalize / q).normalize := by
  cases hq : q.isAbsolute with
  | true => rw [join_of_absolute p hq, join_of_absolute p.normalize hq]
  | false =>
    rw [normalize, normalize, normalComponents_join p hq, normalComponents_join p.normalize hq,
      components_normalize, (isNormal_normalComponents p).normalComponents_eq]

end OfflineCache.Path
