/-! Cutting a text at the first or last place where a separator stands. Every cut loses the
separator and nothing else. -/

namespace OfflineCache.Text

/-- What stands before and after the first `c`. -/
def cut (c : Char) : List Char → Option (List Char × List Char)
  | [] => none
  | x :: r =>
    if x = c then some ([], r)
    else (cut c r).map fun (a, b) => (x :: a, b)

/-- What stands before and after the last `c`. -/
def cutLast (c : Char) (s : List Char) : Option (List Char × List Char) :=
  (cut c s.reverse).map fun (b, a) => (a.reverse, b.reverse)

/-- What stands before and after the first occurrence of `sep`. -/
def cutText (sep : List Char) : List Char → Option (List Char × List Char)
  | [] => if sep = [] then some ([], []) else none
  | x :: r =>
    match sep.isPrefixOf? (x :: r) with
    | some rest => some ([], rest)
    | none => (cutText sep r).map fun (a, b) => (x :: a, b)

/-- All pieces between the characters `c`, empty ones included. -/
def splitAll (c : Char) : List Char → List (List Char)
  | [] => [[]]
  | x :: r =>
    if x = c then [] :: splitAll c r
    else match splitAll c r with
      | [] => [[x]]
      | w :: ws => (x :: w) :: ws

/-- All pieces between the occurrences of `sep`, read from the left. -/
def splitAllText (sep : List Char) (s : List Char) : List (List Char) :=
  go s.length s
where
  go : Nat → List Char → List (List Char)
    | 0, s => [s]
    | n + 1, s =>
      match cutText sep s with
      | none => [s]
      | some (a, b) => a :: go n b

def containsText (sep : List Char) (s : List Char) : Bool := (cutText sep s).isSome

def endsWith (suffix : List Char) (s : List Char) : Bool := suffix.isSuffixOf s

/-- Drops every copy of a nonempty `suffix` from the end. -/
def dropSuffixes (suffix : List Char) (s : List Char) : List Char :=
  go s.length s.reverse
where
  go : Nat → List Char → List Char
    | 0, r => r.reverse
    | n + 1, r =>
      match suffix.reverse.isPrefixOf? r with
      | some rest => if suffix = [] then r.reverse else go n rest
      | none => r.reverse

theorem eq_append_of_cut {c : Char} {s a b : List Char} (h : cut c s = some (a, b)) :
    s = a ++ c :: b ∧ c ∉ a := by
  induction s generalizing a b with
  | nil => simp [cut] at h
  | cons x r ih =>
    by_cases hx : x = c
    · simp [cut, hx] at h
      obtain ⟨rfl, rfl⟩ := h
      simp [hx]
    · simp only [cut, hx, if_false, Option.map_eq_some_iff] at h
      obtain ⟨⟨a', b'⟩, h', he⟩ := h
      obtain ⟨rfl, rfl⟩ : x :: a' = a ∧ b' = b := by simpa using he
      obtain ⟨rfl, hc⟩ := ih h'
      exact ⟨by simp, by simp [hc, Ne.symm hx]⟩

theorem cut_append {c : Char} {a b : List Char} (h : c ∉ a) :
    cut c (a ++ c :: b) = some (a, b) := by
  induction a with
  | nil => simp [cut]
  | cons x r ih =>
    simp only [List.mem_cons, not_or] at h
    simp [cut, Ne.symm h.1, ih h.2]

theorem cut_eq_none_iff {c : Char} {s : List Char} : cut c s = none ↔ c ∉ s := by
  induction s with
  | nil => simp [cut]
  | cons x r ih =>
    by_cases hx : x = c
    · simp [cut, hx]
    · simp [cut, hx, ih, Ne.symm hx]

theorem cut_eq_some_iff {c : Char} {s a b : List Char} :
    cut c s = some (a, b) ↔ s = a ++ c :: b ∧ c ∉ a :=
  ⟨eq_append_of_cut, fun ⟨h, hc⟩ => h ▸ cut_append hc⟩

end OfflineCache.Text
