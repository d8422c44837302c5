import OfflineCache.Proofs.Path.Places

/-! Walks in a file tree. A walk that arrives has come to a place with directories only above it, so
the path of that place has no links; walking along that path takes no links and arrives at the same
node. A walk along two stretches is the walk along the second from the end of the first, with the
links that are left, and more links change nothing but the error of running out of them. -/

namespace OfflineCache.FileTree

open OfflineCache.Path

variable {t : FileTree} {follow : Bool} {links : Nat} {origin : Place} {ss : List (List Char)}

theorem walk_nil : t.walk follow links origin [] = .ok (.present origin .directory) := by
  cases links <;> rfl

/-- One piece of a walk, whatever links are left. -/
theorem walk_cons (s : List Char) (rest : List (List Char)) :
    t.walk follow links origin (s :: rest) =
      if s = ['.'] then t.walk follow links origin rest
      else if s = ['.', '.'] then t.walk follow links origin.dropLast rest
      else if !fitsName s then .error .nameTooLong
      else match t.node? (origin ++ [s]) with
        | none => if rest = [] then .ok (.free origin s) else .error .notFound
        | some .directory => t.walk follow links (origin ++ [s]) rest
        | some (.file b x) =>
          if rest = [] then .ok (.present (origin ++ [s]) (.file b x)) else .error .notDirectory
        | some (.link target) =>
          if rest = [] ∧ !follow then .ok (.present (origin ++ [s]) (.link target))
          else match links with
            | 0 => .error .tooManyLinks
            | links + 1 =>
              t.walk follow links (if target.isAbsolute then [] else origin)
                (steps target ++ rest) := by
  cases links <;> rfl

/-- A piece that is looked up as a name. -/
structure LooksUp (s : List Char) : Prop where
  notHere : s ≠ ['.']
  notUp : s ≠ ['.', '.']
  fits : fitsName s = true

theorem IsName.looksUp {n : List Char} (h : IsName n) (hf : fitsName n = true) : LooksUp n :=
  ⟨h.notHere, h.notUp, hf⟩

theorem LooksUp.isName {s : List Char} (h : LooksUp s) (hs : s ≠ [] ∧ '/' ∉ s) : IsName s :=
  ⟨hs.1, hs.2, h.notHere, h.notUp⟩

/-- The walk as a relation: how it takes its next piece, and what comes of the rest. -/
inductive Walks (t : FileTree) (follow : Bool) :
    Nat → Place → List (List Char) → Except Fault Spot → Prop
  | arrived {links : Nat} {origin : Place} :
      Walks t follow links origin [] (.ok (.present origin .directory))
  | here {links : Nat} {origin : Place} {rest : List (List Char)} {r : Except Fault Spot} :
      Walks t follow links origin rest r → Walks t follow links origin (['.'] :: rest) r
  | up {links : Nat} {origin : Place} {rest : List (List Char)} {r : Except Fault Spot} :
      Walks t follow links origin.dropLast rest r →
      Walks t follow links origin (['.', '.'] :: rest) r
  | tooLong {links : Nat} {origin : Place} {s : List Char} {rest : List (List Char)} :
      s ≠ ['.'] → s ≠ ['.', '.'] → fitsName s = false →
      Walks t follow links origin (s :: rest) (.error .nameTooLong)
  | free {links : Nat} {origin : Place} {s : List Char} :
      LooksUp s → t.node? (origin ++ [s]) = none →
      Walks t follow links origin [s] (.ok (.free origin s))
  | missing {links : Nat} {origin : Place} {s : List Char} {rest : List (List Char)} :
      LooksUp s → t.node? (origin ++ [s]) = none → rest ≠ [] →
      Walks t follow links origin (s :: rest) (.error .notFound)
  | into {links : Nat} {origin : Place} {s : List Char} {rest : List (List Char)}
      {r : Except Fault Spot} :
      LooksUp s → t.node? (origin ++ [s]) = some .directory →
      Walks t follow links (origin ++ [s]) rest r → Walks t follow links origin (s :: rest) r
  | file {links : Nat} {origin : Place} {s : List Char} {b : Bytes} {x : Bool} :
      LooksUp s → t.node? (origin ++ [s]) = some (.file b x) →
      Walks t follow links origin [s] (.ok (.present (origin ++ [s]) (.file b x)))
  | beyond {links : Nat} {origin : Place} {s : List Char} {rest : List (List Char)} {b : Bytes}
      {x : Bool} :
      LooksUp s → t.node? (origin ++ [s]) = some (.file b x) → rest ≠ [] →
      Walks t follow links origin (s :: rest) (.error .notDirectory)
  | link {links : Nat} {origin : Place} {s : List Char} {target : Path} :
      LooksUp s → t.node? (origin ++ [s]) = some (.link target) → follow = false →
      Walks t follow links origin [s] (.ok (.present (origin ++ [s]) (.link target)))
  | exhausted {origin : Place} {s : List Char} {rest : List (List Char)} {target : Path} :
      LooksUp s → t.node? (origin ++ [s]) = some (.link target) → (rest = [] → follow = true) →
      Walks t follow 0 origin (s :: rest) (.error .tooManyLinks)
  | through {links : Nat} {origin : Place} {s : List Char} {rest : List (List Char)}
      {target : Path} {r : Except Fault Spot} :
      LooksUp s → t.node? (origin ++ [s]) = some (.link target) → (rest = [] → follow = true) →
      Walks t follow links (if target.isAbsolute then [] else origin) (steps target ++ rest) r →
      Walks t follow (links + 1) origin (s :: rest) r

theorem walks_cons (s : List Char) (rest : List (List Char))
    (hrest : ∀ origin, Walks t follow links origin rest (t.walk follow links origin rest))
    (hjump : ∀ n, links = n + 1 → ∀ origin ss,
      Walks t follow n origin ss (t.walk follow n origin ss)) :
    Walks t follow links origin (s :: rest) (t.walk follow links origin (s :: rest)) := by
  rw [walk_cons]
  split
  · rename_i hd
    exact hd ▸ .here (hrest origin)
  split
  · rename_i hu
    exact hu ▸ .up (hrest origin.dropLast)
  split
  · rename_i hd hu hf
    exact .tooLong hd hu (by simpa using hf)
  rename_i hd hu hf
  have hs : LooksUp s := ⟨hd, hu, by simpa using hf⟩
  cases hn : t.node? (origin ++ [s]) with
  | none =>
    by_cases hr : rest = []
    · simpa [hr] using Walks.free hs hn
    · simpa [hr] using Walks.missing hs hn hr
  | some node =>
    cases node with
    | directory => exact .into hs hn (hrest (origin ++ [s]))
    | file b x =>
      by_cases hr : rest = []
      · simpa [hr] using Walks.file hs hn
      · simpa [hr] using Walks.beyond hs hn hr
    | link target =>
      by_cases hr : rest = [] ∧ follow = false
      · simpa [hr] using Walks.link hs hn hr.2
      · have hr' : rest = [] → follow = true := by simpa using hr
        have hc : ¬ (rest = [] ∧ (!follow) = true) := by simpa using hr
        simp only [if_neg hc]
        cases links with
        | zero => exact .exhausted hs hn hr'
        | succ n => exact .through hs hn hr' (hjump n rfl _ _)

theorem walks (t : FileTree) (follow : Bool) (links : Nat) (origin : Place)
    (ss : List (List Char)) : Walks t follow links origin ss (t.walk follow links origin ss) := by
  induction links generalizing origin ss with
  | zero =>
    induction ss generalizing origin with
    | nil => rw [walk_nil]; exact .arrived
    | cons s rest ih => exact walks_cons s rest ih (by simp)
  | succ links ihl =>
    induction ss generalizing origin with
    | nil => rw [walk_nil]; exact .arrived
    | cons s rest ih =>
      refine walks_cons s rest ih fun n hn => ?_
      obtain rfl : links = n := by simpa using hn
      exact ihl

theorem Walks.walk_eq {r : Except Fault Spot} (h : Walks t follow links origin ss r) :
    t.walk follow links origin ss = r := by
  induction h with
  | arrived => exact walk_nil
  | here _ ih => rw [walk_cons, if_pos rfl, ih]
  | up _ ih => rw [walk_cons, if_neg (by decide), if_pos rfl, ih]
  | tooLong hd hu hf => simp [walk_cons, hd, hu, hf]
  | free hs hn => simp [walk_cons, hs.notHere, hs.notUp, hs.fits, hn]
  | missing hs hn hr => simp [walk_cons, hs.notHere, hs.notUp, hs.fits, hn, hr]
  | into hs hn _ ih => simp [walk_cons, hs.notHere, hs.notUp, hs.fits, hn, ih]
  | file hs hn => simp [walk_cons, hs.notHere, hs.notUp, hs.fits, hn]
  | beyond hs hn hr => simp [walk_cons, hs.notHere, hs.notUp, hs.fits, hn, hr]
  | link hs hn ho => simp [walk_cons, hs.notHere, hs.notUp, hs.fits, hn, ho]
  | @exhausted _ _ rest _ hs hn hr =>
    have hr' : ¬ (rest = [] ∧ follow = false) := by simpa using hr
    simp [walk_cons, hs.notHere, hs.notUp, hs.fits, hn, hr']
  | @through _ _ _ rest _ _ hs hn hr _ ih =>
    have hr' : ¬ (rest = [] ∧ follow = false) := by simpa using hr
    simpa [walk_cons, hs.notHere, hs.notUp, hs.fits, hn, hr'] using ih

theorem walks_iff {r : Except Fault Spot} :
    Walks t follow links origin ss r ↔ t.walk follow links origin ss = r :=
  ⟨Walks.walk_eq, fun h => h ▸ walks t follow links origin ss⟩

/-- A place with directories all the way down from the root. -/
inductive Grounded (t : FileTree) : Place → Prop
  | root : Grounded t []
  | into {p : Place} {n : List Char} : Grounded t p → IsName n → fitsName n = true →
      t.node? (p ++ [n]) = some .directory → Grounded t (p ++ [n])

/-- A node at a place with directories only above it. -/
inductive Holds (t : FileTree) : Place → Node → Prop
  | directory {p : Place} : Grounded t p → Holds t p .directory
  | entry {p : Place} {n : List Char} {node : Node} : Grounded t p → IsName n →
      fitsName n = true → t.node? (p ++ [n]) = some node → node ≠ .directory →
      Holds t (p ++ [n]) node

theorem Grounded.names {p : Place} (h : Grounded t p) : ∀ n ∈ p, IsName n := by
  induction h with
  | root => simp
  | into _ hn _ _ ih => exact isName_concat ih hn

theorem Grounded.dropLast {p : Place} (h : Grounded t p) : Grounded t p.dropLast := by
  cases h with
  | root => exact .root
  | into hp _ _ _ => rw [List.dropLast_concat]; exact hp

theorem Grounded.node? {p : Place} (h : Grounded t p) : t.node? p = some .directory := by
  cases h with
  | root => rfl
  | into _ _ _ hd => exact hd

theorem Grounded.of_prefix {p q : Place} (h : Grounded t p) (hq : q <+: p) : Grounded t q := by
  induction h with
  | root =>
    obtain rfl := List.prefix_nil.mp hq
    exact .root
  | into hp hn hf hd ih =>
    rcases List.prefix_concat_iff.mp hq with rfl | hq
    · exact .into hp hn hf hd
    · exact ih hq

theorem Holds.names {p : Place} {node : Node} (h : Holds t p node) : ∀ n ∈ p, IsName n := by
  cases h with
  | directory hg => exact hg.names
  | entry hg hn _ _ _ => exact isName_concat hg.names hn

theorem Holds.node? {p : Place} {node : Node} (h : Holds t p node) : t.node? p = some node := by
  cases h with
  | directory hg => exact hg.node?
  | entry _ _ _ hn _ => exact hn

/-- Everything above the node is a directory. -/
theorem Holds.above {p q : Place} {node : Node} (h : Holds t p node) (hq : q <+: p) (hne : q ≠ p) :
    t.node? q = some .directory := by
  cases h with
  | directory hg => exact (hg.of_prefix hq).node?
  | entry hg _ _ _ _ =>
    rcases List.prefix_concat_iff.mp hq with rfl | hq
    · exact absurd rfl hne
    · exact (hg.of_prefix hq).node?

theorem mem_nodes_of_node? {p : Place} {node : Node} (h : t.node? p = some node)
    (hd : node ≠ .directory) : (p, node) ∈ t.nodes := by
  rw [FileTree.node?] at h
  split at h
  · exact absurd (Option.some.inj h).symm hd
  · obtain ⟨before, after, he, -⟩ := List.lookup_eq_some_iff.mp h
    rw [he]
    simp

theorem steps_pieces (p : Path) : ∀ s ∈ steps p, s ≠ [] ∧ '/' ∉ s := by
  intro s hs
  simp only [steps] at hs
  split at hs
  · rcases List.mem_append.mp hs with h | h
    · exact of_mem_pieces h
    · obtain rfl : s = ['.'] := by simpa using h
      decide
  · exact of_mem_pieces hs

/-- Where a walk arrives. -/
theorem Walks.holds {place : Place} {node : Node}
    (h : Walks t follow links origin ss (.ok (.present place node))) (ho : Grounded t origin)
    (hs : ∀ s ∈ ss, s ≠ [] ∧ '/' ∉ s) : Holds t place node := by
  generalize hr : Except.ok (Spot.present place node) = r at h
  induction h with
  | arrived =>
    cases hr
    exact .directory ho
  | here _ ih => exact ih ho (fun x hx => hs x (by simp [hx])) hr
  | up _ ih => exact ih ho.dropLast (fun x hx => hs x (by simp [hx])) hr
  | into hl hn _ ih =>
    exact ih (.into ho (hl.isName (hs _ (by simp))) hl.fits hn) (fun x hx => hs x (by simp [hx])) hr
  | file hl hn =>
    cases hr
    exact .entry ho (hl.isName (hs _ (by simp))) hl.fits hn (by simp)
  | link hl hn _ =>
    cases hr
    exact .entry ho (hl.isName (hs _ (by simp))) hl.fits hn (by simp)
  | @through _ _ _ _ target _ _ _ _ _ ih =>
    refine ih ?_ ?_ hr
    · split
      · exact .root
      · exact ho
    · intro x hx
      rcases List.mem_append.mp hx with hx | hx
      · exact steps_pieces target x hx
      · exact hs x (by simp [hx])
  | tooLong => cases hr
  | free => cases hr
  | missing => cases hr
  | beyond => cases hr
  | exhausted => cases hr

theorem holds_of_walk {place : Place} {node : Node} (ho : Grounded t origin)
    (hs : ∀ s ∈ ss, s ≠ [] ∧ '/' ∉ s)
    (h : t.walk follow links origin ss = .ok (.present place node)) : Holds t place node :=
  (walks_iff.mpr h).holds ho hs

/-- A walk that follows links does not end at one. -/
theorem walk_ne_link {place : Place} {target : Path} :
    t.walk true links origin ss ≠ .ok (.present place (.link target)) := by
  intro h
  have hw := walks_iff.mpr h
  generalize hr : Except.ok (Spot.present place (.link target)) = r at hw
  clear h
  induction hw with
  | arrived => cases hr
  | file => cases hr
  | link _ _ ho => cases ho
  | tooLong => cases hr
  | free => cases hr
  | missing => cases hr
  | beyond => cases hr
  | exhausted => cases hr
  | here _ ih => exact ih hr
  | up _ ih => exact ih hr
  | into _ _ _ ih => exact ih hr
  | through _ _ _ _ ih => exact ih hr

theorem walk_into {n : List Char} (hn : IsName n) (hf : fitsName n = true)
    (hd : t.node? (origin ++ [n]) = some .directory) :
    t.walk follow links origin (n :: ss) = t.walk follow links (origin ++ [n]) ss :=
  (Walks.into (IsName.looksUp hn hf) hd (walks t follow links (origin ++ [n]) ss)).walk_eq

theorem walk_file {n : List Char} {b : Bytes} {x : Bool} (hn : IsName n) (hf : fitsName n = true)
    (hd : t.node? (origin ++ [n]) = some (.file b x)) :
    t.walk follow links origin (n :: ss) =
      if ss = [] then .ok (.present (origin ++ [n]) (.file b x)) else .error .notDirectory := by
  split
  · rename_i he
    rw [he]
    exact (Walks.file (IsName.looksUp hn hf) hd).walk_eq
  · rename_i hne
    exact (Walks.beyond (IsName.looksUp hn hf) hd hne).walk_eq

theorem walk_link {n : List Char} {target : Path} (hn : IsName n) (hf : fitsName n = true)
    (hd : t.node? (origin ++ [n]) = some (.link target)) :
    t.walk true (links + 1) origin (n :: ss) =
      t.walk true links (if target.isAbsolute then [] else origin) (steps target ++ ss) :=
  (Walks.through (IsName.looksUp hn hf) hd (fun _ => rfl) (walks t true links _ _)).walk_eq

theorem walk_link_zero {n : List Char} {target : Path} (hn : IsName n) (hf : fitsName n = true)
    (hd : t.node? (origin ++ [n]) = some (.link target)) :
    t.walk true 0 origin (n :: ss) = .error .tooManyLinks :=
  (Walks.exhausted (IsName.looksUp hn hf) hd fun _ => rfl).walk_eq

/-- Down to a grounded place the walk takes no links. -/
theorem walk_grounded {p : Place} (h : Grounded t p) :
    t.walk follow links [] (p ++ ss) = t.walk follow links p ss := by
  induction h generalizing ss with
  | root => rfl
  | @into p n _ hn hf hd ih =>
    rw [List.append_assoc, ih]
    exact walk_into hn hf hd

/-- The path of a place that holds a file leads there, and nowhere beyond. -/
theorem walk_of_holds_file {place : Place} {b : Bytes} {x : Bool} (h : Holds t place (.file b x)) :
    t.walk follow links [] (place ++ ss) =
      if ss = [] then .ok (.present place (.file b x)) else .error .notDirectory := by
  cases h with
  | entry hg hn hf hd _ =>
    rw [List.append_assoc, walk_grounded hg]
    exact walk_file hn hf hd

/-- Having arrived at a directory, the walk goes on from there. -/
theorem walk_append {place : Place}
    (h : t.walk true links origin ss = .ok (.present place .directory)) :
    ∃ left ≤ links, ∀ rest,
      t.walk true links origin (ss ++ rest) = t.walk true left place rest := by
  have hw := walks_iff.mpr h
  clear h
  generalize hr : Except.ok (Spot.present place .directory) = r at hw
  induction hw with
  | @arrived links _ =>
    cases hr
    exact ⟨links, Nat.le_refl _, fun _ => rfl⟩
  | here _ ih =>
    obtain ⟨left, hl, hon⟩ := ih hr
    exact ⟨left, hl, fun rest => (Walks.here (walks_iff.mpr (hon rest))).walk_eq⟩
  | up _ ih =>
    obtain ⟨left, hl, hon⟩ := ih hr
    exact ⟨left, hl, fun rest => (Walks.up (walks_iff.mpr (hon rest))).walk_eq⟩
  | into hs hn _ ih =>
    obtain ⟨left, hl, hon⟩ := ih hr
    exact ⟨left, hl, fun rest => (Walks.into hs hn (walks_iff.mpr (hon rest))).walk_eq⟩
  | through hs hn _ _ ih =>
    obtain ⟨left, hl, hon⟩ := ih hr
    refine ⟨left, Nat.le_succ_of_le hl, fun rest => ?_⟩
    refine (Walks.through hs hn (fun _ => rfl) (walks_iff.mpr ?_)).walk_eq
    exact (congrArg (t.walk true _ _) (List.append_assoc _ _ rest).symm).trans (hon rest)
  | link _ _ ho => cases ho
  | file => cases hr
  | tooLong => cases hr
  | free => cases hr
  | missing => cases hr
  | beyond => cases hr
  | exhausted => cases hr

/-- More links change nothing for a walk that did not run out of them. -/
theorem Walks.add_links {r : Except Fault Spot} (h : Walks t follow links origin ss r)
    (hr : r ≠ .error .tooManyLinks) (more : Nat) : Walks t follow (links + more) origin ss r := by
  induction h with
  | arrived => exact .arrived
  | here _ ih => exact .here (ih hr)
  | up _ ih => exact .up (ih hr)
  | tooLong hd hu hf => exact .tooLong hd hu hf
  | free hs hn => exact .free hs hn
  | missing hs hn he => exact .missing hs hn he
  | into hs hn _ ih => exact .into hs hn (ih hr)
  | file hs hn => exact .file hs hn
  | beyond hs hn he => exact .beyond hs hn he
  | link hs hn ho => exact .link hs hn ho
  | exhausted => exact absurd rfl hr
  | @through links _ _ _ _ _ hs hn ho _ ih =>
    rw [Nat.add_right_comm]
    exact .through hs hn ho (ih hr)

theorem walk_add_links (more : Nat) (h : t.walk follow links origin ss ≠ .error .tooManyLinks) :
    t.walk follow (links + more) origin ss = t.walk follow links origin ss :=
  ((walks t follow links origin ss).add_links h more).walk_eq

theorem walk_mono {more : Nat} (hm : links ≤ more)
    (h : t.walk follow links origin ss ≠ .error .tooManyLinks) :
    t.walk follow more origin ss = t.walk follow links origin ss := by
  obtain ⟨k, rfl⟩ := Nat.exists_eq_add_of_le hm
  exact walk_add_links k h

/-- A walk that goes on from a directory with the links that are left ends as one with all links
to spare, or runs out of them. -/
theorem walk_resumed {place : Place} {rest : List (List Char)} {s : Spot}
    (h : t.walk true links origin ss = .ok (.present place .directory))
    (hs : t.walk true links place rest = .ok s) :
    t.walk true links origin (ss ++ rest) = .error .tooManyLinks ∨
      t.walk true links origin (ss ++ rest) = .ok s := by
  obtain ⟨left, hl, hon⟩ := walk_append h
  rw [hon]
  by_cases hmany : t.walk true left place rest = .error .tooManyLinks
  · exact Or.inl hmany
  · exact Or.inr (by rw [← walk_mono hl hmany, hs])

end OfflineCache.FileTree
