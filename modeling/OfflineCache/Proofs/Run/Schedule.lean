import OfflineCache.Run.Basic

/-! Schedules. A run taken move by move can be cut anywhere, and the run that lets the workers finish
one after the other is a run by a schedule too, so what holds of every schedule holds of it. -/

namespace OfflineCache.Run

variable (p : Workplace)

theorem follow_append (r : Run) (a b : List Move) :
    r.follow p (a ++ b) = (r.follow p a).follow p b := by
  simp only [follow, List.foldl_append]

theorem follow_cons (r : Run) (m : Move) (ms : List Move) :
    r.follow p (m :: ms) = (r.move p m).follow p ms := rfl

/-- Moves of workers alone, and none meets a mishap. -/
def Smooth (schedule : List Move) : Prop := ∀ m ∈ schedule, ∃ i, m = .work i none

theorem Smooth.append {a b : List Move} (ha : Smooth a) (hb : Smooth b) : Smooth (a ++ b) := by
  intro m hm
  rcases List.mem_append.mp hm with hm | hm
  · exact ha m hm
  · exact hb m hm

theorem Smooth.cons (i : Nat) {ms : List Move} (h : Smooth ms) : Smooth (.work i none :: ms) := by
  intro m hm
  rcases List.mem_cons.mp hm with rfl | hm
  · exact ⟨i, rfl⟩
  · exact h m hm

/-- The slots around the one that moves stay as they are. -/
theorem move_work {before after : List Slot} {w : World} {e : PlannedEntry} {l : Locator}
    {k : Worker} (m : Option Mishap) :
    Run.move p ⟨w, before ++ ⟨e, some (l, k)⟩ :: after⟩ (.work before.length m) =
      ⟨(k.step p l m w).1, before ++ ⟨e, some (l, (k.step p l m w).2)⟩ :: after⟩ := by
  simp [move]

/-- The steps of one worker are moves of its slot. -/
theorem follow_steps (before after : List Slot) (e : PlannedEntry) (l : Locator) (n : Nat)
    (w : World) (k : Worker) :
    ∃ schedule, Smooth schedule ∧ follow p ⟨w, before ++ ⟨e, some (l, k)⟩ :: after⟩ schedule =
      ⟨(k.steps p l n w).1, before ++ ⟨e, some (l, (k.steps p l n w).2)⟩ :: after⟩ := by
  induction n generalizing w k with
  | zero => exact ⟨[], nofun, rfl⟩
  | succ n ih =>
    by_cases hk : ∃ o, k = .finished o
    · obtain ⟨o, rfl⟩ := hk
      exact ⟨[], nofun, rfl⟩
    · have hsteps : k.steps p l (n + 1) w =
          (k.step p l none w).2.steps p l n (k.step p l none w).1 := by
        cases k with
        | finished o => exact absurd ⟨o, rfl⟩ hk
        | _ => rfl
      obtain ⟨schedule, hsmooth, hs⟩ := ih (k.step p l none w).1 (k.step p l none w).2
      refine ⟨.work before.length none :: schedule, hsmooth.cons _, ?_⟩
      rw [follow_cons, move_work, hs, hsteps]

theorem follow_finishAll (before slots : List Slot) (w : World) :
    ∃ schedule, Smooth schedule ∧ follow p ⟨w, before ++ slots⟩ schedule =
      ⟨(finishAll p w slots).1, before ++ (finishAll p w slots).2⟩ := by
  induction slots generalizing before w with
  | nil => exact ⟨[], nofun, rfl⟩
  | cons s rest ih =>
    obtain ⟨e, task⟩ := s
    cases task with
    | none =>
      obtain ⟨schedule, hsmooth, hs⟩ := ih (before ++ [⟨e, none⟩]) w
      refine ⟨schedule, hsmooth, ?_⟩
      simpa [finishAll] using hs
    | some lk =>
      obtain ⟨l, k⟩ := lk
      obtain ⟨own, hown, ho⟩ := follow_steps p before rest e l (Worker.maxSteps p) w k
      obtain ⟨others, hothers, hs⟩ := ih
        (before ++ [⟨e, some (l, (k.steps p l (Worker.maxSteps p) w).2)⟩])
        (k.steps p l (Worker.maxSteps p) w).1
      refine ⟨own ++ others, hown.append hothers, ?_⟩
      rw [follow_append, ho]
      simpa [finishAll] using hs

/-- **One after the other.**  Letting every worker finish in turn is a schedule. -/
theorem finishAll_eq_follow (w : World) (slots : List Slot) :
    ∃ schedule, Smooth schedule ∧ follow p ⟨w, slots⟩ schedule =
      ⟨(finishAll p w slots).1, (finishAll p w slots).2⟩ :=
  follow_finishAll p [] slots w

end OfflineCache.Run

namespace OfflineCache

theorem prefetch_eq_error {p : Policy} {o : Options} {t : Transport} {f : Lockfile} {w : World}
    {e : Plan.Error} (h : Plan.make w.files p f o.dialect = .error e) :
    prefetch p o t f w = (w.tellAll (Plan.events w.files p f o.dialect), .error e) := by
  have hfiles : (w.tellAll (Plan.events w.files p f o.dialect)).files = w.files := rfl
  simp only [prefetch, hfiles, h]

end OfflineCache
