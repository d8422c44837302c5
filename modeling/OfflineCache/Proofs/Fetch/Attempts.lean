import Mathlib.Data.Nat.Find
import OfflineCache.Proofs.Fetch.Requests

/-! A series of attempts, from its first look at the stop signal to its end. While attempts fail for
the moment and are not the last one allowed, the series looks, calls and sleeps in turn; the first
look or attempt that is otherwise ends it. `Retry.series_bounded` says which calls and sleeps there
are, at which step each of them comes, and how the series ends, whatever the policy, the answers and
the moments at which the run is stopped. -/

namespace OfflineCache

/-! ## States -/

namespace RetryState

variable (p : RetryPolicy)

/-- No attempt is numbered beyond the limit. -/
def Within : RetryState → Prop
  | .attempting n => n ≤ p.limit
  | _ => True

theorem within_start : start.Within p := Nat.le_max_right _ _

theorem within_advance {s : RetryState} (h : s.Within p) (r : AttemptResult) :
    (s.advance p r).Within p := by
  cases s with
  | attempting n =>
    cases r with
    | transient =>
      simp only [advance]
      split
      · trivial
      · rename_i hn
        exact Nat.lt_of_not_le hn
    | _ => trivial
  | _ => cases r <;> trivial

theorem within_foldl (rs : List AttemptResult) {s : RetryState} (h : s.Within p) :
    (rs.foldl (advance p) s).Within p := by
  induction rs generalizing s with
  | nil => exact h
  | cons r rs ih => exact ih (within_advance p h r)

theorem limit_lt : p.limit < UInt32.size := by
  have hmax := p.maxAttempts.toNat_lt_size
  exact Nat.max_lt.mpr ⟨hmax, by decide⟩

/-- From a state that can be reached, the number of the next attempt is within 32 bits. -/
theorem lt_size_of_advance {rs : List AttemptResult} {n n' : Nat}
    (hn : rs.foldl (advance p) start = .attempting n)
    (hn' : (attempting n).advance p .transient = .attempting n') :
    n' = n + 1 ∧ n + 1 < UInt32.size := by
  have hwithin := within_foldl p rs (within_start p)
  rw [hn] at hwithin
  have hnext : n' ≤ p.limit := by
    have := within_advance p hwithin .transient
    rwa [hn'] at this
  have heq : n' = n + 1 := by
    simp only [advance] at hn'
    split at hn'
    · cases hn'
    · exact (attempting.inj hn').symm
  have hlimit := limit_lt p
  exact ⟨heq, by omega⟩

/-- The states of attempts that fail for the moment, below the limit. -/
theorem trace_transient (results : Nat → AttemptResult) (i k : Nat)
    (h : ∀ j, i ≤ j → j < i + k → results j = .transient ∧ j + 1 < p.limit)
    (rest : List AttemptResult) :
    trace p (.attempting (i + 1)) ((List.range' i k).map results ++ rest) =
      (List.range' (i + 1) k).map .attempting ++ trace p (.attempting (i + k + 1)) rest := by
  induction k generalizing i with
  | zero => rfl
  | succ k ih =>
    obtain ⟨hr, hi⟩ := h i (Nat.le_refl i) (by omega)
    have hadvance : (attempting (i + 1)).advance p (results i) = .attempting (i + 1 + 1) := by
      rw [hr, advance, if_neg (Nat.not_le.mpr hi)]
    have hnext := ih (i + 1) fun j hj hk => h j (by omega) (by omega)
    simp only [List.range'_succ, List.map_cons, List.cons_append, trace, hadvance, hnext]
    rw [show i + 1 + k + 1 = i + (k + 1) + 1 by omega]

end RetryState

namespace Retry

/-! ## One attempt -/

section Judging

variable (p : RetryPolicy) (target : String) {n : Nat} {e : Fetch.Error}

theorem judge_again (he : e.isTransient = true) (hn : n < p.limit) :
    judge p target n (.error e) = .checking (n + 1) := by
  simp [judge, Fetch.attemptResult, he, RetryState.advance, Nat.not_le.mpr hn]

theorem judge_last (he : e.isTransient = true) (hn : p.limit ≤ n) :
    judge p target n (.error e) = .done (.error (.exhausted target n e)) := by
  simp [judge, Fetch.attemptResult, he, RetryState.advance, hn]

theorem judge_fatal (he : e.isTransient = false) :
    judge p target n (.error e) = .done (.error e) := by
  simp [judge, Fetch.attemptResult, he, RetryState.advance]

theorem pause_again (he : e.isTransient = true) (hn : n < p.limit) (w : World) :
    (pause p target n (.error e) w).sleeps = w.sleeps ++ [p.delayAfter n] := by
  simp only [pause, judge_again p target he hn]
  rfl

theorem pause_of_done {r : Except Fetch.Error Bytes} {x : Except Fetch.Error (Bytes × Nat)}
    (h : judge p target n r = .done x) (w : World) : pause p target n r w = w := by
  unfold pause
  split
  · rename_i hc
    rw [h] at hc
    cases hc
  · rfl

theorem pause_cancelled (n : Nat) (r : Except Fetch.Error Bytes) (w : World) :
    (pause p target n r w).cancelled = w.cancelled := by
  unfold pause
  split <;> rfl

end Judging

/-! ## A series and what ends it -/

/-- A series of attempts. An answer of the transport may stop the run; besides, the run is stopped
from elsewhere whenever the series stands at a stage of `stops`. -/
structure Series where
  policy : RetryPolicy
  transport : Transport
  target : String
  request : Request
  world : World
  stops : Retry → Bool

namespace Series

variable (s : Series)

/-- One step, before which the run may have been stopped from elsewhere. -/
def turn (x : World × Retry) : World × Retry :=
  x.2.step s.policy s.transport s.target s.request
    { x.1 with cancelled := x.1.cancelled || s.stops x.2 }

/-- Where the series stands after so many steps. -/
def after : Nat → World × Retry
  | 0 => (s.world, .start)
  | n + 1 => s.turn (after n)

/-- The answer to the attempt that `k` others went before. -/
def answer (k : Nat) : Answer :=
  s.transport (s.world.calls ++ List.replicate k s.request) s.request

/-- Whether the signal is there at the look that `k` attempts went before. -/
def signal : Nat → Bool
  | 0 => s.world.cancelled || s.stops (.checking 1)
  | k + 1 => signal k || s.stops (.calling (k + 1)) || (s.answer k).cancels ||
      s.stops (.checking (k + 2))

/-- The attempt that `k` others went before is made, fails for the moment and is not the last one
allowed. -/
structure GoesOn (k : Nat) : Prop where
  unsignalled : s.signal k = false
  transient : ∃ e, (s.answer k).result = .error e ∧ e.isTransient = true
  below : k + 1 < s.policy.limit

/-- How a series ends that `k` attempts have brought no further: the attempts made in all, the state
of the attempts, and the result. -/
inductive Ends (k : Nat) : Nat → RetryState → Except Fetch.Error (Bytes × Nat) → Prop
  | stopped : s.signal k = true → Ends k k (.attempting (k + 1)) (.error .cancelled)
  | succeeded {b : Bytes} : s.signal k = false → (s.answer k).result = .ok b →
      Ends k (k + 1) (.succeeded (k + 1)) (.ok (b, k + 1))
  | aborted {e : Fetch.Error} : s.signal k = false → (s.answer k).result = .error e →
      e.isTransient = false → Ends k (k + 1) (.aborted (k + 1)) (.error e)
  | exhausted {e : Fetch.Error} : s.signal k = false → (s.answer k).result = .error e →
      e.isTransient = true → k + 1 = s.policy.limit →
      Ends k (k + 1) (.exhausted s.policy.limit) (.error (.exhausted s.target s.policy.limit e))

/-- What the series has done to the world: so many calls, and the sleeps after so many attempts. -/
structure Made (calls sleeps : Nat) (w : World) : Prop where
  calls_eq : w.calls = s.world.calls ++ List.replicate calls s.request
  sleeps_eq : w.sleeps = s.world.sleeps ++ (List.range' 1 sleeps).map s.policy.delayAfter

variable {s} {k m : Nat} {w : World} {state : RetryState} {r : Except Fetch.Error (Bytes × Nat)}

/-! ## Steps -/

theorem after_succ {n : Nat} {x y : World × Retry} (h : s.after n = x) (hx : s.turn x = y) :
    s.after (n + 1) = y := by
  rw [after, h, hx]

theorem Made.of_eq {w' : World} (h : s.Made k m w) (hc : w'.calls = w.calls)
    (hs : w'.sleeps = w.sleeps) : s.Made k m w' :=
  ⟨hc.trans h.calls_eq, hs.trans h.sleeps_eq⟩

/-- The world behind the call that `k` others went before. -/
theorem Made.call (h : s.Made k k w) (cancelled : Bool) :
    ({ w with cancelled } : World).call s.transport s.request =
      ({ w with
          calls := s.world.calls ++ List.replicate (k + 1) s.request
          cancelled := cancelled || (s.answer k).cancels }, (s.answer k).result) := by
  simp only [World.call, answer, h.calls_eq, List.append_assoc, ← List.replicate_succ']

theorem turn_looking {n : Nat} (hsignal : (w.cancelled || s.stops (.checking n)) = false) :
    s.turn (w, .checking n) = ({ w with cancelled := false }, .calling n) := by
  simp only [turn, step, hsignal, Bool.false_eq_true, if_false]

theorem turn_signalled {n : Nat} (hsignal : (w.cancelled || s.stops (.checking n)) = true) :
    s.turn (w, .checking n) = ({ w with cancelled := true }, .done (.error .cancelled)) := by
  simp only [turn, step, hsignal, if_true]

/-- The call leads to what is judged of its answer. -/
theorem turn_calling (h : s.Made k k w) (hw : w.cancelled = false) :
    ∃ w', w'.sleeps = w.sleeps ∧
      w'.calls = s.world.calls ++ List.replicate (k + 1) s.request ∧
      w'.cancelled = (s.stops (.calling (k + 1)) || (s.answer k).cancels) ∧
      s.turn (w, .calling (k + 1)) =
        (pause s.policy s.target (k + 1) (s.answer k).result w',
          judge s.policy s.target (k + 1) (s.answer k).result) := by
  have hcall := h.call (s.stops (.calling (k + 1)))
  refine ⟨(World.call { w with cancelled := s.stops (.calling (k + 1)) } s.transport s.request).1,
    rfl, ?_, ?_, ?_⟩
  · rw [hcall]
  · rw [hcall]
  · simp only [turn, step, hw, Bool.false_or, hcall]

/-- **As long as a series goes on,** every other step is a look at the signal, and each attempt that
has failed has had its sleep. -/
theorem after_looking (h : ∀ j < k, s.GoesOn j) : ∃ w, s.after (2 * k) = (w, .checking (k + 1)) ∧
    s.Made k k w ∧ (w.cancelled || s.stops (.checking (k + 1))) = s.signal k := by
  induction k with
  | zero => exact ⟨s.world, rfl, ⟨by simp, by simp⟩, rfl⟩
  | succ k ih =>
    obtain ⟨w, hw, hmade, hsignal⟩ := ih fun j hj => h j (by omega)
    obtain ⟨hfree, ⟨e, he, ht⟩, hlimit⟩ := h k (Nat.lt_succ_self k)
    have hlook := after_succ hw (turn_looking (hsignal.trans hfree))
    have hmade' : s.Made k k { w with cancelled := false } := hmade.of_eq rfl rfl
    obtain ⟨w', hsleeps, hcalls, hcancelled, hturn⟩ := turn_calling hmade' rfl
    have hcall := after_succ hlook hturn
    rw [he, judge_again s.policy s.target ht hlimit] at hcall
    refine ⟨_, hcall, ⟨?_, ?_⟩, ?_⟩
    · rw [pause_calls, hcalls]
    · rw [pause_again s.policy s.target ht hlimit, hsleeps, hmade'.sleeps_eq, List.append_assoc,
        List.range'_concat, List.map_append, Nat.one_mul, Nat.add_comm 1 k]
      rfl
    · rw [pause_cancelled, hcancelled, signal, hfree, Bool.false_or]

/-- The attempt follows a look that finds no signal. -/
theorem after_calling (h : ∀ j < k, s.GoesOn j) (hfree : s.signal k = false) :
    ∃ w, s.after (2 * k + 1) = (w, .calling (k + 1)) ∧ s.Made k k w ∧ w.cancelled = false := by
  obtain ⟨w, hw, hmade, hsignal⟩ := after_looking h
  exact ⟨_, after_succ hw (turn_looking (hsignal.trans hfree)), hmade.of_eq rfl rfl, rfl⟩

theorem after_judged (h : ∀ j < k, s.GoesOn j) (hfree : s.signal k = false)
    (hj : judge s.policy s.target (k + 1) (s.answer k).result = .done r) :
    ∃ w, s.after (2 * k + 2) = (w, .done r) ∧ s.Made (k + 1) k w := by
  obtain ⟨w, hw, hmade, hcancelled⟩ := after_calling h hfree
  obtain ⟨w', hsleeps, hcalls, -, hturn⟩ := turn_calling hmade hcancelled
  rw [hj, pause_of_done s.policy s.target hj] at hturn
  exact ⟨w', after_succ hw hturn, hcalls, hsleeps.trans hmade.sleeps_eq⟩

theorem after_done {n : Nat} (hn : ∃ w, s.after n = (w, .done r) ∧ s.Made k m w) (i : Nat) :
    ∃ w, s.after (n + i) = (w, .done r) ∧ s.Made k m w := by
  induction i with
  | zero => exact hn
  | succ i ih =>
    obtain ⟨w, hw, hmade⟩ := ih
    exact ⟨_, after_succ hw rfl, hmade.of_eq rfl rfl⟩

/-! ## The end -/

theorem exists_not_goesOn (s : Series) : ∃ k, ¬ s.GoesOn k :=
  ⟨s.policy.limit, fun h => absurd h.below (by omega)⟩

/-- The attempts that are made are within the limit. -/
theorem lt_limit (h : ∀ j < k, s.GoesOn j) : k < s.policy.limit := by
  cases k with
  | zero => exact Nat.lt_of_lt_of_le Nat.one_pos (Nat.le_max_right _ _)
  | succ k => exact (h k (Nat.lt_succ_self k)).below

theorem exists_ends (h : ∀ j < k, s.GoesOn j) (hk : ¬ s.GoesOn k) :
    ∃ m state r, s.Ends k m state r := by
  cases hs : s.signal k with
  | true => exact ⟨_, _, _, .stopped hs⟩
  | false =>
    cases hr : (s.answer k).result with
    | ok b => exact ⟨_, _, _, .succeeded hs hr⟩
    | error e =>
      cases ht : e.isTransient with
      | false => exact ⟨_, _, _, .aborted hs hr ht⟩
      | true =>
        have hbelow : ¬ k + 1 < s.policy.limit := fun hlt => hk ⟨hs, ⟨e, hr, ht⟩, hlt⟩
        have := lt_limit h
        exact ⟨_, _, _, .exhausted hs hr ht (by omega)⟩

/-- Each attempt that is made is one call, and so the end comes at a step of its own. -/
theorem after_ends (h : ∀ j < k, s.GoesOn j) (he : s.Ends k m state r) :
    ∃ w, s.after (k + m + 1) = (w, .done r) ∧ s.Made m k w := by
  cases he with
  | stopped hs =>
    obtain ⟨w, hw, hmade, hsignal⟩ := after_looking h
    rw [← Nat.two_mul]
    exact ⟨_, after_succ hw (turn_signalled (hsignal.trans hs)), hmade.of_eq rfl rfl⟩
  | succeeded hs hr =>
    rw [show k + (k + 1) + 1 = 2 * k + 2 by omega]
    exact after_judged h hs (by rw [hr]; rfl)
  | aborted hs hr ht =>
    rw [show k + (k + 1) + 1 = 2 * k + 2 by omega]
    exact after_judged h hs (by rw [hr, judge_fatal _ _ ht])
  | exhausted hs hr ht hlimit =>
    rw [show k + (k + 1) + 1 = 2 * k + 2 by omega]
    exact after_judged h hs (by rw [hr, judge_last _ _ ht (Nat.le_of_eq hlimit.symm), hlimit])

theorem Ends.le_limit (h : ∀ j < k, s.GoesOn j) (he : s.Ends k m state r) : m ≤ s.policy.limit := by
  have := lt_limit h
  cases he <;> omega

theorem Ends.unsignalled (he : s.Ends k m state r) (hk : k < m) : s.signal k = false := by
  cases he with
  | stopped => exact absurd hk (Nat.lt_irrefl k)
  | succeeded hs _ => exact hs
  | aborted hs _ _ => exact hs
  | exhausted hs _ _ _ => exact hs

theorem Ends.called (h : ∀ j < k, s.GoesOn j) (he : s.Ends k m state r) {j : Nat} (hj : j < m) :
    ∃ w, s.after (2 * j + 1) = (w, .calling (j + 1)) ∧ s.Made j j w := by
  have hjk : j ≤ k := by cases he <;> omega
  have hfree : s.signal j = false := by
    rcases Nat.lt_or_eq_of_le hjk with hlt | rfl
    · exact (h j hlt).unsignalled
    · exact he.unsignalled hj
  obtain ⟨w, hw, hmade, -⟩ := after_calling (fun i hi => h i (by omega)) hfree
  exact ⟨w, hw, hmade⟩

/-! ## States and the whole series -/

/-- What the attempts came to, in their order. -/
def results (s : Series) (m : Nat) : List AttemptResult :=
  (List.range m).map fun j => Fetch.attemptResult (s.answer j).result

theorem GoesOn.attemptResult (h : s.GoesOn k) :
    Fetch.attemptResult (s.answer k).result = .transient := by
  obtain ⟨e, he, ht⟩ := h.transient
  rw [he, Fetch.attemptResult, if_pos ht]

theorem trace_goesOn (h : ∀ j < k, s.GoesOn j) (rest : List AttemptResult) :
    RetryState.trace s.policy .start (s.results k ++ rest) =
      (List.range' 1 k).map .attempting ++
        RetryState.trace s.policy (.attempting (k + 1)) rest := by
  have htrace := RetryState.trace_transient s.policy
    (fun j => Fetch.attemptResult (s.answer j).result) 0 k
    (fun j _ hj => ⟨(h j (by omega)).attemptResult, (h j (by omega)).below⟩) rest
  rwa [← List.range_eq_range', Nat.zero_add, Nat.zero_add] at htrace

theorem Ends.trace_eq (h : ∀ j < k, s.GoesOn j) (he : s.Ends k m state r) :
    RetryState.trace s.policy .start (s.results m) =
      (List.range' 1 m).map .attempting ++ [state] := by
  have hlast : ∀ {x}, (RetryState.attempting (k + 1)).advance s.policy
      (Fetch.attemptResult (s.answer k).result) = x →
      RetryState.trace s.policy .start (s.results (k + 1)) =
        (List.range' 1 (k + 1)).map .attempting ++ [x] := by
    rintro x rfl
    have hsplit : s.results (k + 1) = s.results k ++ [Fetch.attemptResult (s.answer k).result] := by
      rw [results, List.range_succ, List.map_append]
      rfl
    rw [hsplit, trace_goesOn h, List.range'_concat, List.map_append, List.append_assoc, Nat.one_mul,
      Nat.add_comm 1 k]
    rfl
  cases he with
  | stopped hs => simpa [RetryState.trace] using trace_goesOn h []
  | succeeded hs hr => exact hlast (by rw [hr]; rfl)
  | aborted hs hr ht => exact hlast (by rw [hr, Fetch.attemptResult, ht]; rfl)
  | exhausted hs hr ht hlimit =>
    exact hlast (by rw [hr, Fetch.attemptResult, if_pos ht, RetryState.advance,
      if_pos (Nat.le_of_eq hlimit.symm), hlimit])

theorem steps_done (p : RetryPolicy) (t : Transport) (target : String) (q : Request) (n : Nat)
    (w : World) (r : Except Fetch.Error (Bytes × Nat)) :
    steps p t target q n w (.done r) = (w, .done r) := by
  cases n <;> rfl

/-- What nobody stops from elsewhere goes as the series alone. -/
theorem steps_after (hfree : ∀ x, s.stops x = false) (n i : Nat) :
    steps s.policy s.transport s.target s.request n (s.after i).1 (s.after i).2 =
      s.after (i + n) := by
  have hturn : ∀ x, s.turn x = x.2.step s.policy s.transport s.target s.request x.1 := by
    intro x
    simp only [turn, hfree, Bool.or_false]
  induction n generalizing i with
  | zero => rfl
  | succ n ih =>
    have hrest := ih (i + 1)
    rw [after, hturn] at hrest
    rw [show i + (n + 1) = i + 1 + n by omega, ← hrest]
    cases (s.after i).2 with
    | done r => exact (steps_done _ _ _ _ _ _ _).symm
    | _ => rfl

/-- How the attempts of a series go. `k` of them fail for the moment, and `m` are made in all. -/
structure Course (s : Series) (k m : Nat) (state : RetryState)
    (r : Except Fetch.Error (Bytes × Nat)) : Prop where
  goesOn : ∀ j < k, s.GoesOn j
  ends : s.Ends k m state r
  within : m ≤ s.policy.limit
  looks : ∀ j ≤ k, ∃ w, s.after (2 * j) = (w, .checking (j + 1)) ∧ s.Made j j w
  calls : ∀ j < m, ∃ w, s.after (2 * j + 1) = (w, .calling (j + 1)) ∧ s.Made j j w
  done : ∀ n, k + m < n → ∃ w, s.after n = (w, .done r) ∧ s.Made m k w
  states : RetryState.trace s.policy .start (s.results m) =
    (List.range' 1 m).map .attempting ++ [state]

theorem exists_course (s : Series) : ∃ k m state r, s.Course k m state r := by
  obtain ⟨k, hk, h⟩ : ∃ k, ¬ s.GoesOn k ∧ ∀ j < k, s.GoesOn j := by
    classical
    exact ⟨Nat.find s.exists_not_goesOn, Nat.find_spec s.exists_not_goesOn,
      fun j hj => not_not.mp (Nat.find_min s.exists_not_goesOn hj)⟩
  obtain ⟨m, state, r, hends⟩ := exists_ends h hk
  refine ⟨k, m, state, r, h, hends, hends.le_limit h, ?_, fun j hj => hends.called h hj, ?_,
    hends.trace_eq h⟩
  · intro j hj
    obtain ⟨w, hw, hmade, -⟩ := after_looking fun i (hi : i < j) => h i (by omega)
    exact ⟨w, hw, hmade⟩
  · intro n hn
    rw [show n = k + m + 1 + (n - (k + m + 1)) by omega]
    exact after_done (after_ends h hends) _

/-- The steps of a run are enough to come to the end. -/
theorem Course.run_eq (h : s.Course k m state r) (hfree : ∀ x, s.stops x = false) :
    ∃ w, run s.policy s.transport s.target s.request s.world = (w, r) ∧ s.Made m k w := by
  have hk := lt_limit h.goesOn
  have hm := h.within
  have henough : k + m < start.stepsLeft s.policy := by
    simp only [start, stepsLeft]
    omega
  obtain ⟨w, hw, hmade⟩ := h.done _ henough
  have hsteps := steps_after hfree (start.stepsLeft s.policy) 0
  rw [Nat.zero_add, hw] at hsteps
  refine ⟨w, ?_, hmade⟩
  rw [run, show steps s.policy s.transport s.target s.request _ s.world start = _ from hsteps]

end Series

/-- **Retrying is bounded.** Attempts count from one, and `m` of them are made, at most the limit.
The first `k` fail for the moment with another one left; each of these is followed by its sleep, and
there are no other sleeps. From step `k + m + 1` on the series stands at its end, and where nothing
but the transport's answers stops it, running it through comes to the same end. An attempt that can
be reached leaves room in 32 bits for the number of the next one. -/
theorem series_bounded (s : Series) :
    (∃ k m state r, s.Course k m state r ∧
      ((∀ x, s.stops x = false) → ∃ w,
        run s.policy s.transport s.target s.request s.world = (w, r) ∧ s.Made m k w)) ∧
    ∀ (results : List AttemptResult) (n n' : Nat),
      results.foldl (RetryState.advance s.policy) .start = .attempting n →
      (RetryState.attempting n).advance s.policy .transient = .attempting n' →
      n' = n + 1 ∧ n + 1 < UInt32.size := by
  obtain ⟨k, m, state, r, hcourse⟩ := s.exists_course
  exact ⟨⟨k, m, state, r, hcourse, hcourse.run_eq⟩,
    fun results n n' => RetryState.lt_size_of_advance s.policy⟩

/-- Unavailable at first, then there. -/
def belated : Series where
  policy := ⟨2, .ofMillis 500, .ofSeconds 8⟩
  transport calls _ := if calls = [] then ⟨.error (.status "u" 503), false⟩ else ⟨.ok [7], false⟩
  target := "u"
  request := .get "u"
  world := .ofFiles ⟨[], []⟩
  stops _ := false

/-- One attempt that fails for the moment, its sleep, and one that succeeds. -/
theorem series_bounded_belated :
    (∃ w, run belated.policy belated.transport belated.target belated.request belated.world =
      (w, .ok ([7], 2)) ∧ belated.Made 2 1 w) ∧
      (RetryState.attempting 1).advance belated.policy .transient = .attempting 2 ∧
      1 + 1 < UInt32.size := by
  obtain ⟨⟨k, m, state, r, course, hrun⟩, hroom⟩ := series_bounded belated
  obtain ⟨w, hw, hmade⟩ := hrun fun _ => rfl
  have hresult : (run belated.policy belated.transport belated.target belated.request
      belated.world).2 = .ok ([7], 2) := rfl
  have hr : r = .ok ([7], 2) := by rw [← hresult, hw]
  have hends := course.ends
  rw [hr] at hends
  cases hends with
  | succeeded _ _ => exact ⟨⟨w, hr ▸ hw, hmade⟩, rfl, (hroom [] 1 2 rfl rfl).2⟩

end Retry

end OfflineCache
