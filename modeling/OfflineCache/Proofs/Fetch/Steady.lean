import OfflineCache.Proofs.Fetch.FromFiles

/-! Fetching from a transport whose answers depend on the request alone. While the run is not stopped
the stages of a fetch do not depend on what else is going on, so a fetch that is taken step by step
among others ends as it ends alone. It does end: each step brings the end nearer. No step changes a
file. -/

namespace OfflineCache

/-- Answers depend on the request alone, and none stops the run. -/
structure Transport.Steady (t : Transport) : Prop where
  result : ∀ calls calls' q, (t calls q).result = (t calls' q).result
  cancels : ∀ calls q, (t calls q).cancels = false

/-! ## The end of a series of attempts -/

namespace Retry

variable (p : RetryPolicy) (t : Transport) (target : String) (q : Request) (w : World)

theorem stepsLeft_judge (n : Nat) (r : Except Fetch.Error Bytes) :
    (judge p target n r).stepsLeft p < (calling n).stepsLeft p := by
  cases r with
  | ok b => simp [judge, stepsLeft]
  | error e =>
    simp only [judge, Fetch.attemptResult]
    by_cases ht : e.isTransient = true
    · by_cases hl : p.limit ≤ n
      · simp [ht, RetryState.advance, hl, stepsLeft]
      · simp only [ht, if_true, RetryState.advance, hl, if_false, stepsLeft]
        omega
    · simp [ht, RetryState.advance, stepsLeft]

theorem stepsLeft_step {r : Retry} (h : ∀ x, r ≠ .done x) :
    (r.step p t target q w).2.stepsLeft p < r.stepsLeft p := by
  cases r with
  | checking n =>
    simp only [step]
    split <;> simp [stepsLeft]
  | calling n => exact stepsLeft_judge p target n _
  | done x => exact absurd rfl (h x)

variable {t w}

theorem step_congr (ht : t.Steady) {w' : World} (hw : w.cancelled = false)
    (hw' : w'.cancelled = false) (r : Retry) :
    (r.step p t target q w).2 = (r.step p t target q w').2 := by
  cases r with
  | checking n => simp [step, hw, hw']
  | calling n => simp only [step, World.call, ht.result w.calls w'.calls q]
  | done x => rfl

theorem cancelled_step (ht : t.Steady) (hw : w.cancelled = false) (r : Retry) :
    (r.step p t target q w).1.cancelled = false := by
  cases r with
  | checking n =>
    simp only [step]
    split <;> exact hw
  | calling n =>
    have hcall : (w.call t q).1.cancelled = false := by simp [World.call, hw, ht.cancels]
    simp only [step, pause]
    split <;> exact hcall
  | done x => exact hw

end Retry

/-! ## The end of a fetch -/

namespace Fetching

/-- Fetching changes no file, locks none, and uses no temporary name. -/
structure Frame (w w' : World) : Prop where
  files : w'.files = w.files
  locked : w'.locked = w.locked
  process : w'.process = w.process
  temporaries : w'.temporaries = w.temporaries

theorem Frame.refl (w : World) : Frame w w := ⟨rfl, rfl, rfl, rfl⟩

theorem frame_retry (p : RetryPolicy) (t : Transport) (target : String) (q : Request) (w : World)
    (r : Retry) : Frame w (r.step p t target q w).1 := by
  cases r with
  | checking n =>
    simp only [Retry.step]
    split <;> exact .refl w
  | calling n =>
    simp only [Retry.step, Retry.pause]
    split <;> exact ⟨rfl, rfl, rfl, rfl⟩
  | done r => exact .refl w

theorem frame_step (f : Fetcher) (t : Transport) (l : Locator) (w : World) (s : Fetching) :
    Frame w (s.step f t l w).1 := by
  cases s with
  | starting => exact .refl w
  | retrying target q r =>
    cases r with
    | done r =>
      cases r with
      | ok bn => exact .refl w
      | error e => exact .refl w
    | checking n => exact frame_retry f.retry t target q w (.checking n)
    | calling n => exact frame_retry f.retry t target q w (.calling n)
  | verifying b n =>
    simp only [step]
    split <;> exact ⟨rfl, rfl, rfl, rfl⟩
  | done r => exact .refl w

variable (f : Fetcher) (t : Transport) (l : Locator)

theorem stepsLeft_begin (files : FileTree) :
    (begin f l files).stepsLeft f < starting.stepsLeft f := by
  unfold begin
  split
  · simp [stepsLeft]
  · simp [stepsLeft]
  · split <;> simp [stepsLeft]

theorem stepsLeft_step (w : World) {s : Fetching} (h : ∀ r, s ≠ .done r) :
    (s.step f t l w).2.stepsLeft f < s.stepsLeft f := by
  cases s with
  | starting => exact stepsLeft_begin f l w.files
  | retrying target q r =>
    cases r with
    | done r => cases r <;> simp [step, stepsLeft, Retry.stepsLeft]
    | checking n =>
      have hr := Retry.stepsLeft_step f.retry t target q w (r := .checking n) (fun x hx => by cases hx)
      simpa [step, stepsLeft] using hr
    | calling n =>
      have hr := Retry.stepsLeft_step f.retry t target q w (r := .calling n) (fun x hx => by cases hx)
      simpa [step, stepsLeft] using hr
  | verifying b n =>
    simp only [step]
    split <;> simp [stepsLeft]
  | done r => exact absurd rfl (h r)

theorem steps_succ (n : Nat) (w : World) {s : Fetching} (h : ∀ r, s ≠ .done r) :
    steps f t l (n + 1) w s = steps f t l n (s.step f t l w).1 (s.step f t l w).2 := by
  cases s with
  | done r => exact absurd rfl (h r)
  | _ => rfl

/-- As many steps as are left bring a fetch to its end. -/
theorem done_of_steps (n : Nat) (w : World) (s : Fetching) (h : s.stepsLeft f ≤ n) :
    ∃ r, (steps f t l n w s).2 = .done r := by
  induction n generalizing w s with
  | zero =>
    cases s with
    | done r => exact ⟨r, rfl⟩
    | starting => simp [stepsLeft] at h
    | retrying target q r => simp [stepsLeft] at h
    | verifying b n => simp [stepsLeft] at h
  | succ n ih =>
    by_cases hd : ∃ r, s = .done r
    · obtain ⟨r, rfl⟩ := hd
      exact ⟨r, rfl⟩
    · have hs : ∀ r, s ≠ .done r := fun r he => hd ⟨r, he⟩
      rw [steps_succ f t l n w hs]
      have hless := stepsLeft_step f t l w hs
      exact ih _ _ (by omega)

theorem steps_run (w : World) :
    (steps f t l (starting.stepsLeft f) w .starting).2 = .done (run f t l w).2 := by
  obtain ⟨r, hr⟩ := done_of_steps f t l _ w .starting (Nat.le_refl _)
  unfold run
  generalize steps f t l (starting.stepsLeft f) w .starting = x at hr
  obtain ⟨w', s⟩ := x
  obtain rfl : s = .done r := hr
  rfl

/-- What every step keeps holds at the end. -/
theorem run_induction {P : World → Fetching → Prop}
    (hstep : ∀ w s, P w s → P (s.step f t l w).1 (s.step f t l w).2) {w : World}
    (h : P w .starting) : ∃ w', P w' (.done (run f t l w).2) := by
  have hsteps : ∀ (n : Nat) (w : World) (s : Fetching), P w s →
      P (steps f t l n w s).1 (steps f t l n w s).2 := by
    intro n
    induction n with
    | zero => exact fun _ _ hs => hs
    | succ n ih =>
      intro w s hs
      by_cases hd : ∃ r, s = .done r
      · obtain ⟨r, rfl⟩ := hd
        exact hs
      · rw [steps_succ f t l n w fun r he => hd ⟨r, he⟩]
        exact ih _ _ (hstep w s hs)
  have hend := hsteps (starting.stepsLeft f) w .starting h
  rw [steps_run] at hend
  exact ⟨_, hend⟩

variable {t}

theorem step_congr (ht : t.Steady) {w w' : World} (hw : w.cancelled = false)
    (hw' : w'.cancelled = false) (hb : begin f l w.files = begin f l w'.files) (s : Fetching) :
    (s.step f t l w).2 = (s.step f t l w').2 := by
  cases s with
  | starting => exact hb
  | retrying target q r =>
    cases r with
    | done r => cases r <;> rfl
    | checking n =>
      simp only [step, Retry.step_congr f.retry target q ht hw hw' (.checking n)]
    | calling n =>
      simp only [step, Retry.step_congr f.retry target q ht hw hw' (.calling n)]
  | verifying b n =>
    simp only [step]
    split <;> rfl
  | done r => rfl

theorem cancelled_step (ht : t.Steady) {w : World} (hw : w.cancelled = false) (s : Fetching) :
    (s.step f t l w).1.cancelled = false := by
  cases s with
  | starting => exact hw
  | retrying target q r =>
    cases r with
    | done r => cases r <;> exact hw
    | checking n => exact Retry.cancelled_step f.retry target q ht hw (.checking n)
    | calling n => exact Retry.cancelled_step f.retry target q ht hw (.calling n)
  | verifying b n =>
    simp only [step]
    split <;> exact hw
  | done r => exact hw

theorem steps_congr (ht : t.Steady) {w w' : World} (hw : w.cancelled = false)
    (hw' : w'.cancelled = false) (hb : begin f l w.files = begin f l w'.files) (n : Nat)
    (s : Fetching) : (steps f t l n w s).2 = (steps f t l n w' s).2 := by
  induction n generalizing w w' s with
  | zero => rfl
  | succ n ih =>
    by_cases hd : ∃ r, s = .done r
    · obtain ⟨r, rfl⟩ := hd
      rfl
    · have hs : ∀ r, s ≠ .done r := fun r he => hd ⟨r, he⟩
      rw [steps_succ f t l n w hs, steps_succ f t l n w' hs, step_congr f l ht hw hw' hb]
      refine ih (cancelled_step f l ht hw s) (cancelled_step f l ht hw' s) ?_ _
      rw [(frame_step f t l w s).files, (frame_step f t l w' s).files, hb]

variable (t)

/-- Left alone from this stage the fetch ends so. -/
def EndsWith (w : World) (s : Fetching) (r : Except Fetch.Error Artifact) : Prop :=
  ∃ n, (steps f t l n w s).2 = .done r

theorem endsWith_run (w : World) : EndsWith f t l w .starting (run f t l w).2 :=
  ⟨_, steps_run f t l w⟩

variable {f t l}

theorem EndsWith.eq {w : World} {r r' : Except Fetch.Error Artifact}
    (h : EndsWith f t l w (.done r) r') : r = r' := by
  obtain ⟨n, hn⟩ := h
  rw [steps_done] at hn
  exact Fetching.done.inj hn

/-- **One step among others** leads to the same end. -/
theorem EndsWith.step (ht : t.Steady) {w w' : World} (hw : w.cancelled = false)
    (hw' : w'.cancelled = false) (hb : begin f l w.files = begin f l w'.files) {s : Fetching}
    {r : Except Fetch.Error Artifact} (h : EndsWith f t l w s r) :
    EndsWith f t l w (s.step f t l w').2 r := by
  by_cases hd : ∃ r, s = .done r
  · obtain ⟨r', rfl⟩ := hd
    exact h
  · have hs : ∀ r, s ≠ .done r := fun r he => hd ⟨r, he⟩
    obtain ⟨n, hn⟩ := h
    cases n with
    | zero => exact absurd hn (hs r)
    | succ n =>
      rw [steps_succ f t l n w hs] at hn
      refine ⟨n, ?_⟩
      rw [← hn, step_congr f l ht hw' hw hb.symm]
      refine steps_congr f l ht hw (cancelled_step f l ht hw s) ?_ n _
      rw [(frame_step f t l w s).files]

end Fetching

end OfflineCache
