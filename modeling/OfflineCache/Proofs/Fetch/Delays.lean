import Mathlib.Tactic.Ring
import OfflineCache.Fetch.Retry

/-! How long a series of attempts waits. A length of time is multiplied in words, its seconds apart
from what is less than one (`Duration.nanos_scale`); a product beyond the longest length of time
counts as that, which no cap exceeds. So `RetryPolicy.delays_exact`: delays double from the first
one up to the cap, never get shorter, and nothing overflows on the way. The factor is at most the
largest number of 32 bits, and a cap beyond the product with it is where doubling ends early. -/

namespace OfflineCache

/-! ## Products in words -/

namespace Duration

/-- The nanoseconds beyond the whole seconds. -/
def belowSecond (d : Duration) : Nat := d.nanos % perSecond

def wholeSeconds (d : Duration) : Nat := d.nanos / perSecond

/-- The seconds that the nanoseconds below a second come to when they are multiplied. -/
def carry (d : Duration) (factor : Nat) : Nat := d.belowSecond * factor / perSecond

theorem ext {a b : Duration} (h : a.nanos = b.nanos) : a = b := by
  cases a
  cases b
  obtain rfl := h
  rfl

variable (d : Duration)

theorem belowSecond_mul_lt {factor : Nat} (h : factor < Nat.pow 2 32) :
    d.belowSecond * factor < Nat.pow 2 64 := by
  have hbelow : d.belowSecond < perSecond := Nat.mod_lt _ (by decide)
  calc d.belowSecond * factor ≤ perSecond * Nat.pow 2 32 := Nat.mul_le_mul hbelow.le h.le
    _ < Nat.pow 2 64 := by decide

theorem nanos_mul (factor : Nat) : d.nanos * factor =
    (d.wholeSeconds * factor + d.carry factor) * perSecond +
      d.belowSecond * factor % perSecond := by
  have hd : perSecond * d.wholeSeconds + d.belowSecond = d.nanos := Nat.div_add_mod ..
  have hbelow : perSecond * d.carry factor + d.belowSecond * factor % perSecond =
      d.belowSecond * factor := Nat.div_add_mod ..
  calc d.nanos * factor = perSecond * d.wholeSeconds * factor + d.belowSecond * factor := by
        rw [← Nat.add_mul, hd]
    _ = perSecond * d.wholeSeconds * factor +
        (perSecond * d.carry factor + d.belowSecond * factor % perSecond) := by rw [hbelow]
    _ = (d.wholeSeconds * factor + d.carry factor) * perSecond +
        d.belowSecond * factor % perSecond := by ring

theorem nanos_ofNanos (n : Nat) : (ofNanos n).nanos = min n longest.nanos := by
  unfold ofNanos
  split
  · rename_i h
    exact (Nat.min_eq_left (Nat.le_sub_one_of_lt h)).symm
  · rename_i h
    exact (Nat.min_eq_right ((Nat.sub_le ..).trans (Nat.not_lt.mp h))).symm

theorem nanos_le_longest : d.nanos ≤ longest.nanos := Nat.le_sub_one_of_lt d.nanos_lt

theorem nanos_min (a b : Duration) : (min a b).nanos = min a.nanos b.nanos := by
  show (if a.nanos ≤ b.nanos then a else b).nanos = _
  split
  · rename_i h
    exact (Nat.min_eq_left h).symm
  · rename_i h
    exact (Nat.min_eq_right (Nat.le_of_not_le h)).symm

/-- The product holds as long as its seconds are within 64 bits, and else is the longest length of
time. -/
theorem nanos_scale (factor : Nat) : (d.scale factor).nanos =
    if d.wholeSeconds * factor + d.carry factor < Nat.pow 2 64 then
      (d.wholeSeconds * factor + d.carry factor) * perSecond +
        d.belowSecond * factor % perSecond
    else longest.nanos := by
  have hrest : d.belowSecond * factor % perSecond < perSecond := Nat.mod_lt _ (by decide)
  have hlongest : longest.nanos + 1 = Nat.pow 2 64 * perSecond := by decide
  rw [scale, nanos_ofNanos, nanos_mul]
  split
  · rename_i h
    have := Nat.mul_le_mul_right perSecond (Nat.succ_le_of_lt h)
    rw [Nat.succ_mul] at this
    exact Nat.min_eq_left (by omega)
  · rename_i h
    have := Nat.mul_le_mul_right perSecond (Nat.not_lt.mp h)
    exact Nat.min_eq_right (by omega)

end Duration

namespace RetryPolicy

/-! ## Factors -/

theorem factor_of_le {n : Nat} (h : n ≤ 32) : factor n = 2 ^ (n - 1) :=
  if_pos (show n - 1 < 32 by omega)

theorem factor_of_lt {n : Nat} (h : 32 < n) : factor n = 2 ^ 32 - 1 :=
  if_neg (show ¬ n - 1 < 32 by omega)

theorem factor_lt (n : Nat) : factor n < Nat.pow 2 32 := by
  rcases Nat.lt_or_ge 32 n with h | h
  · rw [factor_of_lt h]
    decide
  · rw [factor_of_le h]
    exact Nat.pow_lt_pow_right (by decide) (by omega)

theorem factor_mono (n : Nat) : factor n ≤ factor (n + 1) := by
  rcases Nat.lt_or_ge n 32 with h | h
  · rw [factor_of_le h.le, factor_of_le h]
    exact Nat.pow_le_pow_right (by decide) (by omega)
  · rw [factor_of_lt (Nat.lt_succ_of_le h)]
    exact Nat.le_sub_one_of_lt (factor_lt n)

theorem factor_lt_pow {n : Nat} (h : 32 < n) : factor n < 2 ^ (n - 1) := by
  rw [factor_of_lt h]
  calc 2 ^ 32 - 1 < 2 ^ 32 := by decide
    _ ≤ 2 ^ (n - 1) := Nat.pow_le_pow_right (by decide) (by omega)

/-! ## Delays -/

variable (p : RetryPolicy)

/-- No cap is beyond the longest length of time, so the cap alone shows. -/
theorem nanos_delayAfter (n : Nat) :
    (p.delayAfter n).nanos = min (p.baseDelay.nanos * factor n) p.maxDelay.nanos := by
  rw [delayAfter, Duration.nanos_min, Duration.scale, Duration.nanos_ofNanos, Nat.min_assoc,
    Nat.min_eq_right p.maxDelay.nanos_le_longest]

/-- Behind the attempt with the largest power of two, doubling holds only where the cap hides the
factor. -/
theorem min_factor_eq_iff {base cap n : Nat} (h : 32 < n) :
    min (base * factor n) cap = min (base * 2 ^ (n - 1)) cap ↔
      cap ≤ base * (2 ^ 32 - 1) ∨ base = 0 := by
  have hle : base * factor n ≤ base * 2 ^ (n - 1) := Nat.mul_le_mul_left _ (factor_lt_pow h).le
  constructor
  · intro heq
    by_contra hnot
    obtain ⟨hcap, hbase⟩ := not_or.mp hnot
    rw [← factor_of_lt h, Nat.not_le] at hcap
    have hlt : base * factor n < base * 2 ^ (n - 1) :=
      Nat.mul_lt_mul_of_pos_left (factor_lt_pow h) (Nat.pos_of_ne_zero hbase)
    omega
  · rintro (hcap | rfl)
    · rw [← factor_of_lt h] at hcap
      omega
    · simp

/-- **Delays double up to the cap.** A delay is at most the cap, and the next one is not shorter. It
is the first delay, doubled once for each attempt before, or the cap if that is less, exactly if the
attempt is among the first 32, the cap is within the product with the largest factor, or there is no
first delay. The factor fits into 32 bits, the nanoseconds below a second stay within 64 bits when
they are multiplied, and where the seconds do not, the delay is the cap. -/
theorem delays_exact (n : Nat) :
    (p.delayAfter n).nanos ≤ p.maxDelay.nanos ∧
    (p.delayAfter n).nanos ≤ (p.delayAfter (n + 1)).nanos ∧
    ((p.delayAfter n).nanos = min (p.baseDelay.nanos * 2 ^ (n - 1)) p.maxDelay.nanos ↔
      n ≤ 32 ∨ p.maxDelay.nanos ≤ p.baseDelay.nanos * (2 ^ 32 - 1) ∨ p.baseDelay.nanos = 0) ∧
    factor n < Nat.pow 2 32 ∧
    p.baseDelay.belowSecond * factor n < Nat.pow 2 64 ∧
    (p.baseDelay.wholeSeconds * factor n + p.baseDelay.carry (factor n) < Nat.pow 2 64 ∨
      p.delayAfter n = p.maxDelay) := by
  have hdelay := p.nanos_delayAfter n
  refine ⟨?_, ?_, ?_, factor_lt n, p.baseDelay.belowSecond_mul_lt (factor_lt n), ?_⟩
  · rw [hdelay]
    exact Nat.min_le_right _ _
  · have hmono := Nat.mul_le_mul_left p.baseDelay.nanos (factor_mono n)
    rw [hdelay, p.nanos_delayAfter (n + 1)]
    omega
  · rw [hdelay]
    rcases Nat.lt_or_ge 32 n with h | h
    · rw [min_factor_eq_iff h]
      exact ⟨Or.inr, fun hle => hle.resolve_left (Nat.not_le.mpr h)⟩
    · rw [factor_of_le h]
      exact ⟨fun _ => Or.inl h, fun _ => rfl⟩
  · by_cases hseconds :
        p.baseDelay.wholeSeconds * factor n + p.baseDelay.carry (factor n) < Nat.pow 2 64
    · exact Or.inl hseconds
    · refine Or.inr (Duration.ext ?_)
      rw [delayAfter, Duration.nanos_min, Duration.nanos_scale, if_neg hseconds]
      exact Nat.min_eq_right p.maxDelay.nanos_le_longest

/-- Where no cap hides it, the factor after the 33rd attempt is one short of a power of two. -/
example : ((RetryPolicy.mk 40 (.ofNanos 1) .longest).delayAfter 33).nanos = 2 ^ 32 - 1 := by decide

end RetryPolicy

end OfflineCache
