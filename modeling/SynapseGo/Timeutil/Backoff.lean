import SynapseGo.Job.Backoff

/-! `timeutil.Backoff` against `job.BackoffPolicy`. It converts before it caps, so a product beyond
the `int64` range is no longer seen as large. -/
namespace SynapseGo.Timeutil
open SynapseGo.Go SynapseGo.Job

def backoff (attempt : ℤ) (initialInterval maxInterval : Int64) : Int64 :=
  let d := toDuration (initialInterval.toInt * 2 ^ attempt)
  if d > maxInterval then maxInterval else d

/-- Durations that `float64` represents exactly. -/
structure Exact (initial max : Int64) : Prop where
  pos : 0 < initial
  le : initial ≤ max
  lt : max.toInt < 2 ^ 53

/-- The delay is that of the policy with multiplier 2, within the interval, and no earlier delay is
longer. -/
def Agrees (attempt : ℤ) (initial max : Int64) : Prop :=
  (⟨initial, max, 2⟩ : BackoffPolicy).delay attempt = .ok (backoff attempt initial max) ∧
    initial ≤ backoff attempt initial max ∧ backoff attempt initial max ≤ max ∧
    ∀ earlier, 0 ≤ earlier → earlier ≤ attempt →
      backoff earlier initial max ≤ backoff attempt initial max

variable {initial max : Int64}

theorem Exact.proper (h : Exact initial max) : (⟨initial, max, 2⟩ : BackoffPolicy).Proper where
  base_pos := h.pos
  base_le := h.le
  one_le := by norm_num

/-- The product has left the `int64` range, and the cap does not apply to what is left of it. -/
theorem backoff_of_le {k : ℕ} (hmax : 0 < max) (h : 2 ^ 63 ≤ initial.toInt * 2 ^ k) :
    backoff k initial max = Int64.minValue := by
  have hrange : (2 : ℚ) ^ 63 ≤ initial.toInt * 2 ^ (k : ℤ) := by
    rw [zpow_natCast]
    exact_mod_cast h
  have hcap : ¬ Int64.minValue > max := by
    rw [gt_iff_lt, Int64.lt_iff_toInt_lt, Int64.toInt_minValue]
    rw [Int64.lt_iff_toInt_lt, Int64.toInt_zero] at hmax
    omega
  unfold backoff
  rw [toDuration_of_le hrange]
  exact if_neg hcap

/-- Below that range the two are the same. -/
theorem toInt_backoff (h : Exact initial max) {k : ℕ} (hk : initial.toInt * 2 ^ k < 2 ^ 63) :
    (backoff k initial max).toInt = (⟨initial, max, 2⟩ : BackoffPolicy).capped k := by
  have hpos := h.proper.toInt_pos
  dsimp only at hpos
  have hproduct : (initial.toInt : ℚ) * 2 ^ (k : ℤ) = ((initial.toInt * 2 ^ k : ℤ) : ℚ) := by
    rw [zpow_natCast]
    push_cast
    rfl
  have hnonneg : (0 : ℚ) ≤ ((initial.toInt * 2 ^ k : ℤ) : ℚ) := by
    exact_mod_cast Int.mul_nonneg hpos.le (by positivity)
  have hduration : (toDuration ((initial.toInt * 2 ^ k : ℤ) : ℚ)).toInt = initial.toInt * 2 ^ k := by
    rw [toInt_toDuration hnonneg (by exact_mod_cast hk), Int.floor_intCast]
  have hgrowth : (⟨initial, max, 2⟩ : BackoffPolicy).growth k = ((initial.toInt * 2 ^ k : ℤ) : ℚ) := by
    unfold BackoffPolicy.growth
    push_cast
    rfl
  unfold backoff BackoffPolicy.capped
  rw [hproduct, hgrowth, Int.floor_intCast]
  dsimp only
  split_ifs with hcap
  · rw [gt_iff_lt, Int64.lt_iff_toInt_lt, hduration] at hcap
    exact (min_eq_left hcap.le).symm
  · rw [gt_iff_lt, Int64.lt_iff_toInt_lt, hduration] at hcap
    rw [hduration]
    exact (min_eq_right (not_lt.mp hcap)).symm

/-- The two backoffs agree exactly as long as the product stays in the `int64` range. -/
theorem agrees_iff {attempt : ℤ} (hattempt : 0 ≤ attempt) (h : Exact initial max) :
    Agrees attempt initial max ↔ initial.toInt * 2 ^ attempt.toNat < 2 ^ 63 := by
  obtain ⟨k, rfl⟩ := Int.eq_ofNat_of_zero_le hattempt
  rw [Int.toNat_natCast]
  have hproper := h.proper
  constructor
  · intro hagrees
    by_contra hrange
    have hmax : 0 < max := Int64.lt_of_lt_of_le h.pos h.le
    have hlow := hagrees.2.1
    rw [backoff_of_le hmax (not_lt.mp hrange), Int64.le_iff_toInt_le, Int64.toInt_minValue] at hlow
    have hpos := hproper.toInt_pos
    dsimp only at hpos
    omega
  · intro hk
    have hvalue := toInt_backoff h hk
    obtain ⟨d, hd, hcapped⟩ := hproper.delay_eq k
    rw [Int.toNat_natCast, ← hvalue, Int64.toInt_inj] at hcapped
    refine ⟨?_, ?_, ?_, ?_⟩
    · rw [hd, hcapped]
    · rw [Int64.le_iff_toInt_le, hvalue]
      exact hproper.base_le_capped k
    · rw [Int64.le_iff_toInt_le, hvalue]
      exact min_le_left _ _
    · intro earlier hearlier hle
      obtain ⟨j, rfl⟩ := Int.eq_ofNat_of_zero_le hearlier
      have hjk : j ≤ k := by exact_mod_cast hle
      have hpow : (2 : ℤ) ^ j ≤ 2 ^ k := pow_le_pow_right₀ (by norm_num) hjk
      have hj : initial.toInt * 2 ^ j < 2 ^ 63 :=
        lt_of_le_of_lt (Int.mul_le_mul_of_nonneg_left hpow hproper.toInt_pos.le) hk
      rw [Int64.le_iff_toInt_le, hvalue, toInt_backoff h hj]
      exact hproper.capped_mono hjk

/-- The last attempt of `notify.WithRetry` that is waited for as intended. -/
theorem agrees_second : Agrees 33 1000000000 60000000000 :=
  (agrees_iff (by decide) ⟨by decide, by decide, by decide⟩).mpr (by decide)

/-- One attempt later the wait is over before it begins. -/
theorem not_agrees_second : ¬ Agrees 34 1000000000 60000000000 := by
  intro h
  have hlow := h.2.1
  revert hlow
  decide +kernel

end SynapseGo.Timeutil
