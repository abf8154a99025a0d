import Mathlib.Algebra.Order.Field.Rat
import SynapseGo.Go.Time

/-! `job.BackoffPolicy`. Durations are nanoseconds in an `int64`; `float64` values are taken as
exact rationals. -/
namespace SynapseGo.Job
open SynapseGo.Go

inductive BackoffErr where
  | invalidBackoffPolicy
  deriving DecidableEq, Repr

structure BackoffPolicy where
  base : Int64
  max : Int64
  multiplier : ℚ
  deriving DecidableEq, Repr

/-- One second, five minutes, 2. -/
def defaultBackoffPolicy : BackoffPolicy := ⟨1000000000, 300000000000, 2⟩

namespace BackoffPolicy

def withDefaults (p : BackoffPolicy) : BackoffPolicy where
  base := if p.base = 0 then defaultBackoffPolicy.base else p.base
  max := if p.max = 0 then defaultBackoffPolicy.max else p.max
  multiplier := if p.multiplier = 0 then defaultBackoffPolicy.multiplier else p.multiplier

def validate (p : BackoffPolicy) : Except BackoffErr Unit :=
  let p := p.withDefaults
  if p.base ≤ 0 ∨ p.max ≤ 0 ∨ p.multiplier < 1 ∨ p.max < p.base then .error .invalidBackoffPolicy else .ok ()

def delay (p : BackoffPolicy) (attempt : ℤ) : Except BackoffErr Int64 :=
  let p := p.withDefaults
  match p.validate with
  | .error e => .error e
  | .ok _ =>
    let attempt := if attempt < 0 then 0 else attempt
    let base : ℚ := p.base.toInt
    let delay := if attempt > 0 then base * p.multiplier ^ attempt.toNat else base
    if delay ≥ p.max.toInt then .ok p.max else .ok (toDuration delay)

/-- A policy with which `delay` works as it stands. -/
structure Proper (p : BackoffPolicy) : Prop where
  base_pos : 0 < p.base
  base_le : p.base ≤ p.max
  one_le : 1 ≤ p.multiplier

/-- The uncapped delay after `k` attempts. -/
def growth (p : BackoffPolicy) (k : ℕ) : ℚ := p.base.toInt * p.multiplier ^ k

/-- What a delay should be. -/
def capped (p : BackoffPolicy) (k : ℕ) : ℤ := min p.max.toInt ⌊p.growth k⌋

/-- No field stands for its default. -/
def Explicit (p : BackoffPolicy) : Prop := p.base ≠ 0 ∧ p.max ≠ 0 ∧ p.multiplier ≠ 0

instance (p : BackoffPolicy) : Decidable p.Explicit := inferInstanceAs (Decidable (_ ∧ _ ∧ _))

theorem Explicit.withDefaults_eq {p : BackoffPolicy} (h : p.Explicit) : p.withDefaults = p := by
  unfold withDefaults
  rw [if_neg h.1, if_neg h.2.1, if_neg h.2.2]

/-- `Validate` accepts what is proper once the defaults are in place. -/
theorem validate_eq_ok_iff (p : BackoffPolicy) : p.validate = .ok () ↔ p.withDefaults.Proper := by
  unfold validate
  dsimp only
  generalize p.withDefaults = q
  constructor
  · intro h
    split_ifs at h with hbad
    simp only [not_or, not_lt, Int64.not_le, Int64.not_lt] at hbad
    exact ⟨hbad.1, hbad.2.2.2, hbad.2.2.1⟩
  · intro h
    have hmax : 0 < q.max := Int64.lt_of_lt_of_le h.base_pos h.base_le
    rw [if_neg]
    simp only [not_or, not_lt, Int64.not_le, Int64.not_lt]
    exact ⟨h.base_pos, hmax, h.one_le, h.base_le⟩

namespace Proper
variable {p : BackoffPolicy} (h : p.Proper)
include h

theorem explicit : p.Explicit := by
  have hmax : 0 < p.max := Int64.lt_of_lt_of_le h.base_pos h.base_le
  have hmult : 0 < p.multiplier := lt_of_lt_of_le one_pos h.one_le
  exact ⟨(Int64.ne_of_lt h.base_pos).symm, (Int64.ne_of_lt hmax).symm, hmult.ne'⟩

theorem toInt_pos : 0 < p.base.toInt := by
  have hpos := h.base_pos
  rwa [Int64.lt_iff_toInt_lt, Int64.toInt_zero] at hpos

theorem toInt_le : p.base.toInt ≤ p.max.toInt := Int64.le_iff_toInt_le.mp h.base_le

theorem growth_mono {k l : ℕ} (hkl : k ≤ l) : p.growth k ≤ p.growth l := by
  have hbase : (0 : ℚ) ≤ p.base.toInt := by exact_mod_cast h.toInt_pos.le
  exact mul_le_mul_of_nonneg_left (pow_le_pow_right₀ h.one_le hkl) hbase

theorem capped_mono {k l : ℕ} (hkl : k ≤ l) : p.capped k ≤ p.capped l :=
  min_le_min_left _ (Int.floor_le_floor (h.growth_mono hkl))

theorem capped_zero : p.capped 0 = p.base.toInt := by
  have hle := h.toInt_le
  unfold capped growth
  rw [pow_zero, mul_one, Int.floor_intCast]
  omega

theorem base_le_capped (k : ℕ) : p.base.toInt ≤ p.capped k := by
  rw [← h.capped_zero]
  exact h.capped_mono (Nat.zero_le k)

/-- Capping before the conversion keeps it in range. -/
theorem delay_eq (attempt : ℤ) : ∃ d, p.delay attempt = .ok d ∧ d.toInt = p.capped attempt.toNat := by
  have hdefaults := h.explicit.withDefaults_eq
  have hvalid : p.validate = .ok () := by
    rw [validate_eq_ok_iff, hdefaults]
    exact h
  have hgrowth : (if (if attempt < 0 then 0 else attempt) > 0 then
      (p.base.toInt : ℚ) * p.multiplier ^ (if attempt < 0 then 0 else attempt).toNat
      else p.base.toInt) = p.growth attempt.toNat := by
    unfold growth
    split_ifs with hneg hpos hpos
    · omega
    · rw [Int.toNat_of_nonpos (by omega), pow_zero, mul_one]
    · rfl
    · rw [Int.toNat_of_nonpos (by omega), pow_zero, mul_one]
  simp only [delay, hdefaults, hvalid, hgrowth]
  by_cases hcap : (p.max.toInt : ℚ) ≤ p.growth attempt.toNat
  · refine ⟨p.max, if_pos hcap, ?_⟩
    exact (min_eq_left (Int.le_floor.mpr hcap)).symm
  · have hlt : p.growth attempt.toNat < p.max.toInt := not_le.mp hcap
    have hnonneg : 0 ≤ p.growth attempt.toNat := by
      have hbase := h.toInt_pos
      have hzero : p.growth 0 = p.base.toInt := by rw [growth, pow_zero, mul_one]
      refine le_trans ?_ (h.growth_mono (Nat.zero_le attempt.toNat))
      rw [hzero]
      exact_mod_cast hbase.le
    have hrange : p.growth attempt.toNat < 2 ^ 63 := by
      have hmax : (p.max.toInt : ℚ) < 2 ^ 63 := by exact_mod_cast Int64.toInt_lt p.max
      exact lt_trans hlt hmax
    refine ⟨toDuration (p.growth attempt.toNat), if_neg hcap, ?_⟩
    rw [toInt_toDuration hnonneg hrange]
    exact (min_eq_right (Int.floor_lt.mpr hlt).le).symm

end Proper
end BackoffPolicy
end SynapseGo.Job
