import Mathlib.Algebra.Order.Field.Rat
import Mathlib.Data.Int.Log
import Mathlib.Data.Rat.Floor
import Mathlib.Tactic.Linarith
import Mathlib.Tactic.Positivity

/-! The rounding of `float64` arithmetic, to nearest with ties to even, on rationals below the overflow
threshold. What is used of it: a representable number between which and the exact result the order is
known keeps its place, and the relative error is at most `2⁻⁵³`. -/
namespace SynapseGo.Go

/-- The nearest integer, the even one of two. -/
def nearestEven (x : ℚ) : ℤ :=
  let up := ⌊x + 1 / 2⌋
  if (up : ℚ) = x + 1 / 2 ∧ up % 2 = 1 then up - 1 else up

theorem le_nearestEven {x : ℚ} {k : ℤ} (h : (k : ℚ) ≤ x) : k ≤ nearestEven x := by
  have hfloor : k ≤ ⌊x + 1 / 2⌋ := Int.le_floor.mpr (by linarith)
  unfold nearestEven
  dsimp only
  split_ifs with htie
  · have hlt : (k : ℚ) < (⌊x + 1 / 2⌋ : ℤ) := by linarith [htie.1]
    have := Int.cast_lt.mp hlt
    omega
  · exact hfloor

theorem nearestEven_le {x : ℚ} {k : ℤ} (h : x ≤ k) : nearestEven x ≤ k := by
  have hfloor : ⌊x + 1 / 2⌋ ≤ k := by
    have hlt : (⌊x + 1 / 2⌋ : ℚ) < k + 1 := by
      have := Int.floor_le (x + 1 / 2)
      linarith
    have : ⌊x + 1 / 2⌋ < k + 1 := by exact_mod_cast hlt
    omega
  unfold nearestEven
  dsimp only
  split_ifs
  · omega
  · exact hfloor

theorem abs_nearestEven_sub_le (x : ℚ) : |(nearestEven x : ℚ) - x| ≤ 1 / 2 := by
  have hlo := Int.floor_le (x + 1 / 2)
  have hhi := Int.lt_floor_add_one (x + 1 / 2)
  unfold nearestEven
  dsimp only
  split_ifs with htie
  · rw [abs_le]
    push_cast
    constructor <;> linarith [htie.1]
  · rw [abs_le]
    constructor <;> linarith

/-- The exponent of the last place of the numbers around `x`. -/
def lastPlace (x : ℚ) : ℤ := max (-1074) (Int.log 2 |x| - 52)

def float64 (x : ℚ) : ℚ := nearestEven (x / 2 ^ lastPlace x) * 2 ^ lastPlace x

/-- The nonnegative numbers with a significand of 53 bits. -/
def Representable (y : ℚ) : Prop := ∃ (m : ℕ) (e : ℤ), m ≤ 2 ^ 53 ∧ -1074 ≤ e ∧ y = m * 2 ^ e

theorem representable_natCast {n : ℕ} (h : n ≤ 2 ^ 53) : Representable n := ⟨n, 0, h, by norm_num, by simp⟩

theorem representable_half {n : ℕ} (h : n ≤ 2 ^ 53) : Representable (n / 2) :=
  ⟨n, -1, h, by norm_num, by rw [zpow_neg_one]; rfl⟩

section
variable {x y : ℚ}

theorem two_zpow_pos (e : ℤ) : (0 : ℚ) < 2 ^ e := zpow_pos two_pos e

/-- A number of a coarser grid is a whole number of last places. -/
theorem exists_intCast_mul {m : ℕ} {e p : ℤ} (h : p ≤ e) : ∃ k : ℤ, (m : ℚ) * 2 ^ e = k * 2 ^ p := by
  obtain ⟨d, rfl⟩ := Int.le.dest h
  refine ⟨m * 2 ^ d, ?_⟩
  rw [zpow_add₀ two_ne_zero, zpow_natCast]
  push_cast
  ring

/-- A finer representable number is no greater than the power of two below `x`. -/
theorem fine_le {m : ℕ} {e : ℤ} (hx : 0 < x) (hm : m ≤ 2 ^ 53) (he : -1074 ≤ e) (hfine : e < lastPlace x) :
    (m : ℚ) * 2 ^ e ≤ 2 ^ (52 + lastPlace x) ∧ (2 : ℚ) ^ (52 + lastPlace x) ≤ x := by
  have hlast : lastPlace x = Int.log 2 x - 52 := by
    unfold lastPlace at hfine ⊢
    rw [abs_of_pos hx] at hfine ⊢
    omega
  constructor
  · have hm' : (m : ℚ) ≤ 2 ^ (53 : ℤ) := by exact_mod_cast hm
    calc (m : ℚ) * 2 ^ e ≤ 2 ^ (53 : ℤ) * 2 ^ e := by
          have := two_zpow_pos e
          gcongr
      _ = 2 ^ (53 + e) := by rw [zpow_add₀ two_ne_zero]
      _ ≤ 2 ^ (52 + lastPlace x) := zpow_le_zpow_right₀ one_le_two (by omega)
  · have hlog := Int.zpow_log_le_self (R := ℚ) one_lt_two hx
    rw [hlast]
    have hexp : 52 + (Int.log 2 x - 52) = Int.log 2 x := by omega
    rw [hexp]
    exact_mod_cast hlog

theorem le_float64 (hx : 0 < x) (hy : Representable y) (h : y ≤ x) : y ≤ float64 x := by
  have hulp := two_zpow_pos (lastPlace x)
  have hgrid : ∀ k : ℤ, (k : ℚ) * 2 ^ lastPlace x ≤ x → (k : ℚ) * 2 ^ lastPlace x ≤ float64 x := by
    intro k hk
    have hround := le_nearestEven ((le_div_iff₀ hulp).mpr hk)
    unfold float64
    have : (k : ℚ) ≤ nearestEven (x / 2 ^ lastPlace x) := by exact_mod_cast hround
    gcongr
  obtain ⟨m, e, hm, he, rfl⟩ := hy
  by_cases hcoarse : lastPlace x ≤ e
  · obtain ⟨k, hk⟩ := exists_intCast_mul (m := m) hcoarse
    rw [hk] at h ⊢
    exact hgrid k h
  · obtain ⟨hbelow, hpower⟩ := fine_le hx hm he (not_le.mp hcoarse)
    have hsplit : (2 : ℚ) ^ (52 + lastPlace x) = ((2 ^ 52 : ℤ) : ℚ) * 2 ^ lastPlace x := by
      rw [zpow_add₀ two_ne_zero]
      norm_cast
    rw [hsplit] at hbelow hpower
    exact hbelow.trans (hgrid _ hpower)

theorem float64_le (hx : 0 < x) (hy : Representable y) (h : x ≤ y) : float64 x ≤ y := by
  have hulp := two_zpow_pos (lastPlace x)
  have hgrid : ∀ k : ℤ, x ≤ (k : ℚ) * 2 ^ lastPlace x → float64 x ≤ (k : ℚ) * 2 ^ lastPlace x := by
    intro k hk
    have hround := nearestEven_le ((div_le_iff₀ hulp).mpr hk)
    unfold float64
    have : (nearestEven (x / 2 ^ lastPlace x) : ℚ) ≤ k := by exact_mod_cast hround
    gcongr
  obtain ⟨m, e, hm, he, rfl⟩ := hy
  by_cases hcoarse : lastPlace x ≤ e
  · obtain ⟨k, hk⟩ := exists_intCast_mul (m := m) hcoarse
    rw [hk] at h ⊢
    exact hgrid k h
  · -- The number and `x` are the same power of two.
    obtain ⟨hbelow, hpower⟩ := fine_le hx hm he (not_le.mp hcoarse)
    have hsplit : (2 : ℚ) ^ (52 + lastPlace x) = ((2 ^ 52 : ℤ) : ℚ) * 2 ^ lastPlace x := by
      rw [zpow_add₀ two_ne_zero]
      norm_cast
    have heq : (m : ℚ) * 2 ^ e = ((2 ^ 52 : ℤ) : ℚ) * 2 ^ lastPlace x := by
      rw [← hsplit]
      linarith
    rw [heq] at h ⊢
    exact hgrid _ h

/-- Representable numbers are kept. -/
theorem float64_eq_self (hx : 0 < x) (h : Representable x) : float64 x = x :=
  le_antisymm (float64_le hx h le_rfl) (le_float64 hx h le_rfl)

theorem float64_pos (hx : 2 ^ (-1074 : ℤ) ≤ x) : 0 < float64 x := by
  have hleast : Representable (2 ^ (-1074 : ℤ)) := ⟨1, -1074, by norm_num, le_rfl, by simp⟩
  have hpos := two_zpow_pos (-1074)
  exact lt_of_lt_of_le hpos (le_float64 (lt_of_lt_of_le hpos hx) hleast hx)

/-- Truncation after rounding: an integer below the exact result stays below it. -/
theorem le_floor_float64 {k : ℕ} (hk : k ≤ 2 ^ 53) (hx : 0 < x) (h : (k : ℚ) ≤ x) :
    (k : ℤ) ≤ ⌊float64 x⌋ := by
  rw [Int.le_floor, Int.cast_natCast]
  exact le_float64 hx (representable_natCast hk) h

/-- An exact result that exceeds an integer by half at most is not carried beyond it. -/
theorem floor_float64_le {k : ℕ} (hk : k < 2 ^ 52) (hx : 0 < x) (h : x ≤ k + 1 / 2) : ⌊float64 x⌋ ≤ k := by
  have hhalf : ((2 * k + 1 : ℕ) : ℚ) / 2 = k + 1 / 2 := by
    push_cast
    ring
  have hrep : Representable (k + 1 / 2) := by
    rw [← hhalf]
    exact representable_half (by omega)
  have hle := float64_le hx hrep h
  apply Int.lt_add_one_iff.mp
  rw [Int.floor_lt]
  push_cast
  linarith

/-- The relative error of a normal result. -/
theorem abs_float64_sub_le (hx : 2 ^ (-1022 : ℤ) ≤ x) : |float64 x - x| ≤ x * 2 ^ (-53 : ℤ) := by
  have hpos : 0 < x := lt_of_lt_of_le (two_zpow_pos _) hx
  have hulp := two_zpow_pos (lastPlace x)
  have hlog := Int.zpow_log_le_self (R := ℚ) one_lt_two hpos
  have hnormal : -1022 ≤ Int.log 2 x :=
    (Int.zpow_le_iff_le_log one_lt_two hpos).mp (by exact_mod_cast hx)
  have hlast : lastPlace x = Int.log 2 x - 52 := by
    unfold lastPlace
    rw [abs_of_pos hpos]
    omega
  have hscaled : float64 x - x = (nearestEven (x / 2 ^ lastPlace x) - x / 2 ^ lastPlace x) *
    2 ^ lastPlace x := by
    unfold float64
    rw [sub_mul, div_mul_cancel₀ _ hulp.ne']
  have hround := abs_nearestEven_sub_le (x / 2 ^ lastPlace x)
  calc |float64 x - x|
    _ = |(nearestEven (x / 2 ^ lastPlace x) : ℚ) - x / 2 ^ lastPlace x| * 2 ^ lastPlace x := by
        rw [hscaled, abs_mul, abs_of_pos hulp]
    _ ≤ 1 / 2 * 2 ^ lastPlace x := by gcongr
    _ = 2 ^ Int.log 2 x * 2 ^ (-53 : ℤ) := by
        rw [hlast, sub_eq_add_neg, zpow_add₀ two_ne_zero]
        norm_num
        ring
    _ ≤ x * 2 ^ (-53 : ℤ) := by
        have hle : (2 : ℚ) ^ Int.log 2 x ≤ x := by exact_mod_cast hlog
        have := two_zpow_pos (-53)
        gcongr

end
end SynapseGo.Go
