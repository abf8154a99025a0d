import Mathlib.Algebra.Order.Ring.Int
import Mathlib.Data.Nat.Log

/-! The numbers of a Lua script: IEEE doubles, here only with integer values. An integer is
exact up to `2^53` and rounded to 53 bits beyond. -/
namespace SynapseGo.Redis

/-- The double nearest to an integer, ties to the even significand. -/
def roundDouble (n : ℤ) : ℤ :=
  if n.natAbs ≤ 2 ^ 53 then n
  else
    let e := Nat.log2 n.natAbs - 52
    let q := n.natAbs / 2 ^ e
    let r := n.natAbs % 2 ^ e
    let q := if 2 ^ e < 2 * r ∨ 2 ^ e = 2 * r ∧ q % 2 = 1 then q + 1 else q
    n.sign * (q * 2 ^ e : ℕ)

theorem roundDouble_of_natAbs_le {n : ℤ} (h : n.natAbs ≤ 2 ^ 53) : roundDouble n = n := if_pos h

/-- Rounding does not cross `2^53`, which is a double itself. -/
theorem le_roundDouble {n : ℤ} (h : 2 ^ 53 ≤ n) : 2 ^ 53 ≤ roundDouble n := by
  unfold roundDouble
  split_ifs with hn
  · exact h
  · have hpos : n.sign = 1 := Int.sign_eq_one_of_pos (by omega)
    have hne : n.natAbs ≠ 0 := by omega
    have hlog : 53 ≤ Nat.log2 n.natAbs := (Nat.le_log2 hne).mpr (by omega)
    have hself : 2 ^ Nat.log2 n.natAbs ≤ n.natAbs := Nat.log2_self_le hne
    dsimp only
    generalize he : Nat.log2 n.natAbs - 52 = e
    have hexp : Nat.log2 n.natAbs = 52 + e := by omega
    rw [hexp, pow_add] at hself
    have hq : 2 ^ 52 ≤ n.natAbs / 2 ^ e := (Nat.le_div_iff_mul_le (Nat.two_pow_pos e)).mpr hself
    have htwo : 2 ≤ 2 ^ e := by
      calc 2 = 2 ^ 1 := rfl
        _ ≤ 2 ^ e := Nat.pow_le_pow_right (by decide) (by omega)
    rw [hpos, one_mul]
    have hround : 2 ^ 53 ≤ (if 2 ^ e < 2 * (n.natAbs % 2 ^ e) ∨ 2 ^ e = 2 * (n.natAbs % 2 ^ e) ∧
        n.natAbs / 2 ^ e % 2 = 1 then n.natAbs / 2 ^ e + 1 else n.natAbs / 2 ^ e) * 2 ^ e := by
      calc 2 ^ 53 = 2 ^ 52 * 2 := rfl
        _ ≤ _ := Nat.mul_le_mul (by split_ifs <;> omega) htwo
    exact_mod_cast hround

theorem roundDouble_pos {n : ℤ} (h : 0 < n) : 0 < roundDouble n := by
  by_cases hn : n ≤ 2 ^ 53
  · rw [roundDouble_of_natAbs_le (by omega)]
    exact h
  · have := le_roundDouble (show 2 ^ 53 ≤ n by omega)
    omega

/-- A number below `2^53` is found to be so, and no other is. -/
theorem roundDouble_le_iff {n limit : ℤ} (h : 0 ≤ n) (hl : limit < 2 ^ 53) :
    roundDouble n ≤ limit ↔ n ≤ limit := by
  by_cases hn : n ≤ 2 ^ 53
  · rw [roundDouble_of_natAbs_le (by omega)]
  · have := le_roundDouble (show 2 ^ 53 ≤ n by omega)
    omega

end SynapseGo.Redis
