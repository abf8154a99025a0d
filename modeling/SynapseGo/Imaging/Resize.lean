import SynapseGo.Go.Float64
import SynapseGo.Go.Time

/-! The dimensions that `imaging.Resize` gives to an image, with the rounding of the `float64` ratio and of
its products. Dimensions are taken below `2⁵²`, far beyond any image that fits in memory. -/
namespace SynapseGo.Imaging
open SynapseGo.Go

/-- `float64(max) / float64(src)` where the limit applies. -/
def ratioFor (src max : Int64) : ℚ :=
  if 0 < max ∧ max < src then float64 (float64 max.toInt / float64 src.toInt) else 1

/-- `int(float64(src) * ratio)`, and at least 1. -/
def scale (src : Int64) (ratio : ℚ) : Int64 :=
  let dst := toDuration (float64 (float64 src.toInt * ratio))
  if dst < 1 then 1 else dst

def fitDimensions (srcW srcH maxW maxH : Int64) : Int64 × Int64 :=
  if maxW = 0 ∧ maxH = 0 then (srcW, srcH)
  else
    let ratioW := ratioFor srcW maxW
    let ratioH := ratioFor srcH maxH
    let ratio := if ratioH < ratioW then ratioH else ratioW
    (scale srcW ratio, scale srcH ratio)

/-- The dimensions of the image that `Resize` gives to `encode`. -/
def resizeDimensions (srcW srcH maxW maxH : Int64) : Int64 × Int64 :=
  let dst := fitDimensions srcW srcH maxW maxH
  if srcW ≤ dst.1 ∧ srcH ≤ dst.2 then (srcW, srcH) else dst

/-- A dimension of an image. -/
def IsDimension (d : Int64) : Prop := 1 ≤ d.toInt ∧ d.toInt < 2 ^ 52

instance (d : Int64) : Decidable (IsDimension d) := inferInstanceAs (Decidable (_ ∧ _))

/-- What a maintainer expects of the new dimensions. -/
structure Fits (srcW srcH maxW maxH w h : Int64) : Prop where
  /-- Not empty, not enlarged, and within the limit. -/
  width : 1 ≤ w ∧ w ≤ srcW ∧ (0 < maxW → w ≤ maxW)
  height : 1 ≤ h ∧ h ≤ srcH ∧ (0 < maxH → h ≤ maxH)
  /-- The cross products differ by less than one pixel each way. -/
  aspect : |w.toInt * srcH.toInt - h.toInt * srcW.toInt| < srcW.toInt + srcH.toInt
  /-- An image is made smaller only to meet a limit, which is then missed by one pixel at most. -/
  tight : w ≠ srcW ∨ h ≠ srcH → (0 < maxW ∧ maxW < srcW ∧ maxW.toInt - 1 ≤ w.toInt) ∨
    (0 < maxH ∧ maxH < srcH ∧ maxH.toInt - 1 ≤ h.toInt)
  /-- The same limits leave dimensions that they gave as they are. -/
  stable : resizeDimensions w h maxW maxH = (w, h)

section Scale
variable {src : Int64} {r : ℚ}

theorem IsDimension.exists_nat (h : IsDimension src) : ∃ n : ℕ, src.toInt = n ∧ 1 ≤ n ∧ n < 2 ^ 52 := by
  obtain ⟨hlo, hhi⟩ := h
  exact ⟨src.toInt.toNat, by omega, by omega, by omega⟩

theorem IsDimension.float64_eq (h : IsDimension src) : float64 src.toInt = src.toInt := by
  obtain ⟨n, hn, hlo, hhi⟩ := h.exists_nat
  have hpos : (0 : ℚ) < n := by exact_mod_cast hlo
  rw [hn, Int.cast_natCast]
  exact float64_eq_self hpos (representable_natCast (by omega))

theorem toInt_scale (hsrc : IsDimension src) (hr : 0 < r) (hr1 : r ≤ 1) :
    (scale src r).toInt = max 1 ⌊float64 (src.toInt * r)⌋ := by
  obtain ⟨n, hn, hlo, hhi⟩ := hsrc.exists_nat
  have hn1 : (1 : ℚ) ≤ n := by exact_mod_cast hlo
  have hx : 0 < (n : ℚ) * r := by positivity
  have hxle : (n : ℚ) * r ≤ n := by nlinarith
  have h0 : 0 ≤ float64 (n * r) := by
    have hzero := le_float64 hx (representable_natCast (Nat.zero_le _)) (by rw [Nat.cast_zero]; exact hx.le)
    rwa [Nat.cast_zero] at hzero
  have hbig : float64 (n * r) < 2 ^ 63 := by
    have hle := float64_le hx (representable_natCast (by omega)) hxle
    have hn52 : (n : ℚ) < 2 ^ 52 := by exact_mod_cast hhi
    linarith
  have hduration := toInt_toDuration h0 hbig
  unfold scale
  rw [hsrc.float64_eq, hn, Int.cast_natCast]
  dsimp only
  split_ifs with hsmall
  · rw [Int64.lt_iff_toInt_lt, hduration] at hsmall
    have hone : (1 : Int64).toInt = 1 := by decide
    rw [hone] at hsmall ⊢
    omega
  · rw [Int64.lt_iff_toInt_lt, hduration] at hsmall
    have hone : (1 : Int64).toInt = 1 := by decide
    rw [hone] at hsmall
    rw [hduration]
    omega

/-- A scaled dimension is within one pixel of the exact one. -/
theorem abs_scale_sub_lt (hsrc : IsDimension src) (hr : 0 < r) (hr1 : r ≤ 1) :
    |((scale src r).toInt : ℚ) - src.toInt * r| < 1 := by
  have hscale := toInt_scale hsrc hr hr1
  obtain ⟨n, hn, hlo, hhi⟩ := hsrc.exists_nat
  rw [hscale, hn, Int.cast_natCast]
  have hn1 : (1 : ℚ) ≤ n := by exact_mod_cast hlo
  have hx : 0 < (n : ℚ) * r := by positivity
  have hxle : (n : ℚ) * r ≤ n := by nlinarith
  have hfloor : (⌊(n : ℚ) * r⌋₊ : ℤ) ≤ ⌊float64 (n * r)⌋ := by
    refine le_floor_float64 ?_ hx (Nat.floor_le hx.le)
    have : ⌊(n : ℚ) * r⌋₊ ≤ n := Nat.floor_le_of_le hxle
    omega
  have hceil : ⌊float64 (n * r)⌋ ≤ (⌈(n : ℚ) * r⌉₊ : ℤ) := by
    refine floor_float64_le ?_ hx ?_
    · have : ⌈(n : ℚ) * r⌉₊ ≤ n := Nat.ceil_le.mpr hxle
      omega
    · have := Nat.le_ceil ((n : ℚ) * r)
      linarith
  have hpos : 1 ≤ (⌈(n : ℚ) * r⌉₊ : ℤ) := by exact_mod_cast Nat.ceil_pos.mpr hx
  have hup : ((max 1 ⌊float64 (n * r)⌋ : ℤ) : ℚ) ≤ ⌈(n : ℚ) * r⌉₊ := by exact_mod_cast max_le hpos hceil
  have hdown : (⌊(n : ℚ) * r⌋₊ : ℚ) ≤ (max 1 ⌊float64 (n * r)⌋ : ℤ) := by
    exact_mod_cast hfloor.trans (le_max_right _ _)
  have hceil' := Nat.ceil_lt_add_one hx.le
  have hfloor' := Nat.lt_floor_add_one ((n : ℚ) * r)
  rw [abs_lt]
  constructor <;> linarith

/-- A product that exceeds the limit by half a pixel at most is truncated to the limit. -/
theorem scale_le {k : ℕ} (hsrc : IsDimension src) (hr : 0 < r) (hr1 : r ≤ 1) (hk : 1 ≤ k) (hk' : k < 2 ^ 52)
    (h : src.toInt * r ≤ k + 1 / 2) : (scale src r).toInt ≤ k := by
  have hx : 0 < (src.toInt : ℚ) * r := by
    have : (0 : ℚ) < src.toInt := by exact_mod_cast lt_of_lt_of_le one_pos hsrc.1
    positivity
  rw [toInt_scale hsrc hr hr1]
  exact max_le (by exact_mod_cast hk) (floor_float64_le hk' hx h)

theorem le_scale {k : ℕ} (hsrc : IsDimension src) (hr : 0 < r) (hr1 : r ≤ 1) (hk : k ≤ 2 ^ 53)
    (h : (k : ℚ) ≤ src.toInt * r) : k ≤ (scale src r).toInt := by
  have hx : 0 < (src.toInt : ℚ) * r := by
    have : (0 : ℚ) < src.toInt := by exact_mod_cast lt_of_lt_of_le one_pos hsrc.1
    positivity
  rw [toInt_scale hsrc hr hr1]
  exact (le_floor_float64 hk hx h).trans (le_max_right _ _)

theorem scale_le_src (hsrc : IsDimension src) (hr : 0 < r) (hr1 : r ≤ 1) :
    (scale src r).toInt ≤ src.toInt := by
  obtain ⟨n, hn, hlo, hhi⟩ := hsrc.exists_nat
  have hle : (src.toInt : ℚ) * r ≤ n + 1 / 2 := by
    have hn1 : (1 : ℚ) ≤ n := by exact_mod_cast hlo
    rw [hn, Int.cast_natCast]
    nlinarith
  rw [hn]
  exact scale_le hsrc hr hr1 hlo hhi hle

theorem isDimension_scale (hsrc : IsDimension src) (hr : 0 < r) (hr1 : r ≤ 1) :
    IsDimension (scale src r) := by
  refine ⟨?_, lt_of_le_of_lt (scale_le_src hsrc hr hr1) hsrc.2⟩
  rw [toInt_scale hsrc hr hr1]
  exact le_max_left _ _

theorem scale_one (hsrc : IsDimension src) : scale src 1 = src := by
  have hnear := abs_scale_sub_lt hsrc one_pos le_rfl
  rw [mul_one] at hnear
  have hint : |(scale src 1).toInt - src.toInt| < 1 := by exact_mod_cast hnear
  have heq : (scale src 1).toInt = src.toInt := by
    rw [Int.abs_lt_one_iff] at hint
    omega
  exact Int64.toInt_inj.mp heq

end Scale

section Ratio
variable {src max : Int64}

/-- The quotient misses the limit by less than half a pixel. -/
theorem quotient_spec {n m : ℕ} (hm : 1 ≤ m) (hmn : m < n) (hn : n < 2 ^ 52) :
    0 < float64 ((m : ℚ) / n) ∧ float64 ((m : ℚ) / n) ≤ 1 ∧
      |(n : ℚ) * float64 ((m : ℚ) / n) - m| ≤ 1 / 2 := by
  have hm0 : (1 : ℚ) ≤ m := by exact_mod_cast hm
  have hmn' : (m : ℚ) < n := by exact_mod_cast hmn
  have hn52 : (n : ℚ) < 2 ^ 52 := by exact_mod_cast hn
  have hn0 : (0 : ℚ) < n := by linarith
  have hquot : (2 : ℚ) ^ (-52 : ℤ) ≤ m / n := by
    rw [le_div_iff₀ hn0, zpow_neg]
    have hinv : ((2 : ℚ) ^ (52 : ℤ))⁻¹ * n ≤ 1 := by
      rw [inv_mul_le_iff₀ (two_zpow_pos 52), mul_one]
      exact_mod_cast hn52.le
    linarith
  have hsmall : ∀ e : ℤ, e ≤ -52 → (2 : ℚ) ^ e ≤ m / n :=
    fun e he => (zpow_le_zpow_right₀ one_le_two he).trans hquot
  have hone : (m : ℚ) / n ≤ 1 := (div_le_one hn0).mpr hmn'.le
  have hpos : (0 : ℚ) < m / n := by positivity
  refine ⟨float64_pos (hsmall _ (by norm_num)), ?_, ?_⟩
  · have hle :=
      float64_le hpos (representable_natCast (n := 1) (by norm_num)) (by rw [Nat.cast_one]; exact hone)
    rwa [Nat.cast_one] at hle
  · have herror := abs_float64_sub_le (hsmall (-1022) (by norm_num))
    have hscaled : (n : ℚ) * float64 (m / n) - m = n * (float64 (m / n) - m / n) := by
      rw [mul_sub, mul_div_cancel₀ _ hn0.ne']
    calc |(n : ℚ) * float64 (m / n) - m| = n * |float64 ((m : ℚ) / n) - m / n| := by
          rw [hscaled, abs_mul, abs_of_pos hn0]
      _ ≤ n * (m / n * 2 ^ (-53 : ℤ)) := by gcongr
      _ = m * 2 ^ (-53 : ℤ) := by rw [← mul_assoc, mul_div_cancel₀ _ hn0.ne']
      _ ≤ 1 / 2 := by
          rw [zpow_neg, ← div_eq_mul_inv, div_le_iff₀ (two_zpow_pos 53)]
          have hpow : (1 : ℚ) / 2 * 2 ^ (53 : ℤ) = 2 ^ 52 := by norm_num
          rw [hpow]
          linarith

/-- What the ratio for a limit is known by. -/
structure RatioSpec (src max : Int64) (r : ℚ) : Prop where
  pos : 0 < r
  le_one : r ≤ 1
  within : 0 < max → (src.toInt : ℚ) * r ≤ max.toInt + 1 / 2
  tight : r ≠ 1 → 0 < max ∧ max < src ∧ (max.toInt : ℚ) - 1 / 2 ≤ src.toInt * r

theorem isDimension_of_lt (hsrc : IsDimension src) (h0 : 0 < max) (hlt : max < src) : IsDimension max := by
  rw [Int64.lt_iff_toInt_lt, Int64.toInt_zero] at h0
  rw [Int64.lt_iff_toInt_lt] at hlt
  exact ⟨h0, hlt.trans hsrc.2⟩

theorem ratioFor_spec (hsrc : IsDimension src) : RatioSpec src max (ratioFor src max) := by
  unfold ratioFor
  split_ifs with hlimit
  · obtain ⟨h0, hlt⟩ := hlimit
    have hmax := isDimension_of_lt hsrc h0 hlt
    rw [hsrc.float64_eq, hmax.float64_eq]
    obtain ⟨n, hn, -, hn52⟩ := hsrc.exists_nat
    obtain ⟨m, hm, hm1, -⟩ := hmax.exists_nat
    have hmn : m < n := by
      rw [Int64.lt_iff_toInt_lt, hn, hm] at hlt
      exact_mod_cast hlt
    obtain ⟨hpos, hone, hnear⟩ := quotient_spec hm1 hmn hn52
    rw [hn, hm, Int.cast_natCast, Int.cast_natCast]
    rw [abs_le] at hnear
    refine ⟨hpos, hone, fun _ => ?_, fun _ => ⟨h0, hlt, ?_⟩⟩
    · rw [hn, hm, Int.cast_natCast, Int.cast_natCast]
      linarith
    · rw [hn, hm, Int.cast_natCast, Int.cast_natCast]
      linarith
  · refine ⟨one_pos, le_rfl, fun h0 => ?_, fun h => absurd rfl h⟩
    have hle : src ≤ max := Int64.not_lt.mp fun hlt => hlimit ⟨h0, hlt⟩
    rw [Int64.le_iff_toInt_le] at hle
    have hcast : (src.toInt : ℚ) ≤ max.toInt := by exact_mod_cast hle
    linarith

theorem ratioFor_of_le (h : 0 < max → src ≤ max) : ratioFor src max = 1 := by
  unfold ratioFor
  exact if_neg fun hlimit => absurd hlimit.2 (Int64.not_lt.mpr (h hlimit.1))

end Ratio

section Dimension
variable {src max : Int64} {r : ℚ}

/-- A dimension scaled by a ratio that is at most its own stays within its limit. -/
theorem scale_le_limit (hsrc : IsDimension src) (h0 : 0 < r) (hr : r ≤ ratioFor src max) (hmax : 0 < max) :
    scale src r ≤ max := by
  have hspec : RatioSpec src max (ratioFor src max) := ratioFor_spec hsrc
  have hr1 := hr.trans hspec.le_one
  have hpos : 0 < max.toInt := by
    rwa [Int64.lt_iff_toInt_lt, Int64.toInt_zero] at hmax
  rw [Int64.le_iff_toInt_le]
  by_cases hbig : 2 ^ 52 ≤ max.toInt
  · have hle := scale_le_src hsrc h0 hr1
    have hlt := hsrc.2
    omega
  · obtain ⟨k, hk⟩ := Int.eq_ofNat_of_zero_le hpos.le
    have hsrc0 : (0 : ℚ) ≤ src.toInt := by exact_mod_cast zero_le_one.trans hsrc.1
    have hproduct : (src.toInt : ℚ) * r ≤ k + 1 / 2 := by
      calc (src.toInt : ℚ) * r ≤ src.toInt * ratioFor src max := by gcongr
        _ ≤ max.toInt + 1 / 2 := hspec.within hmax
        _ = k + 1 / 2 := by rw [hk, Int.cast_natCast]
    rw [hk]
    exact scale_le hsrc h0 hr1 (by omega) (by omega) hproduct

/-- The dimension that sets the ratio misses its limit by one pixel at most. -/
theorem limit_le_scale (hsrc : IsDimension src) (h : ratioFor src max ≠ 1) :
    0 < max ∧ max < src ∧ max.toInt - 1 ≤ (scale src (ratioFor src max)).toInt := by
  have hspec : RatioSpec src max (ratioFor src max) := ratioFor_spec hsrc
  obtain ⟨h0, hlt, hnear⟩ := hspec.tight h
  obtain ⟨k, hk, hk1, hk52⟩ := (isDimension_of_lt hsrc h0 hlt).exists_nat
  refine ⟨h0, hlt, ?_⟩
  have hcast : ((k - 1 : ℕ) : ℚ) = k - 1 := by
    rw [Nat.cast_sub hk1, Nat.cast_one]
  have hproduct : ((k - 1 : ℕ) : ℚ) ≤ src.toInt * ratioFor src max := by
    rw [hk, Int.cast_natCast] at hnear
    linarith
  have hle := le_scale hsrc hspec.pos hspec.le_one (by omega) hproduct
  omega

end Dimension

section Resize
variable {srcW srcH maxW maxH : Int64}

/-- The ratio by which both dimensions are scaled. -/
def ratio (srcW srcH maxW maxH : Int64) : ℚ := min (ratioFor srcW maxW) (ratioFor srcH maxH)

theorem fitDimensions_eq (hW : IsDimension srcW) (hH : IsDimension srcH) : fitDimensions srcW srcH maxW maxH =
    (scale srcW (ratio srcW srcH maxW maxH), scale srcH (ratio srcW srcH maxW maxH)) := by
  unfold fitDimensions
  split_ifs with hnone
  · have hratio : ratio srcW srcH maxW maxH = 1 := by
      have hno : ¬(0 : Int64) < 0 := by decide
      unfold ratio
      rw [hnone.1, hnone.2, ratioFor_of_le fun h => absurd h hno, ratioFor_of_le fun h => absurd h hno,
        min_self]
    rw [hratio, scale_one hW, scale_one hH]
  · have hmin : (if ratioFor srcH maxH < ratioFor srcW maxW then ratioFor srcH maxH else ratioFor srcW maxW) =
        ratio srcW srcH maxW maxH := by
      unfold ratio
      split_ifs with hlt
      · exact (min_eq_right hlt.le).symm
      · exact (min_eq_left (not_lt.mp hlt)).symm
    dsimp only
    rw [hmin]

theorem ratio_pos (hW : IsDimension srcW) (hH : IsDimension srcH) : 0 < ratio srcW srcH maxW maxH :=
  lt_min (ratioFor_spec hW).pos (ratioFor_spec hH).pos

theorem ratio_le_one (hW : IsDimension srcW) : ratio srcW srcH maxW maxH ≤ 1 :=
  (min_le_left _ _).trans (ratioFor_spec hW).le_one

/-- Keeping an image that would not get smaller is no special case. -/
theorem resize_eq (hW : IsDimension srcW) (hH : IsDimension srcH) : resizeDimensions srcW srcH maxW maxH =
    (scale srcW (ratio srcW srcH maxW maxH), scale srcH (ratio srcW srcH maxW maxH)) := by
  have h0 : 0 < ratio srcW srcH maxW maxH := ratio_pos hW hH
  have h1 : ratio srcW srcH maxW maxH ≤ 1 := ratio_le_one hW
  unfold resizeDimensions
  rw [fitDimensions_eq hW hH]
  dsimp only
  split_ifs with hkeep
  · obtain ⟨hkeepW, hkeepH⟩ := hkeep
    rw [Int64.le_iff_toInt_le] at hkeepW hkeepH
    have hw := Int64.toInt_inj.mp (le_antisymm hkeepW (scale_le_src hW h0 h1))
    have hh := Int64.toInt_inj.mp (le_antisymm hkeepH (scale_le_src hH h0 h1))
    exact Prod.ext hw hh
  · rfl

/-- Within both limits nothing is scaled. -/
theorem resize_of_le (hW : IsDimension srcW) (hH : IsDimension srcH) (hfitW : 0 < maxW → srcW ≤ maxW)
    (hfitH : 0 < maxH → srcH ≤ maxH) : resizeDimensions srcW srcH maxW maxH = (srcW, srcH) := by
  have hratio : ratio srcW srcH maxW maxH = 1 := by
    unfold ratio
    rw [ratioFor_of_le hfitW, ratioFor_of_le hfitH, min_self]
  rw [resize_eq hW hH, hratio, scale_one hW, scale_one hH]

/-- The cross products of two sides that are each within a pixel of exact proportion. -/
theorem aspect_lt {w h sW sH : ℤ} {r : ℚ} (hsW : 0 < sW) (hsH : 0 < sH) (hw : |(w : ℚ) - sW * r| < 1)
    (hh : |(h : ℚ) - sH * r| < 1) : |w * sH - h * sW| < sW + sH := by
  have hsW' : (0 : ℚ) < sW := by exact_mod_cast hsW
  have hsH' : (0 : ℚ) < sH := by exact_mod_cast hsH
  have hcross : |(w : ℚ) * sH - h * sW| < sW + sH := by
    calc |(w : ℚ) * sH - h * sW| = |(w - sW * r) * sH - (h - sH * r) * sW| := by
          congr 1
          ring
      _ ≤ |(w - sW * r) * sH| + |(h - sH * r) * sW| := abs_sub _ _
      _ = |(w - sW * r)| * sH + |(h - sH * r)| * sW := by
          rw [abs_mul, abs_mul, abs_of_pos hsH', abs_of_pos hsW']
      _ < 1 * sH + 1 * sW := by gcongr
      _ = sW + sH := by ring
  exact_mod_cast hcross

/-- The dimensions that `Resize` encodes: never empty, enlarged or beyond a limit, in proportion up to a
pixel, no smaller than the limits ask for, and a fixed point of `Resize`. -/
theorem resize_fits (hW : IsDimension srcW) (hH : IsDimension srcH) (maxW maxH : Int64) :
    Fits srcW srcH maxW maxH (resizeDimensions srcW srcH maxW maxH).1
    (resizeDimensions srcW srcH maxW maxH).2 := by
  have h0 : 0 < ratio srcW srcH maxW maxH := ratio_pos hW hH
  have h1 : ratio srcW srcH maxW maxH ≤ 1 := ratio_le_one hW
  have hdimW := isDimension_scale hW h0 h1
  have hdimH := isDimension_scale hH h0 h1
  have hlimitW := scale_le_limit hW h0 (min_le_left _ _)
  have hlimitH := scale_le_limit hH h0 (min_le_right _ _)
  have hone : (1 : Int64).toInt = 1 := by decide
  rw [resize_eq hW hH]
  refine ⟨⟨?_, ?_, hlimitW⟩, ⟨?_, ?_, hlimitH⟩, ?_, ?_, resize_of_le hdimW hdimH hlimitW hlimitH⟩
  · rw [Int64.le_iff_toInt_le, hone]
    exact hdimW.1
  · exact Int64.le_iff_toInt_le.mpr (scale_le_src hW h0 h1)
  · rw [Int64.le_iff_toInt_le, hone]
    exact hdimH.1
  · exact Int64.le_iff_toInt_le.mpr (scale_le_src hH h0 h1)
  · exact aspect_lt hW.1 hH.1 (abs_scale_sub_lt hW h0 h1) (abs_scale_sub_lt hH h0 h1)
  · intro hchanged
    have hratio : ratio srcW srcH maxW maxH ≠ 1 := by
      intro h
      rw [h, scale_one hW, scale_one hH] at hchanged
      cases hchanged <;> contradiction
    -- the smaller of the two ratios is the one that is met
    cases min_choice (ratioFor srcW maxW) (ratioFor srcH maxH) with
    | inl hwidth =>
      have heq : ratio srcW srcH maxW maxH = ratioFor srcW maxW := hwidth
      rw [heq] at hratio ⊢
      exact .inl (limit_le_scale hW hratio)
    | inr hheight =>
      have heq : ratio srcW srcH maxW maxH = ratioFor srcH maxH := hheight
      rw [heq] at hratio ⊢
      exact .inr (limit_le_scale hH hratio)

theorem photo_fits : IsDimension 4000 ∧ IsDimension 3000 ∧
    Fits 4000 3000 1920 1080 (resizeDimensions 4000 3000 1920 1080).1
    (resizeDimensions 4000 3000 1920 1080).2 :=
  ⟨by decide, by decide, resize_fits (by decide) (by decide) 1920 1080⟩

end Resize
end SynapseGo.Imaging
