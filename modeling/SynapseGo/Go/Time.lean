import Mathlib.Algebra.Group.Nat.Defs
import Mathlib.Algebra.Order.Group.Unbundled.Int
import Mathlib.Data.Int.Notation
import Mathlib.Data.Rat.Floor

/-! `time.Time` and `time.Duration`: whole seconds in an `int64` that counts from year 1, and
differences that saturate at the ends of the `int64` nanosecond range. -/
namespace SynapseGo.Go

structure Time where
  /-- Seconds since January 1, year 1. -/
  sec : Int64
  nsec : ℕ
  nsec_lt : nsec < 10 ^ 9

/-- `t.Sub(u)` for two instants in nanoseconds. -/
def subNanos (t u : ℤ) : Int64 :=
  let d := t - u
  if d < -2 ^ 63 then Int64.minValue else if 2 ^ 63 ≤ d then Int64.maxValue else Int64.ofInt d

theorem toInt_subNanos (t u : ℤ) : (subNanos t u).toInt =
    if t - u < -2 ^ 63 then -2 ^ 63 else if 2 ^ 63 ≤ t - u then 2 ^ 63 - 1 else t - u := by
  unfold subNanos
  dsimp only
  split_ifs with hlo hhi
  · exact Int64.toInt_minValue
  · exact Int64.toInt_maxValue
  · exact Int64.toInt_ofInt_of_le (by omega) (by omega)

/-- Saturation does not change how a difference compares with a positive duration. -/
theorem le_subNanos {d : Int64} {t u : ℤ} (hd : 0 < d) : d ≤ subNanos t u ↔ d.toInt ≤ t - u := by
  rw [Int64.lt_iff_toInt_lt, Int64.toInt_zero] at hd
  have hhi := Int64.toInt_lt d
  rw [Int64.le_iff_toInt_le, toInt_subNanos]
  split_ifs <;> omega

theorem toInt_subNanos_of_lt {t u : ℤ} (hlo : 0 ≤ t - u) (hhi : t - u < 2 ^ 63) :
    (subNanos t u).toInt = t - u := by
  rw [toInt_subNanos, if_neg (by omega), if_neg (by omega)]

/-- `time.Duration(x)` of a float: truncation, and the least integer out of range, as on amd64. -/
def toDuration (x : ℚ) : Int64 :=
  if -2 ^ 63 ≤ x ∧ x < 2 ^ 63 then Int64.ofInt (x.num.tdiv x.den) else Int64.minValue

theorem toInt_toDuration {x : ℚ} (h0 : 0 ≤ x) (h : x < 2 ^ 63) : (toDuration x).toInt = ⌊x⌋ := by
  have hlo : (-2 ^ 63 : ℚ) ≤ x := le_trans (by norm_num) h0
  have hfloor : x.num.tdiv x.den = ⌊x⌋ := by
    rw [Int.tdiv_eq_ediv_of_nonneg (Rat.num_nonneg.mpr h0), Rat.floor_def']
  have hnonneg : 0 ≤ ⌊x⌋ := Int.floor_nonneg.mpr h0
  have hlt : ⌊x⌋ < 2 ^ 63 := by
    rw [Int.floor_lt]
    exact_mod_cast h
  rw [toDuration, if_pos ⟨hlo, h⟩, hfloor]
  exact Int64.toInt_ofInt_of_le (by omega) (by omega)

theorem toDuration_of_le {x : ℚ} (h : 2 ^ 63 ≤ x) : toDuration x = Int64.minValue :=
  if_neg fun hx => absurd hx.2 (not_lt.mpr h)

/-- Seconds from year 1 to the Unix epoch. -/
def unixToInternal : Int64 := 62135596800

namespace Time

/-- `t.IsZero()`. -/
def isZero (t : Time) : Bool := t.sec = 0 && t.nsec = 0

/-- `time.Unix(sec, 0)`; the addition wraps. -/
def ofUnix (sec : Int64) : Time := ⟨sec + unixToInternal, 0, by decide⟩

/-- `t.Unix()`. -/
def unix (t : Time) : Int64 := t.sec - unixToInternal

/-- The exact instant, in nanoseconds since the Unix epoch. -/
def unixNanos (t : Time) : ℤ := (t.sec.toInt - unixToInternal.toInt) * 10 ^ 9 + t.nsec

/-- `t.Sub(u)`. -/
def sub (t u : Time) : Int64 := subNanos t.unixNanos u.unixNanos

/-- The seconds of a time moved by `d` seconds; they stay at the end of the range. -/
def addSec (sec d : Int64) : Int64 :=
  if sec < sec + d ↔ 0 < d then sec + d else if 0 < d then Int64.maxValue else -Int64.maxValue

private theorem nanos_lt (d : Int64) :
    -10 ^ 9 < (d % 1000000000).toInt ∧ (d % 1000000000).toInt < 10 ^ 9 := by
  rw [Int64.toInt_mod]
  exact ⟨Int.lt_tmod_of_pos d.toInt (by decide), Int.tmod_lt_of_pos d.toInt (by decide)⟩

/-- `t.Add(d)`. Division of a duration truncates, so the nanoseconds may need a carry either way. -/
def add (t : Time) (d : Int64) : Time :=
  let dsec := d / 1000000000
  let nsec := (t.nsec : ℤ) + (d % 1000000000).toInt
  have hnsec : -10 ^ 9 < nsec ∧ nsec < 2 * 10 ^ 9 := by
    have hd := nanos_lt d
    have ht := t.nsec_lt
    omega
  if hcarry : 10 ^ 9 ≤ nsec then ⟨addSec t.sec (dsec + 1), (nsec - 10 ^ 9).toNat, by omega⟩
  else if hborrow : nsec < 0 then ⟨addSec t.sec (dsec - 1), (nsec + 10 ^ 9).toNat, by omega⟩
  else ⟨addSec t.sec dsec, nsec.toNat, by omega⟩

/-- Seconds that `time.Unix` cannot represent: the internal count wraps. -/
def Wraps (sec : Int64) : Prop := 2 ^ 63 ≤ sec.toInt + unixToInternal.toInt

instance (sec : Int64) : Decidable (Wraps sec) := inferInstanceAs (Decidable (_ ≤ _))

theorem toInt_unixToInternal : unixToInternal.toInt = 62135596800 := by decide

/-- A sum in the range of `int64` does not wrap. -/
theorem toInt_add_of_fits {a b : Int64} (hlo : -2 ^ 63 ≤ a.toInt + b.toInt)
    (hhi : a.toInt + b.toInt < 2 ^ 63) : (a + b).toInt = a.toInt + b.toInt := by
  rw [Int64.toInt_add]
  apply Int.bmod_eq_of_le <;> omega

theorem toInt_addSec {sec d : Int64} (hlo : -2 ^ 63 ≤ sec.toInt + d.toInt)
    (hhi : sec.toInt + d.toInt < 2 ^ 63) :
    (addSec sec d).toInt = sec.toInt + d.toInt := by
  have hsum := toInt_add_of_fits hlo hhi
  have hsign : sec < sec + d ↔ 0 < d := by
    rw [Int64.lt_iff_toInt_lt, Int64.lt_iff_toInt_lt, hsum, Int64.toInt_zero]
    omega
  rw [addSec, if_pos hsign, hsum]

/-- A whole number of seconds moves the seconds only. -/
theorem add_sec {t : Time} {d : Int64} {n : ℤ} (hd : d.toInt = n * 10 ^ 9)
    (hlo : -2 ^ 63 ≤ t.sec.toInt + n) (hhi : t.sec.toInt + n < 2 ^ 63) :
    (t.add d).sec.toInt = t.sec.toInt + n := by
  have hrange := Int64.toInt_lt d
  have hrange' := Int64.le_toInt d
  have hbillion : (1000000000 : Int64).toInt = 10 ^ 9 := by decide
  have hmod : (d % 1000000000).toInt = 0 := by
    rw [Int64.toInt_mod, hbillion, hd]
    exact Int.mul_tmod_left n (10 ^ 9)
  have hdiv : (d / 1000000000).toInt = n := by
    rw [Int64.toInt_div, hbillion, hd, Int.mul_tdiv_cancel n (by decide)]
    apply Int.bmod_eq_of_le <;> omega
  have hnsec := t.nsec_lt
  unfold add
  dsimp only
  rw [dif_neg (by omega), dif_neg (by omega), toInt_addSec] <;> rw [hdiv] <;> omega

/-- `t.Unix()` counts on from the Unix epoch unless it wraps. -/
theorem toInt_unix {t : Time} (h : -2 ^ 63 + 62135596800 ≤ t.sec.toInt) :
    t.unix.toInt = t.sec.toInt - 62135596800 := by
  have hlt := Int64.toInt_lt t.sec
  have hexact : (t.sec.toInt - 62135596800).bmod (2 ^ 64) = t.sec.toInt - 62135596800 := by
    apply Int.bmod_eq_of_le <;> omega
  rw [unix, Int64.toInt_sub, toInt_unixToInternal, hexact]

/-- The internal seconds of a time whose Unix seconds lie in the range of `time.Unix`. -/
theorem toInt_sec {t : Time} (h0 : 0 ≤ t.unix.toInt) (h : t.unix.toInt < 2 ^ 63 - 62135596800) :
    t.sec.toInt = t.unix.toInt + 62135596800 := by
  have hlo := Int64.le_toInt t.sec
  have hhi := Int64.toInt_lt t.sec
  have hunix : t.unix.toInt = (t.sec.toInt - 62135596800).bmod (2 ^ 64) := by
    rw [unix, Int64.toInt_sub, toInt_unixToInternal]
  rw [Int.bmod_def] at hunix
  split_ifs at hunix <;> omega

theorem unixNanos_ofUnix {sec : Int64} (h : ¬ Wraps sec) (hpos : 0 ≤ sec.toInt) :
    (ofUnix sec).unixNanos = sec.toInt * 10 ^ 9 := by
  have hc := toInt_unixToInternal
  unfold Wraps at h
  have hsum : (sec + unixToInternal).toInt = sec.toInt + unixToInternal.toInt :=
    toInt_add_of_fits (by omega) (by omega)
  simp only [ofUnix, unixNanos, hsum]
  omega

/-- A wrapped time lies `2^64` seconds in the past. -/
theorem unixNanos_ofUnix_of_wraps {sec : Int64} (h : Wraps sec) :
    (ofUnix sec).unixNanos = (sec.toInt - 2 ^ 64) * 10 ^ 9 := by
  have hc := toInt_unixToInternal
  have hlt := Int64.toInt_lt sec
  unfold Wraps at h
  have hsum : (sec + unixToInternal).toInt = sec.toInt + unixToInternal.toInt - 2 ^ 64 := by
    rw [Int64.toInt_add, Int.bmod_def]
    split_ifs <;> omega
  simp only [ofUnix, unixNanos, hsum]
  omega

/-- A day of the proleptic Gregorian calendar. -/
structure Date where
  year : ℤ
  month : ℤ
  day : ℤ
  deriving DecidableEq, Repr

/-- `t.UTC().Date()`: days are counted from March 1 of year 0, so that a leap day ends its year. -/
def date (t : Time) : Date :=
  let days := t.sec.toInt / 86400 + 306
  let dayOfEra := days % 146097
  let yearOfEra := (dayOfEra - dayOfEra / 1460 + dayOfEra / 36524 - dayOfEra / 146096) / 365
  let dayOfYear := dayOfEra - (365 * yearOfEra + yearOfEra / 4 - yearOfEra / 100)
  let shifted := (5 * dayOfYear + 2) / 153
  let month := if shifted < 10 then shifted + 3 else shifted - 9
  { year := days / 146097 * 400 + yearOfEra + if month ≤ 2 then 1 else 0
    month := month
    day := dayOfYear - (153 * shifted + 2) / 5 + 1 }

-- The first day, a leap day and the day after it.
example : (Time.ofUnix (-62135596800)).date = ⟨1, 1, 1⟩ ∧ (Time.ofUnix 951782400).date = ⟨2000, 2, 29⟩ ∧
    (Time.ofUnix 951868800).date = ⟨2000, 3, 1⟩ := by decide +kernel

theorem toInt_sub (t u : Time) : (t.sub u).toInt =
    if t.unixNanos - u.unixNanos < -2 ^ 63 then -2 ^ 63
    else if 2 ^ 63 ≤ t.unixNanos - u.unixNanos then 2 ^ 63 - 1 else t.unixNanos - u.unixNanos :=
  toInt_subNanos t.unixNanos u.unixNanos

end Time
end SynapseGo.Go
