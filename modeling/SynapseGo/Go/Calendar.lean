import SynapseGo.Go.Time

/-! The days that `Time.date` counts: a date determines its day, and its fields lie in their ranges. -/
namespace SynapseGo.Go.Calendar

/-- Day `d` of an era of 400 years: day `y` of year `k` of the `j`-th four years of century `h`. Years
begin in March, so that a leap day is the last day of the fourth year. -/
structure Place (d h j k y : ℤ) : Prop where
  day : d = 36524 * h + 1461 * j + 365 * k + y
  century : 0 ≤ h ∧ h ≤ 3
  four : 0 ≤ j ∧ j ≤ 24
  year : 0 ≤ k ∧ k ≤ 3
  dayOfYear : 0 ≤ y ∧ (y ≤ 364 ∨ k = 3 ∧ y = 365)
  /-- Only the last century ends with a leap day. -/
  leap : j = 24 → k = 3 → y = 365 → h = 3

theorem exists_place {d : ℤ} (h0 : 0 ≤ d) (hlt : d < 146097) : ∃ h j k y, Place d h j k y := by
  obtain ⟨h, hh, hlo, hhi⟩ : ∃ h : ℤ, (0 ≤ h ∧ h ≤ 3) ∧ 36524 * h ≤ d ∧
      (d < 36524 * h + 36524 ∨ h = 3 ∧ d = 146096) := by
    by_cases hlast : d = 146096
    · exact ⟨3, by omega⟩
    · exact ⟨d / 36524, by omega⟩
  obtain ⟨k, hk, hklo, hkhi⟩ : ∃ k : ℤ, (0 ≤ k ∧ k ≤ 3) ∧ 365 * k ≤ (d - 36524 * h) % 1461 ∧
      ((d - 36524 * h) % 1461 < 365 * k + 365 ∨ k = 3 ∧ (d - 36524 * h) % 1461 = 1460) := by
    by_cases hlast : (d - 36524 * h) % 1461 = 1460
    · exact ⟨3, by omega⟩
    · exact ⟨(d - 36524 * h) % 1461 / 365, by omega⟩
  refine ⟨h, (d - 36524 * h) / 1461, k, (d - 36524 * h) % 1461 - 365 * k, ?_⟩
  constructor <;> omega

section Place
variable {d h j k y : ℤ} (hp : Place d h j k y)
include hp

theorem Place.century_eq : d / 36524 - d / 146096 = h := by
  obtain ⟨hd, hh, hj, hk, hy, hleap⟩ := hp
  have hrest : 1461 * j + 365 * k + y ≤ 36523 ∨ h = 3 ∧ 1461 * j + 365 * k + y = 36524 := by omega
  rcases hrest with hrest | ⟨rfl, hrest⟩
  · have hdiv : d / 36524 = h := by omega
    have hzero : d / 146096 = 0 := by omega
    omega
  · have hlast : d = 146096 := by omega
    subst hlast
    decide

theorem Place.yearOfEra_eq : (d - d / 1460 + d / 36524 - d / 146096) / 365 = 100 * h + 4 * j + k := by
  have hcentury := hp.century_eq
  obtain ⟨hd, hh, hj, hk, hy, hleap⟩ := hp
  have hfour : d / 1460 = 25 * h + j + (24 * h + j + 365 * k + y) / 1460 := by omega
  have hcarry : (24 * h + j + 365 * k + y) / 1460 = 0 ∨ (24 * h + j + 365 * k + y) / 1460 = 1 ∧ 1 ≤ y := by
    omega
  omega

theorem Place.dayOfYear_eq : d - (365 * (100 * h + 4 * j + k) + (100 * h + 4 * j + k) / 4 -
    (100 * h + 4 * j + k) / 100) = y := by
  obtain ⟨hd, hh, hj, hk, hy, hleap⟩ := hp
  omega

end Place

/-- The year, month and day of day `y` of a year that begins in March of `year`. -/
def dateOf (year y : ℤ) : Time.Date :=
  let shifted := (5 * y + 2) / 153
  let month := if shifted < 10 then shifted + 3 else shifted - 9
  { year := year + if month ≤ 2 then 1 else 0
    month := month
    day := y - (153 * shifted + 2) / 5 + 1 }

theorem date_eq (t : Time) {h j k y : ℤ} (hp : Place ((t.sec.toInt / 86400 + 306) % 146097) h j k y) :
    t.date = dateOf ((t.sec.toInt / 86400 + 306) / 146097 * 400 + (100 * h + 4 * j + k)) y := by
  unfold Time.date
  dsimp only
  rw [hp.yearOfEra_eq, hp.dayOfYear_eq]
  rfl

theorem dateOf_bounds {year y : ℤ} (h0 : 0 ≤ y) (hle : y ≤ 365) :
    (dateOf year y).year = (if y < 306 then year else year + 1) ∧
    1 ≤ (dateOf year y).month ∧ (dateOf year y).month ≤ 12 ∧
    1 ≤ (dateOf year y).day ∧ (dateOf year y).day ≤ 31 := by
  unfold dateOf
  dsimp only
  split_ifs <;> omega

theorem dateOf_inj {year year' y y' : ℤ} (h0 : 0 ≤ y) (hle : y ≤ 365) (h0' : 0 ≤ y') (hle' : y' ≤ 365)
    (h : dateOf year y = dateOf year' y') : year = year' ∧ y = y' := by
  unfold dateOf at h
  obtain ⟨hyear, hmonth, hday⟩ := Time.Date.mk.inj h
  have hshifted : (5 * y + 2) / 153 = (5 * y' + 2) / 153 := by
    split_ifs at hmonth <;> omega
  rw [hshifted] at hyear hday
  omega

/-- A date is the date of one day only. -/
theorem day_eq_of_date_eq {t u : Time} (h : t.date = u.date) : t.sec.toInt / 86400 = u.sec.toInt / 86400 := by
  obtain ⟨ht, jt, kt, yt, hp⟩ :=
    exists_place (d := (t.sec.toInt / 86400 + 306) % 146097) (by omega) (by omega)
  obtain ⟨hu, ju, ku, yu, hq⟩ :=
    exists_place (d := (u.sec.toInt / 86400 + 306) % 146097) (by omega) (by omega)
  rw [date_eq t hp, date_eq u hq] at h
  have hyt := hp.dayOfYear
  have hyu := hq.dayOfYear
  obtain ⟨hyear, hday⟩ := dateOf_inj (by omega) (by omega) (by omega) (by omega) h
  obtain ⟨hd, hh, hj, hk, -, -⟩ := hp
  obtain ⟨hd', hh', hj', hk', -, -⟩ := hq
  omega

/-- The seconds, counted from January 1, year 1, of the years with at most four digits. -/
def FourDigit (sec : ℤ) : Prop := 0 ≤ sec ∧ sec < 315537897600

instance (sec : ℤ) : Decidable (FourDigit sec) := inferInstanceAs (Decidable (_ ∧ _))

theorem date_bounds {t : Time} (ht : FourDigit t.sec.toInt) : 0 ≤ t.date.year ∧ t.date.year < 10 ^ 4 ∧
    0 ≤ t.date.month ∧ t.date.month < 10 ^ 2 ∧ 0 ≤ t.date.day ∧ t.date.day < 10 ^ 2 := by
  obtain ⟨h, j, k, y, hp⟩ := exists_place (d := (t.sec.toInt / 86400 + 306) % 146097) (by omega) (by omega)
  have hy := hp.dayOfYear
  have hbounds := @dateOf_bounds ((t.sec.toInt / 86400 + 306) / 146097 * 400 + (100 * h + 4 * j + k)) y
    (by omega) (by omega)
  rw [← date_eq t hp] at hbounds
  obtain ⟨hlo, hhi⟩ := ht
  obtain ⟨hd, hh, hj, hk, -, -⟩ := hp
  split_ifs at hbounds <;> omega

end SynapseGo.Go.Calendar
