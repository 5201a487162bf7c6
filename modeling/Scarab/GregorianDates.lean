import Mathlib

/-!
# Dates of the Gregorian calendar

The proleptic Gregorian calendar, and days counted from 1970-01-01. A `Date` is a day that exists;
its number and the date of a number are inverse to each other.
-/
namespace Scarab.Gregorian

def IsLeap (y : ℤ) : Prop := y % 4 = 0 ∧ (y % 100 ≠ 0 ∨ y % 400 = 0)

instance : DecidablePred IsLeap := fun y => by unfold IsLeap; infer_instance

def yearLength (y : ℤ) : ℤ := if IsLeap y then 366 else 365

/-- The number of January 1st. -/
def yearStart (y : ℤ) : ℤ := 365 * (y - 1970) + (y - 1) / 4 - (y - 1) / 100 + (y - 1) / 400 - 477

def leapDay (y : ℤ) : ℤ := if IsLeap y then 1 else 0

/-- The days of a year before the first of a month; before month 13 are the days of the year. -/
def daysBefore (y : ℤ) : ℕ → ℤ
  | 0 | 1 => 0
  | 2 => 31
  | 3 => 59 + leapDay y
  | 4 => 90 + leapDay y
  | 5 => 120 + leapDay y
  | 6 => 151 + leapDay y
  | 7 => 181 + leapDay y
  | 8 => 212 + leapDay y
  | 9 => 243 + leapDay y
  | 10 => 273 + leapDay y
  | 11 => 304 + leapDay y
  | 12 => 334 + leapDay y
  | _ => 365 + leapDay y

def daysInMonth (y : ℤ) (m : ℕ) : ℤ := daysBefore y (m + 1) - daysBefore y m

/-- The year of a day number: an estimate from the mean length of a year, which is never off by
more than one. -/
def yearOf (n : ℤ) : ℤ :=
  let guess := 400 * (n + 719162) / 146097 + 1
  if n < yearStart guess then guess - 1
  else if yearStart (guess + 1) ≤ n then guess + 1
  else guess

/-- The first month from `m` on, with `k` more to try, that does not end before the day with `o`
days of its year before it. -/
def monthFrom (y o : ℤ) : ℕ → ℕ → ℕ
  | 0, m => m
  | k + 1, m => if o < daysBefore y (m + 1) then m else monthFrom y o k (m + 1)

/-- The month that holds the day with `o` days of its year before it. -/
def monthOf (y o : ℤ) : ℕ := monthFrom y o 11 1

theorem leapDay_cases (y : ℤ) : leapDay y = 0 ∨ leapDay y = 1 := by
  unfold leapDay
  split_ifs <;> simp

theorem yearLength_eq (y : ℤ) : yearLength y = 365 + leapDay y := by
  unfold yearLength leapDay
  split_ifs <;> rfl

theorem yearStart_succ (y : ℤ) : yearStart (y + 1) = yearStart y + yearLength y := by
  have hdiv : (y + 1 - 1) / 4 - (y + 1 - 1) / 100 + (y + 1 - 1) / 400 =
      (y - 1) / 4 - (y - 1) / 100 + (y - 1) / 400 + leapDay y := by
    unfold leapDay IsLeap
    split_ifs <;> omega
  have hlen := yearLength_eq y
  unfold yearStart
  omega

theorem yearStart_lt_succ (y : ℤ) : yearStart y < yearStart (y + 1) := by
  have hsucc := yearStart_succ y
  have hlen := yearLength_eq y
  have hleap := leapDay_cases y
  omega

theorem yearStart_strictMono : StrictMono yearStart := strictMono_int_of_lt_succ yearStart_lt_succ

theorem yearOf_spec (n : ℤ) : yearStart (yearOf n) ≤ n ∧ n < yearStart (yearOf n + 1) := by
  have hguess : 146097 * (400 * (n + 719162) / 146097) ≤ 400 * (n + 719162) ∧
      400 * (n + 719162) < 146097 * (400 * (n + 719162) / 146097) + 146097 := by omega
  unfold yearOf
  generalize hq : 400 * (n + 719162) / 146097 = q at hguess
  have hlow : yearStart (q + 1) ≤ n := by
    unfold yearStart
    omega
  have hhigh : n < yearStart (q + 1 + 1 + 1) := by
    unfold yearStart
    omega
  dsimp only
  rw [if_neg (by omega)]
  split_ifs with hnext
  · exact ⟨hnext, hhigh⟩
  · exact ⟨hlow, by omega⟩

theorem yearOf_eq_iff {n y : ℤ} : yearOf n = y ↔ yearStart y ≤ n ∧ n < yearStart (y + 1) := by
  constructor
  · rintro rfl
    exact yearOf_spec n
  · intro h
    have hspec := yearOf_spec n
    have hle : yearOf n < y + 1 := yearStart_strictMono.lt_iff_lt.mp (by omega)
    have hge : y < yearOf n + 1 := yearStart_strictMono.lt_iff_lt.mp (by omega)
    omega

theorem yearOf_lt_iff {n y : ℤ} : yearOf n < y ↔ n < yearStart y := by
  have hspec := yearOf_spec n
  constructor
  · intro h
    have hle : yearStart (yearOf n + 1) ≤ yearStart y := yearStart_strictMono.monotone (by omega)
    omega
  · intro h
    exact yearStart_strictMono.lt_iff_lt.mp (by omega)

/-- The first day of a month; month 13 is January of the next year. -/
def monthStart (y : ℤ) (m : ℕ) : ℤ := yearStart y + daysBefore y m

theorem daysInMonth_pos (y : ℤ) {m : ℕ} (h1 : 1 ≤ m) (h12 : m ≤ 12) :
    0 < daysInMonth y m := by
  have hleap := leapDay_cases y
  unfold daysInMonth
  interval_cases m <;> simp only [daysBefore] <;> omega

theorem monthStart_lt_succ (y : ℤ) {m : ℕ} (h1 : 1 ≤ m) (h12 : m ≤ 12) :
    monthStart y m < monthStart y (m + 1) := by
  have hpos := daysInMonth_pos y h1 h12
  unfold daysInMonth at hpos
  unfold monthStart
  omega

theorem monthStart_mono (y : ℤ) {m k : ℕ} (h1 : 1 ≤ m) (hmk : m ≤ k) (hk : k ≤ 13) :
    monthStart y m ≤ monthStart y k := by
  induction k, hmk using Nat.le_induction with
  | base => exact le_rfl
  | succ k hmk ih =>
    have hlt := monthStart_lt_succ y (m := k) (by omega) (by omega)
    have hle := ih (by omega)
    omega

theorem monthStart_one (y : ℤ) : monthStart y 1 = yearStart y := by simp [monthStart, daysBefore]

theorem monthStart_thirteen (y : ℤ) : monthStart y 13 = yearStart (y + 1) := by
  rw [yearStart_succ, yearLength_eq]
  rfl

theorem monthFrom_spec {y o : ℤ} (k m : ℕ) (hlow : daysBefore y m ≤ o)
    (hhigh : o < daysBefore y (m + k + 1)) :
    (m ≤ monthFrom y o k m ∧ monthFrom y o k m ≤ m + k) ∧
      daysBefore y (monthFrom y o k m) ≤ o ∧ o < daysBefore y (monthFrom y o k m + 1) := by
  induction k generalizing m with
  | zero => exact ⟨⟨le_rfl, le_rfl⟩, hlow, hhigh⟩
  | succ k ih =>
    unfold monthFrom
    split_ifs with hm
    · exact ⟨by omega, hlow, hm⟩
    · have hnext := ih (m + 1) (by omega) (by rw [show m + 1 + k + 1 = m + (k + 1) + 1 by omega]; exact hhigh)
      exact ⟨by omega, hnext.2⟩

theorem monthOf_spec {y o : ℤ} (h0 : 0 ≤ o) (hlt : o < 365 + leapDay y) :
    (1 ≤ monthOf y o ∧ monthOf y o ≤ 12) ∧
      daysBefore y (monthOf y o) ≤ o ∧ o < daysBefore y (monthOf y o + 1) :=
  monthFrom_spec 11 1 h0 hlt

@[ext]
structure Date where
  year : ℤ
  month : ℕ
  day : ℕ
  month_valid : 1 ≤ month ∧ month ≤ 12
  day_valid : 1 ≤ day ∧ (day : ℤ) ≤ daysInMonth year month
deriving DecidableEq

/-- The days from 1970-01-01. -/
def Date.number (d : Date) : ℤ := monthStart d.year d.month + (d.day - 1)

theorem ordinal_spec (n : ℤ) :
    0 ≤ n - yearStart (yearOf n) ∧ n - yearStart (yearOf n) < 365 + leapDay (yearOf n) := by
  have hspec := yearOf_spec n
  have hsucc := yearStart_succ (yearOf n)
  have hlen := yearLength_eq (yearOf n)
  omega

/-- The date with a number. -/
def dateOf (n : ℤ) : Date where
  year := yearOf n
  month := monthOf (yearOf n) (n - yearStart (yearOf n))
  day := (n - monthStart (yearOf n) (monthOf (yearOf n) (n - yearStart (yearOf n))) + 1).toNat
  month_valid := (monthOf_spec (ordinal_spec n).1 (ordinal_spec n).2).1
  day_valid := by
    have hmonth := (monthOf_spec (ordinal_spec n).1 (ordinal_spec n).2).2
    unfold monthStart daysInMonth
    omega

theorem number_dateOf (n : ℤ) : (dateOf n).number = n := by
  have hmonth := (monthOf_spec (ordinal_spec n).1 (ordinal_spec n).2).2
  simp only [Date.number, dateOf, monthStart]
  omega

theorem Date.monthStart_le (d : Date) : monthStart d.year d.month ≤ d.number := by
  have hday := d.day_valid
  unfold Date.number
  omega

theorem Date.lt_monthStart (d : Date) : d.number < monthStart d.year (d.month + 1) := by
  have hday := d.day_valid
  unfold daysInMonth at hday
  unfold Date.number monthStart
  omega

theorem Date.yearOf_number (d : Date) : yearOf d.number = d.year := by
  have hmonth := d.month_valid
  have hlow := monthStart_mono d.year (le_refl 1) hmonth.1 (by omega)
  have hhigh := monthStart_mono d.year (k := 13) (m := d.month + 1) (by omega) (by omega) (by omega)
  have hle := d.monthStart_le
  have hlt := d.lt_monthStart
  rw [monthStart_one] at hlow
  rw [monthStart_thirteen] at hhigh
  exact yearOf_eq_iff.mpr (by omega)

theorem month_unique {y n : ℤ} {m k : ℕ} (hm : 1 ≤ m ∧ m ≤ 12) (hk : 1 ≤ k ∧ k ≤ 12)
    (hmn : monthStart y m ≤ n ∧ n < monthStart y (m + 1))
    (hkn : monthStart y k ≤ n ∧ n < monthStart y (k + 1)) : m = k := by
  rcases lt_trichotomy m k with hlt | heq | hgt
  · have hle := monthStart_mono y (m := m + 1) (k := k) (by omega) hlt (by omega)
    omega
  · exact heq
  · have hle := monthStart_mono y (m := k + 1) (k := m) (by omega) hgt (by omega)
    omega

theorem Date.number_injective : Function.Injective Date.number := by
  intro a b hab
  have hyear : a.year = b.year := by rw [← a.yearOf_number, ← b.yearOf_number, hab]
  have hmonth : a.month = b.month := by
    apply month_unique a.month_valid b.month_valid (y := a.year) (n := a.number)
    · exact ⟨a.monthStart_le, a.lt_monthStart⟩
    · rw [hab, hyear]
      exact ⟨b.monthStart_le, b.lt_monthStart⟩
  have hday : a.day = b.day := by
    have hnum := hab
    unfold Date.number at hnum
    rw [hyear, hmonth] at hnum
    omega
  exact Date.ext hyear hmonth hday

theorem dateOf_number (d : Date) : dateOf d.number = d :=
  Date.number_injective (number_dateOf d.number)

theorem sameMonth_iff {n y : ℤ} {m : ℕ} (hm : 1 ≤ m ∧ m ≤ 12) :
    (dateOf n).year = y ∧ (dateOf n).month = m ↔
      monthStart y m ≤ n ∧ n < monthStart y (m + 1) := by
  have hle := (dateOf n).monthStart_le
  have hlt := (dateOf n).lt_monthStart
  rw [number_dateOf] at hle hlt
  constructor
  · rintro ⟨rfl, rfl⟩
    exact ⟨hle, hlt⟩
  · intro h
    have hlow := monthStart_mono y (le_refl 1) hm.1 (by omega)
    have hhigh := monthStart_mono y (k := 13) (m := m + 1) (by omega) (by omega) (by omega)
    rw [monthStart_one] at hlow
    rw [monthStart_thirteen] at hhigh
    have hyear : (dateOf n).year = y := yearOf_eq_iff.mpr (by omega)
    rw [hyear] at hle hlt
    exact ⟨hyear, month_unique (dateOf n).month_valid hm ⟨hle, hlt⟩ h⟩

/-- The days from Sunday; 1970-01-01 is a Thursday. -/
def Date.weekday (d : Date) : ℕ := ((d.number + 4) % 7).toNat

/-- Leap years begin on every day of the week, and so do the other years. -/
theorem exists_yearStart (l r : ℤ) (hl : l = 0 ∨ l = 1) (hr : 0 ≤ r ∧ r < 7) :
    ∃ y, leapDay y = l ∧ yearStart y % 7 = r := by
  obtain ⟨h0, h7⟩ := hr
  rcases hl with rfl | rfl
  · interval_cases r
    · exact ⟨1970, by decide⟩
    · exact ⟨1971, by decide⟩
    · exact ⟨1977, by decide⟩
    · exact ⟨1978, by decide⟩
    · exact ⟨1973, by decide⟩
    · exact ⟨1974, by decide⟩
    · exact ⟨1975, by decide⟩
  · interval_cases r
    · exact ⟨1976, by decide⟩
    · exact ⟨1988, by decide⟩
    · exact ⟨1972, by decide⟩
    · exact ⟨1984, by decide⟩
    · exact ⟨1996, by decide⟩
    · exact ⟨1980, by decide⟩
    · exact ⟨1992, by decide⟩

theorem daysBefore_congr {x y : ℤ} (h : leapDay x = leapDay y) (m : ℕ) :
    daysBefore x m = daysBefore y m := by
  unfold daysBefore
  split <;> simp [h]

/-- Every month and day that exist in some year fall on every day of the week. -/
theorem exists_weekday (d : Date) {w : ℕ} (hw : w < 7) :
    ∃ e : Date, e.month = d.month ∧ e.day = d.day ∧ e.weekday = w := by
  obtain ⟨y, hleap, hstart⟩ := exists_yearStart (leapDay d.year)
    ((w - daysBefore d.year d.month - (d.day - 1) - 4) % 7) (leapDay_cases d.year) (by omega)
  have hbefore : daysBefore y d.month = daysBefore d.year d.month := daysBefore_congr hleap _
  have hlength : daysInMonth y d.month = daysInMonth d.year d.month := by
    simp only [daysInMonth, daysBefore_congr hleap]
  refine ⟨⟨y, d.month, d.day, d.month_valid, by rw [hlength]; exact d.day_valid⟩, rfl, rfl, ?_⟩
  simp only [Date.weekday, Date.number, monthStart, hbefore]
  omega

end Scarab.Gregorian
