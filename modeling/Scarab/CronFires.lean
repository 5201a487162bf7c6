import Scarab.CronSchedule

/-!
# The next fire of a schedule

What a schedule's five sets match, the walk of `nextAfter` as a search that passes no match, and
the least time between two fires.
-/
namespace Scarab.Cron

open Gregorian ForwardSearch

theorem hasBit_iff {w : ℕ} {bits : BitVec w} {k : ℕ} : hasBit bits k = true ↔ k ∈ bitSet bits :=
  mask_ne_zero_iff

namespace Schedule

/-- The cron day rule: either day field when both are restricted, otherwise both. -/
def DayRule (s : Schedule) (d : Date) : Prop :=
  if s.domAny = true ∨ s.dowAny = true then
    d.day ∈ bitSet s.daysOfMonth ∧ d.weekday ∈ bitSet s.daysOfWeek
  else d.day ∈ bitSet s.daysOfMonth ∨ d.weekday ∈ bitSet s.daysOfWeek

def MatchesDate (s : Schedule) (d : Date) : Prop := d.month ∈ bitSet s.months ∧ s.DayRule d

def MatchesTime (s : Schedule) (t : ℤ) : Prop :=
  Minute.hour t ∈ bitSet s.hours ∧ Minute.minute t ∈ bitSet s.minutes

/-- A whole minute matches the five fields. -/
def Matches (s : Schedule) (t : ℤ) : Prop :=
  s.MatchesDate (Minute.date t) ∧ s.MatchesTime t

theorem monthMatches_iff {s : Schedule} {m : ℕ} :
    s.monthMatches m = true ↔ m ∈ bitSet s.months := hasBit_iff

theorem dayMatches_iff {s : Schedule} {d : Date} : s.dayMatches d = true ↔ s.DayRule d := by
  unfold dayMatches DayRule
  cases s.domAny <;> cases s.dowAny <;> simp [hasBit_iff]

theorem date_eq_of_sameDay {t w : ℤ} (h : w / 1440 = t / 1440) :
    Minute.date w = Minute.date t := by
  unfold Minute.date
  rw [h]

/-- The first of the next month is midnight of the first day past the month. -/
theorem firstOfNextMonth_eq (t : ℤ) :
    firstOfNextMonth t =
      Minute.midnight (monthStart (Minute.date t).year ((Minute.date t).month + 1)) := by
  unfold firstOfNextMonth
  by_cases hdec : (Minute.date t).month = 12
  · simp [hdec, monthStart_one, monthStart_thirteen]
  · simp [hdec]

theorem monthStart_le (t : ℤ) :
    1440 * monthStart (Minute.date t).year (Minute.date t).month ≤ t := by
  have hle := (Minute.date t).monthStart_le
  rw [Minute.date, number_dateOf] at hle
  unfold Minute.date
  omega

theorem lt_nextMonth (t : ℤ) :
    t < 1440 * monthStart (Minute.date t).year ((Minute.date t).month + 1) := by
  have hlt := (Minute.date t).lt_monthStart
  rw [Minute.date, number_dateOf] at hlt
  unfold Minute.date
  omega

theorem not_matches_of_month {s : Schedule} {t w : ℤ}
    (hm : s.monthMatches (Minute.date t).month = false) (hle : t ≤ w)
    (hlt : w < 1440 * monthStart (Minute.date t).year ((Minute.date t).month + 1)) :
    ¬ s.Matches w := by
  have hstart := monthStart_le t
  have hsame := (sameMonth_iff (n := w / 1440) (y := (Minute.date t).year)
    (Minute.date t).month_valid).mpr (by omega)
  intro hw
  have hmonth : (Minute.date w).month ∈ bitSet s.months := hw.1.1
  have heq : (Minute.date w).month = (Minute.date t).month := hsame.2
  rw [heq, ← monthMatches_iff, hm] at hmonth
  cases hmonth

theorem not_matches_of_day {s : Schedule} {t w : ℤ}
    (hd : s.dayMatches (Minute.date t) = false) (hle : t ≤ w) (hlt : w < 1440 * (t / 1440 + 1)) :
    ¬ s.Matches w := by
  intro hw
  have hday : s.DayRule (Minute.date w) := hw.1.2
  rw [date_eq_of_sameDay (t := t) (by omega), ← dayMatches_iff, hd] at hday
  cases hday

theorem not_matches_of_hour {s : Schedule} {t w : ℤ}
    (hh : hasBit s.hours (Minute.hour t) = false) (hle : t ≤ w)
    (hlt : w < t - Minute.minute t + 60) : ¬ s.Matches w := by
  intro hw
  have hhour : Minute.hour w ∈ bitSet s.hours := hw.2.1
  have heq : Minute.hour w = Minute.hour t := by
    unfold Minute.hour
    unfold Minute.minute at hlt
    omega
  rw [heq, ← hasBit_iff, hh] at hhour
  cases hhour

theorem not_matches_of_minute {s : Schedule} {t w : ℤ}
    (hm : hasBit s.minutes (Minute.minute t) = false) (hle : t ≤ w) (hlt : w < t + 1) :
    ¬ s.Matches w := by
  intro hw
  have hmin : Minute.minute w ∈ bitSet s.minutes := hw.2.2
  rw [show w = t by omega, ← hasBit_iff, hm] at hmin
  cases hmin

/-- What one turn of the loop does: it ends past the span, finds a match, or passes the times
before `next`, which match nothing. -/
theorem move_cases (s : Schedule) (limitYear t : ℤ) :
    (limitYear < (Minute.date t).year ∧ s.move limitYear t = .halt .noFire) ∨
    ((Minute.date t).year ≤ limitYear ∧ s.Matches t ∧ s.move limitYear t = .found) ∨
    ((Minute.date t).year ≤ limitYear ∧
      ∃ next, t < next ∧ (∀ w, t ≤ w → w < next → ¬ s.Matches w) ∧
        ((Minute.InRange next ∧ s.move limitYear t = .skip next) ∨
          (¬ Minute.InRange next ∧ s.move limitYear t = .halt .noFire) ∨
          (¬ Minute.InRange next ∧ next ≤ t + 60 ∧ s.move limitYear t = .halt .overflow))) := by
  by_cases hyear : limitYear < (Minute.date t).year
  · exact .inl ⟨hyear, by simp [move, hyear]⟩
  right
  have hmidnight : ∀ day, (Minute.InRange (1440 * day) ∧
        skipTo (Minute.midnight day) = .skip (1440 * day)) ∨
      (¬ Minute.InRange (1440 * day) ∧ skipTo (Minute.midnight day) = .halt .noFire) := by
    intro day
    by_cases hr : Minute.InRange (1440 * day)
    · exact .inl ⟨hr, by simp [Minute.midnight, hr, skipTo]⟩
    · exact .inr ⟨hr, by simp [Minute.midnight, hr, skipTo]⟩
  have hadd : ∀ next, (Minute.InRange next ∧ addTo next = .skip next) ∨
      (¬ Minute.InRange next ∧ addTo next = .halt .overflow) := by
    intro next
    by_cases hr : Minute.InRange next
    · exact .inl ⟨hr, by simp [addTo, hr]⟩
    · exact .inr ⟨hr, by simp [addTo, hr]⟩
  cases hm : s.monthMatches (Minute.date t).month with
  | false =>
    right
    refine ⟨by omega, _, lt_nextMonth t, fun w => not_matches_of_month hm, ?_⟩
    have hmove : s.move limitYear t = skipTo (firstOfNextMonth t) := by simp [move, hyear, hm]
    rw [hmove, firstOfNextMonth_eq]
    rcases hmidnight (monthStart (Minute.date t).year ((Minute.date t).month + 1)) with h | h
    · exact .inl h
    · exact .inr (.inl h)
  | true =>
  cases hd : s.dayMatches (Minute.date t) with
  | false =>
    right
    refine ⟨by omega, 1440 * (t / 1440 + 1), by omega, fun w => not_matches_of_day hd, ?_⟩
    have hmove : s.move limitYear t = skipTo (Minute.midnight (t / 1440 + 1)) := by
      simp [move, hyear, hm, hd]
    rw [hmove]
    rcases hmidnight (t / 1440 + 1) with h | h
    · exact .inl h
    · exact .inr (.inl h)
  | true =>
  cases hh : hasBit s.hours (Minute.hour t) with
  | false =>
    right
    have hminute : (Minute.minute t : ℤ) < 60 := by
      unfold Minute.minute
      omega
    refine ⟨by omega, t - Minute.minute t + 60, by omega, fun w => not_matches_of_hour hh, ?_⟩
    have hmove : s.move limitYear t = addTo (t - Minute.minute t + 60) := by
      simp [move, hyear, hm, hd, hh]
    rw [hmove]
    rcases hadd (t - Minute.minute t + 60) with h | h
    · exact .inl h
    · exact .inr (.inr ⟨h.1, by omega, h.2⟩)
  | true =>
  cases hmin : hasBit s.minutes (Minute.minute t) with
  | false =>
    right
    refine ⟨by omega, t + 1, by omega, fun w => not_matches_of_minute hmin, ?_⟩
    have hmove : s.move limitYear t = addTo (t + 1) := by simp [move, hyear, hm, hd, hh, hmin]
    rw [hmove]
    rcases hadd (t + 1) with h | h
    · exact .inl h
    · exact .inr (.inr ⟨h.1, by omega, h.2⟩)
  | true =>
    left
    refine ⟨by omega, ⟨⟨monthMatches_iff.mp hm, dayMatches_iff.mp hd⟩, hasBit_iff.mp hh,
      hasBit_iff.mp hmin⟩, ?_⟩
    simp [move, hyear, hm, hd, hh, hmin]

theorem year_le_iff {t y : ℤ} : (Minute.date t).year ≤ y ↔ t < 1440 * yearStart (y + 1) := by
  have hlt : yearOf (t / 1440) < y + 1 ↔ t / 1440 < yearStart (y + 1) := yearOf_lt_iff
  have hyear : (Minute.date t).year = yearOf (t / 1440) := rfl
  omega

/-- The matches a search up to the end of a year looks for. -/
def Wanted (s : Schedule) (limitYear t : ℤ) : Prop := s.Matches t ∧ (Minute.date t).year ≤ limitYear

theorem move_sound (s : Schedule) (limitYear : ℤ) :
    Sound (s.Wanted limitYear) (s.move limitYear) where
  found t ht := by
    rcases move_cases s limitYear t with
      ⟨_, h⟩ | ⟨hy, hm, h⟩ | ⟨_, next, _, _, ⟨_, h⟩ | ⟨_, h⟩ | ⟨_, _, h⟩⟩
    all_goals first | exact ⟨hm, hy⟩ | (rw [ht] at h; cases h)
  up t next ht := by
    rcases move_cases s limitYear t with
      ⟨_, h⟩ | ⟨_, _, h⟩ | ⟨_, next', hlt, _, ⟨_, h⟩ | ⟨_, h⟩ | ⟨_, _, h⟩⟩
    all_goals rw [ht] at h; cases h
    exact hlt
  skip t next ht := by
    rcases move_cases s limitYear t with
      ⟨_, h⟩ | ⟨_, _, h⟩ | ⟨_, next', _, hno, ⟨_, h⟩ | ⟨_, h⟩ | ⟨_, _, h⟩⟩
    all_goals rw [ht] at h; cases h
    exact fun w hle hlt hw => hno w hle hlt hw.1

/-- Past the limit a search halts, so the fuel `nextAfter` gives it is enough. -/
theorem search_isSome (s : Schedule) (limitYear t : ℤ) :
    (run (s.move limitYear) ((1440 * yearStart (limitYear + 1) - t).toNat + 1) t).isSome = true := by
  refine run_isSome (move_sound s limitYear)
    (fun e (he : 1440 * yearStart (limitYear + 1) ≤ e) => ?_) _ _ ?_
  · have hpast : limitYear < (Minute.date e).year := by
      by_contra hle
      have hlt := year_le_iff.mp (show (Minute.date e).year ≤ limitYear by omega)
      omega
    exact ⟨.noFire, by simp [move, hpast]⟩
  · omega

/-- The last year `nextAfter` looks at. -/
def lastYear (ms : ℤ) : ℤ := (Minute.date (ms / 60000 + 1)).year + searchYears

/-- The search behind `nextAfter`. -/
def searchFrom (s : Schedule) (ms : ℤ) : Option (ℤ ⊕ Ending) :=
  run (s.move (lastYear ms))
    ((1440 * yearStart (lastYear ms + 1) - (ms / 60000 + 1)).toNat + 1) (ms / 60000 + 1)

theorem nextAfter_eq {s : Schedule} {ms : ℤ} (h : Minute.InRange (ms / 60000))
    (hnext : Minute.InRange (ms / 60000 + 1)) :
    s.nextAfter ms = .ofSearch (s.searchFrom ms) := by
  simp only [nextAfter, h, hnext, if_true]
  rfl

theorem inRange_of_fires {s : Schedule} {ms u : ℤ} (h : s.nextAfter ms = .fires u) :
    Minute.InRange (ms / 60000) ∧ Minute.InRange (ms / 60000 + 1) := by
  have hafter : Minute.InRange (ms / 60000) := by
    by_contra hout
    simp [nextAfter, hout] at h
  refine ⟨hafter, ?_⟩
  by_contra hout
  simp [nextAfter, hafter, hout] at h

theorem nextAfter_fires {s : Schedule} {ms u : ℤ} (h : s.nextAfter ms = .fires u) :
    ∃ t, u = 60000 * t ∧ ms / 60000 + 1 ≤ t ∧ s.Wanted (lastYear ms) t ∧
      ∀ w, ms / 60000 + 1 ≤ w → w < t → ¬ s.Matches w := by
  obtain ⟨hafter, hnext⟩ := inRange_of_fires h
  rw [nextAfter_eq hafter hnext] at h
  cases hr : s.searchFrom ms with
  | none => simp [hr, NextFire.ofSearch] at h
  | some r =>
    cases r with
    | inr e => cases e <;> simp [hr, NextFire.ofSearch] at h
    | inl t =>
      obtain ⟨hle, hw, hfirst⟩ := run_found (move_sound s (lastYear ms)) hr
      refine ⟨t, by simpa [hr, NextFire.ofSearch] using h.symm, hle, hw, ?_⟩
      intro w hge hlt hm
      have hyear := year_le_iff.mp hw.2
      exact hfirst w hge hlt ⟨hm, year_le_iff.mpr (by omega)⟩

/-- Where a search of `nextAfter` halts. -/
theorem searchFrom_halt {s : Schedule} {ms : ℤ} {r : Ending}
    (h : s.searchFrom ms = some (.inr r)) :
    ∃ e, ms / 60000 + 1 ≤ e ∧ s.move (lastYear ms) e = .halt r ∧
      ∀ w, ms / 60000 + 1 ≤ w → w < e → ¬ s.Wanted (lastYear ms) w :=
  run_halt (move_sound s (lastYear ms)) h

theorem searchFrom_isSome (s : Schedule) (ms : ℤ) : (s.searchFrom ms).isSome = true :=
  search_isSome s (lastYear ms) (ms / 60000 + 1)

theorem nextAfter_never {s : Schedule} {ms : ℤ} (hafter : Minute.InRange (ms / 60000))
    (h : s.nextAfter ms = .never) (w : ℤ) (hge : ms / 60000 + 1 ≤ w)
    (hw : (Minute.date w).year ≤ lastYear ms) (hin : Minute.InRange w) : ¬ s.Matches w := by
  have hnext : Minute.InRange (ms / 60000 + 1) := by
    by_contra hout
    simp [nextAfter, hafter, hout] at h
  rw [nextAfter_eq hafter hnext] at h
  have hsome := searchFrom_isSome s ms
  cases hr : s.searchFrom ms with
  | none => simp [hr] at hsome
  | some r =>
  cases r with
  | inl t => simp [hr, NextFire.ofSearch] at h
  | inr e =>
  cases e with
  | overflow => simp [hr, NextFire.ofSearch] at h
  | noFire =>
    obtain ⟨e, hle, he, hpast⟩ := searchFrom_halt hr
    intro hm
    have hyear := year_le_iff.mp hw
    rcases lt_or_ge w e with hlt | hwe
    · exact hpast w hge hlt ⟨hm, hw⟩
    rcases move_cases s (lastYear ms) e with
      ⟨hy, _⟩ | ⟨_, _, h'⟩ | ⟨_, next, _, hno, ⟨_, h'⟩ | ⟨hout, _⟩ | ⟨_, _, h'⟩⟩
    · have hle' := mt year_le_iff.mpr (not_le.mpr hy)
      omega
    · rw [he] at h'
      cases h'
    · rw [he] at h'
      cases h'
    · rcases lt_or_ge w next with hlt | hge'
      · exact hno w hwe hlt hm
      · unfold Minute.InRange at hout hin hafter
        omega
    · rw [he] at h'
      cases h'

/-- Away from the last minutes of the calendar `nextAfter` does not panic. -/
theorem nextAfter_ne_panics (s : Schedule) {ms : ℤ} (hafter : Minute.InRange (ms / 60000))
    (hyear : lastYear ms < 262142) : s.nextAfter ms ≠ .panics := by
  have hstart : ∀ t, (Minute.date t).year < 262142 → t < 1440 * yearStart 262142 := by
    intro t ht
    have hlt := year_le_iff.mp (show (Minute.date t).year ≤ 262142 - 1 by omega)
    rwa [sub_add_cancel] at hlt
  have hlast := hstart (ms / 60000 + 1) (by unfold lastYear searchYears at hyear; omega)
  have hmono : yearStart 262142 < yearStart 262143 := yearStart_strictMono (by decide)
  have hnext : Minute.InRange (ms / 60000 + 1) := by
    unfold Minute.InRange at hafter ⊢
    omega
  rw [nextAfter_eq hafter hnext]
  have hsome := searchFrom_isSome s ms
  cases hr : s.searchFrom ms with
  | none => simp [hr] at hsome
  | some r =>
  cases r with
  | inl t => simp [NextFire.ofSearch]
  | inr e =>
  cases e with
  | noFire => simp [NextFire.ofSearch]
  | overflow =>
    obtain ⟨e, hle, he, _⟩ := searchFrom_halt hr
    rcases move_cases s (lastYear ms) e with
      ⟨_, h'⟩ | ⟨_, _, h'⟩ | ⟨hy, next, hlt, _, ⟨_, h'⟩ | ⟨_, h'⟩ | ⟨hout, hnear, _⟩⟩
    all_goals first | (rw [he] at h'; cases h') | skip
    have he' := hstart e (by omega)
    unfold Minute.InRange at hout hafter
    omega

theorem mem_fires {s : Schedule} {k : ℕ} :
    k ∈ s.fires ↔ ∃ h < 24, h ∈ bitSet s.hours ∧ ∃ m < 60, m ∈ bitSet s.minutes ∧ h * 60 + m = k := by
  simp only [fires, List.mem_flatMap, List.mem_filter, List.mem_range, List.mem_map, hasBit_iff]
  grind

theorem fires_sorted (s : Schedule) : s.fires.Pairwise (· < ·) := by
  unfold fires
  rw [List.pairwise_flatMap]
  constructor
  · intro h _
    rw [List.pairwise_map]
    exact (List.pairwise_lt_range.filter _).imp (by omega)
  · apply (List.pairwise_lt_range.filter _).imp
    intro a b hab x hx y hy
    simp only [List.mem_map, List.mem_filter, List.mem_range] at hx hy
    obtain ⟨i, ⟨hi, _⟩, rfl⟩ := hx
    obtain ⟨j, ⟨_, _⟩, rfl⟩ := hy
    have hle : (a + 1) * 60 ≤ b * 60 := Nat.mul_le_mul_right 60 hab
    omega

/-- In an ascending list whose neighbours are `g` apart, any two values are. -/
theorem gap_le {g : ℕ} {l : List ℕ} (hl : l.Pairwise (· < ·)) (hg : ∀ d ∈ windowGaps l, g ≤ d)
    {a b : ℕ} (ha : a ∈ l) (hb : b ∈ l) (hab : a < b) : a + g ≤ b := by
  induction l with
  | nil => cases ha
  | cons x l ih =>
    cases l with
    | nil =>
      simp only [List.mem_singleton] at ha hb
      omega
    | cons y l =>
      have hx : ∀ z ∈ y :: l, x < z := (List.pairwise_cons.mp hl).1
      have htail : (y :: l).Pairwise (· < ·) := (List.pairwise_cons.mp hl).2
      have hxy : g ≤ y - x := hg _ (by simp [windowGaps])
      have hrest : ∀ d ∈ windowGaps (y :: l), g ≤ d := fun d hd => hg d (by
        simp only [windowGaps, List.tail_cons] at hd ⊢
        simp only [List.zip_cons_cons, List.map_cons, List.mem_cons]
        exact .inr hd)
      rcases List.mem_cons.mp ha with rfl | ha'
      · rcases List.mem_cons.mp hb with rfl | hb'
        · omega
        · have hyx := hx y (by simp)
          rcases List.mem_cons.mp hb' with rfl | hb''
          · omega
          · have hyb := (List.pairwise_cons.mp htail).1 b hb''
            omega
      · rcases List.mem_cons.mp hb with rfl | hb'
        · have hlt := hx a ha'
          omega
        · exact ih htail hrest ha' hb'

theorem head_le_of_sorted {l : List ℕ} (hl : l.Pairwise (· < ·)) {first a : ℕ}
    (hf : l.head? = some first) (ha : a ∈ l) : first ≤ a := by
  cases l with
  | nil => cases ha
  | cons x l =>
    cases hf
    rcases List.mem_cons.mp ha with rfl | ha'
    · exact le_rfl
    · exact ((List.pairwise_cons.mp hl).1 a ha').le

theorem le_last_of_sorted {l : List ℕ} (hl : l.Pairwise (· < ·)) {last a : ℕ}
    (hf : l.getLast? = some last) (ha : a ∈ l) : a ≤ last := by
  have hrev : l.reverse.Pairwise (fun x y => y < x) := List.pairwise_reverse.mpr hl
  cases hr : l.reverse with
  | nil => simp_all
  | cons x r =>
    rw [hr] at hrev
    have hx : x = last := by
      rw [List.getLast?_eq_head?_reverse, hr] at hf
      exact Option.some.inj hf
    have ha' : a ∈ x :: r := by rw [← hr]; simpa using ha
    rcases List.mem_cons.mp ha' with rfl | hmem
    · omega
    · have hlt := (List.pairwise_cons.mp hrev).1 a hmem
      omega

theorem minuteOfDay_mem {s : Schedule} {t : ℤ} (h : s.MatchesTime t) :
    (t % 1440).toNat ∈ s.fires := by
  obtain ⟨hh, hm⟩ := h
  refine mem_fires.mpr ⟨Minute.hour t, ?_, hh, Minute.minute t, ?_, hm, ?_⟩
  all_goals simp only [Minute.hour, Minute.minute]; omega

/-- Two matches are as far apart as the least gap of one day, across midnight too. -/
theorem minGap_le {s : Schedule} {t u : ℤ} (ht : s.MatchesTime t) (hu : s.MatchesTime u)
    (hlt : t < u) : t + min s.minGapMinutes 1440 ≤ u := by
  have ha := minuteOfDay_mem ht
  have hb := minuteOfDay_mem hu
  unfold minGapMinutes
  cases hfirst : s.fires.head? with
  | none => simp [List.head?_eq_none_iff.mp hfirst] at ha
  | some first =>
  cases hlast : s.fires.getLast? with
  | none => simp [List.getLast?_eq_none_iff.mp hlast] at ha
  | some last =>
  simp only
  cases hmin : (windowGaps s.fires ++ [first + 24 * 60 - last]).min? with
  | none => simp at hmin
  | some gap =>
    obtain ⟨_, hleast⟩ := List.min?_eq_some_iff.mp hmin
    have hwindow : ∀ d ∈ windowGaps s.fires, gap ≤ d := fun d hd =>
      hleast d (List.mem_append_left _ hd)
    have hwrap : gap ≤ first + 24 * 60 - last := hleast _ (by simp)
    have hsorted := s.fires_sorted
    have hb' := head_le_of_sorted hsorted hfirst hb
    have ha' := le_last_of_sorted hsorted hlast ha
    simp only [Option.getD_some]
    by_cases hday : t / 1440 = u / 1440
    · have hgap := gap_le hsorted hwindow ha hb (by omega)
      omega
    · by_cases hnext : t / 1440 + 1 = u / 1440 <;> omega

theorem minGap_of_parse {expr : Text} {s : Schedule} (h : parse expr = .ok s) :
    minIntervalMinutes ≤ s.minGapMinutes := by
  unfold parse at h
  cases hp : parseFields expr with
  | error e => simp [hp, bind, Except.bind] at h
  | ok s' =>
    simp only [hp, bind, Except.bind] at h
    split_ifs at h with hgap
    cases h
    omega

/-- A fire is the first match after the time asked about, `never` says that nothing matches to the
end of the fifth year after it, and two fires in a row are five minutes apart. -/
theorem next_fire_first {expr : Text} {s : Schedule} (hs : parse expr = .ok s) :
    (∀ ms u, s.nextAfter ms = .fires u →
      ∃ t, u = 60000 * t ∧ ms < u ∧ s.Matches t ∧
        ∀ w, ms < 60000 * w → 60000 * w < u → ¬ s.Matches w) ∧
    (∀ ms, Minute.InRange (ms / 60000) → s.nextAfter ms = .never →
      ∀ w, ms < 60000 * w → Minute.InRange w →
        (Minute.date w).year ≤ (Minute.date (ms / 60000 + 1)).year + 5 → ¬ s.Matches w) ∧
    (∀ ms u v, s.nextAfter ms = .fires u → s.nextAfter u = .fires v → u + 5 * 60000 ≤ v) ∧
    ∀ ms, Minute.InRange (ms / 60000) → (Minute.date (ms / 60000 + 1)).year + 5 < 262142 →
      s.nextAfter ms ≠ .panics := by
  refine ⟨?_, ?_, ?_, fun ms hin hyear => nextAfter_ne_panics s hin hyear⟩
  · intro ms u h
    obtain ⟨t, rfl, hle, hw, hfirst⟩ := nextAfter_fires h
    refine ⟨t, rfl, by omega, hw.1, ?_⟩
    intro w hms hwt
    exact hfirst w (by omega) (by omega)
  · intro ms hin h w hms hw hyear
    exact nextAfter_never hin h w (by omega) hyear hw
  · intro ms u v hu hv
    obtain ⟨t, rfl, _, ht, _⟩ := nextAfter_fires hu
    obtain ⟨t', rfl, hle, ht', _⟩ := nextAfter_fires hv
    have hgap := minGap_le ht.1.2 ht'.1.2 (by omega)
    have hmin := minGap_of_parse hs
    unfold minIntervalMinutes at hmin
    omega

/-- Midnight of February 29th. -/
def leapDays : Schedule := ⟨1, 1, 1#32 <<< 29, 4, 127, false, true⟩

theorem parse_leapDays : parse "0 0 29 2 *".toList = .ok leapDays := by decide +kernel

/-- Nothing matches before 1972-02-29. -/
theorem next_fire_first_leapDays :
    ∃ t, 68169600000 = 60000 * t ∧ (0 : ℤ) < 68169600000 ∧ leapDays.Matches t ∧
      ∀ w, 0 < 60000 * w → 60000 * w < 68169600000 → ¬ leapDays.Matches w :=
  (next_fire_first parse_leapDays).1 0 68169600000 (by decide +kernel)

end Schedule

end Scarab.Cron
