import Scarab.CronFires

/-!
# Schedules that never fire

`parseFields` asks whether a schedule fires in the first years from 1970, and `nextAfter` looks
five years ahead. Where that answers the question of the calendar, and where it does not.
-/
namespace Scarab.Cron

open Gregorian ForwardSearch

/-- The bounds of a field fit its bit set, and its names stand for values within them. -/
structure Field.Valid (f : Field) : Prop where
  max_lt : f.max < 64
  min_le : f.min ≤ 1
  min_le_max : f.min ≤ f.max
  names_le : f.min + f.names.length ≤ f.max + 1

theorem monthField_valid : monthField.Valid := ⟨by decide, by decide, by decide, by decide⟩

theorem dayOfWeekField_valid : dayOfWeekField.Valid := ⟨by decide, by decide, by decide, by decide⟩

theorem value_bounds {f : Field} (hf : f.Valid) {text : Text} {v : ℕ} (h : value text f = .ok v) :
    f.min ≤ v ∧ v ≤ f.max := by
  unfold value at h
  have hmin := hf.min_le
  have hnames := hf.names_le
  cases hi : f.names.findIdx? (· = toAsciiLowercase text) with
  | some i =>
    simp only [hi, Except.ok.injEq] at h
    have hlt : i < f.names.length := (List.findIdx?_eq_some_iff_getElem.mp hi).1
    split_ifs at h <;> omega
  | none =>
    simp only [hi] at h
    cases hp : parseU32 text with
    | none => simp [hp] at h
    | some n =>
      simp only [hp] at h
      split_ifs at h with hout
      cases h
      simp only [Bool.or_eq_true, decide_eq_true_eq] at hout
      omega

theorem parseRange_bounds {f : Field} (hf : f.Valid) {part range : Text} {lo hi : ℕ}
    (h : parseRange part range f = .ok (lo, hi)) : f.min ≤ lo ∧ lo ≤ hi ∧ hi ≤ f.max := by
  have hmm := hf.min_le_max
  unfold parseRange at h
  by_cases hstar : range = ['*']
  · rw [if_pos hstar] at h
    cases h
    omega
  · rw [if_neg hstar] at h
    cases hs : splitOnce ['-'] range with
    | some ab =>
      obtain ⟨a, b⟩ := ab
      simp only [hs, bind, Except.bind] at h
      cases ha : value a f with
      | error e => simp [ha] at h
      | ok x =>
        cases hb : value b f with
        | error e => simp [ha, hb] at h
        | ok y =>
          simp only [ha, hb] at h
          split_ifs at h with hlt
          cases h
          have hx := value_bounds hf ha
          have hy := value_bounds hf hb
          omega
    | none =>
      simp only [hs, bind, Except.bind] at h
      cases hv : value range f with
      | error e => simp [hv] at h
      | ok v =>
        have hb := value_bounds hf hv
        simp only [hv, Except.ok.injEq] at h
        split_ifs at h <;> cases h <;> omega

theorem mem_setBit {bits : BitVec 64} {v k : ℕ} (hv : v < 64) :
    k ∈ bitSet (bits ||| (1#64 <<< v)) ↔ k ∈ bitSet bits ∨ k = v := by
  rw [mem_or, mem_shiftLeft hv]

/-- A walk adds values of its range only. -/
theorem walk_mem {hi step : ℕ} (hhi : hi < 64) (fuel v : ℕ) (bits : BitVec 64) {k : ℕ}
    (hk : k ∈ bitSet (walk hi step fuel v bits)) : k ∈ bitSet bits ∨ (v ≤ k ∧ k ≤ hi) := by
  induction fuel generalizing v bits with
  | zero => exact .inl hk
  | succ fuel ih =>
    unfold walk at hk
    split_ifs at hk with hv hnext
    · rcases ih _ _ hk with hin | hrange
      · rcases (mem_setBit (by omega)).mp hin with hbits | rfl
        · exact .inl hbits
        · exact .inr ⟨le_rfl, hv⟩
      · exact .inr (by omega)
    · rcases (mem_setBit (by omega)).mp hk with hbits | rfl
      · exact .inl hbits
      · exact .inr ⟨le_rfl, hv⟩
    · exact .inl hk

theorem walk_keeps {hi step : ℕ} (hhi : hi < 64) (fuel v : ℕ) (bits : BitVec 64) {k : ℕ}
    (hk : k ∈ bitSet bits) : k ∈ bitSet (walk hi step fuel v bits) := by
  induction fuel generalizing v bits with
  | zero => exact hk
  | succ fuel ih =>
    unfold walk
    split_ifs with hv hnext
    · exact ih _ _ ((mem_setBit (by omega)).mpr (.inl hk))
    · exact (mem_setBit (by omega)).mpr (.inl hk)
    · exact hk

theorem walk_first {lo hi step : ℕ} (hhi : hi < 64) (hle : lo ≤ hi) (bits : BitVec 64) :
    lo ∈ bitSet (walk hi step (hi + 1 - lo) lo bits) := by
  obtain ⟨fuel, hfuel⟩ : ∃ fuel, hi + 1 - lo = fuel + 1 := ⟨hi - lo, by omega⟩
  rw [hfuel]
  unfold walk
  rw [if_pos hle]
  have hset : lo ∈ bitSet (bits ||| (1#64 <<< lo)) := (mem_setBit (by omega)).mpr (.inr rfl)
  dsimp only
  split_ifs with hnext
  · exact walk_keeps hhi _ _ _ hset
  · exact hset

/-- One list entry adds values of the field, and one at least. -/
theorem parsePart_spec {f : Field} (hf : f.Valid) {text part : Text} {bits out : BitVec 64}
    (h : parsePart text part f bits = .ok out) :
    (∃ k, k ∈ bitSet out) ∧
      ∀ k ∈ bitSet out, k ∈ bitSet bits ∨ (f.min ≤ k ∧ k ≤ f.max) := by
  have hmax := hf.max_lt
  unfold parsePart at h
  split_ifs at h with hempty
  · cases h
  · simp only [bind, Except.bind] at h
    cases hs : parseStep part f with
    | error e => simp [hs] at h
    | ok rs =>
      simp only [hs] at h
      cases hr : parseRange part rs.1 f with
      | error e => simp [hr] at h
      | ok lohi =>
        simp only [hr, Except.ok.injEq] at h
        have hlohi : parseRange part rs.1 f = .ok (lohi.1, lohi.2) := hr
        have hb := parseRange_bounds hf hlohi
        subst h
        refine ⟨⟨lohi.1, walk_first (by omega) (by omega) bits⟩, ?_⟩
        intro k hk
        rcases walk_mem (by omega) _ _ _ hk with hin | hrange
        · exact .inl hin
        · exact .inr (by omega)

theorem parseParts_spec {f : Field} (hf : f.Valid) {text : Text} {parts : List Text}
    (hparts : parts ≠ []) {bits out : BitVec 64} (h : parseParts text f parts bits = .ok out) :
    (∃ k, k ∈ bitSet out) ∧
      ∀ k ∈ bitSet out, k ∈ bitSet bits ∨ (f.min ≤ k ∧ k ≤ f.max) := by
  induction parts generalizing bits with
  | nil => exact absurd rfl hparts
  | cons part parts ih =>
    simp only [parseParts, bind, Except.bind] at h
    cases hp : parsePart text part f bits with
    | error e => simp [hp] at h
    | ok mid =>
      simp only [hp] at h
      have hspec := parsePart_spec hf hp
      cases parts with
      | nil =>
        cases h
        exact hspec
      | cons q qs =>
        obtain ⟨hne, hall⟩ := ih (by simp) h
        refine ⟨hne, ?_⟩
        intro k hk
        rcases hall k hk with hmid | hrange
        · exact hspec.2 k hmid
        · exact .inr hrange

/-- A parsed field allows some value, and only values within its bounds. -/
theorem parseField_spec {f : Field} (hf : f.Valid) {text : Text} {bits : BitVec 64}
    (h : parseField text f = .ok bits) :
    (∃ k, k ∈ bitSet bits) ∧ ∀ k ∈ bitSet bits, f.min ≤ k ∧ k ≤ f.max := by
  have hne : text.splitOn ',' ≠ [] := List.splitOn_ne_nil _ _
  obtain ⟨hsome, hall⟩ := parseParts_spec hf hne h
  refine ⟨hsome, ?_⟩
  intro k hk
  rcases hall k hk with hzero | hrange
  · exact absurd hzero not_mem_zero
  · exact hrange

theorem mem_foldSunday {days : BitVec 64} {k : ℕ} :
    k ∈ bitSet (foldSunday days) ↔
      (k ≠ 7 ∧ k ∈ bitSet days) ∨ (k = 0 ∧ 7 ∈ bitSet days) := by
  unfold foldSunday
  by_cases h7 : hasBit days 7 = true
  · have hset : 7 ∈ bitSet days := hasBit_iff.mp h7
    rw [if_pos h7]
    show ((days &&& ~~~(1#64 <<< 7)) ||| 1#64).getLsbD k = true ↔
      (k ≠ 7 ∧ days.getLsbD k = true) ∨ (k = 0 ∧ 7 ∈ bitSet days)
    rw [← BitVec.twoPow_eq, BitVec.getLsbD_or, BitVec.getLsbD_and, BitVec.getLsbD_not,
      BitVec.getLsbD_twoPow]
    have hwidth : days.getLsbD k = true → k < 64 := BitVec.lt_of_getLsbD
    by_cases hk7 : k = 7
    · subst hk7
      simp
    · by_cases hk0 : k = 0
      · subst hk0
        simp [hset]
      · simp [hk7, hk0, Ne.symm hk7]
        intro hk
        exact hwidth (by simpa using hk)
  · have hset : 7 ∉ bitSet days := fun hin => h7 (hasBit_iff.mpr hin)
    rw [if_neg h7]
    constructor
    · intro hk
      exact .inl ⟨fun heq => hset (heq ▸ hk), hk⟩
    · rintro (⟨_, hk⟩ | ⟨_, h⟩)
      · exact hk
      · exact absurd h hset

/-- The schedule of an expression whose fields parse names some month, some day of the week and
some day of the month. -/
structure Schedule.Sane (s : Schedule) : Prop where
  month : ∃ m ∈ bitSet s.months, 1 ≤ m ∧ m ≤ 12
  dayOfWeek : ∃ d ∈ bitSet s.daysOfWeek, d < 7

theorem scheduleOf_sane {minute hour dom month dow : Text} {s : Schedule}
    (h : scheduleOf minute hour dom month dow = .ok s) : s.Sane := by
  simp only [scheduleOf, bind, Except.bind] at h
  cases h1 : parseField minute minuteField with
  | error e => simp [h1] at h
  | ok minutes =>
  cases h2 : parseField hour hourField with
  | error e => simp [h1, h2] at h
  | ok hours =>
  cases h3 : parseField dom dayOfMonthField with
  | error e => simp [h1, h2, h3] at h
  | ok days =>
  cases h4 : parseField month monthField with
  | error e => simp [h1, h2, h3, h4] at h
  | ok months =>
  cases h5 : parseField dow dayOfWeekField with
  | error e => simp [h1, h2, h3, h4, h5] at h
  | ok week =>
    simp only [h1, h2, h3, h4, h5, Except.ok.injEq] at h
    subst h
    have hmonth : ∃ m ∈ bitSet months, 1 ≤ m ∧ m ≤ 12 := by
      obtain ⟨⟨m, hm⟩, hall⟩ := parseField_spec monthField_valid h4
      exact ⟨m, hm, hall m hm⟩
    have hweek : ∃ k ∈ bitSet (foldSunday week), k < 7 := by
      obtain ⟨⟨d, hd⟩, hall⟩ := parseField_spec dayOfWeekField_valid h5
      have hle : d ≤ 7 := (hall d hd).2
      by_cases h7 : d = 7
      · exact ⟨0, mem_foldSunday.mpr (.inr ⟨rfl, h7 ▸ hd⟩), by omega⟩
      · exact ⟨d, mem_foldSunday.mpr (.inl ⟨h7, hd⟩), by omega⟩
    obtain ⟨m, hm, hm12⟩ := hmonth
    obtain ⟨k, hk, hk7⟩ := hweek
    exact ⟨⟨m, mem_setWidth.mpr ⟨by omega, hm⟩, hm12⟩, ⟨k, mem_setWidth.mpr ⟨by omega, hk⟩, hk7⟩⟩

theorem fieldsOf_sane {expr : Text} {s : Schedule} (h : fieldsOf expr = .ok s) : s.Sane := by
  simp only [fieldsOf, bind, Except.bind] at h
  cases he : expand (trim expr) with
  | error e => simp [he] at h
  | ok expanded =>
    simp only [he] at h
    generalize splitWhitespace expanded = fields at h
    split at h
    · exact scheduleOf_sane h
    · cases h

namespace Schedule

/-- The fields name no day of any year: both day fields must match, and no month they allow has a
day they allow, in a leap year either. -/
def NamesNoDay (s : Schedule) : Prop :=
  (s.domAny = true ∨ s.dowAny = true) ∧
    ∀ m ∈ bitSet s.months, 1 ≤ m ∧ m ≤ 12 →
      ∀ d ∈ bitSet s.daysOfMonth, 1 ≤ d → daysInMonth 2000 m < d

theorem daysInMonth_le_leap (y : ℤ) {m : ℕ} (hm : 1 ≤ m ∧ m ≤ 12) :
    daysInMonth y m ≤ daysInMonth 2000 m := by
  have hleap := leapDay_cases y
  have h2000 : leapDay 2000 = 1 := by decide
  obtain ⟨h1, h12⟩ := hm
  unfold daysInMonth
  interval_cases m <;> simp only [daysBefore, h2000] <;> omega

/-- The fields of a parsed expression that name a day of a leap year match some date: the day
falls on every day of the week. -/
theorem no_date_iff {s : Schedule} (hs : s.Sane) :
    (∀ d : Date, ¬ s.MatchesDate d) ↔ s.NamesNoDay := by
  obtain ⟨m, hm, hm12⟩ := hs.month
  obtain ⟨w, hw, hw7⟩ := hs.dayOfWeek
  constructor
  · intro hno
    have hboth : s.domAny = true ∨ s.dowAny = true := by
      by_contra hrule
      have hpos := daysInMonth_pos 2000 hm12.1 hm12.2
      obtain ⟨e, hem, _, hew⟩ := exists_weekday ⟨2000, m, 1, hm12, by omega⟩ hw7
      apply hno e
      refine ⟨by rw [hem]; exact hm, ?_⟩
      unfold DayRule
      rw [if_neg hrule]
      exact .inr (by rw [hew]; exact hw)
    refine ⟨hboth, ?_⟩
    intro m' hm' hm'12 d hd hd1
    by_contra hle
    obtain ⟨e, hem, hed, hew⟩ := exists_weekday ⟨2000, m', d, hm'12, by omega⟩ hw7
    apply hno e
    refine ⟨by rw [hem]; exact hm', ?_⟩
    unfold DayRule
    rw [if_pos hboth]
    exact ⟨by rw [hed]; exact hd, by rw [hew]; exact hw⟩
  · rintro ⟨hboth, hnone⟩ e ⟨hmonth, hrule⟩
    unfold DayRule at hrule
    rw [if_pos hboth] at hrule
    have hvalid := e.day_valid
    have hle := daysInMonth_le_leap e.year e.month_valid
    have hlt := hnone e.month hmonth e.month_valid e.day hrule.1 hvalid.1
    omega

/-- A minute after an instant, in the years `nextAfter` looks at, matches. -/
def FiresInSpan (s : Schedule) (ms : ℤ) : Prop :=
  ∃ t, ms < 60000 * t ∧
    (Minute.date t).year ≤ (Minute.date (ms / 60000 + 1)).year + 5 ∧ s.Matches t

theorem fires_iff {s : Schedule} {ms : ℤ} (hin : Minute.InRange (ms / 60000))
    (hyear : lastYear ms < 262142) : (∃ u, s.nextAfter ms = .fires u) ↔ s.FiresInSpan ms := by
  constructor
  · rintro ⟨u, hu⟩
    obtain ⟨t, _, hle, hw, _⟩ := nextAfter_fires hu
    exact ⟨t, by omega, hw.2, hw.1⟩
  · rintro ⟨t, hlt, hy, hm⟩
    have hrange : Minute.InRange t := by
      have hlim : t < 1440 * yearStart (lastYear ms + 1) := year_le_iff.mp hy
      have hmono : yearStart (lastYear ms + 1) ≤ yearStart 262143 :=
        yearStart_strictMono.monotone (by omega)
      unfold Minute.InRange at hin ⊢
      omega
    cases hr : s.nextAfter ms with
    | fires u => exact ⟨u, rfl⟩
    | panics => exact absurd hr (nextAfter_ne_panics s hin hyear)
    | never => exact absurd hm (nextAfter_never hin hr t (by omega) hy hrange)

theorem parseFields_eq {expr : Text} {s : Schedule} (hs : fieldsOf expr = .ok s) :
    parseFields expr =
      if s.nextAfter 0 = .never then .error (.neverFires (trim expr)) else .ok s := by
  simp only [parseFields, hs, bind, Except.bind]

theorem refused_iff {expr : Text} {s : Schedule} (hs : fieldsOf expr = .ok s) :
    parseFields expr = .error (.neverFires (trim expr)) ↔ ¬ s.FiresInSpan 0 := by
  rw [parseFields_eq hs, ← @fires_iff s 0 (by decide) (by decide)]
  have hpanic := @nextAfter_ne_panics s 0 (by decide) (by decide)
  cases hn : s.nextAfter 0 with
  | fires u => simp
  | never => simp
  | panics => exact absurd hn hpanic

/-- Among expressions whose fields parse the refusal is right exactly of those that fire before
1976 or name no day at all; a schedule has a next fire exactly where one falls in the span. -/
theorem refusal_and_liveness {expr : Text} {s : Schedule} (hs : fieldsOf expr = .ok s) :
    ((parseFields expr = .error (.neverFires (trim expr)) ↔ ∀ d : Date, ¬ s.MatchesDate d) ↔
      s.FiresInSpan 0 ∨ s.NamesNoDay) ∧
    (parseFields expr = .ok s → ∀ ms, 0 ≤ ms → (Minute.date (ms / 60000)).year ≤ 9999 →
      ((∃ u, s.nextAfter ms = .fires u) ↔ s.FiresInSpan ms)) := by
  constructor
  · rw [refused_iff hs, no_date_iff (fieldsOf_sane hs)]
    have hapart : s.FiresInSpan 0 → ¬ s.NamesNoDay := by
      rintro ⟨t, _, _, hm⟩ hnone
      exact (no_date_iff (fieldsOf_sane hs)).mpr hnone _ hm.1
    tauto
  · intro _ ms hms hyear
    have hlast : lastYear ms ≤ 10005 := by
      have hlt : ms / 60000 < 1440 * yearStart (9999 + 1) := year_le_iff.mp hyear
      have hstep : yearStart (9999 + 1) < yearStart (9999 + 1 + 1) := yearStart_lt_succ _
      have hnext : (Minute.date (ms / 60000 + 1)).year ≤ 9999 + 1 :=
        year_le_iff.mpr (by omega)
      unfold lastYear searchYears
      omega
    have hin : Minute.InRange (ms / 60000) := by
      have hlt : ms / 60000 < 1440 * yearStart (9999 + 1) := year_le_iff.mp hyear
      have hlow : yearStart (-262143) ≤ 0 := by decide
      have hhigh : yearStart (9999 + 1) ≤ yearStart 262143 :=
        yearStart_strictMono.monotone (by omega)
      unfold Minute.InRange
      omega
    exact fires_iff hin (by omega)

theorem refusal_and_liveness_leapDays :
    (∃ u, leapDays.nextAfter 0 = .fires u) ↔ leapDays.FiresInSpan 0 :=
  (@refusal_and_liveness "0 0 29 2 *".toList leapDays (by decide +kernel)).2
    (by decide +kernel) 0 (by decide) (by decide)

/-- The first of January, when it is a Sunday. -/
def newYearSundays : Schedule := ⟨1, 1, 2, 2, 1, false, true⟩

/-- January 1st is a Sunday in 1978, and after 2096 the next leap year is 2104. -/
theorem never_fires_wrong :
    (fieldsOf "0 0 1 1 */7".toList = .ok newYearSundays ∧
      parseFields "0 0 1 1 */7".toList = .error (.neverFires "0 0 1 1 */7".toList) ∧
      ¬ ∀ d : Date, ¬ newYearSundays.MatchesDate d) ∧
    (parse "0 0 29 2 *".toList = .ok leapDays ∧
      leapDays.nextAfter (86400000 * yearStart 2097) = .never ∧
      ∃ t, 86400000 * yearStart 2097 < 60000 * t ∧ leapDays.Matches t) := by
  refine ⟨⟨by decide +kernel, by decide +kernel, fun hno => ?_⟩, parse_leapDays,
    by decide +kernel, 1440 * (monthStart 2104 2 + 28), by decide +kernel, ?_⟩
  · exact hno (dateOf (yearStart 1978))
      ⟨monthMatches_iff.mp (by decide +kernel), dayMatches_iff.mp (by decide +kernel)⟩
  · exact ⟨⟨monthMatches_iff.mp (by decide +kernel), dayMatches_iff.mp (by decide +kernel)⟩,
      hasBit_iff.mp (by decide +kernel), hasBit_iff.mp (by decide +kernel)⟩

end Schedule

end Scarab.Cron
