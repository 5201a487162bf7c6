import Scarab.ForwardSearch
import Scarab.GregorianDates
import Scarab.PipelineScopes

/-!
# Cron schedules

A schedule is five bit sets read in UTC. `nextAfter` walks from one whole minute to a later one,
past the months, days and hours the schedule does not name.
-/
namespace Scarab.Cron

open Gregorian ForwardSearch

structure Schedule where
  minutes : BitVec 64
  hours : BitVec 32
  daysOfMonth : BitVec 32
  months : BitVec 16
  daysOfWeek : BitVec 8
  /-- Day-of-month was written starting with `*`. -/
  domAny : Bool
  /-- Day-of-week was written starting with `*`. -/
  dowAny : Bool
deriving DecidableEq

/-- One field's bounds and the names it accepts. -/
structure Field where
  name : Text
  min : ℕ
  max : ℕ
  names : List Text

def minuteField : Field := ⟨"minute".toList, 0, 59, []⟩

def hourField : Field := ⟨"hour".toList, 0, 23, []⟩

def dayOfMonthField : Field := ⟨"day of month".toList, 1, 31, []⟩

def monthField : Field where
  name := "month".toList
  min := 1
  max := 12
  names := ["jan".toList, "feb".toList, "mar".toList, "apr".toList, "may".toList, "jun".toList,
    "jul".toList, "aug".toList, "sep".toList, "oct".toList, "nov".toList, "dec".toList]

/-- `7` is accepted and folded onto `0` (Sunday) after parsing. -/
def dayOfWeekField : Field where
  name := "day of week".toList
  min := 0
  max := 7
  names := ["sun".toList, "mon".toList, "tue".toList, "wed".toList, "thu".toList, "fri".toList,
    "sat".toList]

def searchYears : ℤ := 5

def minIntervalMinutes : ℕ := 5

-- A time of the search is a whole minute: its number from 1970-01-01 00:00.

namespace Minute

def date (t : ℤ) : Date := dateOf (t / 1440)

def hour (t : ℤ) : ℕ := (t / 60 % 24).toNat

def minute (t : ℤ) : ℕ := (t % 60).toNat

/-- The minutes of the years the date library represents. -/
def InRange (t : ℤ) : Prop :=
  1440 * yearStart (-262143) ≤ t ∧ t < 1440 * yearStart 262143

instance : DecidablePred InRange := fun t => by unfold InRange; infer_instance

/-- Midnight of a day, when the day is in range. -/
def midnight (day : ℤ) : Option ℤ :=
  if InRange (1440 * day) then some (1440 * day) else none

end Minute

def firstOfNextMonth (t : ℤ) : Option ℤ :=
  let d := Minute.date t
  let (y, m) := if d.month = 12 then (d.year + 1, 1) else (d.year, d.month + 1)
  Minute.midnight (monthStart y m)

def hasBit {w : ℕ} (bits : BitVec w) (k : ℕ) : Bool := bits &&& (1#w <<< k) != 0

namespace Schedule

def monthMatches (s : Schedule) (month : ℕ) : Bool := hasBit s.months month

def dayMatches (s : Schedule) (d : Date) : Bool :=
  let dom := hasBit s.daysOfMonth d.day
  let dow := hasBit s.daysOfWeek d.weekday
  if s.domAny || s.dowAny then dom && dow else dom || dow

/-- A search that ends without a fire: no time left in the span or past the last date, or the
overflow of adding to the last minute there is. -/
inductive Ending where
  | noFire
  | overflow
deriving DecidableEq

def skipTo : Option ℤ → Move Ending
  | some t => .skip t
  | none => .halt .noFire

/-- Adding to a time panics past the last minute. -/
def addTo (t : ℤ) : Move Ending := if Minute.InRange t then .skip t else .halt .overflow

/-- One turn of the loop. -/
def move (s : Schedule) (limitYear : ℤ) (t : ℤ) : Move Ending :=
  if limitYear < (Minute.date t).year then .halt .noFire
  else if !s.monthMatches (Minute.date t).month then skipTo (firstOfNextMonth t)
  else if !s.dayMatches (Minute.date t) then skipTo (Minute.midnight (t / 1440 + 1))
  else if !hasBit s.hours (Minute.hour t) then addTo (t - Minute.minute t + 60)
  else if !hasBit s.minutes (Minute.minute t) then addTo (t + 1)
  else .found

inductive NextFire where
  | fires (ms : ℤ)
  | never
  | panics
deriving DecidableEq

def NextFire.ofSearch : Option (ℤ ⊕ Ending) → NextFire
  | some (.inl t) => .fires (60000 * t)
  | some (.inr .noFire) => .never
  | some (.inr .overflow) => .panics
  | none => .panics

/-- The first time strictly after `afterMs` at which the schedule fires, in Unix milliseconds. -/
def nextAfter (s : Schedule) (afterMs : ℤ) : NextFire :=
  let after := afterMs / 60000
  if Minute.InRange after then
    let t := after + 1
    if Minute.InRange t then
      let limitYear := (Minute.date t).year + searchYears
      let bound := 1440 * yearStart (limitYear + 1)
      .ofSearch (run (s.move limitYear) ((bound - t).toNat + 1) t)
    else .panics
  else .never

/-- The fires of one day, in minutes from midnight. -/
def fires (s : Schedule) : List ℕ :=
  ((List.range 24).filter fun h => hasBit s.hours h).flatMap fun h =>
    ((List.range 60).filter fun m => hasBit s.minutes m).map fun m => h * 60 + m

/-- The differences between neighbours. -/
def windowGaps (fires : List ℕ) : List ℕ :=
  (fires.zip fires.tail).map fun w => w.2 - w.1

def minGapMinutes (s : Schedule) : ℕ :=
  match s.fires.head?, s.fires.getLast? with
  | some first, some last =>
      ((windowGaps s.fires ++ [first + 24 * 60 - last]).min?).getD (2 ^ 32 - 1)
  | _, _ => 2 ^ 32 - 1

end Schedule

inductive ScheduleError where
  | emptyEntry (field text : Text)
  | stepNotNumber (field step : Text)
  | stepZero (field : Text)
  | stepTooLarge (field : Text) (step max : ℕ)
  | backwards (field range : Text)
  | notNumber (field text : Text) (orName : Bool)
  | outside (field : Text) (v min max : ℕ)
  | unknownMacro (expr : Text)
  | fieldCount (expr : Text) (n : ℕ)
  | neverFires (expr : Text)
  | tooOften (expr : Text) (gap : ℕ)
deriving DecidableEq

/-- The message of an error. -/
def ScheduleError.text : ScheduleError → Text
  | .emptyEntry field text => field ++ ": `".toList ++ text ++ "` has an empty list entry".toList
  | .stepNotNumber field step => field ++ ": step `".toList ++ step ++ "` is not a number".toList
  | .stepZero field => field ++ ": a step must be at least 1".toList
  | .stepTooLarge field step max =>
      field ++ ": step `".toList ++ natText step ++ "` is larger than ".toList ++ natText max
  | .backwards field range => field ++ ": range `".toList ++ range ++ "` runs backwards".toList
  | .notNumber field text orName =>
      field ++ ": `".toList ++ text ++ "` is not a number".toList ++
        if orName then " or a name".toList else []
  | .outside field v min max =>
      field ++ ": `".toList ++ natText v ++ "` is outside ".toList ++ natText min ++
        "-".toList ++ natText max
  | .unknownMacro expr =>
      "`".toList ++ expr ++ ("` is not a schedule this server knows; use five fields or one of " ++
        "@yearly, @monthly, @weekly, @daily, @hourly").toList
  | .fieldCount expr n =>
      "`".toList ++ expr ++ "` has ".toList ++ natText n ++
        (" fields; a schedule has five: minute hour day-of-month month " ++
          "day-of-week (UTC)").toList
  | .neverFires expr =>
      "`".toList ++ expr ++ "` names no date that exists, so it never fires".toList
  | .tooOften expr gap =>
      "`".toList ++ expr ++ "` can fire ".toList ++ natText gap ++ " minute".toList ++
        (if gap = 1 then [] else ['s']) ++ " apart; schedules fire at most every ".toList ++
          natText minIntervalMinutes ++ " minutes".toList

/-- `str::parse::<u32>`. -/
def parseU32 (t : Text) : Option ℕ :=
  let ds := match t with
    | '+' :: ds => ds
    | ds => ds
  if Pipeline.isDigits ds && Pipeline.digitsValue ds < 2 ^ 32 then some (Pipeline.digitsValue ds)
  else none

def toAsciiLowercase (t : Text) : Text := t.map Char.toLower

/-- One value of a field: a number in range, or one of the field's names. -/
def value (text : Text) (field : Field) : Except ScheduleError ℕ :=
  let lower := toAsciiLowercase text
  match field.names.findIdx? (· = lower) with
  -- Month names start at 1 (`jan`), day names at 0 (`sun`).
  | some i => .ok (i + if field.min = 1 then 1 else 0)
  | none =>
      match parseU32 text with
      | none => .error (.notNumber field.name text (!field.names.isEmpty))
      | some v =>
          if v < field.min || v > field.max then .error (.outside field.name v field.min field.max)
          else .ok v

/-- A step past the field's end stops the walk. -/
def walk (hi step : ℕ) : ℕ → ℕ → BitVec 64 → BitVec 64
  | 0, _, bits => bits
  | fuel + 1, v, bits =>
      if v ≤ hi then
        let bits := bits ||| (1#64 <<< v)
        if v + step < 2 ^ 32 then walk hi step fuel (v + step) bits else bits
      else bits

/-- The range and the step of one list entry. -/
def parseStep (part : Text) (field : Field) : Except ScheduleError (Text × ℕ) :=
  match splitOnce ['/'] part with
  | some (r, s) =>
      match parseU32 s with
      | none => .error (.stepNotNumber field.name s)
      | some step =>
          if step = 0 then .error (.stepZero field.name)
          else if step > field.max then .error (.stepTooLarge field.name step field.max)
          else .ok (r, step)
  | none => .ok (part, 1)

def parseRange (part range : Text) (field : Field) : Except ScheduleError (ℕ × ℕ) :=
  if range = ['*'] then .ok (field.min, field.max)
  else
    match splitOnce ['-'] range with
    | some (a, b) => do
        let lo ← value a field
        let hi ← value b field
        if lo > hi then .error (.backwards field.name range) else .ok (lo, hi)
    | none => do
        let v ← value range field
        -- `5/15` means from 5 to the end, every 15.
        .ok (if part.contains '/' then (v, field.max) else (v, v))

def parsePart (text part : Text) (field : Field) (bits : BitVec 64) :
    Except ScheduleError (BitVec 64) := do
  if part.isEmpty then .error (.emptyEntry field.name text)
  let (range, step) ← parseStep part field
  let (lo, hi) ← parseRange part range field
  .ok (walk hi step (hi + 1 - lo) lo bits)

def parseParts (text : Text) (field : Field) : List Text → BitVec 64 → Except ScheduleError (BitVec 64)
  | [], bits => .ok bits
  | part :: parts, bits => do
      let bits ← parsePart text part field bits
      parseParts text field parts bits

/-- A field into a bit set of the values it allows. -/
def parseField (text : Text) (field : Field) : Except ScheduleError (BitVec 64) :=
  parseParts text field (text.splitOn ',') 0

def splitWhitespace (t : Text) : List Text := (t.splitOnP isWhitespace).filter (· ≠ [])

def expand (expr : Text) : Except ScheduleError Text :=
  let lower := toAsciiLowercase expr
  if lower = "@yearly".toList || lower = "@annually".toList then .ok "0 0 1 1 *".toList
  else if lower = "@monthly".toList then .ok "0 0 1 * *".toList
  else if lower = "@weekly".toList then .ok "0 0 * * 0".toList
  else if lower = "@daily".toList || lower = "@midnight".toList then .ok "0 0 * * *".toList
  else if lower = "@hourly".toList then .ok "0 * * * *".toList
  else if lower.head? = some '@' then .error (.unknownMacro expr)
  else .ok expr

/-- Day `7` is Sunday, as `0` is. -/
def foldSunday (days : BitVec 64) : BitVec 64 :=
  if hasBit days 7 then (days &&& ~~~(1#64 <<< 7)) ||| 1 else days

/-- The schedule of five fields, before it is asked whether it ever fires. -/
def scheduleOf (minute hour dom month dow : Text) : Except ScheduleError Schedule := do
  let minutes ← parseField minute minuteField
  let hours ← parseField hour hourField
  let daysOfMonth ← parseField dom dayOfMonthField
  let months ← parseField month monthField
  let daysOfWeek ← parseField dow dayOfWeekField
  .ok {
    minutes
    hours := hours.setWidth 32
    daysOfMonth := daysOfMonth.setWidth 32
    months := months.setWidth 16
    daysOfWeek := (foldSunday daysOfWeek).setWidth 8
    domAny := dom.head? = some '*'
    dowAny := dow.head? = some '*' }

/-- The fields of an expression. -/
def fieldsOf (expr : Text) : Except ScheduleError Schedule := do
  let expr := trim expr
  let expanded ← expand expr
  match splitWhitespace expanded with
  | [minute, hour, dom, month, dow] => scheduleOf minute hour dom month dow
  | fields => .error (.fieldCount expr fields.length)

def parseFields (expr : Text) : Except ScheduleError Schedule := do
  let schedule ← fieldsOf expr
  if schedule.nextAfter 0 = .never then .error (.neverFires (trim expr)) else .ok schedule

def parse (expr : Text) : Except ScheduleError Schedule := do
  let schedule ← parseFields expr
  let gap := schedule.minGapMinutes
  if gap < minIntervalMinutes then .error (.tooOften (trim expr) gap) else .ok schedule

end Scarab.Cron
