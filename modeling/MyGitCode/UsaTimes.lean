import Mathlib.Data.BitVec
import MyGitCode.CFormat
import MyGitCode.JulianTime

/-! # Times on the 12-hour clock

The text of `change_time_to_string_for_usa`, and how a reader takes it. -/
namespace UsaTimes

open CivilCalendar JulianTime CFormat

def twoDigits (n : ℕ) : List Char :=
  if n < 10 then '0' :: Nat.toDigits 10 n else Nat.toDigits 10 n

def clock (hour : ℕ) : ℕ × Char :=
  if hour = 0 then (12, 'A')
  else if 0 < hour ∧ hour < 12 then (hour, 'A')
  else (hour - 12, 'P')

/-- The text written with `%02d:%02d:%02d %cM %02d/%02d/%d`. -/
def timeText (out : TimeJulian) : List Char :=
  let (timeHData, timeSign) := clock out.hour
  twoDigits timeHData ++ ':' :: (twoDigits out.minute ++ ':' :: (twoDigits out.second ++
    ' ' :: timeSign :: 'M' :: ' ' :: (twoDigits out.month ++ '/' :: (twoDigits out.day ++
      '/' :: decimal out.year))))

def changeTimeToStringForUsa (timeSpan : ℕ) : List Char := timeText (timeJulFromSecs timeSpan)

structure Shown where
  hour : ℕ
  minute : ℕ
  second : ℕ
  sign : Option Char
  month : ℕ
  day : ℕ
  year : ℕ
  deriving DecidableEq, Repr

def shown (str : List Char) : Shown where
  hour := digits (str.take 2)
  minute := digits ((str.drop 3).take 2)
  second := digits ((str.drop 6).take 2)
  sign := str[9]?
  month := digits ((str.drop 12).take 2)
  day := digits ((str.drop 15).take 2)
  year := digits (str.drop 18)

def OnClock (hour : ℕ) : Prop := 1 ≤ hour ∧ hour ≤ 12

instance (hour : ℕ) : Decidable (OnClock hour) := inferInstanceAs (Decidable (_ ∧ _))

/-- The hour of the day. Twelve comes before one, in the morning and after noon. -/
def hourOfDay (hour : ℕ) (sign : Option Char) : Option ℕ :=
  if OnClock hour then
    match sign with
    | some 'A' => some (hour % 12)
    | some 'P' => some (hour % 12 + 12)
    | _ => none
  else none

/-- The moment a text stands for, by the calendar of `time_jul_to_secs`. -/
def read (str : List Char) : Option ℤ :=
  let s := shown str
  (hourOfDay s.hour s.sign).map fun hour =>
    timeJulToSecs ⟨s.year, s.month, s.day, hour, s.minute, s.second, 0⟩

variable {n hour hour' secs : ℕ} {out other : TimeJulian}

theorem twoDigits_eq (h : n < 100) : ∃ a b, twoDigits n = [a, b] ∧ digits [a, b] = n := by
  interval_cases n <;> exact ⟨_, _, rfl, rfl⟩

theorem clock_lt (h : hour < 24) : (clock hour).1 < 100 := by
  unfold clock
  split
  · decide
  · split <;> simp only <;> omega

theorem clock_inj (heq : clock hour = clock hour') : hour = hour' := by
  unfold clock at heq
  grind

theorem hour_eq (secs : ℕ) :
    (timeJulFromSecs secs).hour = (secs + 432000) % 2 ^ 32 % 86400 / 3600 := by
  obtain ⟨hvalid, -, helapsed, -⟩ := timeJulFromSecs_spec secs
  obtain ⟨hlt, hhour, -⟩ := hvalid.timeOfDay
  rw [hhour]
  rw [elapsed] at helapsed
  omega

def Shown.ofRecord (out : TimeJulian) : Shown where
  hour := (clock out.hour).1
  minute := out.minute
  second := out.second
  sign := some (clock out.hour).2
  month := out.month
  day := out.day
  year := out.year

theorem shown_timeText (h : ValidRecord out) : shown (timeText out) = .ofRecord out := by
  obtain ⟨hdate, hhour, hminute, hsecond⟩ := h
  have hmonth : out.month ≤ 12 := hdate.month_le
  have hday : out.day ≤ 31 := hdate.day_le.trans daysInMonth_le
  obtain ⟨h₁, h₂, hh, hread⟩ := twoDigits_eq (clock_lt hhour)
  obtain ⟨m₁, m₂, hm, hminute⟩ := twoDigits_eq (n := out.minute) (by omega)
  obtain ⟨s₁, s₂, hs, hsecond⟩ := twoDigits_eq (n := out.second) (by omega)
  obtain ⟨mo₁, mo₂, hmo, hmonth⟩ := twoDigits_eq (n := out.month) (by omega)
  obtain ⟨d₁, d₂, hd, hday⟩ := twoDigits_eq (n := out.day) (by omega)
  have hyear : digits (decimal out.year) = out.year := digits_toDigits
  simp only [timeText, hh, hm, hs, hmo, hd, shown, Shown.ofRecord]
  congr 1

theorem hourOfDay_clock (h : hour < 24) :
    hourOfDay (clock hour).1 (some (clock hour).2) = if hour = 12 then none else some hour := by
  interval_cases hour <;> rfl

theorem read_timeText (h : ValidRecord out) :
    read (timeText out) = if out.hour = 12 then none else some (timeJulToSecs out) := by
  rw [read, shown_timeText h, Shown.ofRecord, hourOfDay_clock h.hour]
  split
  · rfl
  · rw [Option.map_some, timeJulToSecs_dayOfWeek]

theorem onClock_iff (h : hour < 24) : OnClock (clock hour).1 ↔ hour ≠ 12 := by
  interval_cases hour <;> decide

theorem reads_back_iff (h : ValidRecord out) : OnClock (shown (timeText out)).hour ∧
    read (timeText out) = some (timeJulToSecs out) ↔ out.hour ≠ 12 := by
  have hclock : OnClock (shown (timeText out)).hour ↔ out.hour ≠ 12 := by
    rw [shown_timeText h]
    exact onClock_iff h.hour
  rw [hclock, read_timeText h]
  constructor
  · intro hread
    exact hread.1
  · intro hhour
    exact ⟨hhour, if_neg hhour⟩

theorem timeText_inj (h : ValidRecord out) (h' : ValidRecord other)
    (heq : timeText out = timeText other) : timeJulToSecs out = timeJulToSecs other := by
  have hshown : Shown.ofRecord out = Shown.ofRecord other := by
    rw [← shown_timeText h, ← shown_timeText h', heq]
  injection hshown with hhour hminute hsecond hsign hmonth hday hyear
  have hclock : out.hour = other.hour := clock_inj (Prod.ext hhour (Option.some.inj hsign))
  rw [timeJulToSecs, timeJulToSecs, hyear, hmonth, hday, hclock, hminute, hsecond]

/-- The text is read as the moment exactly outside of the hour after noon, and no two moments
have one text. -/
theorem usa_time_iff (secs other : BitVec 32) :
    (OnClock (shown (changeTimeToStringForUsa secs.toNat)).hour ∧
        read (changeTimeToStringForUsa secs.toNat) = some (secs.toNat : ℤ) ↔
      (secs.toNat + 432000) % 2 ^ 32 % 86400 / 3600 ≠ 12) ∧
    (changeTimeToStringForUsa secs.toNat = changeTimeToStringForUsa other.toNat ↔
      secs = other) := by
  have hround (secs : BitVec 32) :
      timeJulToSecs (timeJulFromSecs secs.toNat) = (secs.toNat : ℤ) :=
    timeJulToSecs_fromSecs secs.isLt
  constructor
  · rw [← hour_eq, ← hround secs]
    exact reads_back_iff (timeJulFromSecs_spec secs.toNat).1
  · constructor
    · intro heq
      have hmoment := timeText_inj (timeJulFromSecs_spec secs.toNat).1
        (timeJulFromSecs_spec other.toNat).1 heq
      rw [hround, hround] at hmoment
      exact BitVec.eq_of_toNat_eq (Int.ofNat_inj.mp hmoment)
    · rintro rfl
      rfl

/-- Noon of the first day. -/
theorem noon_not_read : changeTimeToStringForUsa 43200 = "00:00:00 PM 01/06/1980".toList ∧
    ¬ OnClock (shown (changeTimeToStringForUsa 43200)).hour ∧
    read (changeTimeToStringForUsa 43200) = none := by
  decide +kernel

end UsaTimes
