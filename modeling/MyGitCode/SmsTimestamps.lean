import Mathlib.Data.BitVec
import MyGitCode.CFormat
import MyGitCode.JulianTime
import MyGitCode.StrKit

/-! # The times of short messages

A message carries its time as six bytes of two decimal digits, or as a text. Both are read into a
record without any check on the way to the month tables. -/
namespace SmsTimestamps

open CivilCalendar JulianTime CFormat StrKit

def minYear : ℕ := 2000

/-- `tab[i]` for an `int` index, which must be inside the table. -/
def lookup (tab : List ℕ) (i : ℤ) : Option ℕ := if 0 ≤ i then tab[i.toNat]? else none

/-- The part of `time_jul_to_secs` from the day of the month on. -/
def addDayAndTime (julian : TimeJulian) (time : ℤ) : ℤ :=
  let time := uint32 (time + julian.day - 1)
  let time := uint32 (time * 24 + julian.hour)
  let time := uint32 (time * 60 + julian.minute)
  let time := uint32 (time * 60 + julian.second)
  uint32 (time - timeJulOffsetS)

/-- `time_jul_to_secs` on a record that nothing is known of. -/
def timeJulToSecsOf (julian : TimeJulian) : Option ℤ :=
  let time := uint32 (((julian.year : ℤ) - timeJulBaseYear).tdiv 4 * timeJulQuadYear)
  let month : ℤ := julian.month - 1
  let time :=
    if julian.year % 4 = 0 then
      (lookup leapMonthTab month).map fun days : ℕ => uint32 (time + days)
    else (lookup normMonthTab month).map fun days : ℕ =>
      uint32 (uint32 (time + entry yearTab (julian.year % 4)) + days)
  time.map (addDayAndTime julian)

/-- `wms_timestamp_s_type`, without the time zone. -/
@[ext] structure Timestamp where
  year : BitVec 8
  month : BitVec 8
  day : BitVec 8
  hour : BitVec 8
  minute : BitVec 8
  second : BitVec 8
  deriving DecidableEq, Repr

def Timestamp.bytes (time : Timestamp) : List (BitVec 8) :=
  [time.year, time.month, time.day, time.hour, time.minute, time.second]

/-- `(tmp & 0x0F) + ((tmp >> 4) * 10)`. -/
def ofBcd (tmp : BitVec 8) : ℕ := (tmp &&& 0x0F).toNat + (tmp >>> 4).toNat * 10

/-- `(tmp/10)<<4 | (tmp%10)`, where `tmp` and the field are bytes. -/
def toBcd (x : ℤ) : BitVec 8 :=
  let tmp := (BitVec.ofInt 8 x).toNat
  .ofNat 8 ((tmp / 10) <<< 4 ||| tmp % 10)

/-- The record that `jan_qmi_timestamp_to_secs` fills in. The day of the week is not set, and
not read. -/
def timestampRecord (time : Timestamp) (dayOfWeek : ℕ) : TimeJulian where
  year := ofBcd time.year + minYear
  month := ofBcd time.month
  day := ofBcd time.day
  hour := ofBcd time.hour
  minute := ofBcd time.minute
  second := ofBcd time.second
  dayOfWeek := dayOfWeek

def timestampToSecs (time : Timestamp) (dayOfWeek : ℕ) : Option ℤ :=
  timeJulToSecsOf (timestampRecord time dayOfWeek)

def secsToTimestamp (timeStick : ℕ) : Timestamp :=
  let clk := timeJulFromSecs timeStick
  { year := toBcd (clk.year - minYear)
    month := toBcd clk.month
    day := toBcd clk.day
    hour := toBcd clk.hour
    minute := toBcd clk.minute
    second := toBcd clk.second }

variable {julian : TimeJulian} {time : Timestamp} {n secs : ℕ}

theorem lookup_eq {tab : List ℕ} (h : 1 ≤ n) (hlen : n ≤ tab.length) :
    lookup tab ((n : ℤ) - 1) = some (entry tab (n - 1)) := by
  have hindex : ((n : ℤ) - 1).toNat = n - 1 := by omega
  rw [lookup, if_pos (by omega), hindex, entry, List.getD_eq_getElem?_getD,
    List.getElem?_eq_getElem (by omega)]
  rfl

theorem timeJulToSecsOf_eq (h : 1 ≤ julian.month) (h₁₃ : julian.month ≤ 13) :
    timeJulToSecsOf julian = some (timeJulToSecs julian) := by
  simp only [timeJulToSecsOf, timeJulToSecs]
  split
  · have hlook : lookup leapMonthTab ((julian.month : ℤ) - 1) = _ := lookup_eq h h₁₃
    rw [hlook]
    rfl
  · have hlook : lookup normMonthTab ((julian.month : ℤ) - 1) = _ := lookup_eq h h₁₃
    rw [hlook]
    rfl

theorem toBcd_eq (h : n < 100) : toBcd n = .ofNat 8 (n / 10 * 16 + n % 10) := by
  have htmp : (BitVec.ofInt 8 n).toNat = n := by
    rw [BitVec.toNat_ofInt]
    omega
  have hor : (n / 10) <<< 4 ||| n % 10 = (n / 10) <<< 4 + n % 10 :=
    (Nat.shiftLeft_add_eq_or_of_lt (by omega) _).symm
  simp only [toBcd, htmp]
  rw [hor, Nat.shiftLeft_eq]

theorem nibbles_toBcd (h : n < 100) :
    ((toBcd n) &&& 0x0F).toNat = n % 10 ∧ ((toBcd n) >>> 4).toNat = n / 10 := by
  rw [toBcd_eq h]
  interval_cases n <;> decide

theorem ofBcd_toBcd (h : n < 100) : ofBcd (toBcd n) = n := by
  rw [ofBcd, (nibbles_toBcd h).1, (nibbles_toBcd h).2]
  omega

def InCentury (secs : ℕ) : Prop :=
  2000 ≤ (gregorianDate secs).year ∧ (gregorianDate secs).year ≤ 2099

section InCentury

variable (h : InCentury secs)
include h

theorem InCentury.before_march : (gregorianDate secs).Before ⟨2100, 3, 1⟩ :=
  .inl (Nat.lt_succ_of_le h.2)

theorem InCentury.secs_lt : secs < 2 ^ 32 := by
  have hdays := days_before_march h.before_march
  omega

theorem InCentury.year :
    2000 ≤ (timeJulFromSecs secs).year ∧ (timeJulFromSecs secs).year ≤ 2099 := by
  have hyear : (timeJulFromSecs secs).year = _ := congrArg Date.year (date_fromSecs h.before_march)
  rw [hyear]
  exact h

theorem fields_lt : ∃ n < 100, (timeJulFromSecs secs).year = n + minYear ∧
    (timeJulFromSecs secs).month < 100 ∧ (timeJulFromSecs secs).day < 100 ∧
    (timeJulFromSecs secs).hour < 100 ∧ (timeJulFromSecs secs).minute < 100 ∧
    (timeJulFromSecs secs).second < 100 := by
  obtain ⟨⟨hdate, hhour, hminute, hsecond⟩, -⟩ := timeJulFromSecs_spec secs
  obtain ⟨hlow, hhigh⟩ := h.year
  have hmonth : (timeJulFromSecs secs).month ≤ 12 := hdate.month_le
  have hday : (timeJulFromSecs secs).day ≤ 31 := hdate.day_le.trans daysInMonth_le
  exact ⟨(timeJulFromSecs secs).year - 2000, by omega, by rw [minYear]; omega, by omega, by omega,
    by omega, by omega, by omega⟩

theorem timestampRecord_secsToTimestamp (dayOfWeek : ℕ) :
    timestampRecord (secsToTimestamp secs) dayOfWeek =
      { timeJulFromSecs secs with dayOfWeek := dayOfWeek } := by
  obtain ⟨n, hn, hyear, hmonth, hday, hhour, hminute, hsecond⟩ := fields_lt h
  have hcentury : ((timeJulFromSecs secs).year - minYear : ℤ) = n := by omega
  simp only [timestampRecord, secsToTimestamp, hcentury, ofBcd_toBcd hn, ofBcd_toBcd hmonth,
    ofBcd_toBcd hday, ofBcd_toBcd hhour, ofBcd_toBcd hminute, ofBcd_toBcd hsecond, ← hyear]

theorem nibbles_secsToTimestamp : ∀ b ∈ (secsToTimestamp secs).bytes,
    (b &&& 0x0F).toNat ≤ 9 ∧ (b >>> 4).toNat ≤ 9 := by
  obtain ⟨n, hn, hyear, hmonth, hday, hhour, hminute, hsecond⟩ := fields_lt h
  have hcentury : ((timeJulFromSecs secs).year - minYear : ℤ) = n := by omega
  have hnibbles {n : ℕ} (hn : n < 100) :
      ((toBcd n) &&& 0x0F).toNat ≤ 9 ∧ ((toBcd n) >>> 4).toNat ≤ 9 := by
    rw [(nibbles_toBcd hn).1, (nibbles_toBcd hn).2]
    omega
  simp only [Timestamp.bytes, secsToTimestamp, hcentury, List.forall_mem_cons]
  exact ⟨hnibbles hn, hnibbles hmonth, hnibbles hday, hnibbles hhour, hnibbles hminute,
    hnibbles hsecond, nofun⟩

theorem timestampToSecs_secsToTimestamp (dayOfWeek : ℕ) :
    timestampToSecs (secsToTimestamp secs) dayOfWeek = some (secs : ℤ) := by
  obtain ⟨⟨hdate, -, -, -⟩, -⟩ := timeJulFromSecs_spec secs
  rw [timestampToSecs, timestampRecord_secsToTimestamp h]
  calc timeJulToSecsOf { timeJulFromSecs secs with dayOfWeek := dayOfWeek }
      = some (timeJulToSecs { timeJulFromSecs secs with dayOfWeek := dayOfWeek }) :=
        timeJulToSecsOf_eq hdate.month_pos (hdate.month_le.trans (by decide))
    _ = some (secs : ℤ) := by rw [timeJulToSecs_dayOfWeek, timeJulToSecs_fromSecs h.secs_lt]

end InCentury

/-- The seconds of the century to bytes of two digits and back. -/
theorem timestamp_round_trip :
    (∀ secs dayOfWeek, InCentury secs →
      (∀ b ∈ (secsToTimestamp secs).bytes, (b &&& 0x0F).toNat ≤ 9 ∧ (b >>> 4).toNat ≤ 9) ∧
      timestampToSecs (secsToTimestamp secs) dayOfWeek = some (secs : ℤ)) ∧
    ∀ secs other, InCentury secs → InCentury other →
      secsToTimestamp secs = secsToTimestamp other → secs = other := by
  constructor
  · intro secs dayOfWeek h
    exact ⟨nibbles_secsToTimestamp h, timestampToSecs_secsToTimestamp h dayOfWeek⟩
  · intro secs other h hother heq
    have hsecs := timestampToSecs_secsToTimestamp h 0
    rw [heq, timestampToSecs_secsToTimestamp hother 0, Option.some_inj] at hsecs
    exact_mod_cast hsecs.symm

theorem timestamp_round_trip_leap_day : ∃ secs, InCentury secs ∧
    (gregorianDate secs).day = 29 ∧ timestampToSecs (secsToTimestamp secs) 0 = some (secs : ℤ) ∧
    secsToTimestamp secs ≠ secsToTimestamp (secs + 1) := by
  have hdate : gregorianDate 635860800 = ⟨2000, 2, 29⟩ :=
    (Date.eq_iterate (n := 7359) (by decide) (by decide) (by decide +kernel)).symm
  have hnext : gregorianDate 635860801 = gregorianDate 635860800 := by
    have hdays : 635860801 / 86400 = 635860800 / 86400 := by decide
    rw [gregorianDate, hdays, ← gregorianDate]
  have h : InCentury 635860800 := by
    rw [InCentury, hdate]
    decide
  have h' : InCentury 635860801 := by
    rw [InCentury, hnext, hdate]
    decide
  refine ⟨_, h, congrArg Date.day hdate, (timestamp_round_trip.1 _ 0 h).2, ?_⟩
  intro heq
  exact absurd (timestamp_round_trip.2 _ _ h h' heq) (by decide)

end SmsTimestamps
