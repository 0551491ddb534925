import Mathlib.Algebra.Ring.Int.Defs
import Mathlib.Tactic.IntervalCases
import MyGitCode.CivilCalendar

/-! # The seconds and calendar records of `time.c`

A count runs from 6 January 1980. Inside, both functions count from 1 January 1980. -/
namespace JulianTime

open CivilCalendar

def timeJulOffsetS : ℕ := 432000
def timeJulQuadYear : ℕ := 366 + 3 * 365
def timeJulBaseYear : ℕ := 1980

@[ext] structure TimeJulian where
  year : ℕ
  month : ℕ
  day : ℕ
  hour : ℕ
  minute : ℕ
  second : ℕ
  dayOfWeek : ℕ
  deriving DecidableEq, Repr

def TimeJulian.date (julian : TimeJulian) : Date := ⟨julian.year, julian.month, julian.day⟩

def TimeJulian.timeOfDay (julian : TimeJulian) : ℕ :=
  julian.hour * 3600 + julian.minute * 60 + julian.second

def yearTab : List ℕ := [0, 366, 366 + 365, 366 + 365 + 365, 366 + 365 + 365 + 365]

def normMonthTab : List ℕ :=
  [0, 31, 59, 90, 120, 151, 181, 212, 243, 273, 304, 334, 365]

def leapMonthTab : List ℕ :=
  [0, 31, 60, 91, 121, 152, 182, 213, 244, 274, 305, 335, 366]

def dayOffset : List ℕ := [1, 1 + 2, 1 + 2 + 1, 1 + 2 + 1 + 1]

def entry (tab : List ℕ) (i : ℕ) : ℕ := tab.getD i 0

def uint16 (x : ℕ) : ℕ := x % 2 ^ 16

def uint32 (x : ℤ) : ℤ := x % 2 ^ 32

/-- Quotient and remainder, the remainder a `word`. -/
def div4x2 (dividend divisor : ℕ) : ℕ × ℕ := (dividend / divisor, uint16 (dividend % divisor))

/-- The loop `for (i = 0; days >= tab[i + 1]; i++)` over the entries behind `tab[i]`. -/
def searchFrom (days : ℕ) : List ℕ → ℕ
  | [] => 0
  | bound :: rest => if days ≥ bound then searchFrom days rest + 1 else 0

def tableSearch (tab : List ℕ) (days : ℕ) : ℕ := searchFrom days tab.tail

/-- The half of `time_jul_from_secs` that makes a date of the days elapsed. -/
def dateOfDays (elapsed : ℕ) : Date × ℕ :=
  let (quadYears, days) := div4x2 elapsed timeJulQuadYear
  let year := uint16 (timeJulBaseYear + 4 * quadYears)
  let i := tableSearch yearTab days
  let days := days - entry yearTab i
  let year := uint16 (year + i)
  let dayOfWeek := (entry dayOffset 3 * quadYears + entry dayOffset i + days) % 7
  let monthTable := if i = 0 then leapMonthTab else normMonthTab
  let i := tableSearch monthTable days
  (⟨year, uint16 (i + 1), uint16 (days - entry monthTable i + 1)⟩, dayOfWeek)

def timeJulFromSecs (secs : ℕ) : TimeJulian :=
  let secs := (secs + timeJulOffsetS) % 2 ^ 32
  let (secs, second) := div4x2 secs 60
  let (secs, minute) := div4x2 secs 60
  let (secs, hour) := div4x2 secs 24
  let (date, dayOfWeek) := dateOfDays secs
  ⟨date.year, date.month, date.day, hour, minute, second, dayOfWeek⟩

/-- `time_jul_to_secs`, whose `time` is a `uint32`. -/
def timeJulToSecs (julian : TimeJulian) : ℤ :=
  let time := uint32 (((julian.year : ℤ) - timeJulBaseYear).tdiv 4 * timeJulQuadYear)
  let time :=
    if julian.year % 4 = 0 then uint32 (time + entry leapMonthTab (julian.month - 1))
    else
      let time := uint32 (time + entry yearTab (julian.year % 4))
      uint32 (time + entry normMonthTab (julian.month - 1))
  let time := uint32 (time + julian.day - 1)
  let time := uint32 (time * 24 + julian.hour)
  let time := uint32 (time * 60 + julian.minute)
  let time := uint32 (time * 60 + julian.second)
  uint32 (time - timeJulOffsetS)

def quadLeap (y : ℕ) : Bool := y % 4 = 0

variable {tab : List ℕ} {days y m i : ℕ}

/-- The search ends at the entry that `days` falls behind, inside the table where its last
entry is larger. -/
theorem searchFrom_spec {first : ℕ} (hfirst : first ≤ days) (hlast : ∃ bound ∈ tab, days < bound) :
    searchFrom days tab < tab.length ∧ entry (first :: tab) (searchFrom days tab) ≤ days ∧
      days < entry (first :: tab) (searchFrom days tab + 1) := by
  induction tab generalizing first with
  | nil => simp at hlast
  | cons bound rest ih =>
    rw [searchFrom]
    split
    · rename_i hge
      have hrest : ∃ b ∈ rest, days < b := by
        obtain ⟨b, hb, hlt⟩ := hlast
        rcases List.mem_cons.mp hb with rfl | hb
        · omega
        · exact ⟨b, hb, hlt⟩
      obtain ⟨h₁, h₂, h₃⟩ := ih hge hrest
      exact ⟨Nat.succ_lt_succ h₁, by simpa [entry] using h₂, by simpa [entry] using h₃⟩
    · rename_i hlt
      exact ⟨Nat.succ_pos _, by simpa [entry] using hfirst, by simpa [entry] using hlt⟩

theorem tableSearch_spec (tab : List ℕ) (days last : ℕ) (hfirst : entry tab 0 ≤ days)
    (hpos : 0 < last) (hlast : last < tab.length) (h : days < entry tab last) :
    tableSearch tab days + 1 < tab.length ∧ entry tab (tableSearch tab days) ≤ days ∧
      days < entry tab (tableSearch tab days + 1) := by
  cases tab with
  | nil => simp at hlast
  | cons first rest =>
    obtain ⟨k, rfl⟩ := Nat.exists_eq_add_of_le' hpos
    have hk : k < rest.length := by simpa using hlast
    have hbound : ∃ bound ∈ rest, days < bound := by
      refine ⟨rest[k], List.getElem_mem hk, ?_⟩
      simpa [entry, hk] using h
    obtain ⟨h₁, h₂⟩ := searchFrom_spec hfirst hbound
    exact ⟨by simpa [tableSearch] using h₁, h₂⟩

theorem daysBeforeYear_quad (hy : y % 4 = 0) (hi : i ≤ 4) :
    daysBeforeYear quadLeap (y + i) = daysBeforeYear quadLeap y + entry yearTab i := by
  have h₁ : quadLeap y = true := by simp [quadLeap, hy]
  have h₂ : quadLeap (y + 1) = false := by simp [quadLeap]; omega
  have h₃ : quadLeap (y + 2) = false := by simp [quadLeap]; omega
  have h₄ : quadLeap (y + 3) = false := by simp [quadLeap]; omega
  interval_cases i <;> simp [daysBeforeYear, daysInYear, entry, yearTab, h₁, h₂, h₃, h₄]

theorem daysBeforeYear_quads (q : ℕ) :
    daysBeforeYear quadLeap (1980 + 4 * q) = daysBeforeYear quadLeap 1980 + 1461 * q := by
  induction q with
  | zero => simp
  | succ q ih =>
    have hquad : entry yearTab 4 = 1461 := by decide
    have h := daysBeforeYear_quad (y := 1980 + 4 * q) (i := 4) (by omega) (by decide)
    rw [ih, hquad] at h
    rw [Nat.mul_succ, ← Nat.add_assoc, h, Nat.mul_succ, Nat.add_assoc]

def monthTab (y : ℕ) : List ℕ := if y % 4 = 0 then leapMonthTab else normMonthTab

theorem entry_monthTab (h₁ : 1 ≤ m) (h₁₃ : m ≤ 13) :
    entry (monthTab y) (m - 1) = daysBeforeMonth quadLeap y m := by
  by_cases hy : y % 4 = 0
  · interval_cases m <;>
      simp [monthTab, hy, daysBeforeMonth, daysInMonth, quadLeap, entry, leapMonthTab]
  · interval_cases m <;>
      simp [monthTab, hy, daysBeforeMonth, daysInMonth, quadLeap, entry, normMonthTab]

theorem uint16_eq {x : ℕ} (h : x < 2 ^ 16) : uint16 x = x := Nat.mod_eq_of_lt h

theorem yearTab_search (days : ℕ) (hdays : days < 1461) : tableSearch yearTab days < 4 ∧
    entry yearTab (tableSearch yearTab days) ≤ days ∧
    days < entry yearTab (tableSearch yearTab days + 1) := by
  have h := tableSearch_spec yearTab days 4 (Nat.zero_le _) (by decide) (by decide) hdays
  exact ⟨Nat.lt_of_succ_lt_succ h.1, h.2⟩

theorem monthTab_search (days : ℕ) (hdays : days < daysInYear quadLeap y) :
    tableSearch (monthTab y) days < 12 ∧
    daysBeforeMonth quadLeap y (tableSearch (monthTab y) days + 1) ≤ days ∧
    days < daysBeforeMonth quadLeap y (tableSearch (monthTab y) days + 2) := by
  have hlen : (monthTab y).length = 13 := by
    unfold monthTab
    split <;> rfl
  have hfirst : entry (monthTab y) 0 = 0 := entry_monthTab (m := 1) (by decide) (by decide)
  have hlast : entry (monthTab y) 12 = daysInYear quadLeap y :=
    (entry_monthTab (m := 13) (by decide) (by decide)).trans daysBeforeMonth_end
  obtain ⟨h₁, h₂, h₃⟩ :=
    tableSearch_spec (monthTab y) days 12 (by omega) (by decide) (by omega) (by omega)
  rw [← entry_monthTab (by omega) (by omega), ← entry_monthTab (by omega) (by omega)]
  exact ⟨by omega, h₂, h₃⟩

theorem dateOfDays_eq {n i j : ℕ} (hn : n ≤ 49710) (hi : tableSearch yearTab (n % 1461) = i)
    (hi4 : i < 4)
    (hj : tableSearch (monthTab (1980 + 4 * (n / 1461) + i)) (n % 1461 - entry yearTab i) = j)
    (hj12 : j < 12) :
    dateOfDays n =
      (⟨1980 + 4 * (n / 1461) + i, j + 1, n % 1461 - entry yearTab i -
        entry (monthTab (1980 + 4 * (n / 1461) + i)) j + 1⟩,
      (5 * (n / 1461) + entry dayOffset i + (n % 1461 - entry yearTab i)) % 7) := by
  have htab : (if i = 0 then leapMonthTab else normMonthTab) =
      monthTab (1980 + 4 * (n / 1461) + i) := by
    unfold monthTab
    congr 1
    simp only [eq_iff_iff]
    omega
  have hoff : entry dayOffset 3 = 5 := rfl
  have hrem : uint16 (n % 1461) = n % 1461 := uint16_eq (by omega)
  have hquad : uint16 (1980 + 4 * (n / 1461)) = 1980 + 4 * (n / 1461) := uint16_eq (by omega)
  simp only [dateOfDays, div4x2, timeJulQuadYear, timeJulBaseYear, Nat.reduceAdd, Nat.reduceMul,
    hrem, hi, hquad, htab, hoff, uint16_eq (x := 1980 + 4 * (n / 1461) + i) (by omega), hj,
    uint16_eq (x := j + 1) (by omega)]
  rw [uint16_eq (x := _ + 1) (by omega)]

theorem dateOfDays_spec {n : ℕ} (hn : n ≤ 49710) : (dateOfDays n).1.Valid quadLeap ∧
    (dateOfDays n).1.ordinal quadLeap = daysBeforeYear quadLeap 1980 + n ∧
    1980 ≤ (dateOfDays n).1.year ∧ (dateOfDays n).2 = (n + 1) % 7 := by
  obtain ⟨hi4, hlo, hhi⟩ := yearTab_search (n % 1461) (Nat.mod_lt _ (by decide))
  generalize hi : tableSearch yearTab (n % 1461) = i at hi4 hlo hhi
  have hyear : daysBeforeYear quadLeap (1980 + 4 * (n / 1461) + i) =
      daysBeforeYear quadLeap 1980 + 1461 * (n / 1461) + entry yearTab i := by
    rw [daysBeforeYear_quad (by omega) (by omega), daysBeforeYear_quads]
  have hlen : entry yearTab (i + 1) =
      entry yearTab i + daysInYear quadLeap (1980 + 4 * (n / 1461) + i) := by
    have h := daysBeforeYear_quad (y := 1980 + 4 * (n / 1461)) (i := i + 1) (by omega) (by omega)
    rw [← Nat.add_assoc, daysBeforeYear, hyear, daysBeforeYear_quads] at h
    omega
  have hmax : daysInYear quadLeap (1980 + 4 * (n / 1461) + i) ≤ 366 := by
    unfold daysInYear
    split <;> decide
  obtain ⟨hj12, hmlo, hmhi⟩ := monthTab_search (y := 1980 + 4 * (n / 1461) + i)
    (n % 1461 - entry yearTab i) (by omega)
  generalize hj : tableSearch (monthTab (1980 + 4 * (n / 1461) + i))
    (n % 1461 - entry yearTab i) = j at hj12 hmlo hmhi
  have hmonth : entry (monthTab (1980 + 4 * (n / 1461) + i)) j =
      daysBeforeMonth quadLeap (1980 + 4 * (n / 1461) + i) (j + 1) :=
    entry_monthTab (m := j + 1) (by omega) (by omega)
  rw [daysBeforeMonth_succ (by omega)] at hmhi
  rw [dateOfDays_eq hn hi hi4 hj hj12, hmonth]
  refine ⟨⟨by simp, hj12, by simp, by simp only; omega⟩, ?_, ?_, ?_⟩
  · simp only [Date.ordinal, hyear]
    omega
  · simp only
    omega
  · have hweek : (entry dayOffset i + 6 * entry yearTab i) % 7 = 1 := by
      interval_cases i <;> rfl
    simp only
    omega

/-- The seconds from 1 January 1980 to a record under the leap years of the code. -/
def elapsed (julian : TimeJulian) : ℤ :=
  ((julian.date.ordinal quadLeap : ℤ) - daysBeforeYear quadLeap 1980) * 86400 + julian.timeOfDay

theorem uint32_add (x y : ℤ) : uint32 (uint32 x + y) = uint32 (x + y) := by
  simp only [uint32]
  omega

theorem uint32_sub (x y : ℤ) : uint32 (uint32 x - y) = uint32 (x - y) := by
  simp only [uint32]
  omega

theorem uint32_scale (x y : ℤ) : uint32 (uint32 x * 24 + y) = uint32 (x * 24 + y) ∧
    uint32 (uint32 x * 60 + y) = uint32 (x * 60 + y) := by
  simp only [uint32]
  omega

theorem days_eq {julian : TimeJulian} (hyear : 1980 ≤ julian.year)
    (hvalid : julian.date.Valid quadLeap) :
    (julian.date.ordinal quadLeap : ℤ) - daysBeforeYear quadLeap 1980 =
      ((julian.year : ℤ) - 1980).tdiv 4 * 1461 + entry yearTab (julian.year % 4) +
        entry (monthTab julian.year) (julian.month - 1) + julian.day - 1 := by
  have hmonth : entry (monthTab julian.year) (julian.month - 1) =
      daysBeforeMonth quadLeap julian.year julian.month :=
    entry_monthTab hvalid.month_pos (hvalid.month_le.trans (by decide))
  have hbase := daysBeforeYear_quad (y := 1980 + 4 * ((julian.year - 1980) / 4))
    (i := julian.year % 4) (by omega) (by omega)
  have hsplit : 1980 + 4 * ((julian.year - 1980) / 4) + julian.year % 4 = julian.year := by omega
  rw [daysBeforeYear_quads, hsplit] at hbase
  have hday := hvalid.day_pos
  have hdiv : ((julian.year : ℤ) - 1980).tdiv 4 = ((julian.year - 1980) / 4 : ℕ) := by
    rw [Int.tdiv_eq_ediv_of_nonneg (by omega)]
    omega
  simp only [Date.ordinal, TimeJulian.date] at hday ⊢
  rw [hbase, hdiv, hmonth]
  omega

theorem branch_eq (x : ℤ) : (if y % 4 = 0 then uint32 (uint32 x + entry leapMonthTab i)
    else uint32 (uint32 (uint32 x + entry yearTab (y % 4)) + entry normMonthTab i)) =
      uint32 (x + entry yearTab (y % 4) + entry (monthTab y) i) := by
  unfold monthTab
  split
  · rename_i hleap
    have hzero : entry yearTab 0 = 0 := rfl
    rw [uint32_add, hleap, hzero, Int.natCast_zero, Int.add_zero]
  · rw [uint32_add, Int.add_assoc, uint32_add, Int.add_assoc]

theorem timeJulToSecs_eq {julian : TimeJulian} (hyear : 1980 ≤ julian.year)
    (hvalid : julian.date.Valid quadLeap) :
    timeJulToSecs julian = uint32 (elapsed julian - 432000) := by
  have hdays := days_eq hyear hvalid
  simp only [timeJulToSecs, branch_eq]
  simp only [Int.add_sub_assoc, uint32_add, uint32_sub, (uint32_scale _ _).1,
    (uint32_scale _ _).2]
  apply congrArg uint32
  simp only [elapsed, hdays, TimeJulian.timeOfDay, timeJulQuadYear, timeJulBaseYear,
    timeJulOffsetS, Nat.reduceAdd, Nat.reduceMul, Nat.cast_ofNat]
  omega

structure ValidRecord (julian : TimeJulian) : Prop where
  date : julian.date.Valid quadLeap
  hour : julian.hour < 24
  minute : julian.minute < 60
  second : julian.second < 60

theorem ValidRecord.timeOfDay {julian : TimeJulian} (h : ValidRecord julian) :
    julian.timeOfDay < 86400 ∧ julian.hour = julian.timeOfDay / 3600 ∧
      julian.minute = julian.timeOfDay % 3600 / 60 ∧ julian.second = julian.timeOfDay % 60 := by
  have := h.hour
  have := h.minute
  have := h.second
  rw [TimeJulian.timeOfDay]
  omega

/-- What `time_jul_from_secs` fills in, by the seconds since 1 January 1980. -/
theorem timeJulFromSecs_spec (secs : ℕ) : ValidRecord (timeJulFromSecs secs) ∧
    1980 ≤ (timeJulFromSecs secs).year ∧
    elapsed (timeJulFromSecs secs) = ((secs + 432000) % 2 ^ 32 : ℕ) ∧
    (timeJulFromSecs secs).dayOfWeek = ((secs + 432000) % 2 ^ 32 / 86400 + 1) % 7 := by
  have htotal : (secs + 432000) % 2 ^ 32 < 2 ^ 32 := Nat.mod_lt _ (by decide)
  simp only [timeJulFromSecs, div4x2, timeJulOffsetS]
  generalize (secs + 432000) % 2 ^ 32 = total at htotal ⊢
  have hdays : total / 60 / 60 / 24 = total / 86400 := by omega
  obtain ⟨hvalid, hordinal, hyear, hweek⟩ := dateOfDays_spec (n := total / 86400) (by omega)
  simp only [hdays, uint16_eq (x := total % 60) (by omega),
    uint16_eq (x := total / 60 % 60) (by omega), uint16_eq (x := total / 60 / 60 % 24) (by omega)]
  refine ⟨⟨hvalid, ?_, ?_, ?_⟩, hyear, ?_, hweek⟩
  · simp only
    omega
  · simp only
    omega
  · simp only
    omega
  · have hdate : (dateOfDays (total / 86400)).1.ordinal quadLeap =
        daysBeforeYear quadLeap 1980 + total / 86400 := hordinal
    simp only [elapsed, TimeJulian.date, TimeJulian.timeOfDay, hdate]
    omega

def secondCount (julian : TimeJulian) : ℤ := elapsed julian - 432000

structure InEra (julian : TimeJulian) : Prop where
  valid : ValidRecord julian
  start : ¬ julian.date.Before ⟨1980, 1, 6⟩

structure SameMoment (julian other : TimeJulian) : Prop where
  date : julian.date = other.date
  hour : julian.hour = other.hour
  minute : julian.minute = other.minute
  second : julian.second = other.second

def Earlier (julian later : TimeJulian) : Prop :=
  julian.date.Before later.date ∨ julian.date = later.date ∧
    (julian.hour < later.hour ∨ julian.hour = later.hour ∧
      (julian.minute < later.minute ∨ julian.minute = later.minute ∧
        julian.second < later.second))

variable {julian later : TimeJulian}

theorem InEra.spec (h : InEra julian) : 1980 ≤ julian.year ∧ 0 ≤ secondCount julian := by
  have hyear : 1980 ≤ julian.year := by
    by_contra hlt
    exact h.start (.inl (Nat.lt_of_not_le hlt))
  have hstart : (Date.mk 1980 1 6).ordinal quadLeap ≤ julian.date.ordinal quadLeap := by
    have := mt (Date.before_iff h.valid.date (by decide)).mpr h.start
    omega
  have hfirst : (Date.mk 1980 1 6).ordinal quadLeap = daysBeforeYear quadLeap 1980 + 5 := by
    simp [Date.ordinal, daysBeforeMonth]
  refine ⟨hyear, ?_⟩
  rw [secondCount, elapsed]
  omega

theorem InEra.toSecs (h : InEra julian) (hfit : secondCount julian < 2 ^ 32) :
    timeJulToSecs julian = secondCount julian := by
  obtain ⟨hyear, hpos⟩ := h.spec
  rw [timeJulToSecs_eq hyear h.valid.date]
  exact Int.emod_eq_of_lt hpos hfit

theorem SameMoment.of_elapsed (h : ValidRecord julian) (h' : ValidRecord later)
    (heq : elapsed julian = elapsed later) : SameMoment julian later := by
  obtain ⟨hlt, hh, hm, hs⟩ := h.timeOfDay
  obtain ⟨hlt', hh', hm', hs'⟩ := h'.timeOfDay
  simp only [elapsed] at heq
  have htime : julian.timeOfDay = later.timeOfDay := by omega
  refine ⟨Date.ordinal_inj h.date h'.date (by omega), ?_, ?_, ?_⟩
  · rw [hh, hh', htime]
  · rw [hm, hm', htime]
  · rw [hs, hs', htime]

theorem Earlier.elapsed_lt (h : Earlier julian later) (hj : ValidRecord julian) :
    elapsed julian < elapsed later := by
  have hlt := hj.timeOfDay.1
  rcases h with hdate | ⟨hdate, htime⟩
  · have := hdate.ordinal_lt hj.date
    simp only [elapsed]
    omega
  · have := hj.minute
    have := hj.second
    simp only [elapsed, hdate, TimeJulian.timeOfDay]
    omega

theorem timeJulToSecs_dayOfWeek (dayOfWeek : ℕ) :
    timeJulToSecs { julian with dayOfWeek := dayOfWeek } = timeJulToSecs julian := rfl

theorem timeJulToSecs_fromSecs {secs : ℕ} (hsecs : secs < 2 ^ 32) :
    timeJulToSecs (timeJulFromSecs secs) = secs := by
  obtain ⟨hvalid, hyear, helapsed, -⟩ := timeJulFromSecs_spec secs
  rw [timeJulToSecs_eq hyear hvalid.date, helapsed, uint32]
  omega

/-- From seconds to a record and back for every count, from a record to seconds and back as
long as the offset fits on top of the count, and later records have larger counts. -/
theorem calendar_round_trip :
    (∀ secs : ℕ, secs < 2 ^ 32 → timeJulToSecs (timeJulFromSecs secs) = secs) ∧
    (∀ julian, InEra julian → secondCount julian < 2 ^ 32 - 432000 →
      SameMoment (timeJulFromSecs (timeJulToSecs julian).toNat) julian) ∧
    ∀ julian later, InEra julian → InEra later → secondCount later < 2 ^ 32 →
      Earlier julian later → timeJulToSecs julian < timeJulToSecs later := by
  refine ⟨fun _ => timeJulToSecs_fromSecs, ?_, ?_⟩
  · intro julian hera hfit
    obtain ⟨hvalid, -, helapsed, -⟩ := timeJulFromSecs_spec (timeJulToSecs julian).toNat
    have hpos := hera.spec.2
    refine .of_elapsed hvalid hera.valid ?_
    rw [helapsed, hera.toSecs (by omega)]
    rw [secondCount] at hpos hfit ⊢
    omega
  · intro julian later hj hl hfit hlt
    have hless := hlt.elapsed_lt hj.valid
    have hfit' : secondCount julian < 2 ^ 32 := by
      rw [secondCount] at hfit ⊢
      omega
    rw [hj.toSecs hfit', hl.toSecs hfit, secondCount, secondCount]
    omega

/-- In the last five days of the 32-bit counts the record comes back as one of 1980. -/
theorem late_date_comes_back_in_1980 : ∃ julian, InEra julian ∧ secondCount julian < 2 ^ 32 ∧
    ¬ SameMoment (timeJulFromSecs (timeJulToSecs julian).toNat) julian := by
  refine ⟨⟨2116, 2, 10, 0, 0, 0, 0⟩, ⟨⟨by decide, by decide, by decide, by decide⟩, by decide⟩,
    by decide +kernel, fun h => ?_⟩
  exact absurd (congrArg Date.year h.date) (by decide +kernel)

def gregorianDate (secs : ℕ) : Date :=
  Nat.iterate (Date.nextDay gregorianLeap) (secs / 86400) ⟨1980, 1, 6⟩

theorem gregorianLeap_eq (h₁ : 1980 ≤ y) (h₂ : y < 2100) : gregorianLeap y = quadLeap y := by
  simp only [gregorianLeap, quadLeap, decide_eq_decide]
  omega

theorem daysBeforeYear_gregorian (h₁ : 1980 ≤ y) (h₂ : y ≤ 2100) :
    daysBeforeYear gregorianLeap y + daysBeforeYear quadLeap 1980 =
      daysBeforeYear quadLeap y + daysBeforeYear gregorianLeap 1980 := by
  induction y, h₁ using Nat.le_induction with
  | base => exact Nat.add_comm _ _
  | succ y hy ih =>
    have hleap : daysInYear gregorianLeap y = daysInYear quadLeap y := by
      rw [daysInYear, gregorianLeap_eq hy h₂, daysInYear]
    have hquad : daysBeforeYear quadLeap (y + 1) =
        daysBeforeYear quadLeap y + daysInYear quadLeap y := rfl
    have hgreg : daysBeforeYear gregorianLeap (y + 1) =
        daysBeforeYear gregorianLeap y + daysInYear gregorianLeap y := rfl
    have := ih (Nat.le_of_succ_le h₂)
    omega

theorem daysInMonth_gregorian (h : 1980 ≤ y ∧ y < 2100 ∨ m < 2) :
    daysInMonth gregorianLeap y m = daysInMonth quadLeap y m := by
  rcases h with ⟨h₁, h₂⟩ | h
  · unfold daysInMonth
    rw [gregorianLeap_eq h₁ h₂]
  · interval_cases m <;> rfl

theorem daysBeforeMonth_gregorian (h : 1980 ≤ y ∧ y < 2100 ∨ m ≤ 2) :
    daysBeforeMonth gregorianLeap y m = daysBeforeMonth quadLeap y m := by
  induction m with
  | zero => rfl
  | succ m ih =>
    rcases Nat.eq_zero_or_pos m with rfl | hm
    · rfl
    · rw [daysBeforeMonth_succ hm, daysBeforeMonth_succ hm, ih (by omega),
        daysInMonth_gregorian (by omega)]

theorem gregorian_of_quad {d : Date} (hd : d.Valid quadLeap) (hyear : 1980 ≤ d.year)
    (hlast : d.Before ⟨2100, 2, 29⟩) : d.Valid gregorianLeap ∧
      d.ordinal gregorianLeap + daysBeforeYear quadLeap 1980 =
        d.ordinal quadLeap + daysBeforeYear gregorianLeap 1980 := by
  have hbefore : d.year < 2100 ∨ d.year = 2100 ∧ (d.month < 2 ∨ d.month = 2 ∧ d.day < 29) := hlast
  have hmonth : 1980 ≤ d.year ∧ d.year < 2100 ∨ d.month ≤ 2 := by omega
  have hle : d.year ≤ 2100 := by omega
  have hyears := daysBeforeYear_gregorian hyear hle
  have hmonths := daysBeforeMonth_gregorian hmonth
  refine ⟨⟨hd.month_pos, hd.month_le, hd.day_pos, ?_⟩, ?_⟩
  · have hday := hd.day_le
    by_cases hfeb : 1980 ≤ d.year ∧ d.year < 2100 ∨ d.month < 2
    · rwa [daysInMonth_gregorian hfeb]
    · have hm : d.month = 2 := by omega
      have hd28 : d.day ≤ 28 := by omega
      refine hd28.trans ?_
      rw [hm, daysInMonth]
      split <;> decide
  · rw [Date.ordinal, Date.ordinal, hmonths]
    omega

theorem gregorianDate_spec (secs : ℕ) : (gregorianDate secs).Valid gregorianLeap ∧
    (gregorianDate secs).ordinal gregorianLeap =
      (Date.mk 1980 1 6).ordinal gregorianLeap + secs / 86400 :=
  Date.Valid.iterate (by decide)

theorem ordinal_start (leap : ℕ → Bool) :
    (Date.mk 1980 1 6).ordinal leap = daysBeforeYear leap 1980 + 5 := by
  simp [Date.ordinal, daysBeforeMonth]

theorem ordinal_march : (Date.mk 2100 3 1).ordinal gregorianLeap =
    daysBeforeYear gregorianLeap 1980 + 43889 := by
  have hyears := daysBeforeYear_gregorian (y := 2100) (by decide) (by decide)
  have hquads : daysBeforeYear quadLeap 2100 = _ := daysBeforeYear_quads 30
  have hmonths : daysBeforeMonth gregorianLeap 2100 3 = 59 := rfl
  simp only [Date.ordinal, hmonths]
  omega

theorem ordinal_leap_day : (Date.mk 2100 2 29).ordinal quadLeap =
    daysBeforeYear quadLeap 1980 + 43889 := by
  have hquads : daysBeforeYear quadLeap 2100 = _ := daysBeforeYear_quads 30
  have hmonths : daysBeforeMonth quadLeap 2100 2 = 31 := rfl
  simp only [Date.ordinal, hquads, hmonths]

section BeforeMarch2100

variable {secs : ℕ} (hlast : (gregorianDate secs).Before ⟨2100, 3, 1⟩)
include hlast

theorem days_before_march : secs / 86400 < 43884 := by
  obtain ⟨hreal, hordinal⟩ := gregorianDate_spec secs
  rw [ordinal_start] at hordinal
  have hlt := hlast.ordinal_lt hreal
  rw [ordinal_march] at hlt
  omega

theorem sum_before_march : (secs + 432000) % 2 ^ 32 = secs + 432000 := by
  have hdays := days_before_march hlast
  exact Nat.mod_eq_of_lt (by omega)

theorem ordinal_fromSecs : (timeJulFromSecs secs).date.ordinal quadLeap =
      daysBeforeYear quadLeap 1980 + 5 + secs / 86400 ∧
    (timeJulFromSecs secs).timeOfDay = secs % 86400 := by
  obtain ⟨hvalid, -, helapsed, -⟩ := timeJulFromSecs_spec secs
  rw [sum_before_march hlast, elapsed] at helapsed
  have htime := hvalid.timeOfDay.1
  constructor <;> omega

theorem date_fromSecs : (timeJulFromSecs secs).date = gregorianDate secs := by
  obtain ⟨hreal, hordinal⟩ := gregorianDate_spec secs
  rw [ordinal_start] at hordinal
  obtain ⟨hvalid, hyear, -, -⟩ := timeJulFromSecs_spec secs
  have hquad := (ordinal_fromSecs hlast).1
  have hdays := days_before_march hlast
  have hbefore : (timeJulFromSecs secs).date.Before ⟨2100, 2, 29⟩ := by
    rw [Date.before_iff hvalid.date (by decide), ordinal_leap_day]
    omega
  obtain ⟨hgreg, hord⟩ := gregorian_of_quad hvalid.date hyear hbefore
  exact Date.ordinal_inj hgreg hreal (by omega)

theorem weekday_fromSecs :
    (timeJulFromSecs secs).dayOfWeek = (gregorianDate secs).weekday := by
  obtain ⟨-, -, -, hweek⟩ := timeJulFromSecs_spec secs
  rw [sum_before_march hlast] at hweek
  have hstart : daysBeforeYear gregorianLeap 1980 = 723180 := by decide +kernel
  have hmonday : (Date.mk 1 1 1).ordinal gregorianLeap = 366 := rfl
  rw [hweek, Date.weekday, (gregorianDate_spec secs).2, ordinal_start, hstart, hmonday]
  omega

end BeforeMarch2100

/-- Before 1 March 2100 the record is the date of the Gregorian calendar, its day of the
week, and the time of day. -/
theorem timeJulFromSecs_gregorian (secs : ℕ)
    (hlast : (gregorianDate secs).Before ⟨2100, 3, 1⟩) :
    timeJulFromSecs secs =
      { year := (gregorianDate secs).year
        month := (gregorianDate secs).month
        day := (gregorianDate secs).day
        hour := secs % 86400 / 3600
        minute := secs % 3600 / 60
        second := secs % 60
        dayOfWeek := (gregorianDate secs).weekday } := by
  obtain ⟨hvalid, -, -, -⟩ := timeJulFromSecs_spec secs
  obtain ⟨-, hhour, hminute, hsecond⟩ := hvalid.timeOfDay
  have htime := (ordinal_fromSecs hlast).2
  have hdate := date_fromSecs hlast
  refine TimeJulian.ext (congrArg Date.year hdate) (congrArg Date.month hdate)
    (congrArg Date.day hdate) ?_ ?_ ?_ (weekday_fromSecs hlast)
  · rw [hhour, htime]
  · rw [hminute, htime, Nat.mod_mod_of_dvd _ (by decide)]
  · rw [hsecond, htime, Nat.mod_mod_of_dvd _ (by decide)]

theorem timeJulFromSecs_leap_day : ∃ secs, (gregorianDate secs).year = 2000 ∧
    timeJulFromSecs secs = ⟨2000, 2, 29, 12, 0, 0, 1⟩ := by
  have hdate : gregorianDate 635860800 = ⟨2000, 2, 29⟩ :=
    (Date.eq_iterate (n := 7359) (by decide) (by decide) (by decide +kernel)).symm
  have h := timeJulFromSecs_gregorian 635860800 (by rw [hdate]; decide)
  have hweek : (Date.mk 2000 2 29).weekday = 1 := by decide +kernel
  rw [hdate, hweek] at h
  exact ⟨_, congrArg Date.year hdate, h⟩

end JulianTime
