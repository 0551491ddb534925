import MyGitCode.CivilCalendar
import Mathlib.Data.Int.Init
import Mathlib.Tactic.IntervalCases

/-! # The day of the year of a date, c100/04.c -/
namespace DayOfYear

open CivilCalendar

inductive Line where
  | prompt
  | monthError
  | leapYear
  | total (sum_day : ℤ)
  deriving DecidableEq, Repr

def Line.text : Line → String
  | .prompt => "Please input[year month day]: "
  | .monthError => "The month is error, please check!\n"
  | .leapYear => "今年是闰年，2月29天！\n"
  | .total sum_day => "截止输入的日期当年已过了 " ++ toString sum_day ++ " 天。\n"

def sumDay (month : ℤ) : Option ℤ :=
  match month with
  | 1 => some 0
  | 2 => some 28
  | 3 => some (28+31)
  | 4 => some (28+31+30)
  | 5 => some (28+31+30+31)
  | 6 => some (28+31+30+31+30)
  | 7 => some (28+31+30+31+30+31)
  | 8 => some (28+31+30+31+30+31+31)
  | 9 => some (28+31+30+31+30+31+31+30)
  | 10 => some (28+31+30+31+30+31+31+30+31)
  | 11 => some (28+31+30+31+30+31+31+30+31+30)
  | 12 => some (28+31+30+31+30+31+31+30+31+30+31)
  | _ => none

def leapYear (year : ℤ) : Bool :=
  year.tmod 400 == 0 || (year.tmod 4 == 0 && year.tmod 100 != 0)

def main (year month day : ℤ) : List Line :=
  let sum_day := (sumDay month).getD 0 + day
  let sum_day := if leapYear year ∧ month ≥ 2 then sum_day + 1 else sum_day
  [.prompt] ++ (if sumDay month = none then [.monthError] else []) ++
    (if leapYear year then [.leapYear] else []) ++ [.total sum_day]

/-- What `%d` stores in an `int`. C says nothing of a number that is too large for it. -/
def scan (n : ℕ) : Option ℤ := if n < 2 ^ 31 then some n else none

def printedFor (d : Date) : Option Line := do
  (main (← scan d.year) (← scan d.month) (← scan d.day)).getLast?

variable {d : Date} {year month day : ℤ} {y m : ℕ}

theorem leapYear_natCast : leapYear y = gregorianLeap y := by
  rw [Bool.eq_iff_iff]
  simp only [leapYear, gregorianLeap, Int.tmod_eq_emod_of_nonneg (Int.natCast_nonneg y),
    Bool.or_eq_true, Bool.and_eq_true, beq_iff_eq, bne_iff_ne, decide_eq_true_eq]
  omega

theorem getLast?_main : (main year month day).getLast? = some (.total
    ((sumDay month).getD 0 + day + if leapYear year ∧ month ≥ 2 then 1 else 0)) := by
  rw [main, List.getLast?_concat]
  by_cases hleap : leapYear year ∧ month ≥ 2
  · rw [if_pos hleap, if_pos hleap]
  · rw [if_neg hleap, if_neg hleap, Int.add_zero]

/-- The table adds the months from February to the date's own month, so it is short of the
days before the month by what the month lacks of 31. -/
theorem sumDay_eq (h₁ : 1 ≤ m) (h₁₂ : m ≤ 12) :
    (sumDay m).getD 0 + 31 + (if gregorianLeap y ∧ (m : ℤ) ≥ 2 then 1 else 0) =
      daysBeforeMonth gregorianLeap y m + daysInMonth gregorianLeap y m := by
  by_cases hleap : gregorianLeap y = true
  · interval_cases m <;> simp [sumDay, daysBeforeMonth, daysInMonth, hleap]
  · interval_cases m <;> simp [sumDay, daysBeforeMonth, daysInMonth, hleap]

theorem printedFor_eq (h : d.Valid gregorianLeap) (hyear : d.year < 2 ^ 31) :
    printedFor d = some (.total
      (d.dayOfYear gregorianLeap + daysInMonth gregorianLeap d.year d.month - 31)) := by
  have htable := sumDay_eq (y := d.year) h.month_pos h.month_le
  have hmonth : d.month < 2 ^ 31 := Nat.lt_of_le_of_lt h.month_le (by decide)
  have hday : d.day < 2 ^ 31 :=
    Nat.lt_of_le_of_lt (h.day_le.trans daysInMonth_le) (by decide)
  rw [printedFor, scan, scan, scan, if_pos hyear, if_pos hmonth, if_pos hday, Option.bind_eq_bind,
    Option.bind_some, Option.bind_some, Option.bind_some, getLast?_main, leapYear_natCast,
    Date.dayOfYear]
  congr 2
  push_cast
  omega

theorem year_lt_of_printed {line : Line} (h : printedFor d = some line) : d.year < 2 ^ 31 := by
  by_contra hyear
  rw [printedFor, scan, if_neg hyear] at h
  cases h

theorem daysInMonth_eq_31 (h₁ : 1 ≤ m) (h₁₂ : m ≤ 12) :
    daysInMonth gregorianLeap y m = 31 ↔ m ∈ [1, 3, 5, 7, 8, 10, 12] := by
  by_cases hleap : gregorianLeap y = true
  · interval_cases m <;> simp [daysInMonth, hleap]
  · interval_cases m <;> simp [daysInMonth, hleap]

theorem printedFor_next_iff (h : d.Valid gregorianLeap)
    (hyear : (d.nextDay gregorianLeap).year = d.year) {k : ℤ}
    (hk : printedFor d = some (.total k)) :
    printedFor (d.nextDay gregorianLeap) = some (.total (k + 1)) ↔
      daysInMonth gregorianLeap d.year d.month =
        daysInMonth gregorianLeap d.year (d.nextDay gregorianLeap).month := by
  have hlt := year_lt_of_printed hk
  rw [printedFor_eq h hlt, Option.some_inj, Line.total.injEq] at hk
  rw [printedFor_eq h.nextDay (hyear ▸ hlt), h.dayOfYear_nextDay hyear, hyear, Option.some_inj,
    Line.total.injEq, ← hk]
  push_cast
  omega

example : printedFor ⟨2024, 3, 1⟩ = some (.total 61) := by decide +kernel

/-- A date whose year is an `int` gets its number in the year in the months of 31 days, and in no
other month; two consecutive dates get consecutive numbers where their months are of one
length. -/
theorem printed_number_iff (d : Date) (h : d.Valid gregorianLeap) :
    (printedFor d = some (.total (d.dayOfYear gregorianLeap)) ↔
      d.year < 2 ^ 31 ∧ d.month ∈ [1, 3, 5, 7, 8, 10, 12]) ∧
    ((d.nextDay gregorianLeap).year = d.year → ∀ k, printedFor d = some (.total k) →
      (printedFor (d.nextDay gregorianLeap) = some (.total (k + 1)) ↔
        daysInMonth gregorianLeap d.year d.month =
          daysInMonth gregorianLeap d.year (d.nextDay gregorianLeap).month)) := by
  constructor
  · rw [← daysInMonth_eq_31 (y := d.year) h.month_pos h.month_le]
    constructor
    · intro hprinted
      have hyear := year_lt_of_printed hprinted
      rw [printedFor_eq h hyear, Option.some_inj, Line.total.injEq] at hprinted
      exact ⟨hyear, by omega⟩
    · rintro ⟨hyear, hdays⟩
      rw [printedFor_eq h hyear, hdays, Option.some_inj, Line.total.injEq]
      omega
  · intro hnext k hk
    exact printedFor_next_iff h hnext hk

theorem printed_december :
    printedFor ⟨2024, 12, 31⟩ = some (.total ((Date.mk 2024 12 31).dayOfYear gregorianLeap)) :=
  (printed_number_iff ⟨2024, 12, 31⟩ (by decide)).1.mpr (by decide)

/-- 1 February of a common year: `main` prints 29, the date is the 32nd of its year, and the
day before it gets 31. -/
theorem february_number :
    (Date.mk 2023 2 1).Valid gregorianLeap ∧ (Date.mk 2023 2 1).dayOfYear gregorianLeap = 32 ∧
    printedFor ⟨2023, 2, 1⟩ = some (.total 29) ∧ printedFor ⟨2023, 1, 31⟩ = some (.total 31) ∧
    ¬ ∀ d : Date, d.Valid gregorianLeap → 1 ≤ d.year →
      printedFor d = some (.total (d.dayOfYear gregorianLeap)) := by
  refine ⟨by decide, by decide, by decide, by decide, ?_⟩
  intro hall
  have hfeb := hall ⟨2023, 2, 1⟩ (by decide) (by decide)
  exact absurd hfeb (by decide)

end DayOfYear
