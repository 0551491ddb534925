import Mathlib.Data.Nat.Init
import Mathlib.Data.Nat.Notation
import Mathlib.Logic.Function.Iterate
import Mathlib.Tactic.Common

/-! # Calendars of twelve months under a leap rule

A date is a year, a month and a day. Which years are leap years is left open. -/
namespace CivilCalendar

structure Date where
  year : ℕ
  month : ℕ
  day : ℕ
  deriving DecidableEq, Repr

def gregorianLeap (y : ℕ) : Bool := y % 4 = 0 ∧ (y % 100 ≠ 0 ∨ y % 400 = 0)

variable (leap : ℕ → Bool)

def daysInMonth (y : ℕ) : ℕ → ℕ
  | 2 => if leap y then 29 else 28
  | 4 | 6 | 9 | 11 => 30
  | _ => 31

def daysInYear (y : ℕ) : ℕ := if leap y then 366 else 365

structure Date.Valid (d : Date) : Prop where
  month_pos : 1 ≤ d.month
  month_le : d.month ≤ 12
  day_pos : 1 ≤ d.day
  day_le : d.day ≤ daysInMonth leap d.year d.month

def Date.nextDay (d : Date) : Date :=
  if d.day < daysInMonth leap d.year d.month then ⟨d.year, d.month, d.day + 1⟩
  else if d.month < 12 then ⟨d.year, d.month + 1, 1⟩
  else ⟨d.year + 1, 1, 1⟩

def daysBeforeYear : ℕ → ℕ
  | 0 => 0
  | y + 1 => daysBeforeYear y + daysInYear leap y

def daysBeforeMonth (y : ℕ) : ℕ → ℕ
  | 0 | 1 => 0
  | m + 2 => daysBeforeMonth y (m + 1) + daysInMonth leap y (m + 1)

def Date.ordinal (d : Date) : ℕ :=
  daysBeforeYear leap d.year + daysBeforeMonth leap d.year d.month + (d.day - 1)

/-- The day of the week, Monday being 0: in the Gregorian calendar 1 January of year 1 was
a Monday. -/
def Date.weekday (d : Date) : ℕ :=
  (d.ordinal gregorianLeap - (Date.mk 1 1 1).ordinal gregorianLeap) % 7

def Date.dayOfYear (d : Date) : ℕ := daysBeforeMonth leap d.year d.month + d.day

def Date.Before (d e : Date) : Prop :=
  d.year < e.year ∨ d.year = e.year ∧
    (d.month < e.month ∨ d.month = e.month ∧ d.day < e.day)

instance (d e : Date) : Decidable (d.Before e) := inferInstanceAs (Decidable (_ ∨ _))

instance (d : Date) : Decidable (d.Valid leap) :=
  decidable_of_iff (1 ≤ d.month ∧ d.month ≤ 12 ∧ 1 ≤ d.day ∧
    d.day ≤ daysInMonth leap d.year d.month)
    ⟨fun ⟨h₁, h₂, h₃, h₄⟩ => ⟨h₁, h₂, h₃, h₄⟩, fun ⟨h₁, h₂, h₃, h₄⟩ => ⟨h₁, h₂, h₃, h₄⟩⟩

variable {leap} {d e : Date} {y m n : ℕ}

theorem daysInMonth_pos : 0 < daysInMonth leap y m := by
  unfold daysInMonth
  split
  · split <;> decide
  all_goals decide

theorem daysInMonth_le : daysInMonth leap y m ≤ 31 := by
  unfold daysInMonth
  split
  · split <;> decide
  all_goals decide

theorem daysBeforeMonth_one : daysBeforeMonth leap y 1 = 0 := rfl

theorem daysBeforeMonth_succ (hm : 1 ≤ m) :
    daysBeforeMonth leap y (m + 1) = daysBeforeMonth leap y m + daysInMonth leap y m := by
  obtain ⟨k, rfl⟩ := Nat.exists_eq_add_of_le' hm
  rfl

theorem daysBeforeMonth_mono (hm : 1 ≤ m) (h : m ≤ n) :
    daysBeforeMonth leap y m ≤ daysBeforeMonth leap y n := by
  induction n, h using Nat.le_induction with
  | base => exact Nat.le_refl _
  | succ n hn ih =>
    rw [daysBeforeMonth_succ (Nat.le_trans hm hn)]
    omega

theorem daysBeforeMonth_end : daysBeforeMonth leap y 13 = daysInYear leap y := by
  simp only [daysBeforeMonth, daysInMonth, daysInYear]
  split <;> rfl

theorem daysBeforeYear_mono (h : y ≤ n) : daysBeforeYear leap y ≤ daysBeforeYear leap n := by
  induction n, h using Nat.le_induction with
  | base => exact Nat.le_refl _
  | succ n hn ih =>
    rw [daysBeforeYear]
    omega

theorem Date.Valid.ordinal_lt (h : d.Valid leap) :
    d.ordinal leap < daysBeforeYear leap d.year + daysBeforeMonth leap d.year (d.month + 1) := by
  have := h.day_pos
  have := h.day_le
  rw [daysBeforeMonth_succ h.month_pos, Date.ordinal]
  omega

theorem Date.Valid.ordinal_lt_year (h : d.Valid leap) :
    d.ordinal leap < daysBeforeYear leap (d.year + 1) := by
  have hmonth : daysBeforeMonth leap d.year (d.month + 1) ≤ daysBeforeMonth leap d.year 13 :=
    daysBeforeMonth_mono (Nat.succ_pos _) (Nat.succ_le_succ h.month_le)
  have := h.ordinal_lt
  rw [daysBeforeMonth_end] at hmonth
  rw [daysBeforeYear]
  omega

theorem Date.Valid.dayOfYear_nextDay (h : d.Valid leap)
    (hyear : (d.nextDay leap).year = d.year) :
    (d.nextDay leap).dayOfYear leap = d.dayOfYear leap + 1 := by
  have hpos := h.day_pos
  have hle := h.day_le
  unfold Date.nextDay at hyear ⊢
  by_cases hday : d.day < daysInMonth leap d.year d.month
  · rw [if_pos hday]
    rfl
  · rw [if_neg hday] at hyear ⊢
    by_cases hmonth : d.month < 12
    · have hfirst : daysBeforeMonth leap d.year (d.month + 1) =
          daysBeforeMonth leap d.year d.month + daysInMonth leap d.year d.month :=
        daysBeforeMonth_succ h.month_pos
      rw [if_pos hmonth]
      simp only [Date.dayOfYear]
      omega
    · rw [if_neg hmonth] at hyear
      exact absurd hyear (Nat.succ_ne_self d.year)

theorem Date.Before.ordinal_lt (h : d.Before e) (hd : d.Valid leap) :
    d.ordinal leap < e.ordinal leap := by
  rcases h with hy | ⟨hy, hm | ⟨hm, hday⟩⟩
  · have hend := hd.ordinal_lt_year
    have hyears : daysBeforeYear leap (d.year + 1) ≤ daysBeforeYear leap e.year :=
      daysBeforeYear_mono hy
    have he' : e.ordinal leap = daysBeforeYear leap e.year +
      daysBeforeMonth leap e.year e.month + (e.day - 1) := rfl
    omega
  · have hend := hd.ordinal_lt
    have hmonths : daysBeforeMonth leap d.year (d.month + 1) ≤
        daysBeforeMonth leap d.year e.month :=
      daysBeforeMonth_mono (Nat.succ_pos _) hm
    have he' : e.ordinal leap = daysBeforeYear leap e.year +
      daysBeforeMonth leap e.year e.month + (e.day - 1) := rfl
    rw [← hy] at he'
    omega
  · have := hd.day_pos
    rw [Date.ordinal, Date.ordinal, hy, hm]
    omega

theorem Date.before_trichotomy (d e : Date) : d.Before e ∨ d = e ∨ e.Before d := by
  rcases Nat.lt_trichotomy d.year e.year with hy | hy | hy
  · exact .inl (.inl hy)
  · rcases Nat.lt_trichotomy d.month e.month with hm | hm | hm
    · exact .inl (.inr ⟨hy, .inl hm⟩)
    · rcases Nat.lt_trichotomy d.day e.day with hday | hday | hday
      · exact .inl (.inr ⟨hy, .inr ⟨hm, hday⟩⟩)
      · obtain ⟨y, m, day⟩ := d
        obtain rfl : y = e.year := hy
        obtain rfl : m = e.month := hm
        obtain rfl : day = e.day := hday
        exact .inr (.inl rfl)
      · exact .inr (.inr (.inr ⟨hy.symm, .inr ⟨hm.symm, hday⟩⟩))
    · exact .inr (.inr (.inr ⟨hy.symm, .inl hm⟩))
  · exact .inr (.inr (.inl hy))

theorem Date.ordinal_inj (hd : d.Valid leap) (he : e.Valid leap)
    (h : d.ordinal leap = e.ordinal leap) : d = e := by
  rcases d.before_trichotomy e with hlt | heq | hlt
  · have := hlt.ordinal_lt hd
    omega
  · exact heq
  · have := hlt.ordinal_lt he
    omega

theorem Date.before_iff (hd : d.Valid leap) (he : e.Valid leap) :
    d.Before e ↔ d.ordinal leap < e.ordinal leap := by
  refine ⟨fun h => h.ordinal_lt hd, fun h => ?_⟩
  rcases d.before_trichotomy e with hlt | rfl | hlt
  · exact hlt
  · exact absurd h (Nat.lt_irrefl _)
  · have := hlt.ordinal_lt he
    omega

theorem Date.Valid.nextDay (h : d.Valid leap) : (d.nextDay leap).Valid leap := by
  unfold Date.nextDay
  split
  · exact ⟨h.month_pos, h.month_le, Nat.succ_pos _, ‹_›⟩
  · split
    · exact ⟨Nat.succ_pos _, ‹_›, Nat.le_refl 1, daysInMonth_pos⟩
    · exact ⟨Nat.le_refl 1, Nat.le_add_left 1 11, Nat.le_refl 1, daysInMonth_pos⟩

theorem Date.Valid.ordinal_nextDay (h : d.Valid leap) :
    (d.nextDay leap).ordinal leap = d.ordinal leap + 1 := by
  have hpos := h.day_pos
  have hle := h.day_le
  unfold Date.nextDay
  split
  · simp only [Date.ordinal]
    omega
  · split
    · simp only [Date.ordinal, daysBeforeMonth_succ h.month_pos]
      omega
    · rename_i hlast hdec
      have h12 : d.month = 12 := by
        have := h.month_le
        omega
      have hend : daysInYear leap d.year =
          daysBeforeMonth leap d.year 12 + daysInMonth leap d.year 12 := by
        rw [← daysBeforeMonth_end, daysBeforeMonth_succ (by decide)]
      rw [h12] at hle hlast
      simp only [Date.ordinal, daysBeforeYear, h12, daysBeforeMonth_one]
      omega

theorem Date.Valid.iterate (h : d.Valid leap) :
    (Nat.iterate (Date.nextDay leap) n d).Valid leap ∧
      (Nat.iterate (Date.nextDay leap) n d).ordinal leap = d.ordinal leap + n := by
  induction n with
  | zero => exact ⟨h, rfl⟩
  | succ n ih =>
    rw [Function.iterate_succ_apply']
    refine ⟨ih.1.nextDay, ?_⟩
    rw [ih.1.ordinal_nextDay, ih.2]
    rfl

theorem Date.eq_iterate (hd : d.Valid leap) (he : e.Valid leap)
    (h : e.ordinal leap = d.ordinal leap + n) : e = Nat.iterate (Date.nextDay leap) n d :=
  Date.ordinal_inj he hd.iterate.1 (h.trans hd.iterate.2.symm)

end CivilCalendar
