import CodeGraph.Lib.Decimals
import CodeGraph.Lib.Gregorian
import CodeGraph.Text

/-!
# Dates of instants

The date and the time of a number of seconds since the epoch. The code counts days
from a first of March, so that the leap day ends the year, and finds the year of a
400-year era from the day by division alone (`yearOfEra_spec`). What it gives is the
one date and time of that instant, and no step of it overflows (`civilFromUnix_eq`).
-/

namespace CodeGraph

namespace UnixTime

open Gregorian

/-! ## Machine integers -/

/-- An `i64` operation, none where it overflows. -/
def i64 (v : ℤ) : Option ℤ := if -2 ^ 63 ≤ v ∧ v < 2 ^ 63 then some v else none

/-- A `u64` as an `i64`: the upper half wraps around. -/
def asI64 (n : ℕ) : ℤ :=
  if (n : ℤ) % 2 ^ 64 < 2 ^ 63 then (n : ℤ) % 2 ^ 64 else (n : ℤ) % 2 ^ 64 - 2 ^ 64

def asU32 (v : ℤ) : ℕ := (v % 2 ^ 32).toNat

theorem i64_eq {v : ℤ} (h : -2 ^ 63 ≤ v ∧ v < 2 ^ 63) : i64 v = some v := if_pos h

theorem asI64_eq {n : ℕ} (h : (n : ℤ) < 2 ^ 63) : asI64 n = n := by
  have hmod : (n : ℤ) % 2 ^ 64 = n := Int.emod_eq_of_lt (by omega) (by omega)
  unfold asI64
  rw [hmod, if_pos h]

theorem asU32_eq {v : ℤ} (h : 0 ≤ v ∧ v < 2 ^ 32) : asU32 v = v.toNat := by
  rw [asU32, Int.emod_eq_of_lt h.1 h.2]

/-! ## The date of an instant -/

/-- A date and a time of day. -/
structure Civil where
  year : ℤ
  month : ℕ
  day : ℕ
  hour : ℕ
  minute : ℕ
  second : ℕ
  deriving DecidableEq

def eraOf (z : ℤ) : Option ℤ := do
  let shifted ← if 0 ≤ z then some z else i64 (z - 146096)
  some (shifted.tdiv 146097)

def yearOf (doe : ℤ) : Option ℤ := do
  let lessLeaps ← i64 (doe - doe.tdiv 1460)
  let andCenturies ← i64 (lessLeaps + doe.tdiv 36524)
  let lessEras ← i64 (andCenturies - doe.tdiv 146096)
  some (lessEras.tdiv 365)

def dayOfYear (doe yoe : ℤ) : Option ℤ := do
  let years ← i64 (365 * yoe)
  let withLeaps ← i64 (years + yoe.tdiv 4)
  let start ← i64 (withLeaps - yoe.tdiv 100)
  i64 (doe - start)

def monthIndex (doy : ℤ) : Option ℤ := do
  let scaled ← i64 (5 * doy)
  let above ← i64 (scaled + 2)
  some (above.tdiv 153)

def dayOfMonth (doy mp : ℤ) : Option ℕ := do
  let scaled ← i64 (153 * mp)
  let above ← i64 (scaled + 2)
  let since ← i64 (doy - above.tdiv 5)
  let d ← i64 (since + 1)
  some (asU32 d)

def monthOf (mp : ℤ) : Option ℕ := do
  let mo ← i64 (if mp < 10 then mp + 3 else mp - 9)
  some (asU32 mo)

def civilFromUnix (secs : UInt64) : Option Civil := do
  -- day 0 is the first of March of year 0
  let z ← i64 (asI64 (secs.toNat / 86400) + 719468)
  let era ← eraOf z
  let eraDays ← i64 (era * 146097)
  let doe ← i64 (z - eraDays)
  let yoe ← yearOf doe
  let eraYears ← i64 (era * 400)
  let y ← i64 (yoe + eraYears)
  let doy ← dayOfYear doe yoe
  let mp ← monthIndex doy
  let d ← dayOfMonth doy mp
  let mo ← monthOf mp
  let y ← i64 (if mo ≤ 2 then y + 1 else y)
  let rem := asU32 (secs.toNat % 86400 : ℕ)
  some ⟨y, mo, d, rem / 3600, rem % 3600 / 60, rem % 60⟩

/-- `{:0width}` of a signed number. -/
def paddedInt (width : ℕ) : ℤ → Text
  | .ofNat n => Decimals.padded width n
  | .negSucc n => '-' :: Decimals.padded (width - 1) (n + 1)

def Civil.iso (c : Civil) : Text :=
  paddedInt 4 c.year ++ '-' :: (Decimals.padded 2 c.month ++ '-' :: (Decimals.padded 2 c.day ++
    'T' :: (Decimals.padded 2 c.hour ++ ':' :: (Decimals.padded 2 c.minute ++
      ':' :: (Decimals.padded 2 c.second ++ ['Z'])))))

def formatIso8601Utc (secs : UInt64) : Option Text := (civilFromUnix secs).map Civil.iso

namespace Civil

variable {c c' : Civil}

def date (c : Civil) : Date := ⟨c.year, c.month, c.day⟩

structure Valid (c : Civil) : Prop where
  date : c.date.Valid
  hour : c.hour < 24
  minute : c.minute < 60
  second : c.second < 60

/-- The seconds from the first moment of 1970 on, by counting days. -/
def instant (c : Civil) : ℤ :=
  (c.date.dayNumber - (Date.mk 1970 1 1).dayNumber) * 86400 + c.hour * 3600 + c.minute * 60 + c.second

theorem instant_inj (h : c.Valid) (h' : c'.Valid) (heq : c.instant = c'.instant) : c = c' := by
  obtain ⟨hdate, hhour, hminute, hsecond⟩ := h
  obtain ⟨hdate', hhour', hminute', hsecond'⟩ := h'
  simp only [instant] at heq
  have hday := Date.dayNumber_inj hdate hdate' (by omega)
  have htime : c.hour = c'.hour ∧ c.minute = c'.minute ∧ c.second = c'.second := by
    rw [hday] at heq
    omega
  obtain ⟨y, m, d, hour, minute, second⟩ := c
  obtain ⟨y', m', d', hour', minute', second'⟩ := c'
  simp only [date, Date.mk.injEq] at hday
  simp_all

end Civil

/-! ## The year of an era -/

/-- The year of an era that begins in March, from a day of the era. -/
def yearOfEra (doe : ℕ) : ℕ := (doe - doe / 1460 + doe / 36524 - doe / 146096) / 365

/-- The first day of a year of the era. -/
def yearStart (y : ℕ) : ℕ := 365 * y + y / 4 - y / 100

theorem yearOfEra_mono {a b : ℕ} (h : a ≤ b) (hb : b ≤ 146096) : yearOfEra a ≤ yearOfEra b := by
  have hyears : a - a / 1460 ≤ b - b / 1460 := by omega
  have hcenturies : a / 36524 - a / 146096 ≤ b / 36524 - b / 146096 := by omega
  rw [yearOfEra, yearOfEra]
  omega

theorem yearOfEra_ends : ∀ y < 400, yearOfEra (yearStart y) = y ∧
    (0 < y → yearOfEra (yearStart y - 1) = y - 1) := by
  decide +kernel

theorem yearOfEra_spec {doe : ℕ} (h : doe ≤ 146096) :
    yearOfEra doe < 400 ∧ yearStart (yearOfEra doe) ≤ doe ∧
      (doe < yearStart (yearOfEra doe + 1) ∨ yearOfEra doe = 399) := by
  have hlast : yearOfEra doe ≤ 399 := yearOfEra_mono h le_rfl
  refine ⟨by omega, ?_, ?_⟩
  · by_contra hlt
    have hpos : 0 < yearOfEra doe := by
      by_contra hzero
      rw [Nat.eq_zero_of_not_pos hzero] at hlt
      exact hlt (Nat.zero_le _)
    have hbefore := (yearOfEra_ends (yearOfEra doe) (by omega)).2 hpos
    have hmono := yearOfEra_mono (a := doe) (b := yearStart (yearOfEra doe) - 1) (by omega)
      (by rw [yearStart]; omega)
    omega
  · by_contra hnot
    rw [not_or, not_lt] at hnot
    have hat := (yearOfEra_ends (yearOfEra doe + 1) (by omega)).1
    have hmono := yearOfEra_mono hnot.1 h
    omega

/-! ## The month of a year -/

/-- The days of a year that begins in March before one of its months. -/
def monthStart (mp : ℕ) : ℕ := (153 * mp + 2) / 5

theorem daysBeforeMonth_march (y : ℤ) {mp : ℕ} (h : mp < 10) :
    daysBeforeMonth y (mp + 3) + 306 = yearLength y + monthStart mp ∧
      monthStart (mp + 1) = monthStart mp + monthLength y (mp + 3) := by
  interval_cases mp <;>
    simp only [daysBeforeMonth, monthLength, yearLength, monthStart] <;> split <;> decide

theorem monthStart_le (doy : ℕ) :
    monthStart ((5 * doy + 2) / 153) ≤ doy ∧ doy < monthStart ((5 * doy + 2) / 153 + 1) := by
  rw [monthStart, monthStart]
  omega

/-! ## The date of a day -/

def marchDate (z : ℕ) : Date :=
  let doe := z % 146097
  let yoe := yearOfEra doe
  let doy := doe - yearStart yoe
  let mp := (5 * doy + 2) / 153
  let year : ℤ := yoe + 400 * (z / 146097 : ℕ)
  let day := doy - monthStart mp + 1
  if mp < 10 then ⟨year, mp + 3, day⟩ else ⟨year + 1, mp - 9, day⟩

section

variable {yoe doe : ℕ} (era : ℕ)

theorem doy_lt (hdoe : doe ≤ 146096) (hyoe : yoe < 400)
    (hlt : doe < yearStart (yoe + 1) ∨ yoe = 399) (hle : yearStart yoe ≤ doe) :
    doe - yearStart yoe < yearLength (yoe + 400 * era + 1) := by
  have hleap : IsLeap (yoe + 400 * era + 1) ↔ (yoe + 1) % 4 = 0 ∧
      ((yoe + 1) % 100 ≠ 0 ∨ yoe = 399) := by
    rw [IsLeap]
    omega
  -- a year that begins in March is longer by the leap day that ends it
  have hnext : yearStart (yoe + 1) ≤ yearStart yoe + 365 +
      if (yoe + 1) % 4 = 0 ∧ (yoe + 1) % 100 ≠ 0 then 1 else 0 := by
    have hfour : (yoe + 1) / 4 = yoe / 4 + if (yoe + 1) % 4 = 0 then 1 else 0 := by
      split <;> omega
    have hhundred : (yoe + 1) / 100 = yoe / 100 + if (yoe + 1) % 100 = 0 then 1 else 0 := by
      split <;> omega
    rw [yearStart, yearStart, hfour, hhundred]
    split_ifs <;> omega
  rw [yearLength]
  by_cases h : IsLeap (yoe + 400 * era + 1)
  · rw [if_pos h]
    rcases hlt with hlt | rfl
    · split_ifs at hnext <;> omega
    · rw [yearStart]
      omega
  · rw [if_neg h]
    rw [hleap] at h
    rcases hlt with hlt | rfl
    · rw [if_neg (by omega)] at hnext
      omega
    · omega

theorem daysBeforeYear_era (hyoe : yoe < 400) :
    daysBeforeYear (yoe + 400 * era + 1) = 146097 * era + yearStart yoe := by
  rw [daysBeforeYear, yearStart]
  omega

end

theorem marchDate_spec (z : ℕ) : (marchDate z).Valid ∧ (marchDate z).dayNumber = z - 306 := by
  have hdoe : z % 146097 ≤ 146096 := by omega
  obtain ⟨hyoe, hle, hlt⟩ := yearOfEra_spec hdoe
  have hday := doy_lt (z / 146097) hdoe hyoe hlt hle
  have hera := daysBeforeYear_era (z / 146097) hyoe
  rw [marchDate]
  generalize yearOfEra (z % 146097) = yoe at *
  generalize hdoy : z % 146097 - yearStart yoe = doy at *
  obtain ⟨hstart, hnext⟩ := monthStart_le doy
  have hsum : z = 146097 * (z / 146097) + (yearStart yoe + doy) := by omega
  generalize (5 * doy + 2) / 153 = mp at *
  generalize hyear : (yoe + 400 * (z / 146097 : ℕ) : ℤ) = year at *
  split
  case isTrue hmp =>
    obtain ⟨hbefore, hmonth⟩ := daysBeforeMonth_march year hmp
    have hsucc := daysBeforeYear_succ year
    refine ⟨⟨⟨Nat.le_add_left _ _, Nat.add_le_add_right (Nat.le_of_lt_succ hmp) 3⟩,
      ⟨Nat.le_add_left _ _, ?_⟩⟩, ?_⟩
    · simp only
      omega
    · simp only [Date.dayNumber]
      omega
  case isFalse hmp =>
    have hlong : yearLength (year + 1) ≤ 366 := by
      rw [yearLength]
      split <;> decide
    have hlate : mp = 10 ∨ mp = 11 := by
      rw [monthStart] at hstart
      omega
    rcases hlate with rfl | rfl
    · have hten : monthStart 10 = 306 ∧ monthStart (10 + 1) = 337 := by decide
      have hmonths : daysBeforeMonth (year + 1) 1 = 0 ∧ monthLength (year + 1) 1 = 31 := ⟨rfl, rfl⟩
      show Date.Valid ⟨year + 1, 1, doy - 306 + 1⟩ ∧
        Date.dayNumber ⟨year + 1, 1, doy - 306 + 1⟩ = z - 306
      refine ⟨⟨⟨le_rfl, Nat.le_add_left _ _⟩, ⟨Nat.le_add_left _ _, ?_⟩⟩, ?_⟩
      · simp only
        omega
      · simp only [Date.dayNumber]
        omega
    · have heleven : monthStart 11 = 337 := rfl
      have hmonths : daysBeforeMonth (year + 1) 2 = 31 := rfl
      have hlast : 337 + monthLength (year + 1) 2 = yearLength (year + 1) := by
        simp only [monthLength, yearLength]
        split <;> rfl
      show Date.Valid ⟨year + 1, 2, doy - 337 + 1⟩ ∧
        Date.dayNumber ⟨year + 1, 2, doy - 337 + 1⟩ = z - 306
      refine ⟨⟨⟨Nat.le_add_left _ _, Nat.le_add_left _ _⟩, ⟨Nat.le_add_left _ _, ?_⟩⟩, ?_⟩
      · simp only
        omega
      · simp only [Date.dayNumber]
        omega

/-! ## The code -/

def atTimeOf (date : Date) (n : ℕ) : Civil :=
  ⟨date.year, date.month, date.day, n % 86400 / 3600, n % 86400 % 3600 / 60, n % 86400 % 60⟩

theorem atTimeOf_date (date : Date) (n : ℕ) : (atTimeOf date n).date = date := rfl

/-- The date and time of an instant, without machine integers. -/
def civilOf (n : ℕ) : Civil := atTimeOf (marchDate (n / 86400 + 719468)) n

theorem i64_bind {β : Type} {v : ℤ} {n : ℕ} (heq : v = n) (h : n < 2 ^ 60) (f : ℤ → Option β) :
    (i64 v >>= f) = f n := by
  rw [heq, i64_eq (by omega)]
  rfl

theorem some_bind {α β : Type} (a : α) (f : α → Option β) : (some a >>= f) = f a := rfl

theorem tdiv_cast (n k : ℕ) : (n : ℤ).tdiv k = (n / k : ℕ) := (Int.ofNat_tdiv n k).symm

section

variable {n doe yoe doy mp : ℕ}

theorem eraOf_eq (n : ℕ) : eraOf n = some ((n / 146097 : ℕ) : ℤ) := by
  rw [eraOf, if_pos (Int.natCast_nonneg n), some_bind]
  exact congrArg some (tdiv_cast n 146097)

theorem yearOf_eq (h : doe ≤ 146096) : yearOf doe = some (yearOfEra doe : ℤ) := by
  have hleaps : (doe : ℤ).tdiv 1460 = (doe / 1460 : ℕ) := tdiv_cast doe 1460
  have hcenturies : (doe : ℤ).tdiv 36524 = (doe / 36524 : ℕ) := tdiv_cast doe 36524
  have heras : (doe : ℤ).tdiv 146096 = (doe / 146096 : ℕ) := tdiv_cast doe 146096
  rw [yearOf, hleaps, hcenturies, heras]
  rw [i64_bind (n := doe - doe / 1460) (by omega) (by omega)]
  rw [i64_bind (n := doe - doe / 1460 + doe / 36524) (by omega) (by omega)]
  rw [i64_bind (n := doe - doe / 1460 + doe / 36524 - doe / 146096) (by omega) (by omega)]
  exact congrArg some (tdiv_cast _ 365)

theorem dayOfYear_eq (hdoe : doe ≤ 146096) (hyoe : yoe < 400) (h : yearStart yoe ≤ doe) :
    dayOfYear doe yoe = some ((doe - yearStart yoe : ℕ) : ℤ) := by
  have hleaps : (yoe : ℤ).tdiv 4 = (yoe / 4 : ℕ) := tdiv_cast yoe 4
  have hcenturies : (yoe : ℤ).tdiv 100 = (yoe / 100 : ℕ) := tdiv_cast yoe 100
  rw [dayOfYear, hleaps, hcenturies]
  rw [i64_bind (n := 365 * yoe) (by omega) (by omega)]
  rw [i64_bind (n := 365 * yoe + yoe / 4) (by omega) (by omega)]
  rw [i64_bind (n := yearStart yoe) (by rw [yearStart]; omega) (by rw [yearStart]; omega)]
  rw [i64_eq (by omega), Int.ofNat_sub h]

theorem monthIndex_eq (h : doy ≤ 365) : monthIndex doy = some (((5 * doy + 2) / 153 : ℕ) : ℤ) := by
  rw [monthIndex]
  rw [i64_bind (n := 5 * doy) (by omega) (by omega)]
  rw [i64_bind (n := 5 * doy + 2) (by omega) (by omega)]
  exact congrArg some (tdiv_cast _ 153)

theorem dayOfMonth_eq (hdoy : doy ≤ 365) (hmp : mp ≤ 11) (h : monthStart mp ≤ doy) :
    dayOfMonth doy mp = some (doy - monthStart mp + 1) := by
  rw [dayOfMonth]
  rw [i64_bind (n := 153 * mp) (by omega) (by omega)]
  rw [i64_bind (n := 153 * mp + 2) (by omega) (by omega)]
  have hstart : ((153 * mp + 2 : ℕ) : ℤ).tdiv 5 = (monthStart mp : ℕ) := tdiv_cast _ 5
  rw [hstart]
  rw [i64_bind (n := doy - monthStart mp) (by omega) (by omega)]
  rw [i64_bind (n := doy - monthStart mp + 1) (by omega) (by omega), asU32_eq (by omega)]
  rfl

theorem monthOf_eq (h : mp ≤ 11) : monthOf mp = some (if mp < 10 then mp + 3 else mp - 9) := by
  rw [monthOf]
  rw [i64_bind (n := if mp < 10 then mp + 3 else mp - 9) (by split_ifs <;> omega)
    (by split_ifs <;> omega), asU32_eq (by split_ifs <;> omega)]
  rfl

end

/-- The code gives the date and the time of the instant; nothing overflows. -/
theorem civilFromUnix_eq (secs : UInt64) : civilFromUnix secs = some (civilOf secs.toNat) := by
  have hsecs : secs.toNat < 2 ^ 64 := secs.toNat_lt
  rw [civilFromUnix, civilOf, atTimeOf, marchDate]
  generalize secs.toNat = n at *
  have hdays : asI64 (n / 86400) = (n / 86400 : ℕ) := asI64_eq (by omega)
  have hrem : asU32 (n % 86400 : ℕ) = n % 86400 := by
    rw [asU32_eq (by omega)]
    rfl
  rw [hdays, hrem]
  rw [i64_bind (n := n / 86400 + 719468) (by omega) (by omega)]
  generalize hz : n / 86400 + 719468 = z
  have hzlt : z < 2 ^ 48 := by omega
  rw [eraOf_eq, some_bind]
  rw [i64_bind (n := z / 146097 * 146097) (by omega) (by omega)]
  rw [i64_bind (n := z % 146097) (by omega) (by omega)]
  have hdoe : z % 146097 ≤ 146096 := by omega
  obtain ⟨hyoe, hle, hlt⟩ := yearOfEra_spec hdoe
  have hlength : yearLength (yearOfEra (z % 146097) + 400 * (z / 146097 : ℕ) + 1) ≤ 366 := by
    rw [yearLength]
    split <;> decide
  have hdoy := doy_lt (z / 146097) hdoe hyoe hlt hle
  rw [yearOf_eq hdoe, some_bind]
  generalize yearOfEra (z % 146097) = yoe at *
  rw [i64_bind (n := z / 146097 * 400) (by omega) (by omega)]
  rw [i64_bind (n := yoe + z / 146097 * 400) (by omega) (by omega)]
  rw [dayOfYear_eq hdoe hyoe hle, some_bind]
  generalize hdoyEq : z % 146097 - yearStart yoe = doy at *
  obtain ⟨hstart, -⟩ := monthStart_le doy
  rw [monthIndex_eq (by omega), some_bind]
  have hmp : (5 * doy + 2) / 153 ≤ 11 := by omega
  generalize (5 * doy + 2) / 153 = mp at *
  rw [dayOfMonth_eq (by omega) hmp hstart, some_bind, monthOf_eq hmp, some_bind]
  have hyear : ((yoe + z / 146097 * 400 : ℕ) : ℤ) = yoe + 400 * (z / 146097 : ℕ) := by omega
  by_cases hearly : mp < 10
  · rw [if_pos hearly, if_pos hearly, if_neg (by omega),
      i64_bind (n := yoe + z / 146097 * 400) rfl (by omega), hyear]
  · rw [if_neg hearly, if_neg hearly, if_pos (by omega),
      i64_bind (n := yoe + z / 146097 * 400 + 1) (by push_cast; rfl) (by omega), Nat.cast_succ, hyear]

/-! ## The instant -/

theorem atTimeOf_valid {date : Date} (h : date.Valid) (n : ℕ) : (atTimeOf date n).Valid where
  date := h
  hour := by
    simp only [atTimeOf]
    omega
  minute := by
    simp only [atTimeOf]
    omega
  second := by
    simp only [atTimeOf]
    omega

theorem atTimeOf_instant (date : Date) (n : ℕ) :
    (atTimeOf date n).instant = (date.dayNumber - 719162) * 86400 + (n % 86400 : ℕ) := by
  have hepoch : (Date.mk 1970 1 1).dayNumber = 719162 := by decide
  rw [Civil.instant, hepoch, atTimeOf_date]
  simp only [atTimeOf]
  omega

theorem civilOf_spec (n : ℕ) : (civilOf n).Valid ∧ (civilOf n).instant = n := by
  obtain ⟨hvalid, hnumber⟩ := marchDate_spec (n / 86400 + 719468)
  refine ⟨atTimeOf_valid hvalid n, ?_⟩
  rw [civilOf, atTimeOf_instant, hnumber]
  omega

theorem marchDate_year_nonneg (z : ℕ) : 0 ≤ (marchDate z).year := by
  rw [marchDate]
  split
  all_goals
    dsimp only
    omega

theorem atTimeOf_year (date : Date) (n : ℕ) : (atTimeOf date n).year = date.year := rfl

theorem civilOf_year_nonneg (n : ℕ) : 0 ≤ (civilOf n).year := by
  rw [civilOf, atTimeOf_year]
  exact marchDate_year_nonneg _

theorem valid_instant_iff {c : Civil} {n : ℕ} : c.Valid ∧ c.instant = n ↔ c = civilOf n := by
  obtain ⟨hvalid, hinstant⟩ := civilOf_spec n
  constructor
  · rintro ⟨h, heq⟩
    exact Civil.instant_inj h hvalid (heq.trans hinstant.symm)
  · rintro rfl
    exact ⟨hvalid, hinstant⟩

/-! ## ISO strings -/

theorem cons_lt_cons_self (c : Char) (x y : Text) : c :: x < c :: y ↔ x < y := by
  rw [List.cons_lt_cons_iff, or_iff_right (lt_irrefl c), and_iff_right rfl]

section

variable {c c' : Civil}

theorem paddedInt_natCast (width n : ℕ) : paddedInt width n = Decimals.padded width n := rfl

/-- Valid dates and times are ordered by their fields, the larger ones first. -/
theorem Civil.instant_lt_iff (h : c.Valid) (h' : c'.Valid) :
    c.instant < c'.instant ↔ c.year < c'.year ∨ c.year = c'.year ∧ (c.month < c'.month ∨
      c.month = c'.month ∧ (c.day < c'.day ∨ c.day = c'.day ∧ (c.hour < c'.hour ∨
        c.hour = c'.hour ∧ (c.minute < c'.minute ∨ c.minute = c'.minute ∧
          c.second < c'.second)))) := by
  have hday := Date.dayNumber_lt_iff h.date h'.date
  have hday' := Date.dayNumber_lt_iff h'.date h.date
  have hsame : c.date.dayNumber = c'.date.dayNumber ↔
      c.year = c'.year ∧ c.month = c'.month ∧ c.day = c'.day := by
    refine ⟨fun heq => ?_, fun heq => ?_⟩
    · have hdate := Date.dayNumber_inj h.date h'.date heq
      exact ⟨congrArg Date.year hdate, congrArg Date.month hdate, congrArg Date.day hdate⟩
    · rw [Civil.date, Civil.date, heq.1, heq.2.1, heq.2.2]
  obtain ⟨-, hhour, hminute, hsecond⟩ := h
  obtain ⟨-, hhour', hminute', hsecond'⟩ := h'
  simp only [Date.Before, Civil.date] at hday hday' hsame
  simp only [Civil.instant, Civil.date]
  omega

theorem Civil.iso_lt_iff (h : c.Valid) (h' : c'.Valid) (hyear : 0 ≤ c.year ∧ c.year < 10000)
    (hyear' : 0 ≤ c'.year ∧ c'.year < 10000) : c.iso < c'.iso ↔ c.instant < c'.instant := by
  rw [instant_lt_iff h h']
  have hday : ∀ {c : Civil}, c.Valid → c.month < 10 ^ 2 ∧ c.day < 10 ^ 2 := by
    intro c h
    have hmonth := h.date.month.2
    have hday := h.date.day.2.trans (monthLength_le _ _)
    simp only [date] at hmonth hday
    omega
  obtain ⟨y, hy⟩ := Int.eq_ofNat_of_zero_le hyear.1
  obtain ⟨y', hy'⟩ := Int.eq_ofNat_of_zero_le hyear'.1
  rw [iso, iso, hy, hy', paddedInt_natCast, paddedInt_natCast,
    Decimals.padded_append_lt_iff (by omega) (by omega), cons_lt_cons_self,
    Decimals.padded_append_lt_iff (hday h).1 (hday h').1, cons_lt_cons_self,
    Decimals.padded_append_lt_iff (hday h).2 (hday h').2, cons_lt_cons_self,
    Decimals.padded_append_lt_iff (by have := h.hour; omega) (by have := h'.hour; omega),
    cons_lt_cons_self,
    Decimals.padded_append_lt_iff (by have := h.minute; omega) (by have := h'.minute; omega),
    cons_lt_cons_self,
    Decimals.padded_append_lt_iff (by have := h.second; omega) (by have := h'.second; omega)]
  have hend : ¬['Z'] < ['Z'] := lt_irrefl _
  simp only [hend, and_false, or_false, Nat.cast_lt, Nat.cast_inj]

end



def HasFourDigitYear (secs : UInt64) : Prop := ∃ c, civilFromUnix secs = some c ∧ c.year < 10000

/-- The date and time of every instant is the one whose seconds count back to it, and
the texts of instants in years of four digits are ordered as the instants. -/
theorem civilFromUnix_exact :
    (∀ secs, ∃ c, civilFromUnix secs = some c ∧
      ∀ c' : Civil, c'.Valid ∧ c'.instant = secs.toNat ↔ c' = c) ∧
    ∀ a b, HasFourDigitYear a → HasFourDigitYear b → ∃ s t, formatIso8601Utc a = some s ∧
      formatIso8601Utc b = some t ∧ (s < t ↔ a < b) := by
  refine ⟨fun secs => ⟨_, civilFromUnix_eq secs, fun c' => valid_instant_iff⟩, ?_⟩
  rintro a b ⟨c, hc, hyear⟩ ⟨c', hc', hyear'⟩
  have hiso : ∀ secs, formatIso8601Utc secs = some (civilOf secs.toNat).iso := by
    intro secs
    rw [formatIso8601Utc, civilFromUnix_eq, Option.map_some]
  obtain rfl : civilOf a.toNat = c := Option.some.inj ((civilFromUnix_eq a).symm.trans hc)
  obtain rfl : civilOf b.toNat = c' := Option.some.inj ((civilFromUnix_eq b).symm.trans hc')
  refine ⟨_, _, hiso a, hiso b, ?_⟩
  obtain ⟨ha, hainstant⟩ := civilOf_spec a.toNat
  obtain ⟨hb, hbinstant⟩ := civilOf_spec b.toNat
  rw [Civil.iso_lt_iff ha hb ⟨civilOf_year_nonneg _, hyear⟩ ⟨civilOf_year_nonneg _, hyear'⟩,
    hainstant, hbinstant, Nat.cast_lt, UInt64.lt_iff_toNat_lt]

/-- The first two seconds. -/
theorem civilFromUnix_exact_epoch : ∃ s t, formatIso8601Utc 0 = some s ∧
    formatIso8601Utc 1 = some t ∧ (s < t ↔ (0 : UInt64) < 1) :=
  civilFromUnix_exact.2 0 1 ⟨⟨1970, 1, 1, 0, 0, 0⟩, by decide +kernel, by decide +kernel⟩
    ⟨⟨1970, 1, 1, 0, 0, 1⟩, by decide +kernel, by decide +kernel⟩

end UnixTime

end CodeGraph
