import Mathlib.Algebra.Order.Field.Rat
import Mathlib.Order.Monotone.Basic
import Mathlib.Tactic.Linarith
import Mathlib.Tactic.NormNum

/-!
# Rounded arithmetic

Floating-point numbers that are finite, as the rationals they stand for: every
operation is the exact one followed by a rounding, and an operation that has no
finite result (a division by zero, the logarithm of a number that is not positive)
has none here. What is used of the rounding is that it is monotone and keeps 0 and
the powers of two down to 2⁻¹²⁶, so the facts here hold for any rounding direction.
Of the logarithm only the sign from 1 on is used, and of the root nothing.
-/

structure Rounding where
  round : ℚ → ℚ
  ln : ℚ → ℚ
  root : ℚ → ℚ
  mono : Monotone round
  round_zero : round 0 = 0
  round_pow : ∀ k ≤ 126, round ((1 / 2) ^ k) = (1 / 2) ^ k
  ln_nonneg : ∀ x, 1 ≤ x → 0 ≤ ln x

namespace Rounding

variable (fp : Rounding)

def add (x y : ℚ) : ℚ := fp.round (x + y)

def mul (x y : ℚ) : ℚ := fp.round (x * y)

def div (x y : ℚ) : Option ℚ := if y = 0 then none else some (fp.round (x / y))

def log (x : ℚ) : Option ℚ := if x ≤ 0 then none else some (fp.ln x)

/-- A count converted. -/
def ofNat (n : ℕ) : ℚ := fp.round n

/-- Zero and then one added `n` times. -/
def count : ℕ → ℚ
  | 0 => 0
  | n + 1 => fp.add (count n) 1

/-- A sum from the left, as a loop takes it. -/
def sum (xs : List ℚ) : ℚ := xs.foldl fp.add 0

variable {fp}

theorem round_nonneg {x : ℚ} (hx : 0 ≤ x) : 0 ≤ fp.round x := by
  rw [← fp.round_zero]
  exact fp.mono hx

theorem pow_le_round {k : ℕ} (hk : k ≤ 126) {x : ℚ} (hx : (1 / 2) ^ k ≤ x) :
    (1 / 2) ^ k ≤ fp.round x := by
  rw [← fp.round_pow k hk]
  exact fp.mono hx

theorem half_le_round {x : ℚ} (hx : 1 / 2 ≤ x) : 1 / 2 ≤ fp.round x := by
  have h : (1 / 2) ^ 1 ≤ fp.round x := pow_le_round (by omega) (by rwa [pow_one])
  rwa [pow_one] at h

theorem one_le_round {x : ℚ} (hx : 1 ≤ x) : 1 ≤ fp.round x := by
  have h : (1 / 2) ^ 0 ≤ fp.round x := pow_le_round (by omega) (by rwa [pow_zero])
  rwa [pow_zero] at h

theorem one_le_ofNat {n : ℕ} (hn : 0 < n) : 1 ≤ fp.ofNat n :=
  one_le_round (by exact_mod_cast hn)

theorem ofNat_mono {m n : ℕ} (h : m ≤ n) : fp.ofNat m ≤ fp.ofNat n :=
  fp.mono (by exact_mod_cast h)

theorem div_of_pos {x y : ℚ} (hy : 0 < y) : fp.div x y = some (fp.round (x / y)) := by
  rw [div, if_neg hy.ne']

theorem log_of_pos {x : ℚ} (hx : 0 < x) : fp.log x = some (fp.ln x) := by
  rw [log, if_neg hx.not_ge]

theorem count_nonneg : ∀ n : ℕ, 0 ≤ fp.count n
  | 0 => le_rfl
  | n + 1 => round_nonneg (by linarith [count_nonneg n])

/-- Exact arithmetic, with a logarithm that is the rounded natural one at 1/2 and 1,
and a root that is right at 0 and 1. -/
def exact : Rounding where
  round := id
  ln x := if x = 1 / 2 then -(11629080 / 2 ^ 24) else x - 1
  root x := x
  mono := monotone_id
  round_zero := rfl
  round_pow _ _ := rfl
  ln_nonneg := by
    intro x hx
    rw [if_neg (by rintro rfl; norm_num at hx)]
    linarith

end Rounding
