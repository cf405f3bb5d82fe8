import Mathlib.Algebra.Group.Nat.Defs
import Mathlib.Order.Lattice
import Mathlib.Order.Basic
import Mathlib.Order.Defs.LinearOrder
import Mathlib.Data.List.Lex
import Mathlib.Data.Char

/-!
# Decimals of a fixed width

Numbers written with zeros in front up to a width. Where the width is enough the
texts are as long as each other and are ordered as the numbers are, also in front
of other text (`padded_append_lt_iff`).
-/

namespace Decimals

/-- The last digits of a number. -/
def fixed : (width n : ℕ) → List Char
  | 0, _ => []
  | width + 1, n => fixed width (n / 10) ++ [Nat.digitChar (n % 10)]

/-- The decimals of a number behind as many zeros as the width asks for. -/
def padded (width n : ℕ) : List Char :=
  List.replicate (width - (Nat.toDigits 10 n).length) '0' ++ Nat.toDigits 10 n

theorem fixed_length (width n : ℕ) : (fixed width n).length = width := by
  induction width generalizing n with
  | zero => rfl
  | succ width ih => rw [fixed, List.length_append, ih, List.length_singleton]

theorem fixed_zero (width : ℕ) : fixed width 0 = List.replicate width '0' := by
  induction width with
  | zero => rfl
  | succ width ih =>
      rw [fixed, Nat.zero_div, ih, List.replicate_succ']
      rfl

theorem padded_eq_fixed {width n : ℕ} (h : n < 10 ^ (width + 1)) :
    padded (width + 1) n = fixed (width + 1) n := by
  induction width generalizing n with
  | zero =>
      have hlt : n < 10 := h
      rw [padded, Nat.toDigits_of_lt_base hlt, fixed, Nat.mod_eq_of_lt hlt]
      rfl
  | succ width ih =>
      rw [fixed, padded, Nat.toDigits_eq_if (by decide)]
      split
      case isTrue hlt =>
        rw [Nat.div_eq_of_lt hlt, Nat.mod_eq_of_lt hlt, fixed_zero]
        rfl
      case isFalse hge =>
        have hdiv : n / 10 < 10 ^ (width + 1) := by
          rw [Nat.pow_succ] at h
          omega
        rw [← ih hdiv, padded, List.length_append, List.length_singleton, Nat.add_sub_add_right,
          List.append_assoc]

section Order

variable {α : Type*} [LinearOrder α]

/-- Texts behind two of one length are compared by these first. -/
theorem append_lt_append_iff {a b : List α} (h : a.length = b.length) (x y : List α) :
    a ++ x < b ++ y ↔ a < b ∨ a = b ∧ x < y := by
  induction a generalizing b with
  | nil =>
      rw [List.eq_nil_of_length_eq_zero h.symm]
      simp
  | cons c a ih =>
      cases b with
      | nil => cases h
      | cons d b =>
          have hlen : a.length = b.length := Nat.succ.inj h
          simp only [List.cons_append, List.cons_lt_cons_iff, ih hlen, List.cons.injEq]
          tauto

end Order

theorem digitChar_lt_iff {d e : ℕ} (hd : d < 10) (he : e < 10) :
    d.digitChar < e.digitChar ↔ d < e := by
  have hall : ∀ d < 10, ∀ e < 10, d.digitChar < e.digitChar ↔ d < e := by
    decide
  exact hall d hd e he

theorem digitChar_inj {d e : ℕ} (hd : d < 10) (he : e < 10) :
    d.digitChar = e.digitChar ↔ d = e := by
  have hall : ∀ d < 10, ∀ e < 10, d.digitChar = e.digitChar ↔ d = e := by
    decide
  exact hall d hd e he

theorem fixed_inj {width m n : ℕ} (hm : m < 10 ^ width) (hn : n < 10 ^ width) :
    fixed width m = fixed width n ↔ m = n := by
  refine ⟨fun h => ?_, congrArg _⟩
  induction width generalizing m n with
  | zero =>
      rw [Nat.pow_zero] at hm hn
      omega
  | succ width ih =>
      rw [Nat.pow_succ] at hm hn
      obtain ⟨hhigh, hlow⟩ := List.append_inj' h rfl
      have hdiv := ih (by omega) (by omega) hhigh
      have hmod := (digitChar_inj (by omega) (by omega)).mp (List.head_eq_of_cons_eq hlow)
      omega

theorem fixed_lt_iff {width m n : ℕ} (hm : m < 10 ^ width) (hn : n < 10 ^ width) :
    fixed width m < fixed width n ↔ m < n := by
  induction width generalizing m n with
  | zero =>
      rw [Nat.pow_zero] at hm hn
      simp only [fixed]
      exact iff_of_false (lt_irrefl _) (by omega)
  | succ width ih =>
      rw [Nat.pow_succ] at hm hn
      have hlen : (fixed width (m / 10)).length = (fixed width (n / 10)).length := by
        rw [fixed_length, fixed_length]
      rw [fixed, fixed, append_lt_append_iff hlen, ih (by omega) (by omega),
        fixed_inj (by omega) (by omega), List.cons_lt_cons_iff,
        digitChar_lt_iff (by omega) (by omega)]
      have hnil : ¬([] : List Char) < [] := lt_irrefl _
      simp only [hnil, and_false, or_false]
      omega

/-- Padded numbers that fit their width are compared by value, then by what follows. -/
theorem padded_append_lt_iff {width m n : ℕ} (hm : m < 10 ^ (width + 1))
    (hn : n < 10 ^ (width + 1)) (x y : List Char) :
    padded (width + 1) m ++ x < padded (width + 1) n ++ y ↔ m < n ∨ m = n ∧ x < y := by
  have hlen : (fixed (width + 1) m).length = (fixed (width + 1) n).length := by
    rw [fixed_length, fixed_length]
  rw [padded_eq_fixed hm, padded_eq_fixed hn, append_lt_append_iff hlen, fixed_lt_iff hm hn,
    fixed_inj hm hn]

end Decimals
