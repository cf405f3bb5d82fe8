import Mathlib.Data.List.Basic
import Mathlib.Data.List.TakeWhile
import Mathlib.Tactic.Common

/-!
# Lists up to the lengths of runs

Two lists are `Alike` when they differ only in how often an element that is blank
is repeated where it stands. What looks at one element at a time, or for a word
without blanks, does not tell such lists apart (`Alike.split`).
-/

namespace RunLengths

open List

variable {α β : Type*} {blank : α → Prop}

inductive Alike (blank : α → Prop) : List α → List α → Prop
  | nil : Alike blank [] []
  | cons (x : α) {a b : List α} : Alike blank a b → Alike blank (x :: a) (x :: b)
  | run {x : α} (hx : blank x) (j k : ℕ) {a b : List α} : Alike blank a b →
      Alike blank (List.replicate (j + 1) x ++ a) (List.replicate (k + 1) x ++ b)

namespace Alike

theorem refl : ∀ a : List α, Alike blank a a
  | [] => .nil
  | x :: a => .cons x (refl a)

variable {a b : List α}

theorem symm (h : Alike blank a b) : Alike blank b a := by
  induction h with
  | nil => exact .nil
  | cons x _ ih => exact .cons x ih
  | run hx j k _ ih => exact .run hx k j ih

theorem append {c d : List α} (h : Alike blank a b) (h' : Alike blank c d) :
    Alike blank (a ++ c) (b ++ d) := by
  induction h with
  | nil => exact h'
  | cons x _ ih => exact .cons x ih
  | run hx j k _ ih =>
      rw [append_assoc, append_assoc]
      exact .run hx j k ih

theorem reverse (h : Alike blank a b) : Alike blank a.reverse b.reverse := by
  induction h with
  | nil => exact .nil
  | cons x _ ih =>
      rw [reverse_cons, reverse_cons]
      exact ih.append (.refl [x])
  | run hx j k _ ih =>
      rw [reverse_append, reverse_append, reverse_replicate,
        reverse_replicate]
      refine ih.append ?_
      have hrun := Alike.run hx j k .nil
      rwa [append_nil, append_nil] at hrun

theorem map {blank' : β → Prop} {f : α → β} (hf : ∀ x, blank x → blank' (f x))
    (h : Alike blank a b) : Alike blank' (a.map f) (b.map f) := by
  induction h with
  | nil => exact .nil
  | cons x _ ih => exact .cons (f x) ih
  | run hx j k _ ih =>
      rw [map_append, map_append, map_replicate, map_replicate]
      exact .run (hf _ hx) j k ih

theorem head? (h : Alike blank a b) : a.head? = b.head? := by
  cases h with
  | nil => rfl
  | cons => rfl
  | run => rfl

theorem all (p : α → Bool) (h : Alike blank a b) : a.all p = b.all p := by
  induction h with
  | nil => rfl
  | cons x _ ih => rw [all_cons, all_cons, ih]
  | run hx j k _ ih =>
      rw [all_append, all_append, all_replicate, all_replicate, ih,
        if_neg (Nat.succ_ne_zero j), if_neg (Nat.succ_ne_zero k)]

theorem dropWhile (p : α → Bool) (h : Alike blank a b) :
    Alike blank (a.dropWhile p) (b.dropWhile p) := by
  induction h with
  | nil => exact .nil
  | cons x h ih =>
      rw [dropWhile_cons, dropWhile_cons]
      split
      · exact ih
      · exact .cons x h
  | @run x hx j k a b h ih =>
      by_cases hp : p x = true
      · have hrun : ∀ n, ∀ y ∈ List.replicate n x, p y = true := by
          intro n y hy
          rw [eq_of_mem_replicate hy]
          exact hp
        rw [dropWhile_append_of_pos (hrun _), dropWhile_append_of_pos (hrun _)]
        exact ih
      · rw [replicate_succ, replicate_succ, cons_append, cons_append,
          dropWhile_cons_of_neg hp, dropWhile_cons_of_neg hp]
        exact .run hx j k h

theorem takeWhile_eq {p : α → Bool} (hp : ∀ x, blank x → p x = false)
    (h : Alike blank a b) : a.takeWhile p = b.takeWhile p := by
  induction h with
  | nil => rfl
  | cons x _ ih => rw [takeWhile_cons, takeWhile_cons, ih]
  | @run x hx j k _ _ _ ih =>
      have hneg : ¬ p x = true := by simp [hp x hx]
      rw [replicate_succ, replicate_succ, cons_append, cons_append,
        takeWhile_cons_of_neg hneg, takeWhile_cons_of_neg hneg]

/-! ## Words without blanks -/

theorem tail {x : α} (hx : ¬ blank x) (h : Alike blank (x :: a) b) :
    ∃ b', b = x :: b' ∧ Alike blank a b' := by
  generalize hl : x :: a = l at h
  cases h with
  | nil => cases hl
  | cons y h =>
      obtain ⟨rfl, rfl⟩ := cons_eq_cons.mp hl
      exact ⟨_, rfl, h⟩
  | run hy j k h =>
      rw [replicate_succ, cons_append] at hl
      exact absurd ((cons_eq_cons.mp hl).1 ▸ hy) hx

theorem of_append {word : List α} (hword : ∀ x ∈ word, ¬ blank x)
    (h : Alike blank (word ++ a) b) : ∃ b', b = word ++ b' ∧ Alike blank a b' := by
  induction word generalizing b with
  | nil => exact ⟨b, rfl, h⟩
  | cons x word ih =>
      obtain ⟨b', rfl, h'⟩ := h.tail (hword x mem_cons_self)
      obtain ⟨b'', rfl, h''⟩ := ih (fun y hy => hword y (mem_cons_of_mem _ hy)) h'
      exact ⟨b'', rfl, h''⟩

/-- An element that does not belong to a run lies behind it. -/
theorem eq_append_of_replicate {x y : α} (hxy : y ≠ x) {post : List α} :
    ∀ {n : ℕ} {pre : List α}, List.replicate n x ++ a = pre ++ y :: post →
      ∃ pre', pre = List.replicate n x ++ pre' ∧ a = pre' ++ y :: post
  | 0, pre, h => ⟨pre, rfl, h⟩
  | n + 1, [], h => absurd (cons_eq_cons.mp h).1.symm hxy
  | n + 1, z :: pre, h => by
      rw [replicate_succ, cons_append, cons_append] at h
      obtain ⟨rfl, hrest⟩ := cons_eq_cons.mp h
      obtain ⟨pre', rfl, ha⟩ := eq_append_of_replicate hxy hrest
      exact ⟨pre', rfl, ha⟩

theorem split_at {x : α} (hx : ¬ blank x) (h : Alike blank a b) :
    ∀ {pre post : List α}, a = pre ++ x :: post →
      ∃ pre' post', b = pre' ++ x :: post' ∧ Alike blank pre pre' ∧ Alike blank post post' := by
  induction h with
  | nil =>
      intro pre post ha
      exact absurd ha.symm (by simp)
  | cons y h ih =>
      intro pre post ha
      cases pre with
      | nil =>
          obtain ⟨rfl, rfl⟩ := cons_eq_cons.mp ha
          exact ⟨[], _, rfl, .nil, h⟩
      | cons z pre =>
          obtain ⟨rfl, hrest⟩ := cons_eq_cons.mp ha
          obtain ⟨pre', post', rfl, hpre, hpost⟩ := ih hrest
          exact ⟨_ :: pre', post', rfl, .cons _ hpre, hpost⟩
  | @run y hy j k a b h ih =>
      intro pre post ha
      have hne : x ≠ y := by
        rintro rfl
        exact hx hy
      obtain ⟨pre', rfl, hrest⟩ := eq_append_of_replicate hne ha
      obtain ⟨pre'', post', rfl, hpre, hpost⟩ := ih hrest
      exact ⟨List.replicate (k + 1) y ++ pre'', post', by rw [append_assoc],
        .run hy j k hpre, hpost⟩

/-- Where a word without blanks stands in one list it stands in the other. -/
theorem split {word : List α} (hne : word ≠ []) (hword : ∀ x ∈ word, ¬ blank x)
    (h : Alike blank a b) {pre post : List α} (ha : a = pre ++ word ++ post) :
    ∃ pre' post', b = pre' ++ word ++ post' ∧ Alike blank pre pre' ∧ Alike blank post post' := by
  obtain ⟨x, word, rfl⟩ := exists_cons_of_ne_nil hne
  rw [append_assoc, cons_append] at ha
  obtain ⟨pre', rest, rfl, hpre, hrest⟩ := h.split_at (hword x mem_cons_self) ha
  obtain ⟨post', rfl, hpost⟩ := hrest.of_append fun y hy => hword y (mem_cons_of_mem _ hy)
  exact ⟨pre', post', by rw [append_assoc]; rfl, hpre, hpost⟩

end Alike

end RunLengths
