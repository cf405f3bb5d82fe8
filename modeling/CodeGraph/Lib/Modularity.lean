import Mathlib.Algebra.BigOperators.Ring.Finset
import Mathlib.Algebra.BigOperators.Group.Finset.Sigma
import Mathlib.Algebra.BigOperators.Field
import Mathlib.Algebra.Order.Field.Basic
import Mathlib.Tactic.FieldSimp
import Mathlib.Tactic.LinearCombination
import Mathlib.Tactic.Ring

/-!
# Modularity

The modularity of a partition of a weighted graph, with a resolution `γ`. The
graph is a matrix of weights, the partition a map to its classes; the weight of
the whole graph is a parameter `m`, which the two operations below leave alone.

Moving one vertex changes the modularity by the difference of two gains
(`modularity_update`), and merging the vertices of each class keeps the
modularity of every coarser partition (`modularity_merge`).
-/

namespace Modularity

open Finset

variable {V C D K : Type*} [Fintype V] [DecidableEq C] [Field K]

/-- The weight at a vertex. -/
def degree (A : V → V → K) (i : V) : K := ∑ j, A i j

/-- The weight at the vertices of a class. -/
def volume (A : V → V → K) (f : V → C) (c : C) : K := ∑ i with f i = c, degree A i

/-- The weight of a pair beyond what the degrees of its ends let expect. -/
def excess (γ m : K) (A : V → V → K) (i j : V) : K := A i j - γ * (degree A i * degree A j) / (2 * m)

/-- The sum over the ordered pairs inside the classes of a partition. -/
def within (B : V → V → K) (f : V → C) : K := ∑ i, ∑ j, if f i = f j then B i j else 0

/-- The modularity of a partition. -/
def modularity (γ m : K) (A : V → V → K) (f : V → C) : K :=
  within (excess γ m A) f / (2 * m)

theorem excess_symm (γ m : K) {A : V → V → K} (hA : ∀ i j, A i j = A j i) (i j : V) :
    excess γ m A i j = excess γ m A j i := by
  rw [excess, excess, hA i j, mul_comm (degree A i)]

/-- Only which vertices are together counts, not how the classes are called. -/
theorem modularity_congr [DecidableEq D] (γ m : K) (A : V → V → K) {f : V → C} {g : V → D}
    (h : ∀ i j, f i = f j ↔ g i = g j) : modularity γ m A f = modularity γ m A g := by
  simp only [modularity, within, h]

/-! ## Moving one vertex -/

section Move

variable [DecidableEq V]

/-- The sum over the other vertices of a class. -/
def toClass (B : V → V → K) (f : V → C) (i : V) (c : C) : K :=
  ∑ j ∈ univ.erase i, if f j = c then B i j else 0

theorem toClass_update (B : V → V → K) (f : V → C) (i : V) (c d : C) :
    toClass B (Function.update f i d) i c = toClass B f i c := by
  refine sum_congr rfl ?_
  intro j hj
  rw [Function.update_of_ne (ne_of_mem_erase hj)]

/-- The pairs inside the classes: those that leave `i` out, those of `i` and
another vertex, counted from both ends, and `i` itself. -/
theorem within_split {B : V → V → K} (hB : ∀ i j, B i j = B j i) (f : V → C) (i : V) :
    within B f = (∑ a ∈ univ.erase i, ∑ b ∈ univ.erase i, if f a = f b then B a b else 0) +
      2 * toClass B f i (f i) + B i i := by
  have hrow : ∀ a, (∑ b, if f a = f b then B a b else 0) =
      (if f a = f i then B a i else 0) +
        ∑ b ∈ univ.erase i, if f a = f b then B a b else 0 := fun a =>
    (add_sum_erase univ _ (mem_univ i)).symm
  have hcolumn : (∑ a ∈ univ.erase i, if f a = f i then B a i else 0) = toClass B f i (f i) :=
    sum_congr rfl fun a _ => by rw [hB a i]
  have hown : (∑ b ∈ univ.erase i, if f i = f b then B i b else 0) = toClass B f i (f i) :=
    sum_congr rfl fun b _ => by simp only [eq_comm]
  rw [within, ← add_sum_erase univ _ (mem_univ i), hrow, if_pos rfl, hown,
    sum_congr rfl fun a _ => hrow a, sum_add_distrib, hcolumn]
  ring

theorem within_update {B : V → V → K} (hB : ∀ i j, B i j = B j i) (f : V → C) (i : V) (d : C) :
    within B (Function.update f i d) =
      within B f + 2 * (toClass B f i d - toClass B f i (f i)) := by
  have hrest : (∑ a ∈ univ.erase i, ∑ b ∈ univ.erase i,
      if Function.update f i d a = Function.update f i d b then B a b else 0) =
      ∑ a ∈ univ.erase i, ∑ b ∈ univ.erase i, if f a = f b then B a b else 0 :=
    sum_congr rfl fun a ha => sum_congr rfl fun b hb => by
      rw [Function.update_of_ne (ne_of_mem_erase ha), Function.update_of_ne (ne_of_mem_erase hb)]
  rw [within_split hB, within_split hB f i, hrest, toClass_update, Function.update_self]
  ring

/-- The gain of joining the other vertices of a class. -/
def gain (γ m : K) (A : V → V → K) (f : V → C) (i : V) (c : C) : K :=
  toClass A f i c -
    γ * (∑ j ∈ univ.erase i, if f j = c then degree A j else 0) * degree A i / (2 * m)

theorem toClass_excess (γ m : K) (A : V → V → K) (f : V → C) (i : V) (c : C) :
    toClass (excess γ m A) f i c = gain γ m A f i c := by
  have hterm : ∀ j, (if f j = c then excess γ m A i j else 0) =
      (if f j = c then A i j else 0) -
        γ * (if f j = c then degree A j else 0) * degree A i / (2 * m) := fun j => by
    split
    · unfold excess
      ring
    · ring
  unfold toClass gain
  rw [sum_congr rfl fun j _ => hterm j, sum_sub_distrib, ← sum_div, ← sum_mul, ← mul_sum]
  rfl

/-- What a class weighs without one vertex. -/
theorem sum_erase_degree (A : V → V → K) (f : V → C) (i : V) (c : C) :
    (∑ j ∈ univ.erase i, if f j = c then degree A j else 0) =
      volume A f c - if f i = c then degree A i else 0 := by
  rw [volume, sum_filter, ← add_sum_erase univ _ (mem_univ i), add_sub_cancel_left]

theorem volume_update (A : V → V → K) (f : V → C) (i : V) (c d : C) :
    volume A (Function.update f i d) c =
      (volume A f c - if f i = c then degree A i else 0) + if d = c then degree A i else 0 := by
  have hrest : (∑ j ∈ univ.erase i, if Function.update f i d j = c then degree A j else 0) =
      ∑ j ∈ univ.erase i, if f j = c then degree A j else 0 :=
    sum_congr rfl fun j hj => by rw [Function.update_of_ne (ne_of_mem_erase hj)]
  rw [← sum_erase_degree, ← hrest, sum_erase_degree, Function.update_self, sub_add_cancel]

/-- The closed form of a move: the modularity changes by the difference of the
two gains. -/
theorem modularity_update [NeZero (2 : K)] (γ : K) {m : K} (hm : m ≠ 0) {A : V → V → K}
    (hA : ∀ i j, A i j = A j i) (f : V → C) (i : V) (d : C) :
    modularity γ m A (Function.update f i d) =
      modularity γ m A f + (gain γ m A f i d - gain γ m A f i (f i)) / m := by
  have htwo : (2 : K) ≠ 0 := NeZero.ne 2
  rw [modularity, modularity, within_update (excess_symm γ m hA), toClass_excess, toClass_excess]
  field_simp

end Move

/-! ## Merging the classes -/

section Merge

variable [Fintype C] [DecidableEq D]

/-- The weights between the classes of a partition, the ones inside on the
diagonal. -/
def merge (A : V → V → K) (f : V → C) (c d : C) : K :=
  ∑ i with f i = c, ∑ j with f j = d, A i j

omit [Fintype C] in
theorem merge_symm {A : V → V → K} (hA : ∀ i j, A i j = A j i) (f : V → C) (c d : C) :
    merge A f c d = merge A f d c := by
  unfold merge
  rw [sum_comm]
  exact sum_congr rfl fun j _ => sum_congr rfl fun i _ => hA i j

theorem degree_merge (A : V → V → K) (f : V → C) (c : C) :
    degree (merge A f) c = volume A f c := by
  unfold degree merge volume
  rw [sum_comm]
  exact sum_congr rfl fun i _ => sum_fiberwise univ f fun j => A i j

/-- The weight of the whole graph. -/
theorem sum_degree_merge (A : V → V → K) (f : V → C) :
    ∑ c, degree (merge A f) c = ∑ i, degree A i := by
  simp only [degree_merge, volume]
  exact sum_fiberwise univ f fun i => degree A i

/-- The volume of a coarser class is the same on both sides. -/
theorem volume_merge (A : V → V → K) (f : V → C) (g : C → D) (d : D) :
    volume (merge A f) g d = volume A (g ∘ f) d := by
  simp only [volume, degree_merge, sum_filter (fun c => g c = d), sum_filter fun i => (g ∘ f) i = d]
  rw [← sum_fiberwise univ f]
  refine sum_congr rfl ?_
  intro c _
  have hclass : ∀ i ∈ univ.filter fun i => f i = c,
      (if (g ∘ f) i = d then degree A i else 0) = if g c = d then degree A i else 0 :=
    fun i hi => by rw [Function.comp_apply, (mem_filter.mp hi).2]
  rw [sum_congr rfl hclass]
  split
  · rfl
  · exact sum_const_zero.symm

/-- A sum over pairs of merged vertices is one over pairs of vertices. -/
theorem sum_merge (F : C → C → V → V → K) (f : V → C) :
    (∑ c, ∑ d, ∑ i with f i = c, ∑ j with f j = d, F c d i j) = ∑ i, ∑ j, F (f i) (f j) i j := by
  rw [← sum_fiberwise univ f fun i => ∑ j, F (f i) (f j) i j]
  refine sum_congr rfl ?_
  intro c _
  rw [sum_comm]
  refine sum_congr rfl ?_
  intro i hi
  rw [← sum_fiberwise univ f fun j => F (f i) (f j) i j, (mem_filter.mp hi).2]
  exact sum_congr rfl fun d _ => sum_congr rfl fun j hj => by rw [(mem_filter.mp hj).2]

theorem within_merge (B : V → V → K) (f : V → C) (g : C → D) :
    within (merge B f) g = within B (g ∘ f) := by
  unfold within merge
  refine Eq.trans ?_ (sum_merge (fun c d i j => if g c = g d then B i j else 0) f)
  refine sum_congr rfl fun c _ => sum_congr rfl fun d _ => ?_
  split
  · rfl
  · simp only [sum_const_zero]

theorem excess_merge (γ m : K) (A : V → V → K) (f : V → C) :
    excess γ m (merge A f) = merge (excess γ m A) f := by
  funext c d
  unfold excess
  rw [degree_merge, degree_merge, volume, volume, sum_mul_sum]
  unfold merge
  simp only [sum_sub_distrib, mul_sum, sum_div]

/-- Merging keeps the modularity of every coarser partition. -/
theorem modularity_merge (γ m : K) (A : V → V → K) (f : V → C) (g : C → D) :
    modularity γ m (merge A f) g = modularity γ m A (g ∘ f) := by
  rw [modularity, modularity, excess_merge, within_merge]

end Merge

end Modularity
