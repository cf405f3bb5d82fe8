import Mathlib.Algebra.BigOperators.Group.Finset.Piecewise
import Mathlib.Algebra.BigOperators.Group.List.Basic
import Mathlib.Data.Fintype.Basic
import Mathlib.Order.Basic

/-!
# Tallies

A map from keys to amounts, filled one entry at a time and read in the order of
its keys. What a tally holds of a key is the sum of the amounts entered under it
(`sumAt_collect`), so the order of the entries plays no part.
-/

namespace Tally

open List

variable {κ ι M : Type*}

/-- The amounts entered under one key. -/
def sumAt [DecidableEq κ] [Zero M] [Add M] (entries : List (κ × M)) (k : κ) : M :=
  (entries.map fun e => if e.1 = k then e.2 else 0).sum

/-- Adds `w` to what the tally holds of `k`, in the order of the keys. -/
def add [LinearOrder κ] [Add M] : List (κ × M) → κ → M → List (κ × M)
  | [], k, w => [(k, w)]
  | (k', w') :: rest, k, w =>
      if k = k' then (k', w' + w) :: rest
      else if k < k' then (k, w) :: (k', w') :: rest
      else (k', w') :: add rest k w

def collect [LinearOrder κ] [Add M] (entries : List (κ × M)) : List (κ × M) :=
  entries.foldl (fun tally e => add tally e.1 e.2) []

/-- What the tally holds of a key, zero when it has none. -/
def get [DecidableEq κ] [Zero M] (tally : List (κ × M)) (k : κ) : M := (tally.lookup k).getD 0

section

variable [AddCommMonoid M]

@[simp] theorem sumAt_nil [DecidableEq κ] (k : κ) : sumAt ([] : List (κ × M)) k = 0 := rfl

@[simp] theorem sumAt_cons [DecidableEq κ] (e : κ × M) (entries : List (κ × M)) (k : κ) :
    sumAt (e :: entries) k = (if e.1 = k then e.2 else 0) + sumAt entries k := by
  simp only [sumAt, map_cons, sum_cons]

@[simp] theorem sumAt_append [DecidableEq κ] (a b : List (κ × M)) (k : κ) :
    sumAt (a ++ b) k = sumAt a k + sumAt b k := by
  simp only [sumAt, map_append, sum_append]

theorem sumAt_of_notMem [DecidableEq κ] {entries : List (κ × M)} {k : κ}
    (h : k ∉ entries.map Prod.fst) : sumAt entries k = 0 := by
  induction entries with
  | nil => rfl
  | cons e entries ih =>
      rw [map_cons, mem_cons, not_or] at h
      rw [sumAt_cons, if_neg (Ne.symm h.1), ih h.2, add_zero]

/-- Every entry is under some key. -/
theorem sum_sumAt [DecidableEq κ] [Fintype κ] (entries : List (κ × M)) :
    ∑ k, sumAt entries k = (entries.map Prod.snd).sum := by
  induction entries with
  | nil => simp
  | cons e entries ih =>
      simp only [sumAt_cons, Finset.sum_add_distrib, ih, map_cons, sum_cons]
      rw [Finset.sum_ite_eq, if_pos (Finset.mem_univ _)]

/-- Entries filed under coarser keys. -/
theorem sumAt_map [DecidableEq κ] [DecidableEq ι] [Fintype ι] (f : ι → κ) (entries : List (ι × M))
    (k : κ) : sumAt (entries.map fun e => (f e.1, e.2)) k =
      ∑ i, if f i = k then sumAt entries i else 0 := by
  induction entries with
  | nil => simp
  | cons e entries ih =>
      have hone : (∑ i, if f i = k then (if e.1 = i then e.2 else 0) else 0) =
          if f e.1 = k then e.2 else 0 := by
        rw [Finset.sum_eq_single e.1 (fun i _ hi => by rw [if_neg (Ne.symm hi), ite_self])
          (fun hnot => absurd (Finset.mem_univ _) hnot), if_pos rfl]
      rw [map_cons, sumAt_cons, ih, ← hone, ← Finset.sum_add_distrib]
      refine Finset.sum_congr rfl ?_
      intro i _
      split
      · rw [sumAt_cons]
      · rw [add_zero]

variable [LinearOrder κ]

theorem sumAt_add (tally : List (κ × M)) (k : κ) (w : M) (k' : κ) :
    sumAt (add tally k w) k' = sumAt tally k' + if k = k' then w else 0 := by
  induction tally with
  | nil => rw [add, sumAt_cons, sumAt_nil, add_comm]
  | cons e rest ih =>
      rw [add]
      split
      · next heq =>
        rw [sumAt_cons, sumAt_cons, add_right_comm, heq]
        split
        · rfl
        · rw [add_zero]
      · split
        · rw [sumAt_cons, add_comm]
        · rw [sumAt_cons, ih, sumAt_cons, add_assoc]

theorem sumAt_foldl_add (entries tally : List (κ × M)) (k : κ) :
    sumAt (entries.foldl (fun tally e => add tally e.1 e.2) tally) k =
      sumAt tally k + sumAt entries k := by
  induction entries generalizing tally with
  | nil => rw [foldl_nil, sumAt_nil, add_zero]
  | cons e entries ih => rw [foldl_cons, ih, sumAt_add, sumAt_cons, add_assoc]

theorem sum_snd_add (tally : List (κ × M)) (k : κ) (w : M) :
    ((add tally k w).map Prod.snd).sum = (tally.map Prod.snd).sum + w := by
  induction tally with
  | nil => simp [add]
  | cons e rest ih =>
      rw [add]
      split
      · simp only [map_cons, sum_cons]
        rw [add_right_comm]
      · split
        · simp only [map_cons, sum_cons]
          rw [add_comm w]
        · simp only [map_cons, sum_cons, ih]
          rw [add_assoc]

/-- What is entered is what the tally holds in all. -/
theorem sum_snd_collect (entries : List (κ × M)) :
    ((collect entries).map Prod.snd).sum = (entries.map Prod.snd).sum := by
  have hfold : ∀ tally : List (κ × M),
      ((entries.foldl (fun tally e => add tally e.1 e.2) tally).map Prod.snd).sum =
        (tally.map Prod.snd).sum + (entries.map Prod.snd).sum := by
    induction entries with
    | nil => intro tally; simp
    | cons e entries ih =>
        intro tally
        rw [foldl_cons, ih, sum_snd_add, map_cons, sum_cons, add_assoc]
  rw [collect, hfold, map_nil, sum_nil, zero_add]

theorem sumAt_collect (entries : List (κ × M)) (k : κ) :
    sumAt (collect entries) k = sumAt entries k := by
  rw [collect, sumAt_foldl_add, sumAt_nil, zero_add]

end

/-! ## One entry a key -/

/-- The keys come in order, each once. -/
def Sorted [LinearOrder κ] (tally : List (κ × M)) : Prop := (tally.map Prod.fst).Pairwise (· < ·)

theorem mem_keys_add [LinearOrder κ] [Add M] (tally : List (κ × M)) (k : κ) (w : M) (k' : κ) :
    k' ∈ (add tally k w).map Prod.fst ↔ k' = k ∨ k' ∈ tally.map Prod.fst := by
  induction tally with
  | nil => simp [add]
  | cons e rest ih =>
      rw [add]
      split
      · next heq => simp [heq]
      · split
        · simp
        · simp only [map_cons, mem_cons, ih]
          rw [or_left_comm]

variable {tally : List (κ × M)}

theorem Sorted.add [LinearOrder κ] [Add M] (h : Sorted tally) (k : κ)
    (w : M) : Sorted (add tally k w) := by
  induction tally with
  | nil => simp [Sorted, Tally.add]
  | cons e rest ih =>
      obtain ⟨hle, hrest⟩ := pairwise_cons.mp h
      rw [Tally.add]
      split
      · exact pairwise_cons.mpr ⟨hle, hrest⟩
      · next hne =>
        split
        · next hlt =>
          refine pairwise_cons.mpr ⟨fun k' hk' => ?_, h⟩
          rcases mem_cons.mp hk' with rfl | hk'
          · exact hlt
          · exact hlt.trans (hle k' hk')
        · next hnlt =>
          refine pairwise_cons.mpr ⟨fun k' hk' => ?_, ih hrest⟩
          rcases (mem_keys_add rest k w k').mp hk' with rfl | hk'
          · exact lt_of_le_of_ne (not_lt.mp hnlt) (Ne.symm hne)
          · exact hle k' hk'

theorem sorted_foldl_add [LinearOrder κ] [Add M] (entries : List (κ × M))
    (h : Sorted tally) : Sorted (entries.foldl (fun tally e => add tally e.1 e.2) tally) := by
  induction entries generalizing tally with
  | nil => exact h
  | cons e entries ih => exact ih (h.add e.1 e.2)

theorem sorted_collect [LinearOrder κ] [Add M] (entries : List (κ × M)) :
    Sorted (collect entries) :=
  sorted_foldl_add entries List.Pairwise.nil

theorem mem_keys_collect [LinearOrder κ] [Add M] (entries : List (κ × M)) (k : κ) :
    k ∈ (collect entries).map Prod.fst ↔ k ∈ entries.map Prod.fst := by
  have hfold : ∀ tally : List (κ × M), k ∈ (entries.foldl (fun tally e => add tally e.1 e.2)
      tally).map Prod.fst ↔ k ∈ entries.map Prod.fst ∨ k ∈ tally.map Prod.fst := by
    induction entries with
    | nil => simp
    | cons e entries ih =>
        intro tally
        rw [foldl_cons, ih, mem_keys_add, map_cons, mem_cons]
        tauto
  rw [collect, hfold]
  simp

variable {k : κ}

/-- With one entry a key, that entry is all there is under it. -/
theorem Sorted.sumAt_eq [LinearOrder κ] [AddCommMonoid M]
    (h : Sorted tally) {w : M} (hmem : (k, w) ∈ tally) : sumAt tally k = w := by
  induction tally with
  | nil => cases hmem
  | cons e rest ih =>
      obtain ⟨hlt, hrest⟩ := pairwise_cons.mp h
      rw [sumAt_cons]
      rcases mem_cons.mp hmem with rfl | hmem
      · have hnot : k ∉ rest.map Prod.fst := fun hk => lt_irrefl _ (hlt k hk)
        rw [if_pos rfl, sumAt_of_notMem hnot, add_zero]
      · have hne : e.1 ≠ k := ne_of_lt (hlt k (mem_map_of_mem hmem))
        rw [if_neg hne, zero_add, ih hrest hmem]

/-- Where no key comes twice, a lookup finds the entry there is. -/
theorem lookup_eq_some_iff_mem [BEq κ] [LawfulBEq κ] (h : (tally.map Prod.fst).Nodup) {w : M} :
    tally.lookup k = some w ↔ (k, w) ∈ tally := by
  induction tally with
  | nil => simp
  | cons e rest ih =>
      obtain ⟨hnot, hrest⟩ := nodup_cons.mp h
      rw [lookup_cons, mem_cons]
      by_cases heq : k = e.1
      · subst heq
        have hmem : (e.1, w) ∉ rest := fun hmem =>
          hnot (mem_map.mpr ⟨(e.1, w), hmem, rfl⟩)
        simp [hmem, Prod.ext_iff, eq_comm]
      · rw [beq_false_of_ne heq]
        simp [ih hrest, Prod.ext_iff, heq]

theorem Sorted.lookup_eq [LinearOrder κ] [AddCommMonoid M] [BEq κ] [LawfulBEq κ] (h : Sorted tally) (hk : k ∈ tally.map Prod.fst) :
    tally.lookup k = some (sumAt tally k) := by
  obtain ⟨e, he, rfl⟩ := mem_map.mp hk
  have hnodup : (tally.map Prod.fst).Nodup := h.imp ne_of_lt
  rw [lookup_eq_some_iff_mem hnodup, h.sumAt_eq he]
  exact he

theorem Sorted.get_eq [LinearOrder κ] [AddCommMonoid M]
    (h : Sorted tally) (k : κ) : get tally k = sumAt tally k := by
  unfold get
  cases hlookup : tally.lookup k with
  | none =>
      have hnot : k ∉ tally.map Prod.fst := fun hk => by
        obtain ⟨e, he, rfl⟩ := mem_map.mp hk
        have := lookup_eq_none_iff.mp hlookup e he
        simp at this
      rw [sumAt_of_notMem hnot]
      rfl
  | some w =>
      obtain ⟨pre, post, rfl, -⟩ := lookup_eq_some_iff.mp hlookup
      exact (h.sumAt_eq (by simp)).symm

/-! ## Counting members -/

/-- How often each member is in the list. -/
def counts [LinearOrder κ] (l : List κ) : List (κ × ℕ) := collect (l.map fun k => (k, 1))

theorem sorted_counts [LinearOrder κ] (l : List κ) : Sorted (counts l) := sorted_collect _

theorem mem_keys_counts [LinearOrder κ] {l : List κ} : k ∈ (counts l).map Prod.fst ↔ k ∈ l := by
  rw [counts, mem_keys_collect]
  simp

theorem lookup_counts [LinearOrder κ] [BEq κ] [LawfulBEq κ] {l : List κ} (h : k ∈ l) :
    (counts l).lookup k = some (l.count k) := by
  rw [(sorted_counts l).lookup_eq (mem_keys_counts.mpr h), counts, sumAt_collect]
  clear h
  induction l with
  | nil => rfl
  | cons a l ih =>
      rw [map_cons, sumAt_cons, count_cons, add_comm, Option.some.inj ih]
      simp only [beq_iff_eq]

end Tally
