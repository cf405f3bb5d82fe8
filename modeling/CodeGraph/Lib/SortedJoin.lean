import Mathlib.Algebra.BigOperators.Group.Finset.Basic
import Mathlib.Algebra.Ring.Defs
import Mathlib.Data.Fintype.Basic
import Mathlib.Data.List.Nodup
import Mathlib.Order.Defs.LinearOrder
import Mathlib.Tactic.Common

/-!
# Joining two association lists that are sorted by key

`join` goes over both lists at once and drops the smaller of two different keys. Over lists
whose keys ascend it meets every key they share, once and in order (`mem_join`,
`ascending_join`), so a sum over the join is the sum over all keys (`sum_join`).
-/

namespace SortedJoin

open List

variable {κ α β : Type*} [LinearOrder κ]

def join (l : List (κ × α)) (m : List (κ × β)) : List (κ × α × β) :=
  match l, m with
  | [], _ => []
  | _, [] => []
  | (i, a) :: l, (j, b) :: m =>
      if i = j then (i, a, b) :: join l m
      else if i < j then join l ((j, b) :: m)
      else join ((i, a) :: l) m
  termination_by l.length + m.length

/-- The keys ascend. -/
def Ascending (l : List (κ × α)) : Prop := l.Pairwise fun a b => a.1 < b.1

instance (l : List (κ × α)) : Decidable (Ascending l) :=
  inferInstanceAs (Decidable (List.Pairwise _ _))

variable {l : List (κ × α)} {m : List (κ × β)} {k : κ} {a : α} {b : β}

theorem Ascending.tail {e : κ × α} (h : Ascending (e :: l)) : Ascending l := List.Pairwise.of_cons h

theorem Ascending.head_lt {e f : κ × α} (h : Ascending (e :: l)) (hf : f ∈ l) : e.1 < f.1 :=
  rel_of_pairwise_cons h hf

/-- A key below the first one is not there. -/
theorem Ascending.notMem_of_lt {e : κ × α} (h : Ascending (e :: l)) (hlt : k < e.1) :
    (k, a) ∉ e :: l := by
  intro hmem
  rcases mem_cons.mp hmem with rfl | hmem
  · exact lt_irrefl _ hlt
  · exact lt_asymm hlt (h.head_lt hmem)

/-- The join has what the two lists share. -/
theorem mem_join (hl : Ascending l) (hm : Ascending m) :
    (k, a, b) ∈ join l m ↔ (k, a) ∈ l ∧ (k, b) ∈ m := by
  fun_induction join l m with
  | case1 m => simp
  | case2 l => simp
  | case3 i x l y m ih =>
      rw [mem_cons, ih hl.tail hm.tail, mem_cons, mem_cons]
      constructor
      · rintro (⟨rfl, rfl, rfl⟩ | ⟨ha, hb⟩)
        · exact ⟨.inl rfl, .inl rfl⟩
        · exact ⟨.inr ha, .inr hb⟩
      · rintro ⟨⟨rfl, rfl⟩ | ha, hb⟩
        · rcases hb with ⟨_, rfl⟩ | hb
          · exact .inl rfl
          · exact absurd (hm.head_lt hb) (lt_irrefl _)
        · rcases hb with ⟨rfl, rfl⟩ | hb
          · exact absurd (hl.head_lt ha) (lt_irrefl _)
          · exact .inr ⟨ha, hb⟩
  | case4 i x l j y m hne hlt ih =>
      rw [ih hl.tail hm, mem_cons (a := (k, a))]
      refine and_congr_left fun hb => ⟨.inr, fun ha => ha.resolve_left ?_⟩
      rintro ⟨rfl, rfl⟩
      exact hm.notMem_of_lt hlt hb
  | case5 i x l j y m hne hlt ih =>
      have hgt : j < i := lt_of_le_of_ne (not_lt.mp hlt) (Ne.symm hne)
      rw [ih hl hm.tail, mem_cons (a := (k, b))]
      refine and_congr_right fun ha => ⟨.inr, fun hb => hb.resolve_left ?_⟩
      rintro ⟨rfl, rfl⟩
      exact hl.notMem_of_lt hgt ha

theorem ascending_join (hl : Ascending l) (hm : Ascending m) : Ascending (join l m) := by
  fun_induction join l m with
  | case1 m => exact .nil
  | case2 l => exact .nil
  | case3 i x l y m ih =>
      refine pairwise_cons.mpr ⟨fun e he => ?_, ih hl.tail hm.tail⟩
      obtain ⟨k, a, b⟩ := e
      exact hl.head_lt ((mem_join hl.tail hm.tail).mp he).1
  | case4 i x l j y m hne hlt ih => exact ih hl.tail hm
  | case5 i x l j y m hne hlt ih => exact ih hl hm.tail

theorem Ascending.nodup_keys (h : Ascending l) : (l.map Prod.fst).Nodup :=
  pairwise_map.mpr (h.imp fun hlt => hlt.ne)

theorem Ascending.lookup_eq_some (h : Ascending l) : l.lookup k = some a ↔ (k, a) ∈ l := by
  induction l with
  | nil => simp
  | cons e l ih =>
      obtain ⟨i, x⟩ := e
      rw [lookup_cons, mem_cons]
      by_cases hk : k = i
      · subst hk
        rw [beq_self_eq_true]
        constructor
        · rintro ⟨⟩
          exact .inl rfl
        · rintro (⟨_, rfl⟩ | ha)
          · rfl
          · exact absurd (h.head_lt ha) (lt_irrefl _)
      · rw [beq_eq_false_iff_ne.mpr hk]
        refine (ih h.tail).trans ⟨.inr, fun ha => ha.resolve_left ?_⟩
        rintro ⟨rfl, _⟩
        exact hk rfl

section Sum

variable {M : Type*} [NonUnitalNonAssocSemiring M]

/-- The value under a key, zero where there is none. -/
def valueAt (l : List (κ × M)) (k : κ) : M := (l.lookup k).getD 0

variable {l m : List (κ × M)}

theorem Ascending.valueAt_of_mem (h : Ascending l) {a : M} (ha : (k, a) ∈ l) :
    valueAt l k = a := by
  rw [valueAt, h.lookup_eq_some.mpr ha, Option.getD_some]

/-- The products over the shared keys add up to the sum over all keys. -/
theorem sum_join [Fintype κ] (hl : Ascending l) (hm : Ascending m) :
    ((join l m).map fun e => e.2.1 * e.2.2).sum = ∑ k, valueAt l k * valueAt m k := by
  have hnodup := (ascending_join hl hm).nodup_keys
  have hvalue : ∀ e ∈ join l m, e.2.1 * e.2.2 = valueAt l e.1 * valueAt m e.1 := by
    rintro ⟨k, a, b⟩ he
    obtain ⟨ha, hb⟩ := (mem_join hl hm).mp he
    rw [hl.valueAt_of_mem ha, hm.valueAt_of_mem hb]
  have hkeys : (join l m).map (fun e => valueAt l e.1 * valueAt m e.1) =
      ((join l m).map Prod.fst).map fun k => valueAt l k * valueAt m k := by
    rw [map_map]
    rfl
  rw [map_congr_left hvalue, hkeys, ← sum_toFinset _ hnodup]
  refine Finset.sum_subset (Finset.subset_univ _) fun k _ hk => ?_
  rw [mem_toFinset, mem_map] at hk
  cases ha : l.lookup k with
  | none => rw [valueAt, ha, Option.getD_none, zero_mul]
  | some a =>
      cases hb : m.lookup k with
      | none =>
          have hzero : valueAt m k = 0 := by rw [valueAt, hb, Option.getD_none]
          rw [hzero, mul_zero]
      | some b =>
          refine absurd ⟨(k, a, b), ?_, rfl⟩ hk
          exact (mem_join hl hm).mpr ⟨hl.lookup_eq_some.mp ha, hm.lookup_eq_some.mp hb⟩

end Sum

end SortedJoin
