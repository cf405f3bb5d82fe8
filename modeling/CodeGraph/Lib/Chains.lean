import Mathlib.Data.List.Basic
import Mathlib.Logic.Function.Basic

/-!
# Chains by key

Items in the order they come, each tied to the last one of its key. The ties of one key join
the neighbours among its items (`filter_ties`).
-/

namespace Chains

open List

variable {α β κ : Type*} [DecidableEq κ]

/-- Every item with the one of its key that came last before it. -/
def ties (key : α → κ) : (last : κ → Option α) → List α → List (α × α)
  | _, [] => []
  | last, a :: items =>
      ((last (key a)).map (a, ·)).toList ++ ties key (Function.update last (key a) (some a)) items

/-- Every item but the first, with the one before it. -/
def neighbours (l : List α) : List (α × α) := l.tail.zip l

theorem neighbours_cons_cons (a b : α) (l : List α) :
    neighbours (a :: b :: l) = (b, a) :: neighbours (b :: l) := rfl

theorem mem_of_neighbours {l : List α} {e : α × α} (h : e ∈ neighbours l) : e.1 ∈ l ∧ e.2 ∈ l :=
  ⟨mem_of_mem_tail (of_mem_zip h).1, (of_mem_zip h).2⟩

theorem map_neighbours (f : α → β) (l : List α) :
    (neighbours l).map (Prod.map f f) = neighbours (l.map f) := by
  rw [neighbours, neighbours, ← map_tail, zip_map]

/-- What neighbours have in common all have. -/
theorem eq_of_neighbours (f : α → β) : ∀ {l : List α}, (∀ e ∈ neighbours l, f e.1 = f e.2) →
    ∀ a ∈ l, ∀ b ∈ l, f a = f b
  | [], _ => nofun
  | [a], _ => by simp
  | a :: b :: l, h => by
      rw [neighbours_cons_cons, forall_mem_cons] at h
      have hrest := eq_of_neighbours f h.2
      have hfirst : ∀ c ∈ b :: l, f c = f a := fun c hc =>
        (hrest c hc b mem_cons_self).trans h.1
      rintro c hc d hd
      rcases mem_cons.mp hc with rfl | hc' <;> rcases mem_cons.mp hd with rfl | hd'
      · rfl
      · exact (hfirst d hd').symm
      · exact hfirst c hc'
      · exact hrest c hc' d hd'

variable {key : α → κ}

theorem key_eq_of_mem_ties : ∀ {items : List α} {last : κ → Option α},
    (∀ k a, last k = some a → key a = k) → ∀ e ∈ ties key last items, key e.1 = key e.2
  | [], _, _ => nofun
  | a :: items, last, h => by
      intro e he
      rcases mem_append.mp he with he | he
      · obtain ⟨b, hb, rfl⟩ := Option.map_eq_some_iff.mp (Option.mem_toList.mp he)
        exact (h _ _ hb).symm
      · refine key_eq_of_mem_ties (fun k b hb => ?_) e he
        rcases eq_or_ne k (key a) with rfl | hne
        · rw [Function.update_self] at hb
          exact Option.some.inj hb ▸ rfl
        · rw [Function.update_of_ne hne] at hb
          exact h k b hb

/-- The ties of a key: those of its items to the ones before them. -/
theorem filter_ties (k : κ) : ∀ (items : List α) (last : κ → Option α),
    (ties key last items).filter (fun e => key e.1 = k) =
      neighbours ((last k).toList ++ items.filter fun a => key a = k)
  | [], last => by cases last k <;> simp [ties, neighbours]
  | a :: items, last => by
      rw [ties, filter_append, filter_ties k items]
      rcases eq_or_ne (key a) k with rfl | hne
      · rw [Function.update_self, filter_cons_of_pos (by simp)]
        cases hlast : last (key a) with
        | none => rfl
        | some b => simp [neighbours_cons_cons]
      · rw [Function.update_of_ne hne.symm, filter_cons_of_neg (by simpa using hne)]
        have hnone : ((last (key a)).map (a, ·)).toList.filter (fun e => key e.1 = k) = [] := by
          cases last (key a) <;> simp [hne]
        rw [hnone, nil_append]

variable (key) in
theorem filter_ties_none (k : κ) (items : List α) :
    (ties key (fun _ => none) items).filter (fun e => key e.1 = k) =
      neighbours (items.filter fun a => key a = k) :=
  filter_ties k items fun _ => none

theorem mem_of_mem_ties {items : List α} {e : α × α} (h : e ∈ ties key (fun _ => none) items) :
    e.1 ∈ items ∧ e.2 ∈ items := by
  have hmem := mem_of_neighbours (filter_ties_none key (key e.1) items ▸
    mem_filter.mpr ⟨h, decide_eq_true rfl⟩)
  exact ⟨(mem_filter.mp hmem.1).1, (mem_filter.mp hmem.2).1⟩

end Chains
