import Mathlib.Data.List.Destutter
import Mathlib.Data.List.Sort

/-!
# Sorting by a key and dropping repetitions

`sort_by_key` followed by `dedup`, the usual way to turn a list into the
sorted list of its members. When the key tells the members apart, the result
depends on the set of members alone (`sortDedup_eq_of_mem_iff`), and a list
that is strictly sorted by the key is its own result (`sortDedup_eq_self`).
-/

namespace SortDedup

open List

variable {α κ : Type*} [LinearOrder κ]

/-- A stable sort by a key. -/
def sortByKey (key : α → κ) (l : List α) : List α := l.insertionSort fun a b => key a ≤ key b

/-- Drops consecutive repetitions. -/
def dedup [DecidableEq α] (l : List α) : List α := l.destutter (· ≠ ·)

def sortDedup [DecidableEq α] (key : α → κ) (l : List α) : List α := dedup (sortByKey key l)

/-- The key tells the members of the list apart. -/
def KeyInjective (key : α → κ) (l : List α) : Prop :=
  ∀ a ∈ l, ∀ b ∈ l, key a = key b → a = b

theorem pairwise_sortByKey (key : α → κ) (l : List α) :
    (sortByKey key l).Pairwise fun a b => key a ≤ key b := by
  have : Std.Total fun a b : α => key a ≤ key b := ⟨fun a b => le_total (key a) (key b)⟩
  have : IsTrans α fun a b : α => key a ≤ key b := ⟨fun _ _ _ => le_trans⟩
  exact pairwise_insertionSort _ l

variable {key : α → κ} {l m : List α}

/-- When the key tells the members apart, their order before the sort plays no part. -/
theorem sortByKey_eq_of_perm (hkey : KeyInjective key l)
    (h : l.Perm m) : sortByKey key l = sortByKey key m := by
  have hl : (sortByKey key l).Perm l := perm_insertionSort _ l
  have hm : (sortByKey key m).Perm m := perm_insertionSort _ m
  refine List.Perm.eq_of_pairwise ?_ (pairwise_sortByKey key l) (pairwise_sortByKey key m)
    (hl.trans (h.trans hm.symm))
  intro a b ha hb hab hba
  exact hkey a (hl.mem_iff.mp ha) b (h.mem_iff.mpr (hm.mem_iff.mp hb)) (le_antisymm hab hba)

variable {a : α}

theorem pair_sublist_sortByKey (key : α → κ) {b : α} (hle : key a ≤ key b)
    (h : [a, b].Sublist l) : [a, b].Sublist (sortByKey key l) :=
  pair_sublist_insertionSort (r := fun a b => key a ≤ key b) hle h

/-- Two members of a list without repetitions come in one order only. -/
theorem not_swap_sublist {b : α} (hl : l.Nodup) (h : [a, b].Sublist l) : ¬ [b, a].Sublist l := by
  intro h'
  have hne : a ≠ b := by
    rintro rfl
    exact (nodup_cons.mp (hl.sublist h)).1 mem_cons_self
  induction l with
  | nil => cases h
  | cons c l ih =>
      obtain ⟨hc, hl⟩ := nodup_cons.mp hl
      cases h with
      | cons _ h =>
          cases h' with
          | cons _ h' => exact ih hl h h'
          | cons_cons _ h' => exact hc (h.subset (by simp))
      | cons_cons _ h =>
          cases h' with
          | cons _ h' => exact hc (h'.subset (by simp))
          | cons_cons _ h' => exact hne rfl

theorem mem_dedup [DecidableEq α] : a ∈ dedup l ↔ a ∈ l := by
  have hkeep : ∀ (l : List α) (b : α), a ∈ b :: l → a ∈ l.destutter' (· ≠ ·) b := by
    intro l
    induction l with
    | nil => intro b h; simpa using h
    | cons c l ih =>
        intro b h
        by_cases hbc : b ≠ c
        · rw [List.destutter'_cons_pos _ hbc]
          rcases mem_cons.mp h with rfl | h
          · exact mem_cons_self
          · exact mem_cons_of_mem _ (ih c h)
        · rw [List.destutter'_cons_neg _ hbc]
          refine ih b ?_
          rw [not_ne_iff.mp hbc] at h ⊢
          simpa using h
  refine ⟨fun h => (destutter_sublist _ l).mem h, fun h => ?_⟩
  cases l with
  | nil => exact h
  | cons b l => exact hkeep l b h

@[simp] theorem mem_sortDedup [DecidableEq α] : a ∈ sortDedup key l ↔ a ∈ l := by
  rw [sortDedup, mem_dedup, sortByKey, mem_insertionSort]

/-- In a sorted list without consecutive repetitions neighbours are strictly
ordered, hence all its members are. -/
theorem pairwise_lt_of_isChain_ne : ∀ {l : List α}, KeyInjective key l →
    (l.Pairwise fun a b => key a ≤ key b) → l.IsChain (· ≠ ·) →
    l.Pairwise fun a b => key a < key b
  | [], _, _, _ => List.Pairwise.nil
  | [_], _, _, _ => pairwise_singleton _ _
  | a :: b :: l, hkey, hle, hne => by
      obtain ⟨ha, hrest⟩ := pairwise_cons.mp hle
      obtain ⟨hab, hne⟩ := isChain_cons_cons.mp hne
      have hlt : key a < key b := lt_of_le_of_ne (ha b (by simp)) fun he =>
        hab (hkey a (by simp) b (by simp) he)
      have hkey : KeyInjective key (b :: l) := fun c hc d hd =>
        hkey c (mem_cons_of_mem _ hc) d (mem_cons_of_mem _ hd)
      refine pairwise_cons.mpr ⟨fun c hc => ?_, pairwise_lt_of_isChain_ne hkey hrest hne⟩
      rcases mem_cons.mp hc with rfl | hc
      · exact hlt
      · exact hlt.trans_le ((pairwise_cons.mp hrest).1 c hc)

theorem pairwise_sortDedup [DecidableEq α] (hkey : KeyInjective key l) :
    (sortDedup key l).Pairwise fun a b => key a < key b := by
  have hle : (sortDedup key l).Pairwise fun a b => key a ≤ key b :=
    (pairwise_sortByKey key l).sublist (destutter_sublist _ _)
  refine pairwise_lt_of_isChain_ne (fun a ha b hb => ?_) hle (isChain_destutter _ _)
  exact hkey a (mem_sortDedup.mp ha) b (mem_sortDedup.mp hb)

theorem eq_of_mem_iff (hl : l.Pairwise fun a b => key a < key b)
    (hm : m.Pairwise fun a b => key a < key b) (h : ∀ a, a ∈ l ↔ a ∈ m) : l = m := by
  have : Std.Irrefl fun a b : α => key a < key b := ⟨fun a => lt_irrefl (key a)⟩
  have : Std.Antisymm fun a b : α => key a < key b :=
    ⟨fun _ _ hab hba => absurd hab hba.asymm⟩
  exact List.Pairwise.eq_of_mem_iff hl hm fun {a} => h a

/-- The result depends on the members alone. -/
theorem sortDedup_eq_of_mem_iff [DecidableEq α]
    (hkey : KeyInjective key l) (h : ∀ a, a ∈ l ↔ a ∈ m) : sortDedup key l = sortDedup key m := by
  have hkey' : KeyInjective key m := fun a ha b hb =>
    hkey a ((h a).mpr ha) b ((h b).mpr hb)
  refine eq_of_mem_iff (pairwise_sortDedup hkey) (pairwise_sortDedup hkey') ?_
  intro a
  simp only [mem_sortDedup, h]

theorem keyInjective_of_pairwise
    (h : l.Pairwise fun a b => key a < key b) : KeyInjective key l := fun _ ha _ hb =>
  List.Pairwise.forall_of_forall_of_flip (R := fun a b => key a = key b → a = b)
    (fun _ _ _ => rfl) (h.imp fun hlt he => absurd he hlt.ne)
    (h.imp fun hlt he => absurd he hlt.ne') ha hb

theorem sortDedup_eq_self [DecidableEq α] (h : l.Pairwise fun a b => key a < key b) :
    sortDedup key l = l :=
  eq_of_mem_iff (pairwise_sortDedup (keyInjective_of_pairwise h)) h fun _ => mem_sortDedup

end SortDedup
