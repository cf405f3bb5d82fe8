import Mathlib.Data.Finset.Insert
import Mathlib.Data.Finset.Lattice.Basic
import Mathlib.Data.Finset.Disjoint
import Mathlib.Data.Finset.Lattice.Lemmas

/-!
# First occurrences

A pass that skips what has a key met before and records the keys it takes keeps
`unmet`. What is kept depends on the keys of the list only (`unmet_congr`), a run
over several lists is one run (`unmet_append`), and lists without a common key
can be passed on their own (`unmet_flatMap`).
-/

namespace Unmet

open List

variable {α β κ : Type*} [DecidableEq κ] (key : α → κ)

/-- The elements whose key is not met before. -/
def unmet : List α → Finset κ → List α
  | [], _ => []
  | a :: as, seen => if key a ∈ seen then unmet as seen else a :: unmet as (insert (key a) seen)

def keysOf (as : List α) : Finset κ := (as.map key).toFinset

variable {key}

@[simp]
theorem mem_keysOf {as : List α} {k : κ} : k ∈ keysOf key as ↔ ∃ a ∈ as, key a = k := by
  rw [keysOf, mem_toFinset, mem_map]

theorem keysOf_cons (a : α) (as : List α) : keysOf key (a :: as) = insert (key a) (keysOf key as) :=
  toFinset_cons

theorem unmet_subset : ∀ (as : List α) (seen : Finset κ), unmet key as seen ⊆ as
  | [], _ => List.Subset.refl _
  | a :: as, seen => by
      rw [unmet]
      split
      · exact subset_cons_of_subset a (unmet_subset as seen)
      · exact cons_subset_cons a (unmet_subset as _)

theorem mem_keysOf_unmet {as : List α} {seen : Finset κ} {k : κ} :
    k ∈ keysOf key (unmet key as seen) ↔ k ∈ keysOf key as ∧ k ∉ seen := by
  induction as generalizing seen with
  | nil => simp [unmet, keysOf]
  | cons a as ih =>
      rw [unmet, keysOf_cons, Finset.mem_insert]
      split
      case isTrue h =>
        rw [ih]
        refine and_congr_left fun hk => ⟨Or.inr, fun hkey => hkey.resolve_left ?_⟩
        rintro rfl
        exact hk h
      case isFalse h =>
        rw [keysOf_cons, Finset.mem_insert, ih, Finset.mem_insert, not_or]
        constructor
        · rintro (rfl | ⟨hk, -, hseen⟩)
          · exact ⟨Or.inl rfl, h⟩
          · exact ⟨Or.inr hk, hseen⟩
        · rintro ⟨hk, hseen⟩
          by_cases heq : k = key a
          · exact Or.inl heq
          · exact Or.inr ⟨hk.resolve_left heq, heq, hseen⟩

theorem unmet_congr {as : List α} {s t : Finset κ} (h : ∀ a ∈ as, (key a ∈ s ↔ key a ∈ t)) :
    unmet key as s = unmet key as t := by
  induction as generalizing s t with
  | nil => rfl
  | cons a as ih =>
      have hrest : ∀ b ∈ as, (key b ∈ s ↔ key b ∈ t) := fun b hb => h b (mem_cons_of_mem a hb)
      have hinsert : ∀ b ∈ as, (key b ∈ insert (key a) s ↔ key b ∈ insert (key a) t) := fun b hb => by
        rw [Finset.mem_insert, Finset.mem_insert, hrest b hb]
      simp only [unmet, h a mem_cons_self, ih hrest, ih hinsert]

theorem unmet_append (as bs : List α) (seen : Finset κ) :
    unmet key (as ++ bs) seen = unmet key as seen ++ unmet key bs (seen ∪ keysOf key as) := by
  induction as generalizing seen with
  | nil => simp [unmet, keysOf]
  | cons a as ih =>
      rw [cons_append, unmet, unmet, keysOf_cons]
      split
      case isTrue h =>
        rw [ih, Finset.union_insert, Finset.insert_eq_of_mem (Finset.mem_union_left _ h)]
      case isFalse h => rw [ih, cons_append, Finset.insert_union_comm]

theorem unmet_eq_filter {as : List α} (h : (as.map key).Nodup) (seen : Finset κ) :
    unmet key as seen = as.filter fun a => key a ∉ seen := by
  induction as generalizing seen with
  | nil => rfl
  | cons a as ih =>
      rw [map_cons, nodup_cons] at h
      have hcongr : unmet key as (insert (key a) seen) = unmet key as seen :=
        unmet_congr fun b hb => by
          have hne : key b ≠ key a := fun hba => h.1 (hba ▸ mem_map_of_mem hb)
          simp [hne]
      rw [unmet, filter_cons, hcongr, ih h.2]
      split <;> simp_all

/-- Lists that share no key are passed each on its own. -/
theorem unmet_flatMap (f : β → List α) {bs : List β} (hnodup : bs.Nodup)
    (h : ∀ b ∈ bs, ∀ c ∈ bs, b ≠ c → Disjoint (keysOf key (f b)) (keysOf key (f c))) :
    unmet key (bs.flatMap f) ∅ = bs.flatMap fun b => unmet key (f b) ∅ := by
  induction bs with
  | nil => rfl
  | cons b bs ih =>
      rw [nodup_cons] at hnodup
      have hsub : ∀ c ∈ bs, ∀ d ∈ bs, c ≠ d → Disjoint (keysOf key (f c)) (keysOf key (f d)) :=
        fun c hc d hd => h c (mem_cons_of_mem b hc) d (mem_cons_of_mem b hd)
      rw [flatMap_cons, flatMap_cons, unmet_append, ← ih hnodup.2 hsub]
      congr 1
      refine unmet_congr ?_
      intro a ha
      obtain ⟨c, hc, hac⟩ := mem_flatMap.mp ha
      have hne : b ≠ c := fun hbc => hnodup.1 (hbc ▸ hc)
      have hdisj := h b mem_cons_self c (mem_cons_of_mem b hc) hne
      have hc : key a ∈ keysOf key (f c) := mem_keysOf.mpr ⟨a, hac, rfl⟩
      rw [Finset.empty_union]
      exact iff_of_false (fun h => Finset.disjoint_left.mp hdisj h hc) (Finset.notMem_empty _)

end Unmet
