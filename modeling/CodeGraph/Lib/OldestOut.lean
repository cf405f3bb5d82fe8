import Mathlib.Data.List.MinMax
import Mathlib.Data.List.Nodup

/-!
# Bounded collections

Entries under keys, numbered as they come. While there are more than a bound, the one with the
least number goes out. What is left fits the bound (`length_evict_le`), and the newest entry is
never the one to go (`mem_evict`).
-/

namespace OldestOut

variable {κ α : Type*} [DecidableEq κ] (key : α → κ) (seq : α → ℕ)

/-- The entries without the key of the oldest one. -/
def dropOldest (entries : List α) : List α :=
  match entries.argmin seq with
  | some victim => entries.filter fun e => key e ≠ key victim
  | none => entries

/-- Drops the oldest while there are more than `cap`, at most `fuel` times. -/
def evict (cap : ℕ) : ℕ → List α → List α
  | 0, entries => entries
  | fuel + 1, entries =>
      if cap < entries.length then evict cap fuel (dropOldest key seq entries) else entries

theorem dropOldest_sublist (entries : List α) :
    (dropOldest key seq entries).Sublist entries := by
  rw [dropOldest]
  split
  · exact List.filter_sublist
  · exact List.Sublist.refl _

variable {key seq}

theorem length_dropOldest_lt {entries : List α} (h : entries ≠ []) :
    (dropOldest key seq entries).length < entries.length := by
  rw [dropOldest]
  cases hv : entries.argmin seq with
  | none => exact absurd (List.argmin_eq_none.mp hv) h
  | some victim =>
      refine List.length_filter_lt_length_iff_exists.mpr ⟨victim, List.argmin_mem hv, ?_⟩
      rw [decide_eq_true_eq, not_not]

theorem evict_sublist (cap fuel : ℕ) (entries : List α) :
    (evict key seq cap fuel entries).Sublist entries := by
  induction fuel generalizing entries with
  | zero => exact List.Sublist.refl _
  | succ fuel ih =>
      rw [evict]
      split
      · exact (ih _).trans (dropOldest_sublist key seq entries)
      · exact List.Sublist.refl _

theorem length_evict_le {cap fuel : ℕ} {entries : List α} (h : entries.length ≤ fuel) :
    (evict key seq cap fuel entries).length ≤ cap := by
  induction fuel generalizing entries with
  | zero => exact (Nat.le_zero.mp h).le.trans (Nat.zero_le cap)
  | succ fuel ih =>
      rw [evict]
      split
      · rename_i hover
        have hne : entries ≠ [] := List.ne_nil_of_length_pos ((Nat.zero_le cap).trans_lt hover)
        exact ih (Nat.le_of_lt_succ ((length_dropOldest_lt hne).trans_le h))
      · rename_i hfits
        exact not_lt.mp hfits

/-- The entry has a greater number than every other one. -/
def Newest (seq : α → ℕ) (e : α) (entries : List α) : Prop :=
  e ∈ entries ∧ ∀ x ∈ entries, x ≠ e → seq x < seq e

theorem Newest.of_sublist {e : α} {entries entries' : List α} (h : Newest seq e entries)
    (hsub : entries'.Sublist entries) (hmem : e ∈ entries') : Newest seq e entries' :=
  ⟨hmem, fun x hx => h.2 x (hsub.subset hx)⟩

theorem Newest.mem_dropOldest {e : α} {entries : List α} (h : Newest seq e entries)
    (hkeys : (entries.map key).Nodup) (hlen : 1 < entries.length) :
    e ∈ dropOldest key seq entries := by
  rw [dropOldest]
  cases hv : entries.argmin seq with
  | none => exact h.1
  | some victim =>
      obtain ⟨x, hx, hne⟩ : ∃ x ∈ entries, x ≠ e := by
        by_contra hall
        push Not at hall
        have hrep := List.eq_replicate_of_mem hall
        have hnodup := List.Nodup.of_map _ hkeys
        rw [hrep, List.nodup_replicate] at hnodup
        omega
      have hlt : seq victim < seq e :=
        (List.le_of_mem_argmin hx hv).trans_lt (h.2 x hx hne)
      refine List.mem_filter.mpr ⟨h.1, decide_eq_true fun heq => ?_⟩
      have := List.inj_on_of_nodup_map hkeys h.1 (List.argmin_mem hv) heq
      exact absurd hlt (by rw [this]; exact lt_irrefl _)

theorem Newest.mem_evict {e : α} {cap : ℕ} (fuel : ℕ) (hcap : 0 < cap) {entries : List α}
    (h : Newest seq e entries) (hkeys : (entries.map key).Nodup) :
    e ∈ evict key seq cap fuel entries := by
  induction fuel generalizing entries with
  | zero => exact h.1
  | succ fuel ih =>
      rw [evict]
      split
      · rename_i hover
        have hmem := h.mem_dropOldest hkeys (Nat.lt_of_le_of_lt hcap hover)
        have hsub := dropOldest_sublist key seq entries
        exact ih (h.of_sublist hsub hmem) (hkeys.sublist (hsub.map key))
      · exact h.1

end OldestOut
