import Mathlib.Data.Finset.Insert
import Mathlib.Data.Finset.Erase

/-!
# Spans that begin and end

Marks of a sequence open and close spans, told apart by a name. A name is outstanding after a
sequence if and only if it was opened in it and not closed since (`mem_outstanding`).
-/

namespace Spans

open List

inductive Mark where
  | opens
  | keeps
  | closes
  deriving DecidableEq

variable {ι τ : Type*} [DecidableEq τ] (markOf : ι → Option (τ × Mark))

/-- The names that are outstanding after a mark. -/
def update (outstanding : Finset τ) : Option (τ × Mark) → Finset τ
  | some (t, .opens) => insert t outstanding
  | some (t, .closes) => outstanding.erase t
  | some (_, .keeps) | none => outstanding

def outstanding (xs : List ι) : Finset τ := xs.foldl (fun open_ x => update open_ (markOf x)) ∅

/-- The name is opened, and not closed after that. -/
def Unended (xs : List ι) (t : τ) : Prop :=
  ∃ before x after, xs = before ++ x :: after ∧ markOf x = some (t, .opens) ∧
    ∀ y ∈ after, markOf y ≠ some (t, .closes)

variable {markOf}

theorem outstanding_concat (xs : List ι) (x : ι) :
    outstanding markOf (xs ++ [x]) = update (outstanding markOf xs) (markOf x) := by
  rw [outstanding, foldl_append]
  rfl

theorem mem_update {s : Finset τ} {mark : Option (τ × Mark)} {t : τ} :
    t ∈ update s mark ↔ mark = some (t, .opens) ∨ (t ∈ s ∧ mark ≠ some (t, .closes)) := by
  match mark with
  | none => simp [update]
  | some (u, .keeps) => simp [update]
  | some (u, .opens) => simp [update, eq_comm]
  | some (u, .closes) =>
      simp only [update, Finset.mem_erase, ne_eq, Option.some.injEq, Prod.mk.injEq]
      constructor
      · rintro ⟨hne, hmem⟩
        exact .inr ⟨hmem, fun h => hne h.1.symm⟩
      · rintro (⟨-, h⟩ | ⟨hmem, hne⟩)
        · nomatch h
        · exact ⟨fun h => hne ⟨h.symm, trivial⟩, hmem⟩

omit [DecidableEq τ] in
theorem unended_concat {xs : List ι} {x : ι} {t : τ} : Unended markOf (xs ++ [x]) t ↔
    markOf x = some (t, .opens) ∨ (Unended markOf xs t ∧ markOf x ≠ some (t, .closes)) := by
  constructor
  · rintro ⟨before, y, after, hsplit, hopens, hlater⟩
    rcases eq_nil_or_concat after with rfl | ⟨after, z, rfl⟩
    · obtain ⟨-, hxy⟩ := append_inj' hsplit rfl
      obtain rfl := singleton_inj.mp hxy
      exact .inl hopens
    · rw [concat_eq_append] at hsplit hlater
      rw [← cons_append, ← append_assoc] at hsplit
      obtain ⟨hxs, hxz⟩ := append_inj' hsplit rfl
      obtain rfl := singleton_inj.mp hxz
      refine .inr ⟨⟨before, y, after, hxs, hopens, fun w hw => ?_⟩, ?_⟩
      · exact hlater w (mem_append_left _ hw)
      · exact hlater x (mem_append_right _ (mem_singleton_self x))
  · rintro (hopens | ⟨⟨before, y, after, rfl, hopens, hlater⟩, hx⟩)
    · exact ⟨xs, x, [], rfl, hopens, fun _ h => nomatch h⟩
    · refine ⟨before, y, after ++ [x], by simp, hopens, fun w hw => ?_⟩
      rcases mem_append.mp hw with hw | hw
      · exact hlater w hw
      · rw [mem_singleton.mp hw]
        exact hx

theorem mem_outstanding {xs : List ι} {t : τ} :
    t ∈ outstanding markOf xs ↔ Unended markOf xs t := by
  induction xs using List.reverseRecOn with
  | nil =>
      refine iff_of_false (Finset.notMem_empty t) ?_
      rintro ⟨before, x, after, h, -⟩
      exact append_ne_nil_of_right_ne_nil before (cons_ne_nil x after) h.symm
  | append_singleton xs x ih => rw [outstanding_concat, mem_update, unended_concat, ih]

theorem outstanding_eq_empty {xs : List ι} :
    outstanding markOf xs = ∅ ↔ ∀ t, ¬ Unended markOf xs t := by
  rw [Finset.eq_empty_iff_forall_notMem]
  exact forall_congr' fun t => not_congr mem_outstanding

end Spans
