import Mathlib.Data.List.Basic
import Mathlib.Tactic.Common

/-!
# Three-valued truth

Kleene's strong three-valued logic over lists, as an evaluator meets it: a
value is known, or it depends on something the evaluator was not told.

Two readings of a value are kept apart. `Models t P` says that `t`, where it
answers at all, answers as the classical proposition `P` does; `Refines t u`
says that `u` answers at least where `t` does. An evaluator is *sound* when
its answer models the classical meaning, and *monotone* when telling it more
refines its answer; both follow connective by connective from the lemmas
below.
-/

namespace Kleene

open List

/-- Three-valued truth. -/
inductive Truth where
  | true
  | false
  | unknown
  deriving DecidableEq

namespace Truth

def ofBool : Bool → Truth
  | .true => .true
  | .false => .false

def neg : Truth → Truth
  | .true => .false
  | .false => .true
  | .unknown => .unknown

/-- Conjunction: one `false` decides it, otherwise one `unknown` blurs it. -/
def conj (ts : List Truth) : Truth :=
  if .false ∈ ts then .false else if .unknown ∈ ts then .unknown else .true

/-- Disjunction, the dual of `conj`. -/
def disj (ts : List Truth) : Truth :=
  if .true ∈ ts then .true else if .unknown ∈ ts then .unknown else .false

/-! ## When a connective answers -/

variable {t : Truth}

theorem eq_true_of_known (hf : t ≠ .false) (hu : t ≠ .unknown) : t = .true := by
  cases t <;> simp_all

theorem eq_false_of_known (ht : t ≠ .true) (hu : t ≠ .unknown) : t = .false := by
  cases t <;> simp_all

@[simp] theorem neg_eq_true : t.neg = .true ↔ t = .false := by
  cases t <;> simp [neg]

@[simp] theorem neg_eq_false : t.neg = .false ↔ t = .true := by
  cases t <;> simp [neg]

@[simp] theorem neg_neg (t : Truth) : t.neg.neg = t := by
  cases t <;> rfl

variable {ts : List Truth}

theorem conj_eq_false : conj ts = .false ↔ .false ∈ ts := by
  unfold conj
  split
  · simpa
  · split <;> simpa

theorem conj_eq_true : conj ts = .true ↔ ∀ t ∈ ts, t = .true := by
  unfold conj
  refine ⟨fun h t ht => ?_, fun h => ?_⟩
  · split at h
    · cases h
    · next hf =>
      split at h
      · cases h
      · next hu =>
        exact eq_true_of_known (fun he => hf (he ▸ ht)) (fun he => hu (he ▸ ht))
  · have hf : Truth.false ∉ ts := fun hm => by cases h _ hm
    have hu : Truth.unknown ∉ ts := fun hm => by cases h _ hm
    rw [if_neg hf, if_neg hu]

theorem disj_eq_true : disj ts = .true ↔ .true ∈ ts := by
  unfold disj
  split
  · simpa
  · split <;> simpa

theorem disj_eq_false : disj ts = .false ↔ ∀ t ∈ ts, t = .false := by
  unfold disj
  refine ⟨fun h t ht => ?_, fun h => ?_⟩
  · split at h
    · cases h
    · next hf =>
      split at h
      · cases h
      · next hu =>
        exact eq_false_of_known (fun he => hf (he ▸ ht)) (fun he => hu (he ▸ ht))
  · have ht : Truth.true ∉ ts := fun hm => by cases h _ hm
    have hu : Truth.unknown ∉ ts := fun hm => by cases h _ hm
    rw [if_neg ht, if_neg hu]

variable {u : Truth}

/-- Two values that are `true` together and `false` together are equal. -/
theorem ext_known (ht : t = .true ↔ u = .true) (hf : t = .false ↔ u = .false) : t = u := by
  cases t <;> cases u <;> simp_all

variable {us : List Truth}

/-- A connective reads its operands as a set: order and repetition are lost. -/
theorem conj_congr (h : ∀ t, t ∈ ts ↔ t ∈ us) : conj ts = conj us := by
  simp only [conj, h]

theorem disj_congr (h : ∀ t, t ∈ ts ↔ t ∈ us) : disj ts = disj us := by
  simp only [disj, h]

@[simp] theorem conj_singleton (t : Truth) : conj [t] = t := by
  cases t <;> rfl

@[simp] theorem disj_singleton (t : Truth) : disj [t] = t := by
  cases t <;> rfl

/-- Conjunctions nest: a conjunction of conjunctions is the conjunction of all
the operands. -/
theorem conj_map_conj (tss : List (List Truth)) : conj (tss.map conj) = conj tss.flatten := by
  refine ext_known ?_ ?_
  · simp only [conj_eq_true, mem_map, mem_flatten]
    refine ⟨fun h t ⟨ts, hts, ht⟩ => conj_eq_true.mp (h _ ⟨ts, hts, rfl⟩) t ht, ?_⟩
    rintro h _ ⟨ts, hts, rfl⟩
    exact conj_eq_true.mpr fun t ht => h t ⟨ts, hts, ht⟩
  · simp only [conj_eq_false, mem_map, mem_flatten]

theorem disj_map_disj (tss : List (List Truth)) : disj (tss.map disj) = disj tss.flatten := by
  refine ext_known ?_ ?_
  · simp only [disj_eq_true, mem_map, mem_flatten]
  · simp only [disj_eq_false, mem_map, mem_flatten]
    refine ⟨fun h t ⟨ts, hts, ht⟩ => disj_eq_false.mp (h _ ⟨ts, hts, rfl⟩) t ht, ?_⟩
    rintro h _ ⟨ts, hts, rfl⟩
    exact disj_eq_false.mpr fun t ht => h t ⟨ts, hts, ht⟩

/-- Conjunction or disjunction, by a flag. -/
def connect (isAll : Bool) (ts : List Truth) : Truth := if isAll then conj ts else disj ts

theorem connect_congr {isAll : Bool} (h : ∀ t, t ∈ ts ↔ t ∈ us) :
    connect isAll ts = connect isAll us := by
  cases isAll with
  | true => exact conj_congr h
  | false => exact disj_congr h

@[simp] theorem connect_singleton (isAll : Bool) (t : Truth) : connect isAll [t] = t := by
  cases isAll <;> simp [connect]

theorem connect_map_connect (isAll : Bool) (tss : List (List Truth)) :
    connect isAll (tss.map (connect isAll)) = connect isAll tss.flatten := by
  cases isAll with
  | true => exact conj_map_conj tss
  | false => exact disj_map_disj tss

/-! ## The short-circuiting loop

Both connectives as the usual loop computes them: leave on the absorbing
value, remember an `unknown`, pass over everything else. -/

def fold (absorbing : Truth) : Truth → List Truth → Truth
  | result, [] => result
  | result, t :: ts =>
      if t = absorbing then absorbing
      else if t = .unknown then fold absorbing .unknown ts
      else fold absorbing result ts

/-- The loop leaves with `absorbing` when it meets it; otherwise its result is
`unknown` as soon as one operand was, and what it started from if none was. -/
theorem fold_eq (absorbing : Truth) :
    ∀ (ts : List Truth) (result : Truth), fold absorbing result ts =
      if absorbing ∈ ts then absorbing else if .unknown ∈ ts then .unknown else result
  | [], _ => by simp [fold]
  | t :: ts, result => by
      unfold fold
      by_cases ha : t = absorbing
      · simp [ha]
      · have ha' : absorbing ≠ t := fun h => ha h.symm
        by_cases hu : t = .unknown
        · rw [if_neg ha, if_pos hu, fold_eq absorbing ts]
          simp [hu, show absorbing ≠ .unknown from hu ▸ ha']
        · have hu' : Truth.unknown ≠ t := fun h => hu h.symm
          rw [if_neg ha, if_neg hu, fold_eq absorbing ts]
          simp [ha', hu']

theorem fold_conj (ts : List Truth) : fold .false .true ts = conj ts := fold_eq _ _ _

theorem fold_disj (ts : List Truth) : fold .true .false ts = disj ts := fold_eq _ _ _

/-! ## Soundness: modelling a proposition -/

/-- `t` answers as `P` does, where it answers. -/
def Models (t : Truth) (P : Prop) : Prop := (t = .true → P) ∧ (t = .false → ¬ P)

theorem Models.unknown (P : Prop) : Models .unknown P := ⟨nofun, nofun⟩

theorem models_ofBool {b : Bool} {P : Prop} (h : b = .true ↔ P) : Models (ofBool b) P := by
  cases b with
  | true => exact ⟨fun _ => h.mp rfl, nofun⟩
  | false => exact ⟨nofun, fun _ hp => by cases h.mpr hp⟩

theorem Models.neg {P : Prop} (h : Models t P) : Models t.neg (¬ P) :=
  ⟨fun ht => h.2 (neg_eq_true.mp ht), fun ht hn => hn (h.1 (neg_eq_false.mp ht))⟩

theorem Models.conj {α : Type*} {f : α → Truth} {P : α → Prop} {l : List α}
    (h : ∀ a ∈ l, Models (f a) (P a)) : Models (conj (l.map f)) (∀ a ∈ l, P a) := by
  refine ⟨fun ht a ha => (h a ha).1 ?_, fun hf hall => ?_⟩
  · exact conj_eq_true.mp ht _ (mem_map_of_mem ha)
  · obtain ⟨a, ha, hfa⟩ := mem_map.mp (conj_eq_false.mp hf)
    exact (h a ha).2 hfa (hall a ha)

theorem Models.disj {α : Type*} {f : α → Truth} {P : α → Prop} {l : List α}
    (h : ∀ a ∈ l, Models (f a) (P a)) : Models (disj (l.map f)) (∃ a ∈ l, P a) := by
  refine ⟨fun ht => ?_, fun hf hex => ?_⟩
  · obtain ⟨a, ha, hfa⟩ := mem_map.mp (disj_eq_true.mp ht)
    exact ⟨a, ha, (h a ha).1 hfa⟩
  · obtain ⟨a, ha, hpa⟩ := hex
    exact (h a ha).2 (disj_eq_false.mp hf _ (mem_map_of_mem ha)) hpa

/-! ## Monotonicity: answering at least as often -/

/-- `u` answers wherever `t` does, and the same. -/
def Refines (t u : Truth) : Prop := t = .unknown ∨ u = t

theorem Refines.refl (t : Truth) : Refines t t := Or.inr rfl

theorem Refines.eq_of_known (h : Refines t u) (hk : t ≠ .unknown) : u = t :=
  h.resolve_left hk

theorem Refines.neg (h : Refines t u) : Refines t.neg u.neg := by
  rcases h with rfl | rfl
  · exact Or.inl rfl
  · exact Refines.refl _

theorem Refines.conj {α : Type*} {f g : α → Truth} {l : List α}
    (h : ∀ a ∈ l, Refines (f a) (g a)) : Refines (conj (l.map f)) (conj (l.map g)) := by
  by_cases hk : Truth.conj (l.map f) = .unknown
  · exact Or.inl hk
  · refine Or.inr ?_
    cases hv : Truth.conj (l.map f) with
    | unknown => exact absurd hv hk
    | false =>
        obtain ⟨a, ha, hfa⟩ := mem_map.mp (conj_eq_false.mp hv)
        have hga : g a = .false := hfa ▸ (h a ha).eq_of_known (by simp [hfa])
        exact conj_eq_false.mpr (mem_map.mpr ⟨a, ha, hga⟩)
    | true =>
        refine conj_eq_true.mpr ?_
        intro t ht
        obtain ⟨a, ha, rfl⟩ := mem_map.mp ht
        have hfa : f a = .true := conj_eq_true.mp hv _ (mem_map_of_mem ha)
        exact hfa ▸ (h a ha).eq_of_known (by simp [hfa])

theorem Refines.disj {α : Type*} {f g : α → Truth} {l : List α}
    (h : ∀ a ∈ l, Refines (f a) (g a)) : Refines (disj (l.map f)) (disj (l.map g)) := by
  by_cases hk : Truth.disj (l.map f) = .unknown
  · exact Or.inl hk
  · refine Or.inr ?_
    cases hv : Truth.disj (l.map f) with
    | unknown => exact absurd hv hk
    | true =>
        obtain ⟨a, ha, hfa⟩ := mem_map.mp (disj_eq_true.mp hv)
        have hga : g a = .true := hfa ▸ (h a ha).eq_of_known (by simp [hfa])
        exact disj_eq_true.mpr (mem_map.mpr ⟨a, ha, hga⟩)
    | false =>
        refine disj_eq_false.mpr ?_
        intro t ht
        obtain ⟨a, ha, rfl⟩ := mem_map.mp ht
        have hfa : f a = .false := disj_eq_false.mp hv _ (mem_map_of_mem ha)
        exact hfa ▸ (h a ha).eq_of_known (by simp [hfa])

end Truth

end Kleene
