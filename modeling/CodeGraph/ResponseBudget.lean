import CodeGraph.Lib.Cursor
import Mathlib.Algebra.GroupWithZero.Nat
import Mathlib.Data.Nat.Find
import Mathlib.Algebra.Order.BigOperators.Group.List
import Mathlib.Algebra.Order.Group.Nat

/-!
# Pages under a byte budget

`bound_values_paged`: a page takes values from an offset on while their
serialized sizes fit a budget, and always one. `bound_values` does so from the
first value on. The size of a value is a parameter, so every result holds for
every serialization and every budget. Where each value fits by itself, both take
the longest run that fits (`fitting`).
-/

namespace CodeGraph

open List

namespace ResponseBudget

/-- The cap on the serialized bytes of a tool result. -/
def maxResponseChars : ℕ := 100000

/-- The share of one section: `PER_SECTION_FRACTION`, 0.40, of the cap. -/
def perSectionChars : ℕ := maxResponseChars * 40 / 100

structure Bounded (α : Type*) where
  items : List α
  totalCount : ℕ
  truncated : Bool

structure BoundedPage (α : Type*) where
  items : List α
  totalCount : ℕ
  truncated : Bool
  nextOffset : Option ℕ

section Paged

variable {α : Type*} (size : α → ℕ) (charBudget : ℕ)

/-- The loop of `bound_values_paged`: the page so far, its size, and the values
that are left. -/
def fillPage : List α → List α → ℕ → List α
  | [], items, _ => items
  | v :: rest, items, used =>
      if !items.isEmpty && decide (charBudget < used + size v) then items
      else fillPage rest (items ++ [v]) (used + size v)

def boundValuesPaged (values : List α) (offset : ℕ) : BoundedPage α :=
  let totalCount := values.length
  let start := min offset totalCount
  let items := fillPage size charBudget (values.drop start) [] 0
  let nextIndex := start + items.length
  let moreRemain := decide (nextIndex < totalCount)
  { items, totalCount, truncated := moreRemain
    nextOffset := if moreRemain then some nextIndex else none }

/-- The loop of `bound_values`; the flag says that it returned early. -/
def fillValues : List α → List α → ℕ → List α × Bool
  | [], items, _ => (items, false)
  | v :: rest, items, used =>
      if !items.isEmpty && decide (charBudget < used + size v) then (items, true)
      else fillValues rest (items ++ [v]) (used + size v)

def boundValues (values : List α) : Bounded α :=
  let totalCount := values.length
  let (items, truncated) := fillValues size charBudget values [] 0
  { items, totalCount, truncated }

/-- The page grows by a run of what is left: by one value at least when there
is one and the page was empty. -/
theorem fillPage_eq : ∀ (rest items : List α) (used : ℕ), ∃ n ≤ rest.length,
    fillPage size charBudget rest items used = items ++ rest.take n ∧
      (items = [] → rest ≠ [] → 0 < n)
  | [], items, used => ⟨0, Nat.le_refl _, by simp [fillPage], fun _ h => absurd rfl h⟩
  | v :: rest, items, used => by
      rw [fillPage]
      split_ifs with hfull
      · refine ⟨0, Nat.zero_le _, by simp, fun hitems _ => ?_⟩
        simp [hitems] at hfull
      · obtain ⟨n, hn, heq, -⟩ := fillPage_eq rest (items ++ [v]) (used + size v)
        refine ⟨n + 1, Nat.succ_le_succ hn, ?_, fun _ _ => Nat.succ_pos n⟩
        rw [heq, take_succ_cons, append_assoc, singleton_append]

theorem drop_min_length (values : List α) (offset : ℕ) :
    values.drop (min offset values.length) = values.drop offset := by
  rcases Nat.le_total offset values.length with h | h
  · rw [Nat.min_eq_left h]
  · rw [Nat.min_eq_right h, drop_length, drop_of_length_le h]

theorem boundValuesPaged_items (values : List α) (offset : ℕ) :
    let page := boundValuesPaged size charBudget values offset
    page.items = (values.drop offset).take page.items.length ∧
      (offset < values.length → 0 < page.items.length) := by
  intro page
  obtain ⟨n, hn, heq, hpos⟩ := fillPage_eq size charBudget
    (values.drop (min offset values.length)) [] 0
  have hdrop : values.drop (min offset values.length) = values.drop offset :=
    drop_min_length values offset
  have hitems : page.items = (values.drop offset).take n := by
    show fillPage size charBudget (values.drop (min offset values.length)) [] 0 = _
    rw [heq, nil_append, hdrop]
  have hlen : page.items.length = n := by
    rw [hitems, length_take, Nat.min_eq_left (hdrop ▸ hn)]
  refine ⟨by rw [hlen, hitems], fun hlt => ?_⟩
  rw [hlen]
  exact hpos rfl (by rw [hdrop, Ne, drop_eq_nil_iff]; omega)

theorem boundValuesPaged_length_le (values : List α) (offset : ℕ) :
    (boundValuesPaged size charBudget values offset).items.length ≤
      values.length - offset := by
  rw [(boundValuesPaged_items size charBudget values offset).1, length_take, length_drop]
  exact Nat.min_le_right _ _

theorem boundValuesPaged_truncated (values : List α) (offset : ℕ) :
    let page := boundValuesPaged size charBudget values offset
    page.truncated = decide (offset + page.items.length < values.length) := by
  intro page
  have hle : page.items.length ≤ values.length - offset :=
    boundValuesPaged_length_le size charBudget values offset
  show decide (min offset values.length + page.items.length < values.length) = _
  refine decide_eq_decide.mpr ?_
  omega

theorem boundValuesPaged_nextOffset (values : List α) (offset : ℕ) :
    let page := boundValuesPaged size charBudget values offset
    page.nextOffset =
      if offset + page.items.length < values.length then some (offset + page.items.length)
      else none := by
  intro page
  have hle : page.items.length ≤ values.length - offset :=
    boundValuesPaged_length_le size charBudget values offset
  show (if decide (min offset values.length + page.items.length < values.length) = true then
      some (min offset values.length + page.items.length) else none) = _
  by_cases h : offset ≤ values.length
  · rw [Nat.min_eq_left h]
    simp only [decide_eq_true_eq]
  · rw [if_neg (by simp only [decide_eq_true_eq]; omega), if_neg (by omega)]

/-! ## The longest run that fits -/

/-- How many values the longest first run of them has whose sizes sum to at most
the budget. -/
def fitting (values : List α) : ℕ :=
  Nat.findGreatest (fun n => ((values.take n).map size).sum ≤ charBudget) values.length

variable {size charBudget}

theorem fitting_le (values : List α) : fitting size charBudget values ≤ values.length :=
  Nat.findGreatest_le _

theorem fitting_of_sum_le {values : List α} (h : (values.map size).sum ≤ charBudget) :
    fitting size charBudget values = values.length := by
  refine Nat.findGreatest_eq ?_
  rw [take_length]
  exact h

theorem sum_take_succ_le (values : List α) {m n : ℕ} (h : m < n) :
    ((values.take (m + 1)).map size).sum ≤ ((values.take n).map size).sum := by
  have hsub : (values.take (m + 1)).Sublist (values.take n) :=
    (take_prefix_take_left (Nat.succ_le_of_lt h)).sublist
  exact (hsub.map size).sum_le_sum fun _ _ => Nat.zero_le _

/-- The loop stops at the first value that would pass the budget, if what is on
the page already fits. -/
theorem fillPage_stops : ∀ (rest items : List α) (used : ℕ),
    used ≤ charBudget → (items = [] → used = 0) → (∀ v ∈ rest, size v ≤ charBudget) →
    ∃ n ≤ rest.length, fillPage size charBudget rest items used = items ++ rest.take n ∧
      used + ((rest.take n).map size).sum ≤ charBudget ∧
      (n < rest.length → charBudget < used + ((rest.take (n + 1)).map size).sum)
  | [], items, used, hused, _, _ =>
      ⟨0, Nat.le_refl _, by simp [fillPage], by simpa using hused, fun h => absurd h (by simp)⟩
  | v :: rest, items, used, hused, hfirst, hfits => by
      rw [fillPage]
      split_ifs with hfull
      · simp only [Bool.and_eq_true, decide_eq_true_eq] at hfull
        refine ⟨0, Nat.zero_le _, by simp, by simpa using hused, fun _ => ?_⟩
        simpa using hfull.2
      · have hnext : used + size v ≤ charBudget := by
          by_cases hitems : items = []
          · rw [hfirst hitems, Nat.zero_add]
            exact hfits v (mem_cons_self ..)
          · have hempty : items.isEmpty = false := isEmpty_eq_false_iff.mpr hitems
            rw [hempty] at hfull
            simpa using hfull
        obtain ⟨n, hn, heq, hle, hstop⟩ := fillPage_stops rest (items ++ [v]) (used + size v)
          hnext (fun h => absurd h (by simp)) fun w hw => hfits w (mem_cons_of_mem _ hw)
        refine ⟨n + 1, Nat.succ_le_succ hn, ?_, ?_, fun h => ?_⟩
        · rw [heq, take_succ_cons, append_assoc, singleton_append]
        · rw [take_succ_cons, map_cons, sum_cons, ← Nat.add_assoc]
          exact hle
        · rw [take_succ_cons, map_cons, sum_cons, ← Nat.add_assoc]
          exact hstop (Nat.lt_of_succ_lt_succ h)

/-- Where each value fits by itself, the page is the longest run that fits. -/
theorem fillPage_fitting {values : List α} (hfits : ∀ v ∈ values, size v ≤ charBudget) :
    fillPage size charBudget values [] 0 = values.take (fitting size charBudget values) := by
  obtain ⟨n, hn, heq, hle, hstop⟩ :=
    fillPage_stops values [] 0 (Nat.zero_le _) (fun _ => rfl) hfits
  have hgreatest : fitting size charBudget values = n := by
    refine Nat.findGreatest_eq_iff.mpr ⟨hn, fun _ => by simpa using hle, ?_⟩
    intro m hnm hm hsum
    have hmono : ((values.take (n + 1)).map size).sum ≤ ((values.take m).map size).sum :=
      sum_take_succ_le values hnm
    have := hstop (Nat.lt_of_lt_of_le hnm hm)
    omega
  rw [heq, hgreatest, nil_append]

theorem boundValuesPaged_fitting {values : List α} (hfits : ∀ v ∈ values, size v ≤ charBudget)
    (offset : ℕ) :
    let n := fitting size charBudget (values.drop offset)
    boundValuesPaged size charBudget values offset =
      { items := (values.drop offset).take n
        totalCount := values.length
        truncated := decide (offset + n < values.length)
        nextOffset := if offset + n < values.length then some (offset + n) else none } := by
  intro n
  let page := boundValuesPaged size charBudget values offset
  have hitems : page.items = (values.drop offset).take n := by
    show fillPage size charBudget (values.drop (min offset values.length)) [] 0 = _
    rw [drop_min_length]
    exact fillPage_fitting fun v hv => hfits v (mem_of_mem_drop hv)
  have hlen : page.items.length = n := by
    rw [hitems, length_take, Nat.min_eq_left (fitting_le _)]
  have htruncated : page.truncated = decide (offset + page.items.length < values.length) :=
    boundValuesPaged_truncated size charBudget values offset
  have hnext : page.nextOffset = if offset + page.items.length < values.length then
      some (offset + page.items.length) else none :=
    boundValuesPaged_nextOffset size charBudget values offset
  show BoundedPage.mk page.items values.length page.truncated page.nextOffset = _
  rw [htruncated, hnext, hlen, hitems]

/-- The two loops take the same values; `bound_values` returns early when it has
left one. -/
theorem fillValues_eq : ∀ (rest items : List α) (used : ℕ),
    (fillValues size charBudget rest items used).1 = fillPage size charBudget rest items used ∧
    (fillValues size charBudget rest items used).2 =
      decide ((fillPage size charBudget rest items used).length < items.length + rest.length)
  | [], items, _ => by simp [fillValues, fillPage]
  | v :: rest, items, used => by
      rw [fillValues, fillPage]
      split_ifs with hfull
      · simp
      · obtain ⟨hitems, hflag⟩ := fillValues_eq rest (items ++ [v]) (used + size v)
        refine ⟨hitems, hflag.trans ?_⟩
        rw [length_append, length_singleton, length_cons, Nat.add_right_comm,
          Nat.add_assoc]

theorem boundValues_fitting {values : List α} (hfits : ∀ v ∈ values, size v ≤ charBudget) :
    let n := fitting size charBudget values
    boundValues size charBudget values =
      { items := values.take n
        totalCount := values.length
        truncated := decide (n < values.length) } := by
  intro n
  obtain ⟨hitems, hflag⟩ := @fillValues_eq α size charBudget values [] 0
  have hlen : (values.take n).length = n := by
    rw [length_take, Nat.min_eq_left (fitting_le values)]
  rw [fillPage_fitting hfits] at hitems hflag
  rw [hlen, length_nil, Nat.zero_add] at hflag
  show Bounded.mk (fillValues size charBudget values [] 0).1 values.length
    (fillValues size charBudget values [] 0).2 = _
  rw [hitems, hflag]

end Paged

section Invariant

variable {α : Type*} {size : α → ℕ} {charBudget : ℕ}

end Invariant

end ResponseBudget

end CodeGraph
