import CodeGraph.Lib.SortDedup
import CodeGraph.Lib.Tally
import CodeGraph.Text
import Mathlib.Algebra.BigOperators.Group.Multiset.Basic
import Mathlib.Algebra.Order.Field.Rat
import Mathlib.Data.Finset.Sort
import Mathlib.Data.Multiset.Bind
import Mathlib.Data.Prod.Lex

/-!
# Reciprocal rank fusion

`fuse` adds up what every list gives to a key, sorts the keys by their scores and cuts the
result. The scores lie in a map whose iteration order is not fixed. Ties are broken by the
key, so the result is a function of the lists as a multiset (`fuse_topFused`).
-/

namespace CodeGraph

namespace RankFusion

/-- The RRF constant k. -/
def constant : ℚ := 60

structure RankedEntry where
  key : Text
  rank : ℕ
  deriving DecidableEq

@[ext]
structure RrfResult where
  key : Text
  score : ℚ
  deriving DecidableEq

structure Iteration where
  order : List (Text × ℚ) → List (Text × ℚ)
  perm : ∀ scores, (order scores).Perm scores

def contribution (entry : RankedEntry) : ℚ := 1 / (constant + entry.rank)

/-- Descending score, then ascending key. -/
def rankKey (r : RrfResult) : ℚᵒᵈ ×ₗ Text := toLex (OrderDual.toDual r.score, r.key)

def scoresOf (rankings : List (List RankedEntry)) : List (Text × ℚ) :=
  Tally.collect (rankings.flatten.map fun entry => (entry.key, contribution entry))

def fuse (iteration : Iteration) (rankings : List (List RankedEntry)) (limit : ℕ) :
    List RrfResult :=
  (SortDedup.sortByKey rankKey
    ((iteration.order (scoresOf rankings)).map fun e => ⟨e.1, e.2⟩)).take limit

/-! ## The ranking of a multiset of lists -/

theorem rankKey_injective : Function.Injective rankKey := by
  rintro ⟨key, score⟩ ⟨key', score'⟩ h
  have h := toLex.injective h
  obtain ⟨rfl, rfl⟩ : score = score' ∧ key = key' := by simpa using h
  rfl

theorem rankKey_lt {a b : RrfResult} :
    rankKey a < rankKey b ↔ b.score < a.score ∨ (a.score = b.score ∧ a.key < b.key) := by
  rw [rankKey, rankKey, Prod.Lex.toLex_lt_toLex]
  rfl

instance : LinearOrder RrfResult := LinearOrder.lift' rankKey rankKey_injective

def entriesOf (rankings : Multiset (List RankedEntry)) : Multiset RankedEntry :=
  rankings.bind fun list => list

def fusedScore (rankings : Multiset (List RankedEntry)) (key : Text) : ℚ :=
  (((entriesOf rankings).filter fun entry => entry.key = key).map contribution).sum

def fusedResults (rankings : Multiset (List RankedEntry)) : Finset RrfResult :=
  ((entriesOf rankings).map RankedEntry.key).toFinset.image fun key =>
    ⟨key, fusedScore rankings key⟩

/-- The first results of all that are fused, in their order. -/
def topFused (rankings : Multiset (List RankedEntry)) (limit : ℕ) : List RrfResult :=
  ((fusedResults rankings).sort (· ≤ ·)).take limit

theorem entriesOf_coe (rankings : List (List RankedEntry)) :
    entriesOf rankings = (rankings.flatten : Multiset RankedEntry) := by
  rw [entriesOf, Multiset.coe_bind, List.flatMap_id']

theorem sum_filter_eq_sumAt {κ ι : Type*} [LinearOrder κ] (key : ι → κ) (f : ι → ℚ) (k : κ)
    (l : List ι) : (((l : Multiset ι).filter fun i => key i = k).map f).sum =
      Tally.sumAt (l.map fun i => (key i, f i)) k := by
  induction l with
  | nil => rfl
  | cons i l ih =>
      rw [List.map_cons, Tally.sumAt_cons, ← ih, ← Multiset.cons_coe]
      by_cases heq : key i = k
      · rw [Multiset.filter_cons_of_pos (p := fun i => key i = k) _ heq, Multiset.map_cons,
          Multiset.sum_cons, if_pos heq]
      · rw [Multiset.filter_cons_of_neg (p := fun i => key i = k) _ heq, if_neg heq, zero_add]

theorem eq_fusedScore {rankings : List (List RankedEntry)} {key : Text} {score : ℚ}
    (h : (key, score) ∈ scoresOf rankings) : score = fusedScore rankings key := by
  have hsum := (Tally.sorted_collect _).sumAt_eq h
  rw [Tally.sumAt_collect, ← sum_filter_eq_sumAt] at hsum
  rw [← hsum, fusedScore, entriesOf_coe]
  congr!

theorem mem_keys_scoresOf {rankings : List (List RankedEntry)} {key : Text} :
    key ∈ (scoresOf rankings).map Prod.fst ↔ ∃ entry ∈ rankings.flatten, entry.key = key := by
  rw [scoresOf, Tally.mem_keys_collect, List.map_map, List.mem_map]
  rfl

theorem mem_scoresOf {rankings : List (List RankedEntry)} {r : RrfResult} :
    (r.key, r.score) ∈ scoresOf rankings ↔ r ∈ fusedResults rankings := by
  simp only [fusedResults, entriesOf_coe, Finset.mem_image, Multiset.mem_toFinset,
    Multiset.mem_map, Multiset.mem_coe]
  constructor
  · intro hmem
    refine ⟨r.key, mem_keys_scoresOf.mp (List.mem_map_of_mem hmem), ?_⟩
    rw [← eq_fusedScore hmem]
  · rintro ⟨key, hentry, rfl⟩
    obtain ⟨⟨_, score⟩, hmem, rfl⟩ := List.mem_map.mp (mem_keys_scoresOf.mpr hentry)
    rwa [← eq_fusedScore hmem]

theorem nodup_scoresOf (rankings : List (List RankedEntry)) : (scoresOf rankings).Nodup :=
  List.Nodup.of_map _ ((Tally.sorted_collect _).imp fun hlt => ne_of_lt hlt)

theorem pair_injective : Function.Injective fun e : Text × ℚ => (⟨e.1, e.2⟩ : RrfResult) := by
  rintro ⟨key, score⟩ ⟨key', score'⟩ h
  cases h
  rfl

theorem fuse_eq (iteration : Iteration) (rankings : List (List RankedEntry)) (limit : ℕ) :
    fuse iteration rankings limit = topFused rankings limit := by
  have hnodup := ((iteration.perm _).nodup_iff.mpr (nodup_scoresOf rankings)).map pair_injective
  have hperm : ((iteration.order (scoresOf rankings)).map
      fun e => (⟨e.1, e.2⟩ : RrfResult)).Perm ((fusedResults rankings).sort (· ≤ ·)) := by
    refine (List.perm_ext_iff_of_nodup hnodup (Finset.sort_nodup _ _)).mpr fun r => ?_
    rw [Finset.mem_sort, List.mem_map, ← mem_scoresOf]
    constructor
    · rintro ⟨⟨key, score⟩, hmem, rfl⟩
      exact (iteration.perm _).mem_iff.mp hmem
    · intro hmem
      exact ⟨(r.key, r.score), (iteration.perm _).mem_iff.mpr hmem, rfl⟩
  have hsorted : SortDedup.sortByKey rankKey ((fusedResults rankings).sort (· ≤ ·)) =
      (fusedResults rankings).sort (· ≤ ·) :=
    List.Pairwise.insertionSort_eq (Finset.pairwise_sort _ _)
  rw [fuse, topFused, SortDedup.sortByKey_eq_of_perm
    (fun _ _ _ _ h => rankKey_injective h) hperm, hsorted]

/-- The result is the top of the ranking of the lists as a multiset: the keys of the lists
with their fused scores, the highest score first and equal scores by key. No key is there
twice, and a smaller limit gives a prefix. -/
theorem fuse_topFused (iteration : Iteration) (rankings : List (List RankedEntry)) (limit : ℕ) :
    fuse iteration rankings limit = topFused (rankings : Multiset (List RankedEntry)) limit ∧
      (fuse iteration rankings limit).Pairwise (fun a b =>
        b.score < a.score ∨ (a.score = b.score ∧ a.key < b.key)) ∧
      ((fuse iteration rankings limit).map RrfResult.key).Nodup ∧
      ∀ more, fuse iteration rankings limit <+: fuse iteration rankings (limit + more) := by
  have hsort := fuse_eq iteration rankings
  have hstrict : (topFused rankings limit).Pairwise (· < ·) :=
    ((fusedResults rankings).sortedLT_sort.pairwise).sublist (List.take_sublist _ _)
  refine ⟨hsort limit, ?_, ?_, fun more => ?_⟩
  · rw [hsort]
    exact hstrict.imp fun {a b} hab => rankKey_lt.mp hab
  · rw [hsort]
    refine hstrict.nodup.map_on fun a ha b hb hab => ?_
    have hmem : ∀ r ∈ topFused rankings limit, r.score = fusedScore rankings r.key := by
      intro r hr
      have hr := (Finset.mem_sort _).mp (List.mem_of_mem_take hr)
      obtain ⟨key, _, rfl⟩ := Finset.mem_image.mp hr
      rfl
    exact RrfResult.ext hab (by rw [hmem a ha, hmem b hb, hab])
  · rw [hsort, hsort, topFused, topFused]
    exact List.take_prefix_take_left (Nat.le_add_right limit more)

end RankFusion

end CodeGraph
