import CodeGraph.LouvainGain

/-!
# The reported modularity

`computeModularity` runs over the stored entries, Newman's modularity over all
ordered pairs of a community. A pair counts as often as it is stored: not at all
when its nodes are not adjacent, twice for two parallel edges.
-/

namespace CodeGraph

namespace Community

open Tally

variable {n : Nat}

/-- Newman's modularity: over all ordered pairs of nodes in one community. -/
def newmanModularity (neighbors : Neighbors n) (comm : Fin n → Nat) (m : ℚ) : ℚ :=
  (∑ i, ∑ j, if comm i = comm j then
    weight neighbors i j - degree neighbors i * degree neighbors j / (2 * m) else 0) / (2 * m)

/-- How often `j` is stored in the list of `i`. -/
def entryCount (neighbors : Neighbors n) (i j : Fin n) : Nat := ((neighbors i).map Prod.fst).count j

/-- What the nodes of a community expect of each other, over the ordered pairs,
each as often as it is stored beyond once. -/
def miscounted (neighbors : Neighbors n) (comm : Fin n → Nat) : ℚ :=
  ∑ i, ∑ j, if comm i = comm j then
    ((entryCount neighbors i j : ℚ) - 1) * (degree neighbors i * degree neighbors j) else 0

/-- One list of entries. -/
theorem foldl_entries (same : Fin n → Prop) [DecidablePred same] (expected : Fin n → ℚ)
    (entries : List (Fin n × ℚ)) (q : ℚ) :
    entries.foldl (fun q e => if same e.1 then q + (e.2 - expected e.1) else q) q =
      q + ∑ j, if same j then
        sumAt entries j - ((entries.map Prod.fst).count j : ℚ) * expected j else 0 := by
  induction entries generalizing q with
  | nil => simp
  | cons e entries ih =>
      have hone : (∑ j, if same j then (if e.1 = j then e.2 - expected j else 0) else 0) =
          if same e.1 then e.2 - expected e.1 else 0 := by
        rw [Finset.sum_eq_single e.1 (fun j _ hj => by rw [if_neg (Ne.symm hj), ite_self])
          (fun hnot => absurd (Finset.mem_univ _) hnot), if_pos rfl]
      have hsplit : (if same e.1 then q + (e.2 - expected e.1) else q) =
          q + if same e.1 then e.2 - expected e.1 else 0 := by
        split
        · rfl
        · rw [add_zero]
      rw [List.foldl_cons, ih, hsplit, ← hone, add_assoc, ← Finset.sum_add_distrib]
      refine congrArg (q + ·) (Finset.sum_congr rfl fun j _ => ?_)
      rw [sumAt_cons, List.map_cons, List.count_cons]
      by_cases hj : e.1 = j
      · simp only [hj, if_true, beq_self_eq_true, Nat.cast_add, Nat.cast_one]
        split <;> ring
      · simp only [hj, if_false, beq_iff_eq, Nat.add_zero, ite_self, zero_add]

theorem computeModularity_eq {m : ℚ} (hm : m ≠ 0) (neighbors : Neighbors n) (comm : Fin n → Nat) :
    computeModularity neighbors comm (degree neighbors) m =
      (∑ i, ∑ j, if comm i = comm j then weight neighbors i j -
        (entryCount neighbors i j : ℚ) * (degree neighbors i * degree neighbors j / (2 * m))
        else 0) / (2 * m) := by
  have hrows : ∀ (nodes : List (Fin n)) (q : ℚ),
      nodes.foldl (fun q i => (neighbors i).foldl (fun q e => if comm i = comm e.1 then
        q + (e.2 - degree neighbors i * degree neighbors e.1 / (2 * m)) else q) q) q =
      q + (nodes.map fun i => ∑ j, if comm i = comm j then weight neighbors i j -
        (entryCount neighbors i j : ℚ) * (degree neighbors i * degree neighbors j / (2 * m))
        else 0).sum := by
    intro nodes
    induction nodes with
    | nil => exact fun q => (add_zero q).symm
    | cons i nodes ih =>
        intro q
        rw [List.foldl_cons, ih, List.map_cons, List.sum_cons, ← add_assoc]
        exact congrArg (· + _) (foldl_entries (fun j => comm i = comm j)
          (fun j => degree neighbors i * degree neighbors j / (2 * m)) (neighbors i) q)
  rw [computeModularity, if_neg hm, hrows, zero_add, ← Fin.sum_univ_def]

/-- The reported modularity is Newman's exactly when the pairs stored too often
and those not stored weigh up. -/
theorem computeModularity_eq_newman_iff (neighbors : Neighbors n) (comm : Fin n → Nat) (m : ℚ) :
    computeModularity neighbors comm (degree neighbors) m = newmanModularity neighbors comm m ↔
      m = 0 ∨ miscounted neighbors comm = 0 := by
  by_cases hm : m = 0
  · refine iff_of_true ?_ (Or.inl hm)
    rw [computeModularity, newmanModularity, if_pos hm, hm, mul_zero, div_zero]
  have htwo : 2 * m ≠ 0 := mul_ne_zero two_ne_zero hm
  have hgap : newmanModularity neighbors comm m -
      computeModularity neighbors comm (degree neighbors) m =
      miscounted neighbors comm / (2 * m) / (2 * m) := by
    rw [computeModularity_eq hm, newmanModularity, ← sub_div, miscounted]
    simp only [← Finset.sum_sub_distrib, Finset.sum_div]
    refine Finset.sum_congr rfl ?_
    intro i _
    refine Finset.sum_congr rfl ?_
    intro j _
    split
    · ring
    · ring
  rw [or_iff_right hm]
  constructor
  · intro heq
    rw [heq, sub_self] at hgap
    have := (div_eq_zero_iff.mp hgap.symm).resolve_right htwo
    exact (div_eq_zero_iff.mp this).resolve_right htwo
  · intro hzero
    rw [hzero, zero_div, zero_div] at hgap
    exact (sub_eq_zero.mp hgap).symm

/-- Two nodes joined by one edge, in one community: the modularity is zero, and
one half is reported. -/
theorem one_edge_reported_as_one_half :
    let adj := Adjacency.collectWeightedEdges [((0 : Fin 2), (1 : Fin 2), (1 : ℚ))]
    computeModularity adj.neighbors (fun _ => 0) (degree adj.neighbors) adj.totalWeight = 1 / 2 ∧
      newmanModularity adj.neighbors (fun _ => 0) adj.totalWeight = 0 := by
  decide +kernel

end Community

end CodeGraph
