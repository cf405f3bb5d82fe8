import Mathlib.Data.List.NodupEquivFin
import Mathlib.Data.Fintype.Card
import Mathlib.Algebra.Field.Rat
import Mathlib.Tactic.Ring
import CodeGraph.Lib.Tally

/-!
# Communities

The weighted adjacency the clustering runs over, and the labels it gives the
nodes. A node is an index below the number of nodes; an undirected edge is
stored in the lists of both its ends.
-/

namespace CodeGraph

open List

namespace Community

open Tally

/-! ## The adjacency -/

/-- The neighbours of each node, with the weight of the edge to them; a
neighbour can be listed more than once. -/
abbrev Neighbors (n : Nat) := Fin n → List (Fin n × ℚ)

/-- The neighbours and the weight of all edges, each counted once. -/
structure Adjacency (n : Nat) where
  neighbors : Neighbors n
  totalWeight : ℚ

variable {n : Nat}

/-- The weight stored from `i` to `j`, over all entries. -/
def weight (neighbors : Neighbors n) (i j : Fin n) : ℚ := sumAt (neighbors i) j

/-- The weight at a node, over all its entries. -/
def degree (neighbors : Neighbors n) (i : Fin n) : ℚ := ((neighbors i).map Prod.snd).sum

/-- The weights are those of an undirected graph. -/
def Symmetric (neighbors : Neighbors n) : Prop := ∀ i j, weight neighbors i j = weight neighbors j i

/-- Both ends of an edge list each other. -/
def Linked (neighbors : Neighbors n) : Prop :=
  ∀ i j, j ∈ (neighbors i).map Prod.fst → i ∈ (neighbors j).map Prod.fst

namespace Adjacency

def empty (n : Nat) : Adjacency n := ⟨fun _ => [], 0⟩

/-- One edge row: it is stored at both ends, twice at one node for a loop. -/
def pushEdge (adj : Adjacency n) (row : Fin n × Fin n × ℚ) : Adjacency n :=
  let (a, b, w) := row
  let neighbors := Function.update adj.neighbors a (adj.neighbors a ++ [(b, w)])
  { neighbors := Function.update neighbors b (neighbors b ++ [(a, w)])
    totalWeight := adj.totalWeight + w }

/-- The adjacency of the edge rows, in the order they are read. -/
def collectWeightedEdges (rows : List (Fin n × Fin n × ℚ)) : Adjacency n :=
  rows.foldl pushEdge (empty n)

theorem weight_pushEdge (adj : Adjacency n) (a b : Fin n) (w : ℚ) (i j : Fin n) :
    weight (adj.pushEdge (a, b, w)).neighbors i j = weight adj.neighbors i j +
      ((if i = a ∧ j = b then w else 0) + if i = b ∧ j = a then w else 0) := by
  have hlast : ∀ (neighbors : Neighbors n) (c d : Fin n),
      weight (Function.update neighbors c (neighbors c ++ [(d, w)])) i j =
        weight neighbors i j + if i = c ∧ j = d then w else 0 := by
    intro neighbors c d
    unfold weight
    by_cases hi : i = c
    · subst hi
      simp [eq_comm]
    · simp [hi]
  rw [pushEdge, hlast, hlast, add_assoc]

theorem mem_pushEdge (adj : Adjacency n) (a b : Fin n) (w : ℚ) (i j : Fin n) :
    j ∈ ((adj.pushEdge (a, b, w)).neighbors i).map Prod.fst ↔
      j ∈ (adj.neighbors i).map Prod.fst ∨ (i = a ∧ j = b) ∨ (i = b ∧ j = a) := by
  have hlast : ∀ (neighbors : Neighbors n) (c d : Fin n),
      j ∈ (Function.update neighbors c (neighbors c ++ [(d, w)]) i).map Prod.fst ↔
        j ∈ (neighbors i).map Prod.fst ∨ (i = c ∧ j = d) := by
    intro neighbors c d
    by_cases hi : i = c
    · subst hi
      simp
    · simp [hi]
  rw [pushEdge, hlast, hlast, or_assoc]

theorem symmetric_pushEdge {adj : Adjacency n} (h : Symmetric adj.neighbors)
    (row : Fin n × Fin n × ℚ) : Symmetric (adj.pushEdge row).neighbors := fun i j => by
  obtain ⟨a, b, w⟩ := row
  rw [weight_pushEdge, weight_pushEdge, h i j, add_comm (ite (i = a ∧ j = b) w 0)]
  simp only [and_comm]

theorem linked_pushEdge {adj : Adjacency n} (h : Linked adj.neighbors)
    (row : Fin n × Fin n × ℚ) : Linked (adj.pushEdge row).neighbors := fun i j hj => by
  rw [mem_pushEdge] at hj ⊢
  rcases hj with hj | ⟨hi, hj⟩ | ⟨hi, hj⟩
  · exact Or.inl (h i j hj)
  · exact Or.inr (Or.inr ⟨hj, hi⟩)
  · exact Or.inr (Or.inl ⟨hj, hi⟩)

theorem collectWeightedEdges_undirected (rows : List (Fin n × Fin n × ℚ)) :
    Symmetric (collectWeightedEdges rows).neighbors ∧
      Linked (collectWeightedEdges rows).neighbors := by
  have hrun : ∀ adj : Adjacency n, Symmetric adj.neighbors ∧ Linked adj.neighbors →
      Symmetric (rows.foldl pushEdge adj).neighbors ∧
        Linked (rows.foldl pushEdge adj).neighbors := by
    induction rows with
    | nil => exact fun _ h => h
    | cons row rows ih =>
        intro adj h
        exact ih _ ⟨symmetric_pushEdge h.1 row, linked_pushEdge h.2 row⟩
  exact hrun (empty n) ⟨fun _ _ => rfl, nofun⟩

end Adjacency

/-! ## Labels -/

/-- Renumbers the labels in the order of their first appearance; `map` holds the
labels met so far, each at its new number. -/
def renumberFrom : (map : List Nat) → List Nat → List Nat
  | _, [] => []
  | map, c :: comm =>
      if c ∈ map then map.idxOf c :: renumberFrom map comm
      else map.length :: renumberFrom (map ++ [c]) comm

/-- The labels met, once all have been read. -/
def metFrom : (map : List Nat) → List Nat → List Nat
  | map, [] => map
  | map, c :: comm => if c ∈ map then metFrom map comm else metFrom (map ++ [c]) comm

theorem prefix_metFrom (comm map : List Nat) : map <+: metFrom map comm := by
  induction comm generalizing map with
  | nil => exact prefix_rfl
  | cons c comm ih =>
      rw [metFrom]
      split
      · exact ih map
      · exact (prefix_append map [c]).trans (ih _)

theorem mem_metFrom (comm map : List Nat) (c : Nat) :
    c ∈ metFrom map comm ↔ c ∈ map ∨ c ∈ comm := by
  induction comm generalizing map with
  | nil => simp [metFrom]
  | cons d comm ih =>
      rw [metFrom]
      split
      · next hd =>
        have hmet : c = d → c ∈ map := fun he => he ▸ hd
        rw [ih, mem_cons, ← or_assoc, or_iff_left_of_imp hmet]
      · rw [ih, mem_append, mem_singleton, mem_cons, or_assoc]

theorem nodup_metFrom {map : List Nat} (h : map.Nodup) (comm : List Nat) :
    (metFrom map comm).Nodup := by
  induction comm generalizing map with
  | nil => exact h
  | cons c comm ih =>
      rw [metFrom]
      split
      · exact ih h
      · next hc => exact ih (concat_eq_append ▸ h.concat hc)

theorem idxOf_metFrom {comm map : List Nat} {c : Nat} (h : c ∈ map) :
    (metFrom map comm).idxOf c = map.idxOf c := by
  obtain ⟨rest, hrest⟩ := prefix_metFrom comm map
  rw [← hrest, idxOf_append_of_mem h]

theorem renumberFrom_eq (comm map : List Nat) :
    renumberFrom map comm = comm.map (metFrom map comm).idxOf := by
  induction comm generalizing map with
  | nil => rfl
  | cons c comm ih =>
      rw [renumberFrom, metFrom, map_cons]
      split
      · next hc => rw [ih, idxOf_metFrom hc]
      · next hc =>
        have hnew : (map ++ [c]).idxOf c = map.length := by
          rw [idxOf_append_of_notMem hc, idxOf_cons_self, Nat.add_zero]
        rw [ih, idxOf_metFrom (by simp), hnew]

theorem renumberFrom_length (comm map : List Nat) :
    (renumberFrom map comm).length = comm.length := by
  rw [renumberFrom_eq, length_map]

def renumberCommunities (comm : Fin n → Nat) : Fin n → Nat := fun i =>
  (renumberFrom [] (List.ofFn comm)).get
    (i.cast ((renumberFrom_length _ _).trans (length_ofFn)).symm)

/-- One more than the largest label, zero without nodes. -/
def numComms (comm : Fin n → Nat) : Nat := ((List.ofFn comm).max?).elim 0 (· + 1)

theorem renumberCommunities_eq (comm : Fin n → Nat) (i : Fin n) :
    renumberCommunities comm i = (metFrom [] (List.ofFn comm)).idxOf (comm i) := by
  simp [renumberCommunities, renumberFrom_eq]

theorem mem_met (comm : Fin n → Nat) (i : Fin n) : comm i ∈ metFrom [] (List.ofFn comm) := by
  rw [mem_metFrom, mem_ofFn]
  exact Or.inr ⟨i, rfl⟩

theorem renumberCommunities_eq_iff (comm : Fin n → Nat) (i j : Fin n) :
    renumberCommunities comm i = renumberCommunities comm j ↔ comm i = comm j := by
  rw [renumberCommunities_eq, renumberCommunities_eq]
  exact idxOf_inj (mem_met comm i)

/-- The labels are exactly the numbers below some bound. -/
def Contiguous (comm : Fin n → Nat) : Prop := ∃ k, ∀ c, c < k ↔ ∃ i, comm i = c

theorem contiguous_renumberCommunities (comm : Fin n → Nat) :
    Contiguous (renumberCommunities comm) := by
  refine ⟨(metFrom [] (List.ofFn comm)).length, fun c => ⟨fun hc => ?_, ?_⟩⟩
  · have hmem : (metFrom [] (List.ofFn comm))[c] ∈ metFrom [] (List.ofFn comm) :=
      getElem_mem hc
    rw [mem_metFrom, mem_ofFn] at hmem
    obtain ⟨i, hi⟩ := hmem.resolve_left not_mem_nil
    refine ⟨i, ?_⟩
    rw [renumberCommunities_eq, hi]
    exact List.Nodup.idxOf_getElem (nodup_metFrom nodup_nil _) c hc
  · rintro ⟨i, rfl⟩
    rw [renumberCommunities_eq]
    exact idxOf_lt_length_of_mem (mem_met comm i)

theorem lt_numComms (comm : Fin n → Nat) (i : Fin n) : comm i < numComms comm := by
  have hmem : comm i ∈ List.ofFn comm := mem_ofFn.mpr ⟨i, rfl⟩
  obtain ⟨c, hc⟩ := Option.isSome_iff_exists.mp (isSome_max?_of_mem hmem)
  rw [numComms, hc]
  exact Nat.lt_succ_of_le ((max?_eq_some_iff.mp hc).2 _ hmem)

theorem Contiguous.lt_numComms_iff {comm : Fin n → Nat} (h : Contiguous comm) (c : Nat) :
    c < numComms comm ↔ ∃ i, comm i = c := by
  obtain ⟨k, hk⟩ := h
  have hnum : numComms comm = k := by
    unfold numComms
    cases hmax : (List.ofFn comm).max? with
    | none =>
        rw [max?_eq_none_iff] at hmax
        refine (Nat.eq_zero_of_not_pos fun hpos => ?_).symm
        obtain ⟨i, -⟩ := (hk 0).mp hpos
        have hmem : comm i ∈ List.ofFn comm := mem_ofFn.mpr ⟨i, rfl⟩
        rw [hmax] at hmem
        cases hmem
    | some c =>
        obtain ⟨hmem, hle⟩ := max?_eq_some_iff.mp hmax
        obtain ⟨i, hi⟩ := mem_ofFn.mp hmem
        refine le_antisymm ((hk c).mpr ⟨i, hi⟩) (Nat.le_of_not_lt fun hlt => ?_)
        obtain ⟨j, hj⟩ := (hk (c + 1)).mp hlt
        have := hle _ (mem_ofFn.mpr ⟨j, hj⟩)
        omega
  rw [hnum, hk]

theorem Contiguous.numComms_le {comm : Fin n → Nat} (h : Contiguous comm) : numComms comm ≤ n := by
  let label : Fin n → Fin (numComms comm) := fun i => ⟨comm i, lt_numComms comm i⟩
  have hsurj : Function.Surjective label := fun c => by
    obtain ⟨i, hi⟩ := (h.lt_numComms_iff c).mp c.isLt
    exact ⟨i, Fin.ext hi⟩
  simpa using Fintype.card_le_of_surjective _ hsurj

end Community

end CodeGraph
