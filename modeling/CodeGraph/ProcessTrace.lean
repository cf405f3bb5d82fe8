import CodeGraph.Lib.BreadthFirst
import CodeGraph.Text

/-!
# The call chain of a process

`bfs_from_entry` follows the call edges from an entry point and gives every node it meets its
distance in calls. What it returns depends on which nodes call which, not on the order in
which the targets of a node are listed.
-/

namespace CodeGraph

namespace Process

open BreadthFirst (Walk)

/-- The targets of the calls of every caller. -/
abbrev CallEdges := List (Text × List Text)

def maxBfsDepth : ℕ := 20

def targetsOf (callEdges : CallEdges) (node : Text) : List Text := (callEdges.lookup node).getD []

/-- The fuel is one turn for every target and one for the start. -/
def bfsFromEntry (startId : Text) (callEdges : CallEdges) : Option (List (Text × ℕ)) :=
  BreadthFirst.search (targetsOf callEdges) maxBfsDepth ((callEdges.flatMap Prod.snd).length + 1)
    ([(startId, 0)], [(startId, 0)])

theorem targetsOf_subset (callEdges : CallEdges) (node : Text) :
    targetsOf callEdges node ⊆ callEdges.flatMap Prod.snd := by
  intro target htarget
  rw [targetsOf] at htarget
  cases hlookup : callEdges.lookup node with
  | none =>
      rw [hlookup] at htarget
      cases htarget
  | some targets =>
      rw [hlookup] at htarget
      obtain ⟨pre, post, hedges, -⟩ := List.lookup_eq_some_iff.mp hlookup
      rw [hedges]
      exact List.mem_flatMap.mpr ⟨(node, targets), by simp, htarget⟩

theorem walk_mono {edges edges' : CallEdges} {startId node : Text} {k : ℕ}
    (h : ∀ caller, targetsOf edges caller ⊆ targetsOf edges' caller)
    (hwalk : Walk (targetsOf edges) startId k node) : Walk (targetsOf edges') startId k node := by
  induction hwalk with
  | start => exact .start
  | step _ hcall ih => exact ih.step (h _ hcall)

theorem exists_bfsFromEntry (callEdges : CallEdges) (startId : Text) :
    ∃ depths, bfsFromEntry startId callEdges = some depths ∧
      (depths.map Prod.fst).Nodup ∧ ∀ node d, (node, d) ∈ depths ↔
        IsLeast {k | Walk (targetsOf callEdges) startId k node} d ∧ d ≤ maxBfsDepth :=
  BreadthFirst.search_shortest (targetsOf_subset callEdges) maxBfsDepth startId le_rfl

/-- The search returns the nodes no further than the limit, each once and with its shortest
distance from the entry, and in whatever order the targets of a node are listed it returns
the same map. -/
theorem bfsFromEntry_shortest (callEdges : CallEdges) (startId : Text) :
    ∃ depths, bfsFromEntry startId callEdges = some depths ∧
      (depths.map Prod.fst).Nodup ∧
      (∀ node d, (node, d) ∈ depths ↔
        IsLeast {k | Walk (targetsOf callEdges) startId k node} d ∧ d ≤ maxBfsDepth) ∧
      ∀ callEdges' : CallEdges,
        (∀ caller, (targetsOf callEdges caller).Perm (targetsOf callEdges' caller)) →
        ∃ depths', bfsFromEntry startId callEdges' = some depths' ∧ depths'.Perm depths := by
  obtain ⟨depths, hrun, hnodup, hdepths⟩ := exists_bfsFromEntry callEdges startId
  refine ⟨depths, hrun, hnodup, hdepths, fun callEdges' hperm => ?_⟩
  obtain ⟨depths', hrun', hnodup', hdepths'⟩ := exists_bfsFromEntry callEdges' startId
  have hwalk : ∀ k node, Walk (targetsOf callEdges') startId k node ↔
      Walk (targetsOf callEdges) startId k node := fun k node =>
    ⟨walk_mono fun caller => (hperm caller).symm.subset,
      walk_mono fun caller => (hperm caller).subset⟩
  refine ⟨depths', hrun', ?_⟩
  refine (List.perm_ext_iff_of_nodup hnodup'.of_map hnodup.of_map).mpr fun ⟨node, d⟩ => ?_
  simp only [hdepths, hdepths', hwalk]

/-- Two calls listed the other way round. -/
theorem bfsFromEntry_shortest_swapped :
    ∃ depths, bfsFromEntry ['a'] [(['a'], [['b'], ['c']])] = some depths ∧
      ∃ depths', bfsFromEntry ['a'] [(['a'], [['c'], ['b']])] = some depths' ∧
        depths'.Perm depths := by
  obtain ⟨depths, hrun, -, -, hother⟩ :=
    bfsFromEntry_shortest [(['a'], [['b'], ['c']])] ['a']
  refine ⟨depths, hrun, hother _ fun caller => ?_⟩
  by_cases hcaller : caller = ['a']
  · subst hcaller
    exact .swap _ _ _
  · have hnone : ∀ targets, targetsOf [(['a'], targets)] caller = [] := fun targets => by
      rw [targetsOf, List.lookup_cons, beq_eq_false_iff_ne.mpr hcaller]
      rfl
    rw [hnone, hnone]

end Process

end CodeGraph
