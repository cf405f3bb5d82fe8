import CodeGraph.Communities
import CodeGraph.Lib.Modularity

/-!
# Community detection

The two phases of the modularity optimisation, repeated: single nodes move to
the neighbouring community with the best gain until a pass moves none, then
every community becomes one node. Weights are exact rationals.
-/

namespace CodeGraph

namespace Community

open Tally

variable {n : Nat}

/-! ## The local phase -/

/-- The labels of the nodes of one level, the degree total kept for each label,
and whether the current pass has moved a node. -/
structure Phase (n : Nat) where
  comm : Fin n → Fin n
  sigmaTot : Fin n → ℚ
  improved : Bool

/-- Every node alone. -/
def Phase.init (neighbors : Neighbors n) : Phase n where
  comm := id
  sigmaTot := degree neighbors
  improved := false

/-- The weights from `i` to each neighbouring community, self-loops left out; a
hash map of the source, read in the order of its keys. -/
def kiIn (neighbors : Neighbors n) (comm : Fin n → Fin n) (i : Fin n) : List (Fin n × ℚ) :=
  collect (((neighbors i).filter (·.1 ≠ i)).map fun e => (comm e.1, e.2))

/-- Keeps a candidate whose gain is larger than the best one so far. -/
def better (gain : Fin n × ℚ → ℚ) (best : Fin n × ℚ) (candidate : Fin n × ℚ) : Fin n × ℚ :=
  if gain candidate > best.2 then (candidate.1, gain candidate) else best

/-- One node: it is taken out of its community and put into the one with the
best gain, its own when none is better. -/
def visit (neighbors : Neighbors n) (m γ : ℚ) (s : Phase n) (i : Fin n) : Phase n :=
  let oldC := s.comm i
  let ki := degree neighbors i
  let kiIn := kiIn neighbors s.comm i
  let sigmaTot := Function.update s.sigmaTot oldC (s.sigmaTot oldC - ki)
  let gain := fun (c, kiInC) => kiInC - γ * sigmaTot c * ki / (2 * m)
  let best := kiIn.foldl (better gain) (oldC, gain (oldC, get kiIn oldC))
  { comm := Function.update s.comm i best.1
    sigmaTot := Function.update sigmaTot best.1 (sigmaTot best.1 + ki)
    improved := s.improved || decide (best.1 ≠ oldC) }

/-- All nodes in turn. -/
def pass (neighbors : Neighbors n) (m γ : ℚ) (s : Phase n) : Phase n :=
  (List.finRange n).foldl (visit neighbors m γ) { s with improved := false }

/-- Passes until one moves no node, `maxPasses` at most. -/
def passes (neighbors : Neighbors n) (m γ : ℚ) : (maxPasses : Nat) → Phase n → Phase n
  | 0, s => s
  | maxPasses + 1, s =>
      let s := pass neighbors m γ s
      if s.improved then passes neighbors m γ maxPasses s else s

def oneLevel (neighbors : Neighbors n) (m γ : ℚ) : Fin n → Nat :=
  renumberCommunities fun i => (passes neighbors m γ 100 (Phase.init neighbors)).comm i

/-! ## The condensed graph -/

/-- The graph of the communities: the weights between two communities, and on a
self-loop the weights inside one, counted from both ends. -/
def aggregateGraph (neighbors : Neighbors n) {k : Nat} (comm : Fin n → Fin k) : Neighbors k :=
  fun c => collect ((List.finRange n).flatMap fun i =>
    if comm i = c then (neighbors i).map fun e => (comm e.1, e.2) else [])

/-! ## The outer loop -/

def levelLabel (neighbors : Neighbors n) (m γ : ℚ) (i : Fin n) :
    Fin (numComms (oneLevel neighbors m γ)) :=
  ⟨oneLevel neighbors m γ i, lt_numComms _ i⟩

theorem numComms_oneLevel_le (neighbors : Neighbors n) (m γ : ℚ) :
    numComms (oneLevel neighbors m γ) ≤ n :=
  (contiguous_renumberCommunities _).numComms_le

/-- From one level on; `nodeToComm` holds the node of this level that each
original node belongs to. A level that merges nothing is the last. -/
def louvainFrom {N : Nat} (m γ : ℚ) {n : Nat} (neighbors : Neighbors n)
    (nodeToComm : Fin N → Fin n) : Fin N → Nat :=
  if _h : numComms (oneLevel neighbors m γ) = n then fun v => oneLevel neighbors m γ (nodeToComm v)
  else louvainFrom m γ (aggregateGraph neighbors (levelLabel neighbors m γ))
    fun v => levelLabel neighbors m γ (nodeToComm v)
termination_by n
decreasing_by
  have := numComms_oneLevel_le neighbors m γ
  omega

/-- The sum over the stored entries inside the communities. -/
def computeModularity (neighbors : Neighbors n) (comm : Fin n → Nat) (k : Fin n → ℚ) (m : ℚ) : ℚ :=
  if m = 0 then 0
  else
    ((List.finRange n).foldl (fun q i => (neighbors i).foldl (fun q e =>
      if comm i = comm e.1 then q + (e.2 - k i * k e.1 / (2 * m)) else q) q) 0) / (2 * m)

/-- The labels of the nodes and the modularity reported for them. -/
def louvain (adj : Adjacency n) (γ : ℚ) : (Fin n → Nat) × ℚ :=
  if n = 0 ∨ adj.totalWeight = 0 then (fun i => i, 0)
  else
    let nodeToComm := louvainFrom adj.totalWeight γ adj.neighbors id
    (nodeToComm, computeModularity adj.neighbors nodeToComm (degree adj.neighbors) adj.totalWeight)

end Community

end CodeGraph
