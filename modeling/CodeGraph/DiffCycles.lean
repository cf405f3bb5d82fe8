import Mathlib.Data.Finset.Image
import CodeGraph.Lib.SortDedup
import CodeGraph.Text
import CodeGraph.Tarjan

/-!
# The cycles of a snapshot

`strongly_connected_cycles`: the names of the nodes are numbered in the order
they are first seen, self-loops are set aside, and every component of two or
more nodes is reported as its sorted names, joined by commas. Self-loops are
reported on their own, whatever component their node is in. Components and
self-loops are stated over the names (`Mutually`, `SelfLooping`), so the
result does not depend on the numbering or on the order of the edges.
-/

namespace CodeGraph

open List

namespace SemanticDiff

open Relation LowLink SortDedup Worklist

/-- The qualified names under each label, in the order of the map. -/
abbrev NodeSet := List (Text × List Text)

/-- The qualified names of both ends, with the kind of the edge between them. -/
abbrev EdgeTriple := Text × Text × Text

/-- The edges, in the order the set is iterated. -/
abbrev EdgeSet := List EdgeTriple

/-! ## The adjacency of a snapshot -/

def NodeSet.names (nodes : NodeSet) : List Text := nodes.flatMap Prod.snd

/-- `node_list` gains a name the first time it is seen. -/
def addName (nodeList : List Text) (qn : Text) : List Text :=
  if qn ∈ nodeList then nodeList else nodeList ++ [qn]

def nodeList (nodes : NodeSet) : List Text := nodes.names.foldl addName []

/-- The neighbours of each node without its self-loop, and the nodes that have
one. -/
structure EdgeLists (n : Nat) where
  adj : Adjacency n
  selfLoops : Finset (Fin n)

/-- An edge with an end that is not listed is skipped. -/
def addEdge (names : List Text) (lists : EdgeLists names.length) (edge : EdgeTriple) :
    EdgeLists names.length :=
  match names.finIdxOf? edge.1, names.finIdxOf? edge.2.2 with
  | some fi, some ti =>
      if fi = ti then { lists with selfLoops := insert fi lists.selfLoops }
      else { lists with adj := Function.update lists.adj fi (lists.adj fi ++ [ti]) }
  | _, _ => lists

def buildAdjacency (names : List Text) (edges : EdgeSet) : EdgeLists names.length :=
  edges.foldl (addEdge names) ⟨fun _ => [], ∅⟩

/-! ## The cycles -/

def addCycle (names : List Text) (out : Finset Text) (scc : List (Fin names.length)) :
    Finset Text :=
  if scc.length < 2 then out
  else insert (joinWith [','] (sortByKey id (scc.map names.get))) out

def stronglyConnectedCycles (fuel : Nat) (nodes : NodeSet) (edges : EdgeSet) :
    Option (Finset Text) := do
  let names := nodeList nodes
  let lists := buildAdjacency names edges
  let sccs ← tarjanScc fuel lists.adj
  some (sccs.foldl (addCycle names) ∅ ∪ lists.selfLoops.image names.get)

/-! ## What the cycles are of -/

/-- There is an edge from `a` to `b`. -/
def EdgeBetween (edges : EdgeSet) (a b : Text) : Prop := ∃ kind, (a, kind, b) ∈ edges

/-- An edge of which both ends are nodes. -/
def Joins (nodes : NodeSet) (edges : EdgeSet) (a b : Text) : Prop :=
  a ∈ nodes.names ∧ b ∈ nodes.names ∧ EdgeBetween edges a b

def Mutually (nodes : NodeSet) (edges : EdgeSet) (a b : Text) : Prop :=
  ReflTransGen (Joins nodes edges) a b ∧ ReflTransGen (Joins nodes edges) b a

/-- A class of mutual reachability, in order. -/
structure Component (nodes : NodeSet) (edges : EdgeSet) (names : List Text) : Prop where
  sorted : names.Pairwise (· < ·)
  isNode : ∀ v ∈ names, v ∈ nodes.names
  classOf : ∀ v ∈ names, ∀ w, w ∈ names ↔ Mutually nodes edges v w

def SelfLooping (nodes : NodeSet) (edges : EdgeSet) (v : Text) : Prop :=
  v ∈ nodes.names ∧ EdgeBetween edges v v

/-- A component of at least two nodes, or a node with an edge to itself. -/
def Cycle (nodes : NodeSet) (edges : EdgeSet) (cycle : Text) : Prop :=
  (∃ names, Component nodes edges names ∧ 2 ≤ names.length ∧ cycle = joinWith [','] names) ∨
    SelfLooping nodes edges cycle

/-- As `Cycle`, with the self-loops of single nodes only. -/
def OuterCycle (nodes : NodeSet) (edges : EdgeSet) (cycle : Text) : Prop :=
  (∃ names, Component nodes edges names ∧ 2 ≤ names.length ∧ cycle = joinWith [','] names) ∨
    SelfLooping nodes edges cycle ∧ Component nodes edges [cycle]

/-! ## Names and numbers -/

variable {qn : Text}

theorem mem_foldl_addName : ∀ {names nodeList : List Text},
    qn ∈ names.foldl addName nodeList ↔ qn ∈ nodeList ∨ qn ∈ names
  | [], nodeList => by rw [foldl_nil, or_iff_left not_mem_nil]
  | name :: names, nodeList => by
      have hadd : qn ∈ addName nodeList name ↔ qn ∈ nodeList ∨ qn = name := by
        rw [addName]
        split
        · next hmem => exact (or_iff_left_of_imp fun heq => heq ▸ hmem).symm
        · rw [mem_append, mem_singleton]
      rw [foldl_cons, mem_foldl_addName, hadd, mem_cons, or_assoc]

theorem nodup_foldl_addName : ∀ {names nodeList : List Text}, nodeList.Nodup →
    (names.foldl addName nodeList).Nodup
  | [], _, h => h
  | name :: names, nodeList, h => by
      rw [foldl_cons]
      refine nodup_foldl_addName ?_
      rw [addName]
      split
      · exact h
      · next hnew =>
          exact nodup_append.mpr ⟨h, nodup_singleton _, fun a ha b hb heq =>
            hnew (mem_singleton.mp hb ▸ heq ▸ ha)⟩

theorem mem_nodeList {nodes : NodeSet} : qn ∈ nodeList nodes ↔ qn ∈ nodes.names := by
  rw [nodeList, mem_foldl_addName, or_iff_right not_mem_nil]

theorem nodup_nodeList (nodes : NodeSet) : (nodeList nodes).Nodup :=
  nodup_foldl_addName nodup_nil

section Adjacency

variable {names : List Text}

variable {i : Fin names.length}

theorem finIdxOf?_iff (hnames : names.Nodup) : names.finIdxOf? qn = some i ↔ names.get i = qn := by
  rw [finIdxOf?_eq_some_iff]
  refine ⟨fun h => h.1, fun h => ⟨h, fun j hj heq => hj.ne ?_⟩⟩
  exact nodup_iff_injective_get.mp hnames (heq.trans h.symm)

theorem addEdge_spec (hnames : names.Nodup) (lists : EdgeLists names.length) (edge : EdgeTriple)
    (i j : Fin names.length) :
    (j ∈ (addEdge names lists edge).adj i ↔
      j ∈ lists.adj i ∨ i ≠ j ∧ edge.1 = names.get i ∧ edge.2.2 = names.get j) ∧
    (i ∈ (addEdge names lists edge).selfLoops ↔
      i ∈ lists.selfLoops ∨ edge.1 = names.get i ∧ edge.2.2 = names.get i) := by
  rw [addEdge]
  cases hfrom : names.finIdxOf? edge.1 with
  | none =>
      have hnot : edge.1 ≠ names.get i := fun heq =>
        finIdxOf?_eq_none_iff.mp hfrom (heq ▸ get_mem names i)
      exact ⟨(or_iff_left fun h => hnot h.2.1).symm, (or_iff_left fun h => hnot h.1).symm⟩
  | some fi =>
      have hfi : edge.1 = names.get fi := ((finIdxOf?_iff hnames).mp hfrom).symm
      cases hto : names.finIdxOf? edge.2.2 with
      | none =>
          have hnot : ∀ j : Fin names.length, edge.2.2 ≠ names.get j := fun j heq =>
            finIdxOf?_eq_none_iff.mp hto (heq ▸ get_mem names j)
          exact ⟨(or_iff_left fun h => hnot j h.2.2).symm, (or_iff_left fun h => hnot i h.2).symm⟩
      | some ti =>
          have hti : edge.2.2 = names.get ti := ((finIdxOf?_iff hnames).mp hto).symm
          have hinj : ∀ a b : Fin names.length, names.get a = names.get b ↔ a = b := fun a b =>
            (nodup_iff_injective_get.mp hnames).eq_iff
          simp only [hfi, hti, hinj]
          by_cases hloop : fi = ti
          · subst hloop
            simp only [if_pos, Finset.mem_insert]
            refine ⟨(or_iff_left ?_).symm, ?_⟩
            · rintro ⟨hne, rfl, heq⟩
              exact hne heq
            · rw [and_self, or_comm, eq_comm]
          · simp only [if_neg hloop]
            refine ⟨?_, (or_iff_left ?_).symm⟩
            · by_cases hi : i = fi
              · subst hi
                rw [Function.update_self, mem_append, mem_singleton]
                refine or_congr_right ⟨?_, fun h => h.2.2.symm⟩
                rintro rfl
                exact ⟨hloop, rfl, rfl⟩
              · rw [Function.update_of_ne hi]
                exact (or_iff_left fun h => hi h.2.1.symm).symm
            · rintro ⟨rfl, heq⟩
              exact hloop heq.symm

theorem mem_foldl_addEdge (hnames : names.Nodup) : ∀ (edges : EdgeSet)
    (lists : EdgeLists names.length) (i j : Fin names.length),
    (j ∈ (edges.foldl (addEdge names) lists).adj i ↔
      j ∈ lists.adj i ∨ i ≠ j ∧ EdgeBetween edges (names.get i) (names.get j)) ∧
    (i ∈ (edges.foldl (addEdge names) lists).selfLoops ↔
      i ∈ lists.selfLoops ∨ EdgeBetween edges (names.get i) (names.get i))
  | [], lists, i, j => by simp [EdgeBetween]
  | edge :: edges, lists, i, j => by
      obtain ⟨hadj, hloops⟩ := mem_foldl_addEdge hnames edges (addEdge names lists edge) i j
      obtain ⟨hadj', hloops'⟩ := addEdge_spec hnames lists edge i j
      have hcons : ∀ a b, EdgeBetween (edge :: edges) a b ↔
          edge.1 = a ∧ edge.2.2 = b ∨ EdgeBetween edges a b := fun a b => by
        refine ⟨?_, ?_⟩
        · rintro ⟨kind, hmem⟩
          rcases mem_cons.mp hmem with rfl | hmem
          · exact Or.inl ⟨rfl, rfl⟩
          · exact Or.inr ⟨kind, hmem⟩
        · rintro (⟨rfl, rfl⟩ | ⟨kind, hmem⟩)
          · exact ⟨edge.2.1, mem_cons_self⟩
          · exact ⟨kind, mem_cons_of_mem _ hmem⟩
      rw [foldl_cons, hadj, hadj', hloops, hloops', hcons, hcons]
      refine ⟨?_, or_assoc⟩
      rw [and_or_left, or_assoc]

theorem mem_adj (hnames : names.Nodup) {edges : EdgeSet} {j : Fin names.length} :
    j ∈ (buildAdjacency names edges).adj i ↔
      i ≠ j ∧ EdgeBetween edges (names.get i) (names.get j) := by
  rw [buildAdjacency, (mem_foldl_addEdge hnames edges _ i j).1, or_iff_right not_mem_nil]

theorem mem_selfLoops (hnames : names.Nodup) {edges : EdgeSet} :
    i ∈ (buildAdjacency names edges).selfLoops ↔
      EdgeBetween edges (names.get i) (names.get i) := by
  rw [buildAdjacency, (mem_foldl_addEdge hnames edges _ i i).2,
    or_iff_right (Finset.notMem_empty _)]

end Adjacency

/-! ## Reachability of names and of numbers -/

section Reach

variable {nodes : NodeSet} {edges : EdgeSet}

variable {v : Text}

theorem exists_index (hv : v ∈ nodes.names) : ∃ i, (nodeList nodes).get i = v :=
  mem_iff_get.mp (mem_nodeList.mpr hv)

theorem get_mem_names (i : Fin (nodeList nodes).length) :
    (nodeList nodes).get i ∈ nodes.names :=
  mem_nodeList.mp (get_mem _ i)

/-- The adjacency of the snapshot. -/
abbrev adjOf (nodes : NodeSet) (edges : EdgeSet) : Adjacency (nodeList nodes).length :=
  (buildAdjacency (nodeList nodes) edges).adj

/-- A self-loop leads nowhere, so setting it aside keeps what is reached. -/
theorem reaches_iff {i j : Fin (nodeList nodes).length} :
    Reaches (adjOf nodes edges) i j ↔
      ReflTransGen (Joins nodes edges) ((nodeList nodes).get i) ((nodeList nodes).get j) := by
  refine ⟨fun h => h.lift (nodeList nodes).get fun a b hab => ?_, fun h => ?_⟩
  · exact ⟨get_mem_names a, get_mem_names b, ((mem_adj (nodup_nodeList nodes)).mp hab).2⟩
  · have hrun : ∀ w, ReflTransGen (Joins nodes edges) ((nodeList nodes).get i) w →
        ∃ k, (nodeList nodes).get k = w ∧ Reaches (adjOf nodes edges) i k := by
      intro w hw
      induction hw with
      | refl => exact ⟨i, rfl, .refl⟩
      | @tail b c _ hbc ih =>
          obtain ⟨k, rfl, hik⟩ := ih
          obtain ⟨l, rfl⟩ := exists_index hbc.2.1
          by_cases hkl : k = l
          · exact ⟨k, congrArg _ hkl, hik⟩
          · exact ⟨l, rfl, hik.tail ((mem_adj (nodup_nodeList nodes)).mpr ⟨hkl, hbc.2.2⟩)⟩
    obtain ⟨k, hk, hik⟩ := hrun _ h
    exact nodup_iff_injective_get.mp (nodup_nodeList nodes) hk ▸ hik

theorem mutual_iff {i j : Fin (nodeList nodes).length} :
    Mutual (adjOf nodes edges) i j ↔
      Mutually nodes edges ((nodeList nodes).get i) ((nodeList nodes).get j) :=
  and_congr reaches_iff reaches_iff

theorem Mutually.isNode {w : Text} (h : Mutually nodes edges v w) (hv : v ∈ nodes.names) :
    w ∈ nodes.names := by
  rcases ReflTransGen.cases_tail h.1 with rfl | ⟨b, _, hbw⟩
  · exact hv
  · exact hbw.2.1

/-- The names of a class that was found, in order. -/
def sortedNames (nodes : NodeSet) (scc : List (Fin (nodeList nodes).length)) : List Text :=
  sortByKey id (scc.map (nodeList nodes).get)

variable {scc : List (Fin (nodeList nodes).length)}

theorem mem_sortedNames : v ∈ sortedNames nodes scc ↔ ∃ i ∈ scc, (nodeList nodes).get i = v := by
  rw [sortedNames, sortByKey, mem_insertionSort, mem_map]

theorem length_sortedNames : (sortedNames nodes scc).length = scc.length := by
  rw [sortedNames, sortByKey, length_insertionSort, length_map]

theorem sorted_sortedNames (hscc : scc.Nodup) : (sortedNames nodes scc).Pairwise (· < ·) := by
  have hnodup : (sortedNames nodes scc).Nodup :=
    (perm_insertionSort _ _).nodup_iff.mpr
      (hscc.map (nodup_iff_injective_get.mp (nodup_nodeList nodes)))
  have hle : (sortedNames nodes scc).Pairwise (· ≤ ·) := pairwise_sortByKey id _
  exact (hle.and hnodup).imp fun h => lt_of_le_of_ne h.1 h.2

variable {result : List (List (Fin (nodeList nodes).length))}

theorem component_of_class (h : Partition (adjOf nodes edges) result) (hscc : scc ∈ result) :
    Component nodes edges (sortedNames nodes scc) where
  sorted := sorted_sortedNames ((nodup_flatten.mp h.once).1 scc hscc)
  isNode v hv := by
    obtain ⟨i, -, rfl⟩ := mem_sortedNames.mp hv
    exact get_mem_names i
  classOf v hv w := by
    obtain ⟨i, hi, rfl⟩ := mem_sortedNames.mp hv
    rw [mem_sortedNames]
    refine ⟨?_, fun hmutual => ?_⟩
    · rintro ⟨j, hj, rfl⟩
      exact mutual_iff.mp ((h.classes scc hscc i hi j).mp hj)
    · obtain ⟨j, rfl⟩ := exists_index (hmutual.isNode (get_mem_names i))
      exact ⟨j, (h.classes scc hscc i hi j).mpr (mutual_iff.mpr hmutual), rfl⟩

theorem class_of_component (h : Partition (adjOf nodes edges) result) {names : List Text}
    (hnames : Component nodes edges names) (hv : v ∈ names) :
    ∃ scc ∈ result, names = sortedNames nodes scc := by
  obtain ⟨i, rfl⟩ := exists_index (hnames.isNode v hv)
  obtain ⟨scc, hscc, hi, -⟩ := h.exists_class i
  have hfound := component_of_class h hscc
  refine ⟨scc, hscc, @eq_of_mem_iff _ _ _ id _ _ hnames.sorted hfound.sorted fun w => ?_⟩
  rw [hnames.classOf _ hv, hfound.classOf _ (mem_sortedNames.mpr ⟨i, hi, rfl⟩)]

theorem mem_foldl_addCycle {cycle : Text} :
    ∀ {sccs : List (List (Fin (nodeList nodes).length))} {out : Finset Text},
    cycle ∈ sccs.foldl (addCycle (nodeList nodes)) out ↔
      cycle ∈ out ∨ ∃ scc ∈ sccs, 2 ≤ scc.length ∧ cycle = joinWith [','] (sortedNames nodes scc)
  | [], out => by simp
  | scc :: sccs, out => by
      have hadd : cycle ∈ addCycle (nodeList nodes) out scc ↔
          cycle ∈ out ∨ 2 ≤ scc.length ∧ cycle = joinWith [','] (sortedNames nodes scc) := by
        rw [addCycle]
        split
        · next hlen => exact (or_iff_left fun h => absurd h.1 (by omega)).symm
        · next hlen =>
            rw [Finset.mem_insert, or_comm]
            exact or_congr_right (iff_and_self.mpr fun _ => by omega)
      rw [foldl_cons, mem_foldl_addCycle, hadd, exists_mem_cons_iff, or_assoc]

theorem stronglyConnectedCycles_spec (nodes : NodeSet) (edges : EdgeSet) {fuel : Nat}
    (hfuel : budget (adjOf nodes edges) ≤ fuel) :
    ∃ cycles, stronglyConnectedCycles fuel nodes edges = some cycles ∧
      ∀ cycle, cycle ∈ cycles ↔ Cycle nodes edges cycle := by
  obtain ⟨result, hrun, hpartition⟩ := tarjanScc_partition (adjOf nodes edges) hfuel
  refine ⟨_, by rw [stronglyConnectedCycles, hrun]; rfl, fun cycle => ?_⟩
  rw [Finset.mem_union, mem_foldl_addCycle, or_iff_right (Finset.notMem_empty _),
    Finset.mem_image]
  refine or_congr ⟨?_, ?_⟩ ⟨?_, ?_⟩
  · rintro ⟨scc, hscc, hlen, rfl⟩
    exact ⟨_, component_of_class hpartition hscc, length_sortedNames.symm ▸ hlen, rfl⟩
  · rintro ⟨names, hnames, hlen, rfl⟩
    obtain ⟨v, hv⟩ := exists_mem_of_length_pos (by omega : 0 < names.length)
    obtain ⟨scc, hscc, rfl⟩ := class_of_component hpartition hnames hv
    exact ⟨scc, hscc, length_sortedNames ▸ hlen, rfl⟩
  · rintro ⟨i, hi, rfl⟩
    exact ⟨get_mem_names i, (mem_selfLoops (nodup_nodeList nodes)).mp hi⟩
  · rintro ⟨hnode, hloop⟩
    obtain ⟨i, rfl⟩ := exists_index hnode
    exact ⟨i, (mem_selfLoops (nodup_nodeList nodes)).mpr hloop, rfl⟩

/-- The search finds the classes of mutual reachability of every graph, and the
cycles reported are the components of at least two nodes and the nodes with an
edge to themselves, in whatever order the edges come. -/
theorem strongly_connected_cycles_exact :
    (∀ (n : Nat) (adj : Adjacency n) (more : Nat), ∃ result,
      tarjanScc (budget adj + more) adj = some result ∧ Partition adj result) ∧
    ∀ (nodes : NodeSet) (edges : EdgeSet), ∃ cycles,
      (∀ cycle, cycle ∈ cycles ↔ Cycle nodes edges cycle) ∧
      ∀ edges', (∀ edge, edge ∈ edges' ↔ edge ∈ edges) → ∃ enough, ∀ more,
        stronglyConnectedCycles (enough + more) nodes edges' = some cycles := by
  refine ⟨fun n adj more => tarjanScc_partition adj (Nat.le_add_right _ _), fun nodes edges => ?_⟩
  obtain ⟨cycles, -, hcycles⟩ := stronglyConnectedCycles_spec nodes edges le_rfl
  refine ⟨cycles, hcycles, fun edges' hsame => ⟨budget (adjOf nodes edges'), fun more => ?_⟩⟩
  obtain ⟨cycles', hrun, hcycles'⟩ :=
    stronglyConnectedCycles_spec nodes edges' (Nat.le_add_right _ more)
  have hbetween : EdgeBetween edges' = EdgeBetween edges := by
    funext a b
    exact propext (exists_congr fun kind => hsame (a, kind, b))
  have hcycle : ∀ cycle, Cycle nodes edges' cycle ↔ Cycle nodes edges cycle := by
    have hjoins : Joins nodes edges' = Joins nodes edges := by
      funext a b
      rw [Joins, Joins, hbetween]
    have hmutually : Mutually nodes edges' = Mutually nodes edges := by
      funext a b
      rw [Mutually, Mutually, hjoins]
    have hcomponent : ∀ names, Component nodes edges' names ↔ Component nodes edges names :=
      fun names =>
        ⟨fun h => ⟨h.sorted, h.isNode, hmutually ▸ h.classOf⟩,
          fun h => ⟨h.sorted, h.isNode, hmutually ▸ h.classOf⟩⟩
    intro cycle
    simp only [Cycle, hcomponent, SelfLooping, hbetween]
  have heq : cycles' = cycles := Finset.ext fun cycle => by rw [hcycles', hcycle, hcycles]
  exact heq ▸ hrun

/-- `a` and `b` call each other and `a` calls itself: the self-loop is reported
beside the component it is in. -/
theorem inner_self_loop_reported : ¬ ∀ (fuel : Nat) (nodes : NodeSet) (edges : EdgeSet)
    (cycles : Finset Text), stronglyConnectedCycles fuel nodes edges = some cycles →
      ∀ cycle, cycle ∈ cycles ↔ OuterCycle nodes edges cycle := by
  intro h
  let nodes : NodeSet := [("Function".toList, [['a'], ['b']])]
  let edges : EdgeSet := [(['a'], "Calls".toList, ['b']), (['b'], "Calls".toList, ['a']),
    (['a'], "Calls".toList, ['a'])]
  have hrun : stronglyConnectedCycles 4 nodes edges = some {"a,b".toList, ['a']} := by
    decide +kernel
  have hmem : ['a'] ∈ ({"a,b".toList, ['a']} : Finset Text) := by decide +kernel
  rcases (h 4 nodes edges _ hrun ['a']).mp hmem with ⟨names, -, hlen, hcycle⟩ | ⟨-, hsingle⟩
  · match names, hlen with
    | first :: second :: rest, _ =>
        have hcomma : ',' ∈ ['a'] := by
          rw [hcycle]
          exact mem_append_left _ (mem_append_right _ mem_cons_self)
        exact absurd hcomma (by decide)
  · have hab : Mutually nodes edges ['a'] ['b'] :=
      ⟨.single ⟨by decide +kernel, by decide +kernel, "Calls".toList, by decide +kernel⟩,
        .single ⟨by decide +kernel, by decide +kernel, "Calls".toList, by decide +kernel⟩⟩
    have hb := (hsingle.classOf ['a'] (mem_singleton.mpr rfl) ['b']).mpr hab
    exact absurd hb (by decide +kernel)

end Reach

end SemanticDiff

end CodeGraph
