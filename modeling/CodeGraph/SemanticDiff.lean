import Mathlib.Data.Finset.Card
import Mathlib.Data.List.Dedup
import Mathlib.Algebra.Order.Field.Rat
import Mathlib.Tactic.NormNum
import CodeGraph.GraphSchema
import CodeGraph.DiffCycles

/-!
# The semantic diff of two graphs

What `diff` reads of each graph, what it counts and the verdict it gives. Nodes
are collected under a fixed list of labels; edges are collected from every
relationship table whose two labels declare `qualified_name`. Three tables lead
to a label that declares the column and is not in the list, and an edge of
theirs counts as dangling unless a collected node happens to have the name
(`danglingReferences_eq_zero_iff`).
-/

namespace CodeGraph

open List

namespace SemanticDiff

open Schema SortDedup

/-! ## The graphs -/

/-- A node row, with its qualified name as a query renders it. -/
structure Node where
  id : Text
  qualifiedName : Text
  isResolved : Option Bool

/-- The rows of the node tables, and those of the relationship tables by the ids
of their ends. -/
structure GraphStore where
  nodes : NodeLabel → List Node
  rels : RelTable → List (Text × Text)

/-- Every edge joins two nodes of the labels its table is declared for. -/
def GraphStore.EdgesJoin (store : GraphStore) : Prop :=
  ∀ table ∈ relTables, ∀ edge ∈ store.rels table,
    (∃ a ∈ store.nodes table.fromLabel, a.id = edge.1) ∧
      ∃ b ∈ store.nodes table.toLabel, b.id = edge.2

/-- `MATCH (a)-[:rel]->(b) RETURN a.qualified_name, b.qualified_name` -/
def GraphStore.joinRows (store : GraphStore) (table : RelTable) : List (Text × Text) := do
  let edge ← store.rels table
  let a ← (store.nodes table.fromLabel).filter (·.id = edge.1)
  let b ← (store.nodes table.toLabel).filter (·.id = edge.2)
  [(a.qualifiedName, b.qualifiedName)]

/-! ## Collecting -/

/-- The labels whose qualified names are compared. -/
def diffableLabels : List NodeLabel :=
  [.function, .method, .struct, .enum, .trait, .module, .constant, .typeAlias]

def collectNodes (store : GraphStore) : NodeSet :=
  (sortByKey NodeLabel.text diffableLabels).map fun label =>
    (label.text, sortDedup id (((store.nodes label).map Node.qualifiedName).filter (· ≠ [])))

/-- The part of a table's name before its first underscore. -/
def relKind (rel : String) : Text := rel.toList.takeWhile (· ≠ '_')

/-- Both labels of the table declare `qualified_name`. -/
def eligible (table : RelTable) : Bool :=
  labelDeclaresColumn table.fromLabel "qualified_name" &&
    labelDeclaresColumn table.toLabel "qualified_name"

def tableEdges (store : GraphStore) (table : RelTable) : EdgeSet :=
  ((store.joinRows table).filter fun row => row.1 ≠ [] ∧ row.2 ≠ []).map fun row =>
    (row.1, relKind table.name, row.2)

/-- The edges as a set; nothing below reads their order. -/
def collectEdges (store : GraphStore) : EdgeSet :=
  ((relTables.filter eligible).flatMap (tableEdges store)).dedup

/-- The imports that are not marked as resolved. -/
def countUnresolved (store : GraphStore) : Nat :=
  (store.nodes .imported).countP (·.isResolved ≠ some true)

structure Snapshot where
  nodes : NodeSet
  edges : EdgeSet
  unresolved : Nat

def Snapshot.collect (store : GraphStore) : Snapshot where
  nodes := collectNodes store
  edges := collectEdges store
  unresolved := countUnresolved store

/-! ## Comparing -/

/-- What one side has and the other does not. -/
structure Changes (α : Type) where
  added : List α
  removed : List α

def difference {α : Type} [DecidableEq α] (a b : List α) : List α := a.filter (· ∉ b)

/-- The names under a label, none for a label that is not a key. -/
def NodeSet.under (nodes : NodeSet) (label : Text) : List Text := (nodes.lookup label).getD []

def allLabels (before after : NodeSet) : List Text :=
  sortDedup id (before.map Prod.fst ++ after.map Prod.fst)

def diffNodes (before after : NodeSet) : Changes (Text × Text) where
  added := (allLabels before after).flatMap fun label =>
    (difference (after.under label) (before.under label)).map (label, ·)
  removed := (allLabels before after).flatMap fun label =>
    (difference (before.under label) (after.under label)).map (label, ·)

/-- Triples are compared component by component. -/
def tripleKey (edge : EdgeTriple) : List Text := [edge.1, edge.2.1, edge.2.2]

def diffEdges (before after : EdgeSet) : Changes EdgeTriple where
  added := sortByKey tripleKey (difference after before)
  removed := sortByKey tripleKey (difference before after)

/-- The edges whose target is not the name of a collected node. -/
def computeDangling (nodes : NodeSet) (edges : EdgeSet) : List EdgeTriple :=
  sortByKey tripleKey (edges.filter (·.2.2 ∉ nodes.names))

def diffCycleSets (before after : Finset Text) : Finset Text := after \ before

structure DiffSummary where
  nodesAdded : Nat
  nodesRemoved : Nat
  edgesAdded : Nat
  edgesRemoved : Nat
  danglingReferences : Nat
  newUnresolvedDelta : Int
  newCycles : Nat
  deriving DecidableEq

/-! ## The verdict -/

def weightDangling : ℚ := 1
def weightNewCycle : ℚ := 1 / 2
def weightUnresolvedDelta : ℚ := 1 / 10
def unresolvedDeltaMax : ℚ := 5
def regressionScoreCap : ℚ := 10
def verdictCleanMax : ℚ := 1
def verdictConcerningMax : ℚ := 5

/-- The heuristic score, in exact arithmetic. -/
def regressionScore (s : DiffSummary) : ℚ :=
  let dangling := weightDangling * s.danglingReferences
  let cycles := weightNewCycle * s.newCycles
  let unresolved := weightUnresolvedDelta * (max s.newUnresolvedDelta 0 : Int)
  let unresolved := min unresolved (unresolvedDeltaMax * weightUnresolvedDelta * 10)
  min (dangling + cycles + unresolved) regressionScoreCap

inductive Verdict
  | clean | concerning | regression
  deriving DecidableEq

def classifyVerdict (score : ℚ) : Verdict :=
  if score < verdictCleanMax then .clean
  else if score < verdictConcerningMax then .concerning
  else .regression

/-- A new unresolved import is never clean. -/
def verdictForSummary (summary : DiffSummary) (score : ℚ) : Verdict :=
  if summary.newUnresolvedDelta > 0 ∧ score < verdictCleanMax then .concerning
  else classifyVerdict score

structure SemanticDiffOutcome where
  summary : DiffSummary
  regressionScore : ℚ
  verdict : Verdict

def summarize (before after : Snapshot) (cyclesBefore cyclesAfter : Finset Text) :
    DiffSummary where
  nodesAdded := (diffNodes before.nodes after.nodes).added.length
  nodesRemoved := (diffNodes before.nodes after.nodes).removed.length
  edgesAdded := (diffEdges before.edges after.edges).added.length
  edgesRemoved := (diffEdges before.edges after.edges).removed.length
  danglingReferences := (computeDangling after.nodes after.edges).length
  newUnresolvedDelta := (after.unresolved : Int) - before.unresolved
  newCycles := (diffCycleSets cyclesBefore cyclesAfter).card

/-- `fuel` bounds the two cycle searches. -/
def diff (fuel : Nat) (beforeStore afterStore : GraphStore) : Option SemanticDiffOutcome := do
  let before := Snapshot.collect beforeStore
  let after := Snapshot.collect afterStore
  let cyclesBefore ← stronglyConnectedCycles fuel before.nodes before.edges
  let cyclesAfter ← stronglyConnectedCycles fuel after.nodes after.edges
  let summary := summarize before after cyclesBefore cyclesAfter
  let score := regressionScore summary
  some ⟨summary, score, verdictForSummary summary score⟩

/-! ## What is collected -/

section Collect

variable {store : GraphStore}

theorem mem_names_collectNodes {v : Text} :
    v ∈ (collectNodes store).names ↔
      v ≠ [] ∧ ∃ label ∈ diffableLabels, ∃ n ∈ store.nodes label, n.qualifiedName = v := by
  rw [NodeSet.names, collectNodes, flatMap_map, mem_flatMap]
  simp only [sortByKey, mem_insertionSort, mem_sortDedup, mem_filter, mem_map,
    decide_eq_true_eq]
  refine ⟨?_, ?_⟩
  · rintro ⟨label, hlabel, hn, hv⟩
    exact ⟨hv, label, hlabel, hn⟩
  · rintro ⟨hv, label, hlabel, hn⟩
    exact ⟨label, hlabel, hn, hv⟩

theorem mem_collectEdges {edge : EdgeTriple} :
    edge ∈ collectEdges store ↔ ∃ table ∈ relTables, eligible table = true ∧
      edge ∈ tableEdges store table := by
  rw [collectEdges, List.mem_dedup, List.mem_flatMap]
  simp only [List.mem_filter, and_assoc]

theorem mem_tableEdges {table : RelTable} {edge : EdgeTriple} :
    edge ∈ tableEdges store table ↔ edge.1 ≠ [] ∧ edge.2.2 ≠ [] ∧
      edge.2.1 = relKind table.name ∧ (edge.1, edge.2.2) ∈ store.joinRows table := by
  rw [tableEdges, mem_map]
  simp only [mem_filter, decide_eq_true_eq]
  refine ⟨?_, ?_⟩
  · rintro ⟨row, ⟨hrow, hfrom, hto⟩, rfl⟩
    exact ⟨hfrom, hto, rfl, hrow⟩
  · rintro ⟨hfrom, hto, hkind, hrow⟩
    exact ⟨_, ⟨hrow, hfrom, hto⟩, by rw [← hkind]⟩

theorem mem_joinRows {table : RelTable} {row : Text × Text} (h : row ∈ store.joinRows table) :
    ∃ b ∈ store.nodes table.toLabel, b.qualifiedName = row.2 := by
  simp only [GraphStore.joinRows, bind_eq_flatMap, mem_flatMap, mem_filter,
    mem_singleton] at h
  obtain ⟨_, _, a, _, b, hb, rfl⟩ := h
  exact ⟨b, hb.1, rfl⟩

end Collect

/-! ## Dangling references -/

/-- The tables that lead to a label whose names are not compared. -/
def undiffedTables : List RelTable :=
  [⟨"HasVariant_Enum_Variant", .enum, .variant⟩,
    ⟨"PreviousVersion_Version_Version", .version, .version⟩,
    ⟨"Imports_IacModule_IacModule", .iacModule, .iacModule⟩]

theorem eligible_toLabel : ∀ table ∈ relTables, eligible table = true →
    table.toLabel ∈ diffableLabels ∨ table ∈ undiffedTables := by
  decide +kernel

theorem undiffedTables_eligible : ∀ table ∈ undiffedTables,
    table ∈ relTables ∧ eligible table = true := by
  decide

/-- What the edges of those tables lead to has the name of a node that is
compared. -/
def TargetsNamed (store : GraphStore) : Prop :=
  ∀ table ∈ undiffedTables, ∀ row ∈ store.joinRows table, row.1 ≠ [] → row.2 ≠ [] →
    ∃ label ∈ diffableLabels, ∃ n ∈ store.nodes label, n.qualifiedName = row.2

theorem computeDangling_eq_nil_iff {nodes : NodeSet} {edges : EdgeSet} :
    computeDangling nodes edges = [] ↔ ∀ edge ∈ edges, edge.2.2 ∈ nodes.names := by
  rw [computeDangling, ← length_eq_zero_iff, sortByKey, length_insertionSort,
    length_eq_zero_iff, filter_eq_nil_iff]
  simp only [decide_eq_true_eq, not_not]

theorem dangling_eq_nil_iff (store : GraphStore) :
    computeDangling (collectNodes store) (collectEdges store) = [] ↔ TargetsNamed store := by
  rw [computeDangling_eq_nil_iff]
  refine ⟨fun h table htable row hrow hfrom hto => ?_, fun h edge hedge => ?_⟩
  · obtain ⟨hmem, heligible⟩ := undiffedTables_eligible table htable
    have hedge : (row.1, relKind table.name, row.2) ∈ collectEdges store :=
      mem_collectEdges.mpr ⟨table, hmem, heligible, mem_tableEdges.mpr ⟨hfrom, hto, rfl, hrow⟩⟩
    exact (mem_names_collectNodes.mp (h _ hedge)).2
  · obtain ⟨table, hmem, heligible, htable⟩ := mem_collectEdges.mp hedge
    obtain ⟨hfrom, hto, -, hrow⟩ := mem_tableEdges.mp htable
    refine mem_names_collectNodes.mpr ⟨hto, ?_⟩
    rcases eligible_toLabel table hmem heligible with hlabel | hundiffed
    · obtain ⟨n, hn, hname⟩ := mem_joinRows hrow
      exact ⟨table.toLabel, hlabel, n, hn, hname⟩
    · exact h table hundiffed (edge.1, edge.2.2) hrow hfrom hto

/-! ## A graph against itself -/

/-- Nothing is reported. -/
structure SemanticDiffOutcome.Clean (outcome : SemanticDiffOutcome) : Prop where
  nodesAdded : outcome.summary.nodesAdded = 0
  nodesRemoved : outcome.summary.nodesRemoved = 0
  edgesAdded : outcome.summary.edgesAdded = 0
  edgesRemoved : outcome.summary.edgesRemoved = 0
  danglingReferences : outcome.summary.danglingReferences = 0
  newCycles : outcome.summary.newCycles = 0
  verdict : outcome.verdict = .clean

theorem difference_self {α : Type} [DecidableEq α] (a : List α) : difference a a = [] :=
  filter_eq_nil_iff.mpr fun _ hmem h => of_decide_eq_true h hmem

theorem diffNodes_self (nodes : NodeSet) : diffNodes nodes nodes = ⟨[], []⟩ := by
  simp [diffNodes, difference_self]

theorem diffEdges_self (edges : EdgeSet) : diffEdges edges edges = ⟨[], []⟩ := by
  rw [diffEdges, difference_self]
  rfl

/-- The dangling references are all there is to a graph against itself. -/
theorem summarize_self (snapshot : Snapshot) (cycles : Finset Text) :
    summarize snapshot snapshot cycles cycles =
      ⟨0, 0, 0, 0, (computeDangling snapshot.nodes snapshot.edges).length, 0, 0⟩ := by
  rw [summarize, diffNodes_self, diffEdges_self, diffCycleSets, Finset.sdiff_self, Int.sub_self]
  rfl

theorem verdict_of_dangling (dangling : Nat) :
    verdictForSummary ⟨0, 0, 0, 0, dangling, 0, 0⟩ (regressionScore ⟨0, 0, 0, 0, dangling, 0, 0⟩) =
      .clean ↔ dangling = 0 := by
  have hunresolved : min (weightUnresolvedDelta * ((max 0 0 : Int) : ℚ))
      (unresolvedDeltaMax * weightUnresolvedDelta * 10) = 0 := by
    norm_num [weightUnresolvedDelta, unresolvedDeltaMax]
  have hscore : regressionScore ⟨0, 0, 0, 0, dangling, 0, 0⟩ = min (dangling : ℚ) 10 := by
    rw [regressionScore, hunresolved, weightDangling, weightNewCycle, regressionScoreCap, one_mul,
      Nat.cast_zero, mul_zero, add_zero, add_zero]
  rw [verdictForSummary, if_neg (fun h => absurd h.1 (lt_irrefl 0)), hscore, classifyVerdict]
  rcases Nat.eq_zero_or_pos dangling with rfl | hpos
  · refine iff_of_true (if_pos ?_) rfl
    norm_num [verdictCleanMax]
  · have hone : (1 : ℚ) ≤ dangling := by exact_mod_cast hpos
    have hnot : ¬ min (dangling : ℚ) 10 < verdictCleanMax :=
      not_lt.mpr (le_min hone (by norm_num [verdictCleanMax]))
    rw [if_neg hnot]
    refine iff_of_false ?_ hpos.ne'
    split
    · exact nofun
    · exact nofun

/-- The search for cycles needs a turn for every node and edge of both graphs. -/
theorem diff_returns (before after : GraphStore) : ∃ enough, ∀ more, ∃ cyclesBefore cyclesAfter,
    stronglyConnectedCycles (enough + more) (collectNodes before) (collectEdges before) =
      some cyclesBefore ∧
    stronglyConnectedCycles (enough + more) (collectNodes after) (collectEdges after) =
      some cyclesAfter := by
  refine ⟨budget (adjOf (collectNodes before) (collectEdges before)) +
    budget (adjOf (collectNodes after) (collectEdges after)), fun more => ?_⟩
  obtain ⟨cyclesBefore, hbefore, -⟩ := stronglyConnectedCycles_spec (collectNodes before)
    (collectEdges before) ((Nat.le_add_right _ _).trans (Nat.le_add_right _ more))
  obtain ⟨cyclesAfter, hafter, -⟩ := stronglyConnectedCycles_spec (collectNodes after)
    (collectEdges after) ((Nat.le_add_left _ _).trans (Nat.le_add_right _ more))
  exact ⟨cyclesBefore, cyclesAfter, hbefore, hafter⟩

theorem diff_eq {fuel : Nat} {before after : GraphStore} {cyclesBefore cyclesAfter : Finset Text}
    (hbefore : stronglyConnectedCycles fuel (collectNodes before) (collectEdges before) =
      some cyclesBefore)
    (hafter : stronglyConnectedCycles fuel (collectNodes after) (collectEdges after) =
      some cyclesAfter) :
    diff fuel before after =
      some ⟨summarize (.collect before) (.collect after) cyclesBefore cyclesAfter,
        regressionScore (summarize (.collect before) (.collect after) cyclesBefore cyclesAfter),
        verdictForSummary (summarize (.collect before) (.collect after) cyclesBefore cyclesAfter)
          (regressionScore
            (summarize (.collect before) (.collect after) cyclesBefore cyclesAfter))⟩ := by
  simp only [diff, Snapshot.collect, hbefore, hafter, Option.bind_eq_bind, Option.bind_some]

theorem diff_self (store : GraphStore) : ∃ enough, ∀ more, ∃ outcome,
    diff (enough + more) store store = some outcome ∧ (outcome.Clean ↔ TargetsNamed store) := by
  obtain ⟨enough, hreturns⟩ := diff_returns store store
  refine ⟨enough, fun more => ?_⟩
  obtain ⟨cycles, _, hrun, hrun'⟩ := hreturns more
  cases Option.some.inj (hrun.symm.trans hrun')
  refine ⟨_, diff_eq hrun hrun, ?_⟩
  rw [← dangling_eq_nil_iff, ← length_eq_zero_iff, summarize_self]
  exact ⟨fun h => h.danglingReferences, fun h =>
    ⟨rfl, rfl, rfl, rfl, h, rfl, (verdict_of_dangling _).mpr h⟩⟩

theorem diff_danglingReferences (before after : GraphStore) : ∃ enough, ∀ more, ∃ outcome,
    diff (enough + more) before after = some outcome ∧
      (outcome.summary.danglingReferences = 0 ↔ TargetsNamed after) := by
  obtain ⟨enough, hreturns⟩ := diff_returns before after
  refine ⟨enough, fun more => ?_⟩
  obtain ⟨cyclesBefore, cyclesAfter, hbefore, hafter⟩ := hreturns more
  exact ⟨_, diff_eq hbefore hafter, length_eq_zero_iff.trans (dangling_eq_nil_iff after)⟩

/-- A graph against itself is clean, and a graph after a change has no dangling
references, exactly when the targets of the undiffed tables have names that are
compared. -/
theorem diff_clean_iff (store before after : GraphStore) :
    (∃ enough, ∀ more, ∃ outcome, diff (enough + more) store store = some outcome ∧
      (outcome.Clean ↔ TargetsNamed store)) ∧
    ∃ enough, ∀ more, ∃ outcome, diff (enough + more) before after = some outcome ∧
      (outcome.summary.danglingReferences = 0 ↔ TargetsNamed after) :=
  ⟨diff_self store, diff_danglingReferences before after⟩

/-- An enum with one variant: both nodes exist, and the edge to the variant is
reported as dangling. -/
theorem enum_variant_dangles : ¬ ∀ (store : GraphStore) (fuel : Nat)
    (outcome : SemanticDiffOutcome), store.EdgesJoin →
      diff fuel store store = some outcome → outcome.Clean := by
  intro h
  let table : RelTable := ⟨"HasVariant_Enum_Variant", .enum, .variant⟩
  let color : Node := ⟨"e".toList, "src/a.rs::Color".toList, none⟩
  let red : Node := ⟨"v".toList, "src/a.rs::Color::Red".toList, none⟩
  let store : GraphStore := {
    nodes := fun label => match label with
      | .enum => [color]
      | .variant => [red]
      | _ => []
    rels := fun t => if t = table then [(color.id, red.id)] else [] }
  have hjoin : store.EdgesJoin := by
    intro t _ edge hedge
    have hrels : store.rels t = if t = table then [(color.id, red.id)] else [] := rfl
    rw [hrels] at hedge
    by_cases ht : t = table
    · subst ht
      rw [if_pos rfl] at hedge
      cases mem_singleton.mp hedge
      exact ⟨⟨color, mem_singleton.mpr rfl, rfl⟩, red, mem_singleton.mpr rfl, rfl⟩
    · rw [if_neg ht] at hedge
      exact absurd hedge not_mem_nil
  obtain ⟨enough, hreturns⟩ := diff_self store
  obtain ⟨outcome, hrun, hclean⟩ := hreturns 0
  have hnamed : TargetsNamed store := hclean.mp (h store _ outcome hjoin hrun)
  have hrow : (color.qualifiedName, red.qualifiedName) ∈ store.joinRows table := by
    decide +kernel
  have hred := hnamed table (by decide +kernel) _ hrow (by decide +kernel) (by decide +kernel)
  exact absurd hred (by decide +kernel)

end SemanticDiff

end CodeGraph
