import CodeGraph.UnifiedDiff
import CodeGraph.GraphSchema
import CodeGraph.ImpactResponse
import CodeGraph.IndexOwners

/-!
# The symbols of a diff

`map_lines_to_symbols` of `git_diff.rs` and `file_symbol_ranges` of `history/mod.rs`: both
ask the graph for the symbols of a file, one relationship table after the other, and keep
those with a changed line. Only the second asks for the methods of the types, and only the
second takes the offset of the indexed root off the path that git prints.
-/

namespace CodeGraph

namespace DiffSymbols

open Schema (NodeLabel relTables)
open GitDiff (FileHunk)
open Impact (ImpactResult Boundary)

structure SymbolRow where
  label : NodeLabel
  id : Text
  name : Text
  qualifiedName : Text
  startLine : Nat
  endLine : Nat
  deriving DecidableEq

/-- What the indexer leaves: ids are qualified names that begin with the path of a file, unique
in the table of their label, and the edges of ownership stay within a file. -/
structure IndexedGraph where
  files : List Text
  symbols : List SymbolRow
  /-- the edges of a relationship table, as pairs of ids -/
  edges : String → List (Text × Text)
  plain : ∀ file ∈ files, IsFileId file
  named : ∀ row ∈ symbols, row.qualifiedName = row.id
  unique : ∀ row ∈ symbols, ∀ row' ∈ symbols, row.label = row'.label → row.id = row'.id → row = row'
  defines : ∀ label : NodeLabel, ∀ file id,
    (file, id) ∈ edges ("Defines_File_" ++ String.ofList label.text) →
    file ∈ files ∧ inFile file [] <+: id
  hasMethod : ∀ label : NodeLabel, ∀ owner id,
    (owner, id) ∈ edges ("HasMethod_" ++ String.ofList label.text ++ "_Method") →
    ∀ file, inFile file [] <+: owner → inFile file [] <+: id

variable (g : IndexedGraph)

/-- A query over a table, which has to be one of the schema. -/
def IndexedGraph.table (name : String) : Except Text (List (Text × Text)) :=
  if relTables.any fun table => table.name = name then .ok (g.edges name)
  else .error ("Table ".toList ++ name.toList ++ " does not exist".toList)

def IndexedGraph.rows (label : NodeLabel) (id : Text) : List SymbolRow :=
  g.symbols.filter fun row => row.label = label ∧ row.id = id

/-- `(f:File)-[:Defines_File_<label>]->(n:<label>) WHERE f.path = path` -/
def IndexedGraph.definedRows (label : NodeLabel) (path : Text) : Except Text (List SymbolRow) := do
  let edges ← g.table ("Defines_File_" ++ String.ofList label.text)
  return edges.flatMap fun (file, id) => if file = path then g.rows label id else []

/-- `(f:File)-[:Defines_File_<label>]->(c)-[:HasMethod_<label>_Method]->(m:Method)` -/
def IndexedGraph.methodRows (label : NodeLabel) (path : Text) : Except Text (List SymbolRow) := do
  let edges ← g.table ("HasMethod_" ++ String.ofList label.text ++ "_Method")
  let owners ← g.definedRows label path
  return owners.flatMap fun owner =>
    edges.flatMap fun (src, id) => if src = owner.id then g.rows .method id else []

/-- Both attributions take a query that fails for one without rows. -/
def orNone (rows : Except Text (List SymbolRow)) : List SymbolRow :=
  match rows with
  | .ok rows => rows
  | .error _ => []

/-- How many of the changed lines are in the range of a symbol. -/
def overlap (changed : List Nat) (row : SymbolRow) : Nat :=
  (changed.filter fun line => row.startLine ≤ line ∧ line ≤ row.endLine).length

def Touched (hunk : FileHunk) (row : SymbolRow) : Prop :=
  ¬(overlap hunk.changedLines row = 0 ∧ ¬hunk.isNew ∧ ¬hunk.isDeleted)

instance (hunk : FileHunk) (row : SymbolRow) : Decidable (Touched hunk row) :=
  inferInstanceAs (Decidable ¬_)

def changeType (hunk : FileHunk) : Text :=
  if hunk.isNew then "added".toList
  else if hunk.isDeleted then "deleted".toList
  else "modified".toList

def linesChanged (hunk : FileHunk) (row : SymbolRow) : Nat :=
  if hunk.isNew ∨ hunk.isDeleted then row.endLine - row.startLine + 1
  else overlap hunk.changedLines row

/-! ## `analyze_git_diff` -/

structure ChangedSymbol where
  qualifiedName : Text
  name : Text
  label : NodeLabel
  filePath : Text
  changeType : Text
  linesChanged : Nat
  communityId : Option Text
  processes : List Text

/-- `SYMBOL_LABELS_WITH_LINES` of `git_diff.rs` -/
def diffLabels : List NodeLabel := [.function, .method, .struct, .enum, .trait]

section Analysis

variable (getImpact : Text → Except Text ImpactResult)

def changedSymbol (hunk : FileHunk) (row : SymbolRow) : ChangedSymbol :=
  let impact := match getImpact row.qualifiedName with
    | .ok impact => (impact.communities.head?, impact.processes)
    | .error _ => (none, [])
  { qualifiedName := row.qualifiedName
    name := row.name
    label := row.label
    filePath := hunk.filePath
    changeType := changeType hunk
    linesChanged := linesChanged hunk row
    communityId := impact.1
    processes := impact.2 }

/-- One row of the loop, after the ids seen so far. -/
def mapRow (hunk : FileHunk) (s : List Text × List ChangedSymbol) (row : SymbolRow) :
    List Text × List ChangedSymbol :=
  if row.id ∈ s.1 then s
  else if Touched hunk row then (row.id :: s.1, s.2 ++ [changedSymbol getImpact hunk row])
  else s

def mapLinesToSymbols (hunk : FileHunk) : List ChangedSymbol :=
  ((diffLabels.flatMap fun label => orNone (g.definedRows label hunk.filePath)).foldl
    (mapRow getImpact hunk) ([], [])).2

/-- The status and the reasons of `assess_dependency_confidence`; a symbol whose impact fails is
passed over. -/
def assess (symbols : List ChangedSymbol) : Boundary × List Text :=
  let impacts := symbols.filterMap fun s => match getImpact s.qualifiedName with
    | .ok impact => if impact.epistemic = .lowerBound then some (s.qualifiedName, impact) else none
    | .error _ => none
  (if impacts = [] then .exact else .lowerBound,
    impacts.flatMap fun (qn, impact) => impact.epistemicReasons.map fun r => qn ++ ": ".toList ++ r)

structure DiffAnalysis where
  filesChanged : Nat
  symbolsAffected : List ChangedSymbol
  epistemic : Boundary
  epistemicReasons : List Text

def buildAnalysis (hunks : List FileHunk) : DiffAnalysis :=
  let symbols := hunks.flatMap (mapLinesToSymbols g getImpact)
  let assessed := assess getImpact symbols
  ⟨hunks.length, symbols, assessed.1, assessed.2⟩

end Analysis

/-! ## `index_history` -/

/-- The entities of a commit; `label` is none for the file itself. -/
structure ChangedEntity where
  entityId : Text
  qualifiedName : Text
  label : Option NodeLabel
  changeType : Text
  linesChanged : Nat

/-- `SYMBOL_LABELS_WITH_LINES` of `history/mod.rs` -/
def historyLabels : List NodeLabel := [.function, .struct, .enum, .trait]

def containers : List NodeLabel := [.struct, .enum, .trait]

/-- The path of the indexed root below the repository root is taken off. -/
def stripRoot (gitPath root : Text) : Option Text :=
  if root = [] then some gitPath else stripPrefix (root ++ ['/']) gitPath

def fileSymbolRanges (path : Text) : List SymbolRow :=
  (historyLabels.flatMap fun label => orNone (g.definedRows label path)) ++
    containers.flatMap fun label => orNone (g.methodRows label path)

def overlappingRow (hunk : FileHunk) (s : List Text × List ChangedEntity) (row : SymbolRow) :
    List Text × List ChangedEntity :=
  if Touched hunk row then
    if row.id ∈ s.1 then s
    else (row.id :: s.1, s.2 ++
      [⟨row.id, row.qualifiedName, some row.label, changeType hunk, linesChanged hunk row⟩])
  else s

def overlapping (hunk : FileHunk) (ranges : List SymbolRow) : List ChangedEntity :=
  (ranges.foldl (overlappingRow hunk) ([], [])).2

def changedEntities (root : Text) (hunk : FileHunk) : List ChangedEntity :=
  match stripRoot hunk.filePath root with
  | none => []
  | some fileId =>
      if fileId ∈ g.files then
        ⟨fileId, fileId, none, changeType hunk, hunk.changedLines.length⟩ ::
          overlapping hunk (fileSymbolRanges g fileId)
      else []

end DiffSymbols

end CodeGraph
