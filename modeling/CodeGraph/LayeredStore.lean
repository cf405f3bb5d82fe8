import CodeGraph.ResolveEvents

/-!
# The store with its later layers

Beside the graph of the index stage a store holds what later passes write: rows
of any relationship table, the nodes of their own labels, and the flags and
reasons of the call sites. An incremental refresh is a list of statements on it,
read off the store before the first of them runs.
-/

namespace CodeGraph

open PropertyGraph Keyed Schema

open Resolver.Store (inFiles)

/-! ## Rows of any table -/

/-- The node table of a label of the index stage. -/
def Label.stored : Label → NodeLabel
  | directory => .directory
  | file => .file
  | fileContent => .fileContent
  | astNode => .astNode
  | iacResource => .iacResource
  | iacModule => .iacModule
  | iacImage => .iacImage
  | symbol label => (Resolver.EndLabel.symbol label).nodeLabel

abbrev StoredKey := NodeLabel × Text

def Key.stored (k : Key) : StoredKey := (k.1.stored, k.2)

/-- A node that no index writes: a community, a process, a version, a commit. -/
structure LayerNode where
  label : NodeLabel
  id : Text
  columns : List (Text × Text)
  deriving DecidableEq

/-- A row of a relationship table. The columns that no snapshot reads are `others`;
a table without a column leaves it empty. What contains files and directories is in
the graph of the index stage. -/
structure StoredRow where
  table : RelTable
  source : Text
  target : Text
  confidence : Text := []
  resolutionMethod : Text := []
  observedCount : Option Int := none
  others : List (Text × Text) := []
  declared : table ∈ relTables
  layered : table.fromLabel ≠ .directory
  deriving DecidableEq

instance : Keyed LayerNode StoredKey := ⟨fun n => (n.label, n.id)⟩

instance : Linked StoredRow StoredKey :=
  ⟨fun r => (r.table.fromLabel, r.source), fun r => (r.table.toLabel, r.target)⟩

/-- The tables whose rows cross files. -/
def resolutionPrefixes : List Text :=
  ["Imports_", "Calls_", "Implements_", "Extends_", "Uses_", "References_"].map String.toList

def isResolutionTable (name : Text) : Bool := resolutionPrefixes.any (· <+: name)

def lightLinkTables : List Text := ["Imports_File_File", "References_File_File"].map String.toList

/-- The tables of the rows a call site holds itself. -/
def isCallSiteTable (table : RelTable) : Bool :=
  table.fromLabel = .callSite && "Calls_".toList <+: table.name.toList

namespace ChangeSet

variable (changes : ChangeSet)

def purgedRels : List Text := changes.changedRels ++ changes.goneRels

/-- The files whose sites are deleted or created again. -/
def leaving : List Text := changes.reparsedSet ++ changes.purgedRels

end ChangeSet

/-! ## The store -/

/-- The graph of the index stage, the layers over it, and the columns of a call site. -/
@[ext]
structure LayeredStore where
  index : Graph
  layers : PropertyGraph LayerNode StoredRow
  isResolved : Text → Bool
  reason : Text → Resolver.Reason

namespace LayeredStore

variable (s : LayeredStore)

/-- The nodes that a statement can match. -/
def keys : Multiset StoredKey := s.index.keys.map Key.stored + s.layers.keys

/-- Creates the rows whose two ends are matched. -/
def insertRows (rows : Multiset StoredRow) : LayeredStore :=
  { s with layers := { s.layers with edges := s.layers.edges + rows.filter (Lands s.keys) } }

/-! ## Inbound rows -/

/-- A row into a symbol of a changed file out of a file not read again. -/
def isSaved (changes : ChangeSet) (r : StoredRow) : Bool :=
  isResolutionTable r.table.name.toList && r.table.toLabel ∉ [.file, .directory] &&
    inFiles changes.changedRels r.target && owningFile r.source ∉ changes.reparsedSet

def savedRows (changes : ChangeSet) : Multiset StoredRow := s.layers.edges.filter (isSaved changes ·)

/-- A saved row as it is created again: of the columns two are saved. -/
def relinkedRow (r : StoredRow) : StoredRow :=
  { table := r.table
    source := r.source
    target := r.target
    confidence := if r.confidence.all Char.isWhitespace then "1.0".toList else r.confidence
    resolutionMethod := r.resolutionMethod
    declared := r.declared
    layered := r.layered }

/-! ## Reopened sites -/

/-- A row of a site that the purge takes from it. -/
def isReopening (changes : ChangeSet) (r : StoredRow) : Bool :=
  isCallSiteTable r.table && inFiles changes.purgedRels r.target &&
    owningFile r.source ∉ changes.leaving

/-- The sites of other files with a row of their own into a purged file. -/
def reopened (changes : ChangeSet) : Finset Text :=
  ((s.layers.edges.filter (isReopening changes ·)).map StoredRow.source).toFinset

/-- The sites that hold a row of their own. -/
def sitesWithEdge : Multiset Text :=
  (s.layers.edges.filter fun r => isCallSiteTable r.table).map StoredRow.source

/-! ## Statements -/

/-- Deletes the nodes under a predicate with their edges and rows. -/
def detachDelete (p : StoredKey → Bool) : LayeredStore :=
  { s with
    index := s.index.detachDelete fun k => p k.stored
    layers := s.layers.detachDelete p }

/-- What a rewrite of the graph of the index stage leaves: the sites it creates are open. -/
def reparsed (rel : Text) (index : Graph) : LayeredStore :=
  { s with
    index := index
    isResolved := fun id => if inFile rel [] <+: id then false else s.isResolved id
    reason := fun id => if inFile rel [] <+: id then Resolver.noReason else s.reason id }

end LayeredStore

/-- The statements of a refresh, in the words of the functions that run them. -/
inductive Stmt where
  | markUnresolved (ids : Finset Text)
  | clearReasons (ids : Finset Text)
  | purgeFileSymbols (rel : Text)
  | purgeOutboundLightLinks (rel : Text)
  | purgeFileNode (rel : Text)
  | purgeFileContent (rel : Text)
  | existingDirectoryIds
  | reparseModifiedFile (d : Discovered)
  | reparseNewFile (d : Discovered)
  | pruneOrphanDirectories
  | linkFileImportsFor (sources : List Text)
  | runIacPassFor (sources : List Text)
  | relinkInboundEdges (edges : Multiset Edge) (rows : Multiset StoredRow)
  | restoreSites (ids : Finset Text)

/-- The store, and the directories the refresh knows of. -/
@[ext]
structure ApplyState where
  store : LayeredStore
  dirNodesInserted : Finset (List Text) := ∅

namespace ApplyState

variable {Content : Type} (F : FrontEnd Content) (current : SourceTree Content)

/-- A statement that knows of no directory. -/
def onStore (st : ApplyState) (f : LayeredStore → LayeredStore) : ApplyState :=
  { st with store := f st.store }

def exec (st : ApplyState) : Stmt → ApplyState
  | .markUnresolved ids => st.onStore fun s =>
      { s with isResolved := fun id => if id ∈ ids then false else s.isResolved id }
  | .clearReasons ids => st.onStore fun s =>
      { s with reason := fun id => if id ∈ ids then Resolver.noReason else s.reason id }
  | .purgeFileSymbols rel => st.onStore (·.detachDelete fun k => inFile rel [] <+: k.2)
  | .purgeOutboundLightLinks rel => st.onStore fun s =>
      { s with
        index := CodeGraph.purgeOutboundLightLinks s.index rel
        layers := s.layers.deleteEdges fun r =>
          r.table.name.toList ∈ lightLinkTables ∧ r.source = rel }
  | .purgeFileNode rel => st.onStore (·.detachDelete fun k => k = (.file, rel))
  | .purgeFileContent rel => st.onStore (·.detachDelete fun k => k = (.fileContent, rel))
  | .existingDirectoryIds =>
      { st with dirNodesInserted := CodeGraph.existingDirectoryIds st.store.index }
  | .reparseModifiedFile d => st.onStore fun s =>
      s.reparsed d.rel (CodeGraph.reparseModifiedFile F current s.index d)
  | .reparseNewFile d =>
      let acc := CodeGraph.reparseNewFile F current (st.store.index, st.dirNodesInserted) d
      ⟨st.store.reparsed d.rel acc.1, acc.2⟩
  | .pruneOrphanDirectories => st.onStore fun s =>
      { s with index := CodeGraph.pruneOrphanDirectories s.index }
  | .linkFileImportsFor sources => st.onStore fun s =>
      { s with index := LightLink.linkFileImportsFor F s.index current sources }
  | .runIacPassFor sources => st.onStore fun s =>
      { s with index := Iac.runIacPassFor F s.index current sources }
  | .relinkInboundEdges edges rows => st.onStore fun s =>
      { s with index := CodeGraph.relinkInboundEdges s.index edges }.insertRows
        (rows.map LayeredStore.relinkedRow)
  | .restoreSites ids => st.onStore fun s =>
      { s with isResolved := fun id => (id ∈ ids ∧ id ∈ s.sitesWithEdge) || s.isResolved id }

end ApplyState

/-! ## The refresh -/

namespace LayeredStore

variable {Content : Type} (s : LayeredStore) (changes : ChangeSet)

def reopenSites : List Stmt :=
  [.markUnresolved (s.reopened changes), .clearReasons (s.reopened changes)]

def purgeStmts : List Stmt :=
  (changes.changedRels.flatMap fun rel =>
    [.purgeFileSymbols rel, .purgeOutboundLightLinks rel, .purgeFileContent rel]) ++
  changes.goneRels.flatMap fun rel =>
    [.purgeFileSymbols rel, .purgeFileNode rel, .purgeFileContent rel]

def reparseStmts : List Stmt :=
  .existingDirectoryIds :: changes.changed.map .reparseModifiedFile ++
    (changes.added ++ changes.renamed.map Rename.newFile).map .reparseNewFile

/-- The passes out of the files read again. -/
def passStmts (current : SourceTree Content) : List Stmt :=
  let sources := (current.rels.sort (· ≤ ·)).filter (· ∈ changes.reparsedSet)
  (if changes.deleted ≠ [] ∨ changes.renamed ≠ [] then [.pruneOrphanDirectories] else []) ++
    if sources ≠ [] then [.linkFileImportsFor sources, .runIacPassFor sources] else []

def relinkStmts : List Stmt :=
  [.relinkInboundEdges (snapshotInboundEdges s.index changes) (s.savedRows changes),
    .restoreSites (s.reopened changes)]

/-- What a refresh runs, read off the store it starts from. -/
def refreshStmts (current : SourceTree Content) : List Stmt :=
  s.reopenSites changes ++ purgeStmts changes ++ reparseStmts changes ++
    passStmts changes current ++ s.relinkStmts changes

/-- A refresh that no failure stops. -/
def applyChanges (F : FrontEnd Content) (current : SourceTree Content) : LayeredStore :=
  (Runs.run (ApplyState.exec F current) (s.refreshStmts changes current) { store := s }).store

end LayeredStore

end CodeGraph
