import CodeGraph.Classify
import CodeGraph.FullIndex

/-!
# The incremental index

A change set applied to the graph of an earlier tree: what the edited files own
is purged, those files are read again, directories left empty are removed, and
the links out of the files read again are derived anew.
-/

namespace CodeGraph

namespace ChangeSet

variable (changes : ChangeSet)

def changedRels : List Text := changes.changed.map Discovered.rel

def newRels : List Text := changes.renamed.map fun r => r.newFile.rel

def oldRels : List Text := changes.renamed.map Rename.oldRel

/-- The files read again. -/
def reparsedSet : List Text :=
  changes.changedRels ++ changes.added.map Discovered.rel ++ changes.newRels

def goneRels : List Text := changes.deleted ++ changes.oldRels

end ChangeSet

/-! ## Inbound edges -/

/-- The file a node id belongs to. -/
def owningFile (id : Text) : Text :=
  match breakOn "::".toList id with
  | some (before, _) => before
  | none => id

/-- The kinds that cross files; at this stage there are no calls yet. -/
def isResolutionKind : EdgeKind → Bool
  | .imports | .references => true
  | .contains | .defines | .hasMethod | .hasField | .hasVariant | .astChild => false

def inScope (rel : Text) (key : Key) : Bool := inFile rel [] <+: key.2

/-- The edges into a symbol of a changed file out of a file not read again. -/
def snapshotInboundEdges (g : Graph) (changes : ChangeSet) : Multiset Edge :=
  g.edges.filter fun e =>
    isResolutionKind e.kind ∧ e.dst.1 ≠ .file ∧ e.dst.1 ≠ .directory ∧
      (changes.changedRels.any (inScope · e.dst)) ∧ owningFile e.src.2 ∉ changes.reparsedSet

/-- A saved edge as it is created again. -/
def relinked (e : Edge) : Edge :=
  { e with
    props :=
      match e.props with
      | .provenance confidence method =>
          .provenance (if confidence.all Char.isWhitespace then "1.0".toList else confidence) method
      | _ => .provenance "1.0".toList [] }

def relinkInboundEdges (g : Graph) (saved : Multiset Edge) : Graph :=
  g.insertEdges (saved.map relinked)

/-! ## Purge -/

def purgeFileSymbols (g : Graph) (rel : Text) : Graph := g.detachDelete (inScope rel)

def purgeFileNode (g : Graph) (rel : Text) : Graph := g.detachDelete fun k => k = (.file, rel)

def purgeFileContent (g : Graph) (rel : Text) : Graph :=
  g.detachDelete fun k => k = (.fileContent, rel)

/-- A link between two files. -/
def isLightLink (e : Edge) : Bool :=
  isResolutionKind e.kind && decide (e.src.1 = .file ∧ e.dst.1 = .file)

def purgeOutboundLightLinks (g : Graph) (rel : Text) : Graph :=
  g.deleteEdges fun e => isLightLink e && decide (e.src = (.file, rel))

def purgeModified (g : Graph) (rel : Text) : Graph :=
  purgeFileContent (purgeOutboundLightLinks (purgeFileSymbols g rel) rel) rel

def purgeGone (g : Graph) (rel : Text) : Graph :=
  purgeFileContent (purgeFileNode (purgeFileSymbols g rel) rel) rel

def purge (g : Graph) (changes : ChangeSet) : Graph :=
  changes.goneRels.foldl purgeGone (changes.changedRels.foldl purgeModified g)

/-- The directories of the graph, by their components. -/
def existingDirectoryIds (g : Graph) : Finset (List Text) :=
  ((g.nodes.filter fun n => n.row.label = .directory).map fun n => splitOnChar '/' n.id).toFinset

/-- Removes the directories nothing is in any more. -/
def pruneOrphanDirectories (g : Graph) : Graph :=
  g.prune (fun k => decide (k.1 = .directory)) maxDepth

/-! ## Reading files again -/

variable {Content : Type} (F : FrontEnd Content)

def resetFile (rel : Text) (sizeBytes : Nat) (n : Node) : Node :=
  match n.row with
  | .file name ext _ _ => if n.id = rel then ⟨n.id, .file name ext sizeBytes 0⟩ else n
  | _ => n

theorem key_resetFile (rel : Text) (size : Nat) (n : Node) :
    Keyed.key (resetFile rel size n) = Keyed.key n := by
  obtain ⟨id, row⟩ := n
  cases row with
  | file name ext oldSize errors =>
      show Keyed.key (if id = rel then _ else _) = _
      split <;> rfl
  | _ => rfl

/-- The kept node of a modified file is reset, and its symbols are written again. -/
def reparseModifiedFile (current : SourceTree Content) (g : Graph) (d : Discovered) : Graph :=
  (indexSingleFile F d.rel (current.content d.rel)
    { store := g.update (resetFile d.rel d.size), labelByQn := {(.file, d.rel)} }).settled

def reparseNewFile (current : SourceTree Content) (acc : Graph × Finset (List Text))
    (d : Discovered) : Graph × Finset (List Text) :=
  let st := indexFile F d.rel (current.content d.rel)
    { store := acc.1, dirNodesInserted := acc.2 }
  (st.settled, st.dirNodesInserted)

/-- The changed files, then the added ones, then the renamed ones. -/
def reparse (current : SourceTree Content) (g : Graph) (changes : ChangeSet) : Graph :=
  let dirs := existingDirectoryIds g
  let g := changes.changed.foldl (reparseModifiedFile F current) g
  let acc := changes.added.foldl (reparseNewFile F current) (g, dirs)
  ((changes.renamed.map Rename.newFile).foldl (reparseNewFile F current) acc).1

/-- Brings the graph of an earlier tree to the current one. -/
def applyChanges (g : Graph) (changes : ChangeSet) (current : SourceTree Content) : Graph :=
  let saved := snapshotInboundEdges g changes
  let g := reparse F current (purge g changes) changes
  let g := if changes.deleted ≠ [] ∨ changes.renamed ≠ [] then pruneOrphanDirectories g else g
  let sources := (current.rels.sort (· ≤ ·)).filter (· ∈ changes.reparsedSet)
  let g := if sources ≠ [] then LightLink.linkFileImportsFor F g current sources else g
  let g := if sources ≠ [] then Iac.runIacPassFor F g current sources else g
  relinkInboundEdges g saved

end CodeGraph
