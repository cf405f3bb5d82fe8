import CodeGraph.ApplyChanges
import CodeGraph.Lib.Runs
import CodeGraph.ResolveGraph

/-!
# A run of the resolver over a store

Before it reads the rows that are there, a run takes back those of earlier runs
that may no longer hold: the rows of the macro pass, the calls by a twin the
build chose or by a return type, and the language server's calls of a twin the
build compiles out. What it then stages goes behind the rows that are left.

`mem_resetEarlier` says which rows a run takes back, `hasKey_resolveGraph` which
keys are there behind it.
-/

namespace CodeGraph

namespace Resolver

open Schema AmbiguityPolicy Unmet

/-- The tree last indexed, whose nodes both indexes leave (`indexCodebase_eq`,
`applyChanges_eq`), the columns, the rows of the resolvers, and the two columns
of the call sites that they write. -/
structure Store (Content Cargo : Type) where
  tree : SourceTree Content
  columns : Columns Cargo
  rows : List RelRow
  isResolved : Text → Bool
  reason : Text → Reason

/-! ## What a run takes back -/

variable {Content Cargo : Type} (F : FrontEnd Content) (R : Rules Cargo)

namespace Store

def nodes (s : Store Content Cargo) : Multiset Node := treeNodes F s.tree

def view (s : Store Content Cargo) : TwinView := loadView (s.nodes F) s.columns

def deleteRows (s : Store Content Cargo) (gone : RelRow → Bool) : Store Content Cargo :=
  { s with rows := s.rows.filter (!gone ·) }

/-- Some row of the site is deleted. -/
def losesRow (s : Store Content Cargo) (gone : RelRow → Bool) (id : Text) : Bool :=
  s.rows.any fun r => r.table.isSite && gone r && r.source = id

/-- Opens the sites that lose a row of their own. -/
def reopen (s : Store Content Cargo) (gone : RelRow → Bool) : Store Content Cargo :=
  { s with isResolved := fun id => s.isResolved id && !s.losesRow gone id }

def resetCallRows (s : Store Content Cargo) (method : Text) : Store Content Cargo :=
  let gone r := r.table.isCall && r.method = method
  (s.reopen gone).deleteRows gone

def isMacroSite (s : Store Content Cargo) (id : Text) : Bool :=
  (callSites R (s.nodes F)).any fun site => site.isRustMacro && site.id = id

def resetMacroExpansion (s : Store Content Cargo) : Store Content Cargo :=
  { s.deleteRows fun r => r.table.isMacro && "macro-expansion".toList.isPrefixOf r.method with
    isResolved := fun id => s.isResolved id && !s.isMacroSite F R id }

def IsTwinIn (files : Multiset Text) (id : Text) : Prop :=
  hasCfgGate id ∨ ∃ file ∈ files, file ++ "::".toList <+: id

instance (files : Multiset Text) (id : Text) : Decidable (IsTwinIn files id) :=
  have : Decidable (∃ file ∈ files, file ++ "::".toList <+: id) := Multiset.decidableExistsMultiset
  inferInstanceAs (Decidable (_ ∨ _))

def reasonCfgTwins : Reason := ("cfg_twins".toList, [])

def resetLspTwinRows (s : Store Content Cargo) (files : Multiset Text) (drop : Text → Text → Bool) :
    Store Content Cargo :=
  let gone r := r.table.isCall && r.method = lspDefinition && IsTwinIn files r.target &&
    drop r.source r.target
  { (s.reopen gone).deleteRows gone with
    reason := fun id => if s.losesRow gone id then reasonCfgTwins else s.reason id }

/-- Without a twin and without a gated or compiled-out file nothing is read. -/
def HasNoTwin (s : Store Content Cargo) : Prop :=
  (s.nodes F).filter IsTwinNode = 0 ∧ twinFiles (s.nodes F) s.columns = 0

instance (s : Store Content Cargo) : Decidable (s.HasNoTwin F) :=
  inferInstanceAs (Decidable (_ ∧ _))

def resetCompiledOutLspRows (s : Store Content Cargo) : Store Content Cargo :=
  if s.HasNoTwin F then s
  else s.resetLspTwinRows (twinFiles (s.nodes F) s.columns) (isCompiledOut (s.view F))

/-- All that a run takes back before it reads the rows. -/
def resetEarlier (s : Store Content Cargo) : Store Content Cargo :=
  (((s.resetMacroExpansion F R).resetCallRows (resolutionLabel .cfgSelected)).resetCallRows
    (resolutionLabel .receiverReturnType)).resetCompiledOutLspRows F

/-! ## The run -/

/-- The site is given a row by the run. -/
def isDecided (s : Store Content Cargo) (id : Text) : Bool :=
  (callSites R (s.nodes F)).any fun site =>
    site.id = id && (settled R (s.nodes F) s.columns site).isOk

/-- The reason the run gives a site it leaves open. -/
def leftOpen (s : Store Content Cargo) (id : Text) : Option Reason :=
  (callSites R (s.nodes F)).findSome? fun site =>
    if site.id = id then
      match settled R (s.nodes F) s.columns site with
      | .ok _ => none
      | .error why => some why
    else none

def staged (s : Store Content Cargo) : List RelRow := stagedRows R (s.nodes F) s.columns

/-- Writes what is staged. A site that is left open keeps its flag, and the
reason of a site flagged as resolved is not written. -/
def writeRun (s : Store Content Cargo) : Store Content Cargo :=
  let buf : EdgeBuffer := { persisted := keysOf RelRow.key s.rows }
  { s with
    rows := (buf.addAll (s.staged F R)).flush (s.nodes F) s.rows
    isResolved := fun id => s.isResolved id || s.isDecided F R id
    reason := fun id =>
      if s.isDecided F R id then noReason
      else if s.isResolved id then s.reason id
      else (s.leftOpen F R id).getD (s.reason id) }

def resolveGraph (s : Store Content Cargo) : Store Content Cargo := (s.resetEarlier F R).writeRun F R

end Store

end Resolver

end CodeGraph

/-!
## What happens to a store

The passes that take turns on a store: the full and the incremental index, the
columns written anew, the resolver and the language server.
-/

namespace CodeGraph

namespace Resolver

open Schema AmbiguityPolicy

namespace Store

variable {Content Cargo : Type} (F : FrontEnd Content) (R : Rules Cargo)

/-- The store a full index leaves: no row of a resolver is there. -/
def indexed (tree : SourceTree Content) (columns : Columns Cargo) : Store Content Cargo :=
  { tree, columns, rows := [], isResolved := fun _ => false, reason := fun _ => noReason }

/-! ## The incremental index -/

def inFiles (rels : List Text) (id : Text) : Bool := rels.any fun rel => inFile rel [] <+: id

/-- The purge deletes the nodes with the id. -/
def isPurged (changes : ChangeSet) (id : Text) : Bool :=
  inFiles (changes.changedRels ++ changes.goneRels) id || changes.goneRels.contains id

/-- A link out of a changed file, deleted by itself. -/
def isOutboundLink (changes : ChangeSet) (r : RelRow) : Bool :=
  r.table = ⟨.imports, .file, .file⟩ && changes.changedRels.contains r.source

/-- A row into a declaration of a changed file out of a file not read again. -/
def isSaved (changes : ChangeSet) (r : RelRow) : Bool :=
  r.table.toLabel ≠ .file && inFiles changes.changedRels r.target &&
    !changes.reparsedSet.contains (owningFile r.source)

/-- The rows the purge leaves, and those put back once the files are read again. -/
def refreshedRows (s : Store Content Cargo) (changes : ChangeSet) (after : SourceTree Content) :
    List RelRow :=
  insertEdges (treeNodes F after)
    (s.rows.filter fun r => !isPurged changes r.source && !isPurged changes r.target &&
      !isOutboundLink changes r)
    (s.rows.filter (isSaved changes))

/-- A site of another file that holds a row of its own into a purged one. -/
def isReopened (s : Store Content Cargo) (changes : ChangeSet) (id : Text) : Bool :=
  let purged := changes.changedRels ++ changes.goneRels
  !(changes.reparsedSet ++ purged).contains (owningFile id) &&
    s.losesRow (fun r => inFiles purged r.target) id

/-- The site is deleted, and created anew if it is still written. -/
def isCreated (changes : ChangeSet) (id : Text) : Bool :=
  inFiles (changes.changedRels ++ changes.goneRels) id

/-- The incremental index. A reopened site is resolved again when it holds a row of
its own at the end. -/
def refresh (s : Store Content Cargo) (changes : ChangeSet) (after : SourceTree Content)
    (columns : Columns Cargo) : Store Content Cargo :=
  let rows := s.refreshedRows F changes after
  { tree := after
    columns := columns
    rows := rows
    isResolved := fun id =>
      if s.isReopened changes id then rows.any fun r => r.table.isSite && r.source = id
      else if isCreated changes id then false
      else s.isResolved id
    reason := fun id =>
      if s.isReopened changes id ∨ isCreated changes id then noReason else s.reason id }

/-! ## The language server -/

/-- What the pass learns of a site: its file is compiled by no target, the
definition lies outside the tree, or at a line of a file of it, or nothing. -/
inductive LspAnswer where
  | outsideTargets
  | external
  | definition (file : Text) (line : Nat)
  | nothing

structure NodePosition where
  id : Text
  label : EndLabel
  deriving DecidableEq

def positionLabels : List SymbolLabel := [.function, .method, .struct, .enum, .trait]

/-- The declaration of a label that starts at the line of the file. -/
def NodePosition.ofNode (file : Text) (line : Nat) (label : SymbolLabel) (n : Node) :
    Option NodePosition :=
  match n.row with
  | .symbol _ node =>
      if node.label = label ∧ extractFilePrefixOrSelf n.id = file ∧ node.startLine = line then
        some { id := n.id, label := .symbol label }
      else none
  | _ => none

/-- The node indexed at a line: of two there, the one read last. -/
def findNodeAtPosition (ns : Multiset Node) (file : Text) (line : Nat) : Option NodePosition :=
  (positionLabels.flatMap fun label =>
    (R.scan ns).filterMap (NodePosition.ofNode file line label)).getLast?

/-- The last segment of a callee: what follows the last `.` or `::`. -/
def identifierName (callee : Text) : Text :=
  let afterDot := lastPiece ".".toList callee
  let afterScope := lastPiece "::".toList callee
  if afterDot.length ≤ afterScope.length then afterDot else afterScope

def resolvedTargetMatches (target : NodePosition) (site : CallSite) : Bool :=
  stripCfgGates (lastPiece "::".toList target.id) = identifierName site.calleeName

/-- A caller that is no callable reads as a function. -/
def lspCallerLabel (ns : Multiset Node) (callerQn : Text) : EndLabel :=
  (callables.find? fun label => HasNode ns label callerQn).getD (.symbol .function)

inductive LspEdge where
  | added (rows : List RelRow)
  | compiledOutTwin
  | external
  | notAdded
  deriving DecidableEq

/-- What one answer does to the graph. -/
def lspEdge (ns : Multiset Node) (cols : Columns Cargo) (site : CallSite) : LspAnswer → LspEdge
  | .external => .external
  | .outsideTargets | .nothing => .notAdded
  | .definition file line =>
      match findNodeAtPosition R ns file line with
      | none => .notAdded
      | some target =>
          if !resolvedTargetMatches target site then .notAdded
          else if isCompiledOut (loadView ns cols) site.id target.id then .compiledOutTwin
          else
            match callRelTable (lspCallerLabel ns site.caller) target.label with
            | none => .notAdded
            | some rel =>
                if isKnownRelTable rel then
                  let row table source :=
                    { table, source, target := target.id, confidence := 9 / 10,
                      method := lspDefinition }
                  .added (row rel site.caller ::
                    ((callSiteRelTable target.label).map (row · site.id)).toList)
                else .notAdded

/-- The sites the pass asks about. -/
def openSites (s : Store Content Cargo) : List CallSite :=
  (callSites R (s.nodes F)).filter fun site => !s.isResolved site.id && !site.isRustMacro

def lspSiteRows (s : Store Content Cargo) (answers : Text → LspAnswer) (site : CallSite) :
    List RelRow :=
  match lspEdge R (s.nodes F) s.columns site (answers site.id) with
  | .added rows => rows
  | _ => []

/-- Some open site of the id satisfies `p` of what its answer does. -/
def anyOpen (s : Store Content Cargo) (answers : Text → LspAnswer) (p : LspEdge → Bool) (id : Text) :
    Bool :=
  (s.openSites F R).any fun site =>
    site.id = id && p (lspEdge R (s.nodes F) s.columns site (answers id))

def reasonOutsideTargets : Reason := ("outside_compiled_targets".toList, [])

/-- The reasons that name a gap of the resolver. -/
def improvable : List Text :=
  ["declined_by_scope", "ambiguous_candidates", "no_receiver_type", "not_found",
    "unknown_callee"].map String.toList

def LspEdge.isAdded : LspEdge → Bool
  | .added _ => true
  | _ => false

/-- One pass: a row at a time where there is none yet, then the columns. -/
def lspPass (s : Store Content Cargo) (answers : Text → LspAnswer) : Store Content Cargo :=
  { s with
    rows := ((s.openSites F R).flatMap (s.lspSiteRows F R answers)).foldl
      (insertEdgeIfAbsent (s.nodes F)) s.rows
    isResolved := fun id => s.isResolved id || s.anyOpen F R answers LspEdge.isAdded id
    reason := fun id =>
      if s.anyOpen F R answers LspEdge.isAdded id then noReason
      else if s.anyOpen F R answers (· = .compiledOutTwin) id then reasonCfgTwins
      else if s.anyOpen F R answers (· = .external) id ∧ (s.reason id).1 ∈ improvable then
        ("external_callee".toList, "lsp_definition".toList)
      else if (s.openSites F R).any (·.id = id) ∧ answers id matches .outsideTargets then
        reasonOutsideTargets
      else s.reason id }

end Store

/-! ## Runs -/

inductive Event (Content Cargo : Type) where
  | index (tree : SourceTree Content) (columns : Columns Cargo)
  | refresh (changes : ChangeSet) (after : SourceTree Content) (columns : Columns Cargo)
  /-- The columns and the Cargo facts change under the store. -/
  | rewrite (columns : Columns Cargo)
  | resolve
  | lsp (answers : Text → Store.LspAnswer)

variable {Content Cargo : Type} (F : FrontEnd Content) (R : Rules Cargo)

def step (s : Store Content Cargo) : Event Content Cargo → Store Content Cargo
  | .index tree columns => .indexed tree columns
  | .refresh changes after columns => s.refresh F changes after columns
  | .rewrite columns => { s with columns := columns }
  | .resolve => s.resolveGraph F R
  | .lsp answers => s.lspPass F R answers

end Resolver

end CodeGraph
