import CodeGraph.CallReasons
import CodeGraph.GraphSchema
import CodeGraph.ImpactResponse
import CodeGraph.Lib.Asked

/-!
# The queries behind a blast radius

`get_impact`: the dependents of a target, table by table, and the reasons why they may not
be all (`resolve_epistemics`): a trait, an edge below full confidence, an open call site
that names the target, documents that were never read for references, a twin under
another gate. Each reason is looked for by queries, any of which can fail, and most of
which are then taken to have found nothing.
-/

namespace CodeGraph

namespace Radius

open Schema (NodeLabel RelTable relTables)
open Impact (Boundary TwinRow lastSegment)
open Resolver (stripGenerics calleeNamesType)

/-! ## The graph -/

/-- A node, with the columns that the queries read; a column that a label lacks is empty. -/
structure Node where
  label : NodeLabel
  id : Text
  qualifiedName : Text
  name : Text
  cfgGate : Text
  cfgActive : Text
  language : Text
  receiverType : Text
  traitName : Text
  aliasName : Text

structure Edge where
  source : Node
  target : Node
  confidence : Option ℚ

/-- A call site; the flag is none where the row has none. -/
structure Site where
  id : Text
  calleeName : Text
  isResolved : Option Bool
  unresolvedReason : Text
  language : Text
  receiverHint : Text

inductive Query where
  /-- `node_column_exists` -/
  | column (label : NodeLabel) (column : String)
  | target (label : NodeLabel)
  | dependents (table : String)
  | sites
  | countSites
  /-- the target as a method, and its owner as a struct or an enum -/
  | method
  | owner (label : NodeLabel)
  /-- a type, an alias or an import of that name, and the impls of `Deref` for it -/
  | named (label : NodeLabel) (name : Text)
  | derefs (name : Text)
  | twins (label : NodeLabel)
  | fileNode
  | docFiles
  | references
  deriving DecidableEq

/-- A graph, and the queries that fail on it. -/
structure Store where
  nodes : List Node
  /-- the rows of a relationship table -/
  edges : String → List Edge
  sites : List Site
  /-- what the walk of the `mod` declarations wrote of a file -/
  files : Text → Option FileCfg
  hasColumn : NodeLabel → String → Bool
  fails : Query → Bool

/-- Answers, with the queries behind them. -/
abbrev Ask := Asked Query

variable (cc : CharClass) (store : Store) (target : Text)

namespace Store

def run {α : Type} (q : Query) (rows : α) : Ask (Option α) := Asked.ask store.fails q rows

/-- `node_column_exists(..).unwrap_or(false)` -/
def nodeColumnExists (label : NodeLabel) (column : String) : Ask Bool := do
  return (← store.run (.column label column) (store.hasColumn label column)).getD false

/-- `exists` of `impact_other_owner`, none for a query that fails. -/
def found (q : Query) (p : Node → Bool) : Ask (Option Bool) := store.run q (store.nodes.any p)

def table (table : RelTable) : List Edge := store.edges table.name

end Store

/-! ## Dependents -/

def labelHasQualifiedName (label : NodeLabel) : Bool :=
  label ∈ [.module, .function, .method, .struct, .enum, .variant, .trait, .constant, .typeAlias,
    .version, .iacResource, .iacModule]

/-- `relation_confidence_floor` -/
def relationConfidenceFloor (kind : String) : ℚ :=
  if kind = "Calls_" then 9 / 10
  else if kind = "Implements_" ∨ kind = "Extends_" then 17 / 20
  else if kind = "Uses_" then 4 / 5
  else if kind = "Imports_" then 9 / 10
  else 1

structure Dependent where
  id : Text
  qualifiedName : Text
  label : NodeLabel
  confidence : ℚ

def dependentNode (floor : ℚ) (table : RelTable) (e : Edge) : Dependent where
  id := e.source.id
  qualifiedName := if labelHasQualifiedName table.fromLabel then e.source.qualifiedName
    else e.source.id
  label := table.fromLabel
  confidence := e.confidence.getD floor

def tablesOf (kind : String) : List RelTable :=
  relTables.filter fun table => kind.toList.isPrefixOf table.name.toList ∧ table.fromLabel ≠ .callSite

/-- `b.id = target`, or its qualified name where the label has the column. -/
def reaches (table : RelTable) (e : Edge) : Bool :=
  e.target.id = target ∨ (labelHasQualifiedName table.toLabel ∧ e.target.qualifiedName = target)

def reverseDependents (kind : String) : Ask (List Dependent) :=
  Asked.gather (fun table => do
    let rows ← store.run (.dependents table.name) ((store.table table).filter (reaches target table))
    return (rows.getD []).map (dependentNode (relationConfidenceFloor kind) table)) (tablesOf kind)

structure Dependents where
  callers : List Dependent
  importers : List Dependent
  users : List Dependent
  implementors : List Dependent
  references : List Dependent

def Dependents.all (deps : Dependents) : List Dependent :=
  deps.callers ++ deps.importers ++ deps.users ++ deps.implementors ++ deps.references

def collectDependents : Ask Dependents := do
  return {
    callers := ← reverseDependents store target "Calls_"
    importers := ← reverseDependents store target "Imports_"
    users := ← reverseDependents store target "Uses_"
    implementors := ← reverseDependents store target "Implements_"
    references := ← reverseDependents store target "References_" }

/-! ## Sites of another owner -/

/-- `CLOSED_STD_TYPES` -/
def closedStdTypes : List Text :=
  ["bool", "char", "str", "u8", "u16", "u32", "u64", "u128", "usize", "i8", "i16", "i32", "i64",
    "i128", "isize", "f32", "f64", "String", "Vec", "VecDeque", "HashMap", "HashSet", "BTreeMap",
    "BTreeSet", "BinaryHeap", "Option", "Result"].map String.toList

structure OtherOwnerFilter where
  owner : Text
  traitName : Option Text

/-- The filter of a Rust method whose owner is a struct or an enum of the repository. -/
def forTarget : Ask (Option OtherOwnerFilter) := do
  let isMethod (m : Node) : Bool :=
    m.label = .method ∧ (m.id = target ∨ m.qualifiedName = target) ∧ m.language = "rust".toList
  match ← store.run .method (store.nodes.find? isMethod) with
  | none | some none => return none
  | some (some m) =>
      let ownerQn := stripGenerics (trim cc m.receiverType)
      let traitName := lastPiece "::".toList (stripGenerics (trim cc m.traitName))
      let concrete ← Asked.anyOf (fun label => do
        return (← store.found (.owner label) fun n =>
          n.label = label ∧ n.qualifiedName = ownerQn) = some true) [NodeLabel.struct, .enum]
      let owner := lastPiece "::".toList ownerQn
      return if concrete ∧ owner ≠ [] then
        some ⟨owner, if traitName = [] then none else some traitName⟩ else none

/-- The borrows and `mut`s in front of a type. -/
def withoutBorrows (rest : Text) : Text :=
  match stripPrefix ['&'] rest with
  | some next =>
      let next := next.dropWhile cc.isWhitespace
      if next.length < rest.length then withoutBorrows next else rest
  | none =>
      match stripPrefix "mut ".toList rest with
      | some next =>
          let next := next.dropWhile cc.isWhitespace
          if next.length < rest.length then withoutBorrows next else rest
      | none => rest
termination_by rest.length

/-- The type that a receiver hint names, none for a hint that is no plain type name. -/
def hintTypeName (hint : Text) : Option Text :=
  let plain := stripGenerics (withoutBorrows cc (trim cc hint))
  if plain ≠ [] ∧ plain.all (fun c => c.isAlphanum || c = '_' || c = ':') then
    let name := lastPiece "::".toList plain
    if name = [] then none else some name
  else none

namespace OtherOwnerFilter

variable (f : OtherOwnerFilter)

def isSelfOrOwner (name : Text) : Bool := name = "Self".toList || name = "self".toList || name = f.owner

def isRepoType (name : Text) : Ask Bool :=
  Asked.anyOf (fun label => do
    return (← store.found (.named label name) fun n => n.label = label ∧ n.name = name) = some true)
    [NodeLabel.struct, .enum]

/-- A query that fails reads as aliased. -/
def isAliased (name : Text) : Ask Bool :=
  Asked.anyOf (fun label => do
    return (← store.found (.named label name) fun n => n.label = label ∧
      (if label = .imported then n.aliasName else n.name) = name) ≠ some false)
    [NodeLabel.typeAlias, .imported]

/-- A query that fails reads as dereferencing. -/
def typeDerefs (name : Text) : Ask Bool := do
  return (← store.found (.derefs name) fun m => m.label = .method ∧
    "Deref".toList <:+: m.traitName ∧ "::".toList ++ name <:+: m.receiverType) ≠ some false

/-- `Q::name` where the qualifier is another owner. -/
def pathIsAnotherOwner (qualifier reason : Text) : Ask Bool := do
  if f.isSelfOrOwner qualifier then return false
  else if ← isAliased store qualifier then return false
  else if ← isRepoType store qualifier then return true
  else if reason ≠ "external_callee".toList then return false
  else
    match f.traitName with
    | none => return true
    | some _ => return qualifier ∈ closedStdTypes

/-- `x.name` where the written type of `x` is another owner. -/
def receiverIsAnotherType (hint : Text) : Ask Bool :=
  match hintTypeName cc hint with
  | none => return false
  | some name => do
      if f.isSelfOrOwner name then return false
      else if ← isAliased store name then return false
      else if ← isRepoType store name then return !(← typeDerefs store name)
      else return name ∈ closedStdTypes

def excludes (callee receiverHint reason language : Text) : Ask Bool :=
  if language ≠ "rust".toList then return false
  else if '.' ∈ callee then f.receiverIsAnotherType cc store receiverHint
  else
    match calleeNamesType callee with
    | some qualifier => f.pathIsAnotherOwner store qualifier reason
    | none => return false

end OtherOwnerFilter

/-! ## Open call sites -/

structure Attribution where
  total : ℕ
  outsideTargets : ℕ
  outsideTargetFiles : List Text
  cfgTwins : ℕ
  byReason : List (Text × ℕ)
  excludedOtherOwner : ℕ

/-- `unresolved_name_filter`: a missing flag is not false. -/
def namesTarget (bare : Text) (site : Site) : Bool :=
  site.isResolved = some false ∧ (site.calleeName = bare ∨ '.' :: bare <:+ site.calleeName ∨
    "::".toList ++ bare <:+ site.calleeName)

def reasonOrNotRecorded (reason : Text) : Text :=
  if reason = [] then "not_recorded".toList else reason

def countByReason (reasons : List Text) : List (Text × ℕ) :=
  Tally.collect (reasons.map fun r => (reasonOrNotRecorded r, 1))

/-- A graph without the reason column: the sites are counted, and that is all. -/
def attributionWithoutReasonColumn (bare : Text) : Ask Attribution := do
  let total := (← store.run .countSites (store.sites.countP (namesTarget bare))).getD 0
  return {
    total
    outsideTargets := 0
    outsideTargetFiles := []
    cfgTwins := 0
    byReason := if 0 < total then [("not_recorded".toList, total)] else []
    excludedOtherOwner := 0 }

/-- The row of a site as the query returns it; the hint column is asked for when there is one. -/
def excludesRow (f : OtherOwnerFilter) (hasHint : Bool) (site : Site) : Ask Bool :=
  f.excludes cc store site.calleeName (if hasHint then site.receiverHint else [])
    site.unresolvedReason site.language

def dropOtherOwnerSites (hasHint : Bool) (rows : List Site) : Ask (List Site × ℕ) := do
  match ← forTarget cc store target with
  | none => return (rows, 0)
  | some f =>
      let kept ← Asked.keep (fun site => do return !(← excludesRow cc store f hasHint site)) rows
      return (kept, rows.length - kept.length)

def unresolvedCallsiteAttribution (bare : Text) : Ask Attribution := do
  if ← store.nodeColumnExists .callSite "unresolved_reason" then
    let hasHint ← store.nodeColumnExists .callSite "receiver_hint"
    let allRows := (← store.run .sites (store.sites.filter (namesTarget bare))).getD []
    let (rows, excludedOtherOwner) ← dropOtherOwnerSites cc store target hasHint allRows
    let outside := rows.filter fun site => site.unresolvedReason = "outside_compiled_targets".toList
    return {
      total := rows.length
      outsideTargets := outside.length
      outsideTargetFiles :=
        SortDedup.sortDedup id (outside.map fun site => extractFilePrefixOrSelf site.id)
      cfgTwins := rows.countP fun site => site.unresolvedReason = "cfg_twins".toList
      byReason := countByReason (rows.map Site.unresolvedReason)
      excludedOtherOwner }
  else attributionWithoutReasonColumn store bare

/-! ## Reasons -/

def decimal (n : ℕ) : Text := Nat.toDigits 10 n

/-- `SYMBOL_LABELS` of `clustering` -/
def symbolLabels : List NodeLabel :=
  [.function, .method, .struct, .enum, .trait, .constant, .typeAlias, .module]

def Node.isTarget (label : NodeLabel) (n : Node) : Bool :=
  n.label = label ∧ (n.id = target ∨ n.qualifiedName = target)

/-- The first label with a node of that id or name; a query that fails finds none. -/
def lookupTargetLabel : Ask (Option NodeLabel) :=
  Asked.first (fun label => do
    return (← store.found (.target label) (Node.isTarget target label)).getD false) symbolLabels

/-- `DYNAMIC_DISPATCH_LABELS` -/
def isDynamicDispatchSurface (label : NodeLabel) : Bool := label = .trait

def dynamicDispatchReason (implementors : List Dependent) : Ask (Option Text) := do
  match ← lookupTargetLabel store target with
  | none => return none
  | some label =>
      return if isDynamicDispatchSurface label then
        some ("target is a ".toList ++ label.text ++
          (" (dynamic-dispatch surface): call sites that invoke it polymorphically are not " ++
            "exhaustively captured by static resolution; the ").toList ++
          decimal implementors.length ++
          " implementor(s) and direct callers shown are a lower bound".toList)
      else none

def isHeuristicEdge (confidence : ℚ) : Bool := confidence < 1

def heuristicEdgeReason (deps : Dependents) : Option Text :=
  let count := deps.all.countP fun n => isHeuristicEdge n.confidence
  if count = 0 then none
  else some (decimal count ++ (" reverse-dependency edge(s) were resolved heuristically " ++
    "(confidence < 1.0) and may be incomplete or incorrect").toList)

def unresolvedCallsiteReason (attribution : Attribution) : Option Text :=
  if attribution.total = 0 then none
  else
    let n := decimal attribution.total
    let outside := if 0 < attribution.outsideTargets then
        "; ".toList ++ decimal attribution.outsideTargets ++
          " of them sit in files outside the compiled Cargo targets (".toList ++
          joinWith ", ".toList attribution.outsideTargetFiles ++
          (") — unresolvable by the language server; static receiver binding may still " ++
            "resolve them").toList
      else []
    let excluded := if 0 < attribution.excludedOtherOwner then
        "; ".toList ++ decimal attribution.excludedOtherOwner ++
          (" more open call site(s) with the same bare name were left out because their path " ++
            "or receiver names another type").toList
      else []
    some (n ++ " unresolved call site(s) name this symbol — ".toList ++ n ++
      (" `CallSite` node(s) in the graph reference it by name but were never resolved to " ++
        "a Calls edge; the reported callers are a lower bound").toList ++ outside ++ excluded)

def isFileNode : Ask Bool := do
  return (← store.found .fileNode fun f => f.label = .file ∧ f.id = target).getD false

def docExtensions : List Text := [".md", ".markdown", ".mdx", ".sh", ".bash"].map String.toList

def isDocFile (f : Node) : Bool := f.label = .file ∧ docExtensions.any fun ext => ext.isSuffixOf f.id

def missingReferenceIndexingReason : Ask (Option Text) := do
  let docs := (← store.run .docFiles (store.nodes.countP isDocFile)).getD 0
  if docs = 0 then return none
  else if (← store.run .references (!(store.edges "References_File_File").isEmpty)).getD false then
    return none
  else
    return some (decimal docs ++ (" markdown/shell file(s) exist in this graph but it contains " ++
      "zero References_File_File edges — either this graph predates reference-edge indexing " ++
      "(issue #205) or these files are genuinely unreferenced; code-only fan-in over a File " ++
      "target is a lower bound").toList)

def fileReason (references : List Dependent) : Ask (Option Text) := do
  if references = [] then
    if ← isFileNode store target then missingReferenceIndexingReason store else return none
  else return none

def buildEpistemicReasons (attribution : Attribution) (deps : Dependents) : Ask (List Text) := do
  let dispatch ← dynamicDispatchReason store target deps.implementors
  let file ← fileReason store target deps.references
  return dispatch.toList ++ (heuristicEdgeReason deps).toList ++
    (unresolvedCallsiteReason attribution).toList ++ file.toList

/-! ## Twins -/

/-- `CFG_GATE_LABELS` -/
def cfgGateLabels : List NodeLabel :=
  [.module, .function, .method, .struct, .enum, .variant, .trait, .field, .constant, .typeAlias]

def displayGate (own id : Text) : Text :=
  if own ≠ [] then own
  else
    match cfgGatesIn id with
    | [] => []
    | [one] => one
    | many => "all(".toList ++ joinWith [','] many ++ [')']

def normalize (active : Text) : Text :=
  if active = "active".toList ∨ active = "inactive".toList then active else "unknown".toList

/-- A node with a suffix and the name of the item. -/
def hasTwinMark (plain : Text) (label : NodeLabel) (n : Node) : Bool :=
  n.label = label ∧ n.name = lastPiece "::".toList plain ∧ hasCfgGate n.id

def cfgTwinRows (plain : Text) : Ask (List TwinRow) := do
  let rows ← Asked.gather (fun label => do
    let hasActive ← store.nodeColumnExists label "cfg_active"
    let rows ← store.run (.twins label) (store.nodes.filter (hasTwinMark plain label))
    return ((rows.getD []).filter fun n => stripCfgGates n.id = plain).map fun n =>
      ⟨n.id, displayGate n.cfgGate n.id, normalize (if hasActive then n.cfgActive else [])⟩)
    cfgGateLabels
  return SortDedup.sortByKey TwinRow.id rows

def cfgTwinReason (twins : List TwinRow) (attribution : Attribution) : Option Text :=
  if twins.length < 2 then none
  else
    let listing := twins.map fun t => "cfg(".toList ++ t.cfgGate ++ ") is ".toList ++ t.cfgActive
    let openSites := if 0 < attribution.cfgTwins then
        "; ".toList ++ decimal attribution.cfgTwins ++
          (" call site(s) naming the item were left unresolved because the default build does " ++
            "not decide which twin they reach").toList
      else []
    some ("target is one of ".toList ++ decimal twins.length ++
      " twins of one item under exclusive #[cfg] gates (".toList ++ joinWith "; ".toList listing ++
      (") under the default build; a caller that names the item without a gate reaches whichever " ++
        "twin the build compiles, and is recorded on that twin only when the default build " ++
        "decides it").toList ++ openSites)

/-! ## The answer -/

structure Answer where
  dependents : Dependents
  attribution : Attribution
  epistemicReasons : List Text
  epistemic : Boundary
  cfgTwins : List TwinRow

/-- The name that a call site spells: without the suffixes of a twin. -/
def bareName : Text := lastSegment (stripCfgGates target)

def getImpact : Ask Answer := do
  let dependents ← collectDependents store target
  let attribution ← unresolvedCallsiteAttribution cc store target (bareName target)
  let reasons ← buildEpistemicReasons store target attribution dependents
  let twins ← if hasCfgGate target then cfgTwinRows store (stripCfgGates target) else pure []
  let reasons := reasons ++ (cfgTwinReason twins attribution).toList
  return ⟨dependents, attribution, reasons, if reasons = [] then .exact else .lowerBound, twins⟩

end Radius

end CodeGraph
