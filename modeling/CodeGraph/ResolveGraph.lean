import CodeGraph.CfgVerdict
import CodeGraph.IndexClosed
import CodeGraph.ResolutionRows

/-!
# A run of the resolver

What the resolver reads, how one call site is settled, what a run takes back of
earlier runs, and the run itself. The decisions of a run depend on the nodes and
the columns the last index pass wrote, never on the rows (`stagedRows`).
-/

namespace CodeGraph

namespace Resolver

open Schema AmbiguityPolicy

/-! ## What the resolver reads -/

/-- What an index pass writes besides the nodes: the `cfg_active` column of the
declarations, the cfg columns of the files, and the Cargo facts. -/
structure Columns (Cargo : Type) where
  cfgActive : SymbolLabel → Text → CfgActive
  files : Text → FileCfg
  cargo : Cargo

/-- The value of a property of a declaration, empty when it has none. -/
def findProperty (node : ExtractedNode) (name : String) : Text :=
  ((node.properties.find? fun p => p.1 = name.toList).map Prod.snd).getD []

/-- A row of the `CallSite` table. -/
structure CallSite where
  id : Text
  calleeName : Text
  language : Text
  receiverHint : Text
  receiverHintVia : Text
  calleeShape : Text
  macroArgShape : Text
  deriving DecidableEq

namespace CallSite

def ofNode (n : Node) : Option CallSite :=
  match n.row with
  | .symbol language node =>
      if node.label = .callSite then
        some
          { id := n.id
            calleeName := findProperty node "callee_name"
            language := language
            receiverHint := findProperty node "receiver_hint"
            receiverHintVia := findProperty node "receiver_hint_via"
            calleeShape := findProperty node "callee_shape"
            macroArgShape := findProperty node "macro_arg_shape" }
      else none
  | _ => none

/-- Ruby keeps the `!` of a method name, so the language decides too. -/
def isRustMacro (site : CallSite) : Bool :=
  site.language = "rust".toList && "!".toList.isSuffixOf site.calleeName

def caller (site : CallSite) : Text := extractCallerFromCallsiteId site.id

end CallSite

/-- The labels of the symbol index, in the order their tables are read. -/
def indexedLabels : List EndLabel :=
  [.symbol .function, .symbol .method, .symbol .struct, .symbol .enum, .symbol .trait,
    .symbol .constant, .symbol .typeAlias, .symbol .module, .file]

/-- The label under which the index holds a qualified name: a later table
overrides an earlier one. -/
def determineCallerLabel (ns : Multiset Node) (callerQn : Text) : EndLabel :=
  ((indexedLabels.filter fun label => HasNode ns label callerQn).getLast?).getD (.symbol .function)

/-! ## The view of the twins -/

/-- The labels of the nodes that can be twins. -/
def cfgGateLabels : List SymbolLabel :=
  [.module, .function, .method, .struct, .enum, .variant, .trait, .field, .constant, .typeAlias]

def IsTwinNode (n : Node) : Prop := (∃ l ∈ cfgGateLabels, n.row.label = .symbol l) ∧ hasCfgGate n.id

instance (n : Node) : Decidable (IsTwinNode n) := inferInstanceAs (Decidable (_ ∧ _))

/-- The `cfg_active` of a twin: a later table overrides an earlier one. -/
def cfgActiveById {Cargo : Type} (ns : Multiset Node) (cols : Columns Cargo) (id : Text) :
    Option CfgActive :=
  if hasCfgGate id then
    (cfgGateLabels.filter fun l => HasNode ns (.symbol l) id).getLast?.map (cols.cfgActive · id)
  else none

/-- The files that are gated or compiled out. -/
def twinFiles {Cargo : Type} (ns : Multiset Node) (cols : Columns Cargo) : Multiset Text :=
  (ns.filter fun n => n.row.label = .file ∧
    ((cols.files n.id).gate ≠ [] ∨ (cols.files n.id).active = .inactive)).map Node.id

/-- A function or method under a gate its id does not spell. -/
def isGatedCallable (n : Node) : Bool :=
  match n.row with
  | .symbol _ node =>
      (node.label = .function || node.label = .method) && findProperty node "cfg_gate" ≠ [] &&
        !hasCfgGate n.id
  | _ => false

def loadView {Cargo : Type} (ns : Multiset Node) (cols : Columns Cargo) : TwinView where
  active := cfgActiveById ns cols
  files id := if id ∈ twinFiles ns cols then some (cols.files id) else none
  gatedCallers id :=
    have : Decidable (∃ n ∈ ns, isGatedCallable n ∧ n.id = id) := Multiset.decidableExistsMultiset
    decide (∃ n ∈ ns, isGatedCallable n ∧ n.id = id)

def isCompiledOut (view : TwinView) (caller id : Text) : Bool :=
  verdict view (callerGates view caller) id id = .notCompiled

/-! ## The rules -/

/-- Why a gate or a filter declined a call. -/
inductive Decline where
  | foreignReturnType
  | scope (rule : Text)
  | declarationOnly
  | pointerCall (shape : Text)
  | noReceiverType
  deriving DecidableEq

inductive Failure where
  | notFound (decline : Option Decline)
  | ambiguous (count : Nat) (twins : Bool)
  | noRelTable (label : Text)
  deriving DecidableEq

/-- The reason a call site is open and the detail that goes with it. -/
abbrev Reason := Text × Text

def noReason : Reason := ([], [])

/-- A row of a phase that settles no call. -/
structure RelRow.Other (r : RelRow) : Prop where
  table : r.table.kind ≠ .calls
  method : r.method ≠ lspDefinition

/-- What the resolver asks of the nodes and the columns. Everything is proved for
every choice of these functions. -/
structure Rules (Cargo : Type) where
  /-- The rows of a query over the nodes, in an order of the store's own. -/
  scan : Multiset Node → List Node
  scan_eq : ∀ ns, (scan ns : Multiset Node) = ns
  /-- What the callee of a site is: `open_call`, or else `resolve_single_call`. -/
  resolveSingleCall :
    Multiset Node → Columns Cargo → CallSite → Resolution SymbolEntry × Option Decline
  classify : Multiset Node → Columns Cargo → CallSite → Failure → Reason
  /-- The targets of a macro, and the reason a site left without a row is given. -/
  expandMacro : Multiset Node → Columns Cargo → (callerLabel : EndLabel) → CallSite →
    List (Text × Evidence) × Reason
  /-- The rows of the import phase. -/
  importRows : Multiset Node → Columns Cargo → List RelRow
  importRows_other : ∀ ns cols, ∀ r ∈ importRows ns cols, r.Other
  /-- The rows of the phases behind the calls: implements, extends and uses. -/
  typeRows : Multiset Node → Columns Cargo → List RelRow
  typeRows_other : ∀ ns cols, ∀ r ∈ typeRows ns cols, r.Other

variable {Cargo : Type} (R : Rules Cargo) (ns : Multiset Node) (cols : Columns Cargo)

def callSites : List CallSite := (R.scan ns).filterMap CallSite.ofNode

/-! ## One call site -/

def labelOf (target : SymbolEntry) : Option EndLabel :=
  indexedLabels.find? fun label => label.text = target.label

/-- The rows of a resolved call: the caller's, and the site's own when there is a
table for it. -/
def stageCallEdge (callerLabel : EndLabel) (site : CallSite) (target : SymbolEntry)
    (evidence : Evidence) (confidence : ℚ) : Option (List RelRow) := do
  let targetLabel ← labelOf target
  let rel ← callRelTable callerLabel targetLabel
  if isKnownRelTable rel then
    let row table source :=
      { table, source, target := target.id, confidence, method := resolutionLabel evidence }
    some (row rel site.caller :: ((callSiteRelTable targetLabel).map (row · site.id)).toList)
  else none

/-- The rows of the match, or why the site stays open. -/
def stagedLabel (site : CallSite) (target : SymbolEntry) (evidence : Evidence) (confidence : ℚ) :
    Except Reason (List RelRow) :=
  match stageCallEdge (determineCallerLabel ns site.caller) site target evidence confidence with
  | some rows => .ok rows
  | none => .error (R.classify ns cols site (.noRelTable target.label))

def settle (site : CallSite) : Except Reason (List RelRow) :=
  match R.resolveSingleCall ns cols site with
  | (.resolved target evidence confidence, _) => stagedLabel R ns cols site target evidence confidence
  | (.ambiguous candidates, _) =>
      let view := loadView ns cols
      match choose view site.caller candidates with
      | some twin => stagedLabel R ns cols site twin .cfgSelected (confidenceFor .cfgSelected)
      | none =>
          let twins := areTwinsOfOneItem view candidates
          .error (R.classify ns cols site (.ambiguous candidates.length twins))
  | (.notFound, decline) => .error (R.classify ns cols site (.notFound decline))

/-- The rows of one target of a macro, staged when the caller's table is declared. -/
def stageMacroEmission (callerLabel : EndLabel) (site : CallSite) (emission : Text × Evidence) :
    List RelRow :=
  let rel : Table := ⟨.calls, callerLabel, .stdlibSymbol⟩
  if isKnownRelTable rel then
    let row table source :=
      { table, source, target := emission.1, confidence := confidenceFor emission.2,
        method := resolutionLabel emission.2 }
    row rel site.caller :: ((callSiteRelTable .stdlibSymbol).map (row · site.id)).toList
  else []

def settleMacro (site : CallSite) : Except Reason (List RelRow) :=
  let callerLabel := determineCallerLabel ns site.caller
  let (emitted, why) := R.expandMacro ns cols callerLabel site
  match emitted.flatMap (stageMacroEmission callerLabel site) with
  | [] => .error why
  | rows => .ok rows

/-- What becomes of a site: its rows, or the reason it is left open. -/
def settled (site : CallSite) : Except Reason (List RelRow) :=
  if site.isRustMacro then settleMacro R ns cols site else settle R ns cols site

def siteRows (site : CallSite) : List RelRow :=
  match settled R ns cols site with
  | .ok rows => rows
  | .error _ => []

def stagedRows : List RelRow :=
  R.importRows ns cols ++
    ((callSites R ns).filter (!·.isRustMacro)).flatMap (siteRows R ns cols) ++
    R.typeRows ns cols ++ ((callSites R ns).filter (·.isRustMacro)).flatMap (siteRows R ns cols)

end Resolver

end CodeGraph
