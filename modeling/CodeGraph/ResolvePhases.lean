import CodeGraph.ResolveEvents

/-!
# The phases of a run

The six phases of a run over the rows that the queries return: what each stages
for a reference, and how it counts it. No phase looks at what the buffer says of a
row, so the counts are of the nodes and not of what earlier runs left. Every phase
is a sum of references, each counted by itself.
-/

namespace CodeGraph

def Node.endLabel (n : Node) : Option Resolver.EndLabel :=
  match n.row with
  | .file _ _ _ _ => some .file
  | .symbol _ node => some (.symbol node.label)
  | _ => none

def Node.name (n : Node) : Text :=
  match n.row with
  | .file name _ _ _ => name
  | .symbol _ node => node.name
  | _ => []

def Node.column (n : Node) (name : String) : Text :=
  match n.row with
  | .symbol _ node => Resolver.findProperty node name
  | _ => []

def Node.language (n : Node) : Text :=
  match n.row with
  | .symbol language _ => language
  | _ => []

namespace Resolver

open Schema AmbiguityPolicy

/-! ## Results of a phase -/

/-- A reference that could not be resolved. -/
structure UnresolvedRef where
  kind : Text
  fromId : Text
  targetText : Text
  reason : Text
  deriving DecidableEq

/-- What a phase stages, and how it counts its references. -/
structure PhaseResult where
  rows : List RelRow := []
  resolved : Nat := 0
  total : Nat := 0
  unresolved : List UnresolvedRef := []

namespace PhaseResult

def append (a b : PhaseResult) : PhaseResult where
  rows := a.rows ++ b.rows
  resolved := a.resolved + b.resolved
  total := a.total + b.total
  unresolved := a.unresolved ++ b.unresolved

/-- The references of a phase in turn. -/
def sum (results : List PhaseResult) : PhaseResult := results.foldr append {}

/-- One reference, resolved by the rows. -/
def found (rows : List RelRow) : PhaseResult := { rows, resolved := 1, total := 1 }

/-- One reference, not resolved. -/
def missed (ref : UnresolvedRef) : PhaseResult := { total := 1, unresolved := [ref] }

end PhaseResult

/-! ## What the phases read -/

/-- What the phases ask of a language. -/
structure LanguageProvider where
  isExternalImport : Text → Bool
  normalizeImportPath : Text → Text
  importLastSegment : Text → Text
  primitives : List Text
  deriveMacroKey : Option Text

/-- The scans, each in an order of its own. -/
inductive Query where
  | symbolIndex
  | fileImports
  | imports
  | callSites
  | implements
  | implBlocks
  | extensions
  | callables
  | fields
  deriving DecidableEq

/-- How a macro's target is decided. -/
inductive Dispatch where
  | noCall
  | decided
  deriving DecidableEq

inductive Decision where
  | target (canonical : Text) (evidence : Evidence)
  | noStableTarget
  | calleeByArguments
  | typeNotDetermined

/-- What the phases are made of. Everything is proved for every choice of these
functions. -/
structure Phases (Cargo : Type) where
  scan : Query → Multiset Node → List Node
  scan_eq : ∀ query ns, (scan query ns : Multiset Node) = ns
  cc : CharClass
  isUppercase : Char → Bool
  providerFor : Text → LanguageProvider
  /-- What the callee of a site is: `open_call`, or else `resolve_single_call`. -/
  resolveSingleCall :
    Multiset Node → Columns Cargo → CallSite → Resolution SymbolEntry × Option Decline
  classify : Multiset Node → Columns Cargo → CallSite → Failure → Reason
  /-- The standard library's traits that a derive implements. -/
  emitImplements : Text → Text → Option (List Text)
  dispatchFor : Text → Option Dispatch
  decide : Multiset Node → Columns Cargo → Text → CallSite → Decision
  /-- The calls of a macro's expansion. -/
  emitCalls : Text → Option (List Text)
  isOutsideTargets : Columns Cargo → Text → Bool

/-! ## The symbol index -/

/-- The symbols, under their names, in the order in which their tables are read. -/
structure SymbolIndex where
  entries : List (Text × SymbolEntry)

namespace SymbolIndex

variable (idx : SymbolIndex)

def byName (name : Text) : List SymbolEntry :=
  (idx.entries.filter fun e => e.1 = name).map Prod.snd

/-- Of two symbols of one qualified name the last read is kept. -/
def byQn (qn : Text) : Option SymbolEntry :=
  ((idx.entries.map Prod.snd).filter fun e => e.qualifiedName = qn).getLast?

/-- The symbols directly under a path. -/
def byParentModule (parent : Text) : List SymbolEntry :=
  (idx.entries.map Prod.snd).filter fun e => beforeLast "::".toList e.qualifiedName = some parent

end SymbolIndex

def entryOf (label : EndLabel) (n : Node) : Text × SymbolEntry :=
  (n.name, ⟨n.id, label.text, n.id, rfl⟩)

def buildSymbolIndex (nodes : List Node) : SymbolIndex where
  entries := indexedLabels.flatMap fun label =>
    (nodes.filter fun n => n.endLabel = some label).map (entryOf label)

def fileImports (nodes : List Node) (file : Text) : List Text :=
  (nodes.filter fun n => n.endLabel = some (.symbol .imported) ∧
    extractFilePrefixOrSelf n.id = file).map (Node.column · "path")

/-- The target is one of several twins of one item among the candidates. -/
def isTwinMember (target : SymbolEntry) (candidates : List SymbolEntry) : Bool :=
  hasCfgGate target.qualifiedName &&
    candidates.any fun other => other.id ≠ target.id && other.label = target.label &&
      stripCfgGates other.qualifiedName = stripCfgGates target.qualifiedName

/-- The table from a label to the label of a symbol, when the schema declares it. -/
def knownTable (kind : RelKind) (source : EndLabel) (target : SymbolEntry) : Option Table :=
  (labelOf target).bind fun label =>
    let table : Table := ⟨kind, source, label⟩
    if isKnownRelTable table then some table else none

/-! ## Imports -/

variable {Cargo : Type} (P : Phases Cargo) (ns : Multiset Node) (cols : Columns Cargo)

def externalUnresolvedReason : Text := "external crate".toList

namespace Phases

def index : SymbolIndex := buildSymbolIndex (P.scan .symbolIndex ns)

/-- The rows of a label, in the order a query returns them. -/
def rowsOf (query : Query) (label : EndLabel) : List Node :=
  (P.scan query ns).filter fun n => n.endLabel = some label

def missedImport (n : Node) (reason : Text) : PhaseResult :=
  .missed ⟨"Imports".toList, n.id, n.column "path", reason⟩

/-- The edge of an import that names one symbol, or why there is none. -/
def resolveSingleImport (provider : LanguageProvider) (fileId normalized : Text) :
    Except Text RelRow :=
  let candidates := (P.index ns).byName (provider.importLastSegment normalized)
  match resolve SymbolEntry.qualifiedName candidates ⟨[normalized], fileId, none⟩ with
  | .resolved target evidence confidence =>
      match knownTable .imports .file target with
      | some table => .ok ⟨table, fileId, target.id, confidence, resolutionLabel evidence⟩
      | none => .error "unknown rel table for import target".toList
  | _ => .error "no target found in graph".toList

/-- The edges of a glob import: to every symbol directly under the module. -/
def resolveGlobImport (fileId modulePath : Text) : List RelRow :=
  ((P.index ns).byParentModule modulePath).filterMap fun e =>
    (knownTable .imports .file e).map fun table =>
      ⟨table, fileId, e.id, 9 / 10, "import-scope-lookup".toList⟩

/-- An import that names one symbol is one reference; a glob import is one for
each symbol it finds. -/
def resolveOneImport (n : Node) : PhaseResult :=
  let provider := P.providerFor n.language
  let path := n.column "path"
  if provider.isExternalImport path then missedImport n externalUnresolvedReason
  else
    let fileId := extractFilePrefixOrSelf n.id
    let normalized := provider.normalizeImportPath path
    if n.column "is_glob" = "true".toList ∨ n.column "is_glob" = "True".toList then
      let rows := P.resolveGlobImport ns fileId normalized
      { rows, resolved := rows.length, total := rows.length }
    else
      match P.resolveSingleImport ns provider fileId normalized with
      | .ok row => .found [row]
      | .error reason => missedImport n reason

def resolveImports : PhaseResult :=
  .sum ((P.rowsOf ns .imports (.symbol .imported)).map (P.resolveOneImport ns))

/-! ## Calls -/

def missedCall (site : CallSite) (reason : Text) : PhaseResult :=
  .missed ⟨"Calls".toList, site.id, site.calleeName, reason⟩

/-- The edges of a resolved call and its count. A table the schema does not declare
is counted on neither side. -/
def stageCallEdge (callerLabel : EndLabel) (site : CallSite) (target : SymbolEntry)
    (evidence : Evidence) (confidence : ℚ) : PhaseResult :=
  match (labelOf target).bind fun label => (callRelTable callerLabel label).map (label, ·) with
  | none =>
      missedCall site ("no rel table for ".toList ++ callerLabel.text ++ " -> ".toList ++
        target.label ++ " (callsite-as-call)".toList)
  | some (targetLabel, rel) =>
      if isKnownRelTable rel then
        let row table source :=
          { table, source, target := target.id, confidence, method := resolutionLabel evidence }
        .found (row rel site.caller :: ((callSiteRelTable targetLabel).map (row · site.id)).toList)
      else { total := 1 }

def ambiguousReason (twins : Bool) (count : Nat) : Text :=
  (if twins then "cfg_twins".toList else "ambiguous".toList) ++ " (".toList ++
    (toString count).toList ++ " candidates)".toList

def resolveOneCallSite (site : CallSite) : PhaseResult :=
  let stage := stageCallEdge (determineCallerLabel ns site.caller) site
  match P.resolveSingleCall ns cols site with
  | (.resolved target evidence confidence, _) => stage target evidence confidence
  | (.ambiguous candidates, _) =>
      let view := loadView ns cols
      match choose view site.caller candidates with
      | some twin => stage twin .cfgSelected (confidenceFor .cfgSelected)
      | none =>
          missedCall site (ambiguousReason (areTwinsOfOneItem view candidates) candidates.length)
  | (.notFound, _) => missedCall site "no target found".toList

/-- The sites of the query, in its order. -/
def sites : List CallSite := (P.scan .callSites ns).filterMap CallSite.ofNode

def resolveCalls : PhaseResult :=
  .sum (((P.sites ns).filter (!·.isRustMacro)).map (P.resolveOneCallSite ns cols))

/-! ## Implements and extends -/

/-- Why a base or a trait named in a file has no target. -/
def unresolvedBaseReason (provider : LanguageProvider) (childQn lookup : Text) : Text :=
  if (fileImports (P.scan .fileImports ns) (extractFilePrefixOrSelf childQn)).any fun path =>
      provider.isExternalImport path && provider.importLastSegment path = lookup then
    externalUnresolvedReason
  else "no_target_in_corpus".toList

/-- The names of a column that lists them, `none` of a blank one. -/
def csvNames (csv : Text) : List Text :=
  if csv = [] ∨ csv = "Null(String)".toList then []
  else ((splitOnChar ',' csv).map (trim P.cc)).filter (· ≠ [])

/-- The first trait of the name, unless it is one of several twins. -/
def traitTarget (name : Text) : Option SymbolEntry :=
  let candidates := (P.index ns).byName name
  (candidates.find? fun e => e.label = EndLabel.text (.symbol .trait)).filter
    (!isTwinMember · candidates)

/-- A trait of that name is in the graph, whether or not it may be chosen. -/
def hasTrait (name : Text) : Bool :=
  ((P.index ns).byName name).any fun e => e.label = EndLabel.text (.symbol .trait)

def declaredImplements (label : EndLabel) (source : Text) (target : SymbolEntry) : RelRow :=
  ⟨⟨.implements, label, .symbol .trait⟩, source, target.id, 95 / 100, "declared-implements".toList⟩

def deriveMacro (label : EndLabel) (source canonical : Text) : RelRow :=
  ⟨⟨.implements, label, .stdlibSymbol⟩, source, canonical, 9 / 10, "derive-macro".toList⟩

/-- The edges of a trait that a struct or an enum names: a trait of the graph first,
then the traits its derive stands for. -/
def implementsRows (label : EndLabel) (n : Node) (name : Text) : List RelRow :=
  let provider := P.providerFor n.language
  let lookup := provider.importLastSegment name
  if P.hasTrait ns lookup then
    ((P.traitTarget ns lookup).map (declaredImplements label n.id)).toList
  else
    match provider.deriveMacroKey.bind fun key => P.emitImplements key name with
    | some canonicals => canonicals.map (deriveMacro label n.id)
    | none => []

def resolveOneImplements (label : EndLabel) (n : Node) (name : Text) : PhaseResult :=
  match P.implementsRows ns label n name with
  | [] =>
      let provider := P.providerFor n.language
      let lookup := provider.importLastSegment name
      .missed ⟨"Implements".toList, n.id, name, P.unresolvedBaseReason ns provider n.id lookup⟩
  | rows => .found rows

/-- A method of an `impl Trait for Type` block, when the type is a struct or an enum
of the graph. -/
def implBlock (n : Node) : Option (SymbolEntry × EndLabel × Text) :=
  let receiver := trim P.cc (n.column "receiver_type")
  let name := trim P.cc (n.column "trait_name")
  if receiver = [] ∨ name = [] then none
  else
    ((P.index ns).byQn receiver).bind fun e =>
      (labelOf e).bind fun label =>
        if label = .symbol .struct ∨ label = .symbol .enum then some (e, label, name) else none

def resolveImplBlock : SymbolEntry × EndLabel × Text → PhaseResult
  | (receiver, label, name) =>
      match P.traitTarget ns (lastPiece "::".toList name) with
      | some target =>
          .found [⟨⟨.implements, label, .symbol .trait⟩, receiver.id, target.id, 95 / 100,
            "impl-block".toList⟩]
      | none =>
          .missed ⟨"Implements".toList, receiver.id, name, "no_target_in_corpus".toList⟩

def resolveImplements : PhaseResult :=
  .sum (([.symbol .struct, .symbol .enum].flatMap fun label =>
      (P.rowsOf ns .implements label).flatMap fun n =>
        (P.csvNames (n.column "implements")).map (P.resolveOneImplements ns label n)) ++
    ((P.rowsOf ns .implBlocks (.symbol .method)).filterMap (P.implBlock ns)).map
      (P.resolveImplBlock ns))

/-- The base a name stands for: the first of the child's own label, or else the
first of all. -/
def baseTarget (label : EndLabel) (lookup : Text) : Option SymbolEntry :=
  let candidates := (P.index ns).byName lookup
  (candidates.find? fun e => e.label = label.text).or candidates.head?

def resolveOneExtendsBase (label : EndLabel) (n : Node) (base : Text) : PhaseResult :=
  let lookup := lastPiece ".".toList base
  let miss reason := PhaseResult.missed ⟨"Extends".toList, n.id, base, reason⟩
  match P.baseTarget ns label lookup with
  | none => miss (P.unresolvedBaseReason ns (P.providerFor n.language) n.id lookup)
  | some target =>
      match knownTable .extension label target with
      | some table =>
          .found [⟨table, n.id, target.id, 95 / 100, "declared-extends".toList⟩]
      | none =>
          miss ("no_rel_table_for_".toList ++ label.text ++ "_to_".toList ++ target.label)

def resolveExtends : PhaseResult :=
  .sum ([.symbol .struct, .symbol .enum, .symbol .trait].flatMap fun label =>
    (P.rowsOf ns .extensions label).flatMap fun n =>
      (P.csvNames (n.column "bases")).map (P.resolveOneExtendsBase ns label n))

/-! ## Uses -/

def annotationMarks : Text := ['&', '*', '<', '>', ',', '(', ')', '[', ']']

def typeKeywords : List Text := ["mut", "dyn", "impl"].map String.toList

/-- The types an annotation names. -/
def extractTypeIdentifiers ( annotation : Text) (primitives : List Text) : List Text :=
  let cleaned := annotation.map fun c => if c ∈ annotationMarks then ' ' else c
  ((cleaned.splitOnP P.cc.isWhitespace).filter (· ≠ [])).filter fun token =>
    token.head? ≠ some '\'' && token ∉ typeKeywords && token ∉ primitives &&
      token.head?.any P.isUppercase

/-- The type of a name: the first of several, unless it is one of several twins. -/
def findTypeTarget (name : Text) : Option SymbolEntry :=
  let candidates := (P.index ns).byName name
  match candidates.filter fun e => e.label ∈ types.map EndLabel.text with
  | [] => none
  | [only] => some only
  | first :: _ => if isTwinMember first candidates then none else some first

def resolveOneTypeUse (label : EndLabel) (method : Text) (n : Node) (name : Text) : PhaseResult :=
  let miss reason := PhaseResult.missed ⟨"Uses".toList, n.id, name, reason⟩
  match P.findTypeTarget ns name with
  | none => miss "type not found in graph".toList
  | some target =>
      match knownTable .uses label target with
      | some table => .found [⟨table, n.id, target.id, 9 / 10, method⟩]
      | none =>
          miss ("unknown rel table Uses_".toList ++ label.text ++ '_' :: target.label)

def resolveOneFieldTypeUse : Node → Text → PhaseResult :=
  P.resolveOneTypeUse ns (.symbol .field) "type-annotation-parse".toList

def resolveOneCallableTypeUse (label : EndLabel) : Node → Text → PhaseResult :=
  P.resolveOneTypeUse ns label "type-reference-parse".toList

def fieldTypes (n : Node) : List Text :=
  P.extractTypeIdentifiers (n.column "type_annotation") (P.providerFor n.language).primitives

def callableTypes (n : Node) : List Text :=
  let primitives := (P.providerFor n.language).primitives
  P.extractTypeIdentifiers (n.column "return_type") primitives ++
    P.extractTypeIdentifiers (n.column "constructed_types") primitives

def resolveUses : PhaseResult :=
  .sum (((P.rowsOf ns .fields (.symbol .field)).flatMap fun n =>
      (P.fieldTypes n).map (P.resolveOneFieldTypeUse ns n)) ++
    callables.flatMap fun label => (P.rowsOf ns .callables label).flatMap fun n =>
      (P.callableTypes n).map (P.resolveOneCallableTypeUse ns label n))

/-! ## Macros -/

/-- What the pass makes of a macro: no reference at all, one it leaves open, or the
calls it expands to. -/
inductive Expansion where
  | noCall
  | none (reason : Text)
  | calls (emissions : List (Text × Evidence))

def reasonNotCallable : Text := "caller is not a callable (Function|Method)".toList

def reasonNoTableEntry : Text := "no macro-expansion table entry".toList

def reasonNoEmitCalls : Text := "expansion has no emit_calls entries".toList

def reasonInternalCallees : Text :=
  "expansion calls compiler internals whose paths change between versions".toList

def reasonCalleeByArguments : Text := "callee depends on the arguments of the macro".toList

def reasonTypeNotDetermined : Text := "destination type not determined".toList

/-- The last segment of the callee, without its `!`. -/
def macroName (site : CallSite) : Text := lastPiece "::".toList site.calleeName.dropLast

def expandMacro (callerLabel : EndLabel) (site : CallSite) : Expansion :=
  let name := macroName site
  let dispatch := P.dispatchFor name
  if dispatch = some .noCall then .noCall
  else if callerLabel ∉ callables then .none reasonNotCallable
  else if dispatch = some .decided then
    match P.decide ns cols name site with
    | .target canonical evidence => .calls [(canonical, evidence)]
    | .noStableTarget => .none reasonInternalCallees
    | .calleeByArguments => .none reasonCalleeByArguments
    | .typeNotDetermined => .none reasonTypeNotDetermined
  else
    match P.emitCalls name with
    | none => .none reasonNoTableEntry
    | some [] => .none reasonNoEmitCalls
    | some canonicals => .calls (canonicals.map (·, .macroExpansion))

/-- One call of an expansion is one reference. -/
def resolveEmission (callerLabel : EndLabel) (site : CallSite) (emission : Text × Evidence) :
    PhaseResult :=
  let rel : Table := ⟨.calls, callerLabel, .stdlibSymbol⟩
  if isKnownRelTable rel then .found (stageMacroEmission callerLabel site emission)
  else
    missedCall { site with calleeName := emission.1 } ("unknown rel table ".toList ++ rel.name)

def resolveExpansion (callerLabel : EndLabel) (site : CallSite) : Expansion → PhaseResult
  | .noCall => {}
  | .none reason => missedCall { site with calleeName := macroName site ++ ['!'] } reason
  | .calls emissions => .sum (emissions.map (resolveEmission callerLabel site))

def resolveOneMacro (site : CallSite) : PhaseResult :=
  let callerLabel := determineCallerLabel ns site.caller
  resolveExpansion callerLabel site (P.expandMacro ns cols callerLabel site)

def resolveMacros : PhaseResult :=
  .sum (((P.sites ns).filter (·.isRustMacro)).map (P.resolveOneMacro ns cols))

def noCallSites : Nat :=
  ((P.sites ns).filter fun site =>
    site.isRustMacro && P.dispatchFor (macroName site) = some .noCall).length

def macroDetail (reason : Text) : Text :=
  if reason = reasonNotCallable then "not_callable".toList
  else if reason = reasonNoTableEntry then "no_table_entry".toList
  else if reason = reasonNoEmitCalls then "no_emit_calls".toList
  else if reason = reasonInternalCallees then "internal_callees".toList
  else if reason = reasonCalleeByArguments then "callee_by_arguments".toList
  else if reason = reasonTypeNotDetermined then "type_not_determined".toList
  else "no_rel_table".toList

def macroReason (callerLabel : EndLabel) (site : CallSite) : Reason :=
  if P.isOutsideTargets cols (extractFilePrefixOrSelf site.id) then
    ("outside_compiled_targets".toList, [])
  else
    let unresolved := (resolveExpansion callerLabel site
      (P.expandMacro ns cols callerLabel site)).unresolved
    match unresolved with
    | [] => ("not_a_call".toList, [])
    | miss :: _ => ("macro_site".toList, macroDetail miss.reason)

end Phases

/-! ## The run -/

/-- What each phase made of its references, in run order. -/
structure PhaseTallies where
  imports : PhaseResult
  calls : PhaseResult
  implements : PhaseResult
  extensions : PhaseResult
  uses : PhaseResult
  macros : PhaseResult
  noCallMacroSites : Nat

structure ResolutionResult where
  importsResolved : Nat
  callsResolved : Nat
  implsResolved : Nat
  extendsResolved : Nat
  usesResolved : Nat
  totalEdges : Nat
  totalRefs : Nat
  noCallMacroSites : Nat
  unresolved : List UnresolvedRef

namespace PhaseTallies

/-- The macros are counted with the calls. -/
def intoResult (t : PhaseTallies) : ResolutionResult :=
  let callsResolved := t.calls.resolved + t.macros.resolved
  { importsResolved := t.imports.resolved
    callsResolved := callsResolved
    implsResolved := t.implements.resolved
    extendsResolved := t.extensions.resolved
    usesResolved := t.uses.resolved
    totalEdges := t.imports.resolved + callsResolved + t.implements.resolved +
      t.extensions.resolved + t.uses.resolved
    totalRefs := t.imports.total + (t.calls.total + t.macros.total) + t.implements.total +
      t.extensions.total + t.uses.total
    noCallMacroSites := t.noCallMacroSites
    unresolved := t.imports.unresolved ++ t.calls.unresolved ++ t.macros.unresolved ++
      t.implements.unresolved ++ t.extensions.unresolved ++ t.uses.unresolved }

def phases (t : PhaseTallies) : List PhaseResult :=
  [t.imports, t.calls, t.implements, t.extensions, t.uses, t.macros]

end PhaseTallies

namespace Phases

def runPhases : PhaseTallies where
  imports := P.resolveImports ns
  calls := P.resolveCalls ns cols
  implements := P.resolveImplements ns
  extensions := P.resolveExtends ns
  uses := P.resolveUses ns
  macros := P.resolveMacros ns cols
  noCallMacroSites := P.noCallSites ns

end Phases

end Resolver

end CodeGraph
