import CodeGraph.Lib.SortDedup
import CodeGraph.Lib.Tally
import CodeGraph.CfgTwins
import CodeGraph.QueryResponse
import Mathlib.Data.Prod.Lex

/-!
# The response of `get_impact`

Five lists of dependents, each cut to a share of the cap, rendered under one
detail and one format, in an envelope that the follow-ups add to: the twins, the
contexts of the callers, the co-change partners, the next steps, the callers in
sibling graphs, the coverage evidence and the freshness receipt. What the store,
the siblings and the sidecars answer is a parameter (`Lookups`).
-/

namespace CodeGraph

namespace Impact

open ResponseBudget
open QueryGraph (Arguments Detail Format parseDetail parseFormat optional)

/-! ## What the store answers -/

/-- A dependent. `confidence` is the text with two decimals that the response
shows; `context` is empty in every list but the callers. -/
structure ImpactNode where
  id : Text
  qualifiedName : Text
  label : Text
  confidence : Text
  context : Text

inductive Boundary where
  | exact
  | lowerBound
deriving DecidableEq

def Boundary.asStr : Boundary → String
  | .exact => "exact"
  | .lowerBound => "lower-bound"

structure TwinRow where
  id : Text
  cfgGate : Text
  cfgActive : Text

structure ImpactResult where
  communities : List Text
  processes : List Text
  callers : List ImpactNode
  importers : List ImpactNode
  users : List ImpactNode
  implementors : List ImpactNode
  references : List ImpactNode
  epistemic : Boundary
  epistemicReasons : List Text
  unresolvedCallsitesNamingTarget : ℕ
  unresolvedCallsitesOutsideTargets : ℕ
  unresolvedCallsiteOutsideTargetFiles : List Text
  unresolvedCallsitesCfgTwins : ℕ
  unresolvedCallsitesByReason : List (Text × ℕ)
  unresolvedCallsitesExcludedOtherOwner : ℕ
  cfgTwins : List TwinRow
  codeContextBasis : Text

structure CochangePartner where
  file : Text
  cochangeCount : ℤ
  coupling : Text
  jaccard : Text

structure ForeignCaller where
  repo : Text
  callerQn : Text
  calleeName : Text
  callsiteId : Text

/-- The callers in sibling graphs, and the siblings that do not exist. -/
structure Foreign where
  callers : List ForeignCaller
  skipped : List Text

/-- The freshness receipt: the files that changed of those checked, and how far
the working tree is ahead of and behind the indexed commit. -/
inductive Freshness where
  | unknown
  | verdict (checkedFiles dirtyFiles : ℕ) (divergence : Option (ℕ × ℕ))

/-- What one call reads: the impact of the target, the co-change partners of its
file, the callers in the siblings that the request names, the reason why the
coverage record is no evidence, and the receipt. -/
structure Lookups where
  impact : ImpactResult
  partners : List CochangePartner
  foreign : Option Foreign
  missingEvidence : Option Text
  freshness : Freshness

/-! ## Handles and views -/

def impactHandle (n : ImpactNode) : Json :=
  .object (
    [("confidence", .str n.confidence)] ++
    optional "context" (if n.context = [] then none else some (.str n.context)) ++
    [("id", .str n.id), ("label", .str n.label), ("qualified_name", .str n.qualifiedName)])

def impactHandles (nodes : List ImpactNode) : List Json := nodes.map impactHandle

def CochangePartner.toJson (p : CochangePartner) : Json :=
  .object
    [("cochange_count", .num p.cochangeCount), ("coupling", .str p.coupling),
     ("file", .str p.file), ("jaccard", .str p.jaccard)]

def ForeignCaller.toJson (f : ForeignCaller) : Json :=
  .object
    [("callee_name", .str f.calleeName), ("caller_qn", .str f.callerQn),
     ("callsite_id", .str f.callsiteId), ("confidence", .lit "0.50"), ("repo", .str f.repo),
     ("source", .lit "cross-repo")]

def TwinRow.toJson (t : TwinRow) : Json :=
  .object [("cfg_active", .str t.cfgActive), ("cfg_gate", .str t.cfgGate), ("id", .str t.id)]

def Freshness.toJson : Freshness → Json
  | .unknown => .object [("state", .lit "unknown")]
  | .verdict checkedFiles dirtyFiles divergence =>
      let headMoved := divergence.any fun (ahead, behind) => 0 < ahead || 0 < behind
      .object
        [("checked_files", .nat checkedFiles),
         ("commits_ahead", (divergence.map fun (ahead, _) => Json.nat ahead).getD .null),
         ("commits_behind", (divergence.map fun (_, behind) => Json.nat behind).getD .null),
         ("dirty_files", .nat dirtyFiles),
         ("state", if dirtyFiles = 0 && !headMoved then .lit "fresh" else .lit "stale")]

/-- A rendered list and what was applied to it. -/
structure ListView where
  value : Json
  columns : Option Json
  detail : String
  format : String

def renderList (items : List Json) (columns : List String) (idField : String) :
    Detail → Format → ListView
  | .ids, _ =>
      { value := .array (items.filterMap fun it => it.get idField)
        columns := none, detail := "ids", format := "ids" }
  | .full, .tabular =>
      { value := .array (items.map fun it =>
          .array (columns.map fun c => (it.get c).getD .null))
        columns := some (.array (columns.map .lit)), detail := "full", format := "tabular" }
  | .full, .json =>
      { value := .array items, columns := none, detail := "full", format := "json" }

def impactColumns : List String := ["qualified_name", "label", "confidence", "id", "context"]

def cochangePartnerColumns : List String := ["file", "cochange_count", "coupling", "jaccard"]

/-! ## The sections -/

/-- By name and then by identifier, so that a page starts where the last one
ended. -/
def sortNodes (nodes : List ImpactNode) : List ImpactNode :=
  SortDedup.sortByKey (fun n => toLex (n.qualifiedName, n.id)) nodes

def sortImpactLists (impact : ImpactResult) : ImpactResult :=
  { impact with
    callers := sortNodes impact.callers
    importers := sortNodes impact.importers
    users := sortNodes impact.users
    implementors := sortNodes impact.implementors
    references := sortNodes impact.references }

structure ImpactSections where
  offset : ℕ
  callers : BoundedPage Json
  importers : Bounded Json
  users : Bounded Json
  implementors : Bounded Json
  references : Bounded Json
  dependentsTotal : ℕ
  referencesTotalFull : ℕ

/-- The callers are paged; the other lists are cut. -/
def pagedImpactSections (impact : ImpactResult) (offset : ℕ) : ImpactSections where
  offset := offset
  callers := boundValuesPaged Json.size perSectionChars (impactHandles impact.callers) offset
  importers := boundValues Json.size perSectionChars (impactHandles impact.importers)
  users := boundValues Json.size perSectionChars (impactHandles impact.users)
  implementors := boundValues Json.size perSectionChars (impactHandles impact.implementors)
  references := boundValues Json.size perSectionChars (impactHandles impact.references)
  dependentsTotal := impact.callers.length + impact.importers.length + impact.users.length +
    impact.implementors.length
  referencesTotalFull := impact.references.length

def ImpactSections.anyTruncated (sections : ImpactSections) : Bool :=
  sections.callers.truncated || sections.importers.truncated || sections.users.truncated ||
    sections.implementors.truncated || sections.references.truncated

/-! ## The envelope -/

/-- A response while it is put together: the fields that are set once, and the two
that a follow-up may change. -/
structure Envelope where
  fields : List (String × Json)
  epistemic : Boundary
  epistemicReasons : List Text

def Envelope.set (out : Envelope) (fields : List (String × Json)) : Envelope :=
  { out with fields := out.fields ++ fields }

/-- The response is a lower bound, for one reason more. -/
def Envelope.hedge (out : Envelope) (reason : Text) : Envelope :=
  { out with epistemic := .lowerBound, epistemicReasons := out.epistemicReasons ++ [reason] }

def Envelope.toJson (out : Envelope) : Json :=
  .ordered (
    [("epistemic", .lit out.epistemic.asStr),
     ("epistemic_reasons", .array (out.epistemicReasons.map .str))] ++ out.fields)

def textArray (texts : List Text) : Json := .array (texts.map .str)

def countMap (counts : List (Text × ℕ)) : Json :=
  .object (counts.map fun (k, n) => (String.ofList k, Json.nat n))

def unresolvedCallsites (impact : ImpactResult) : List (String × Json) :=
  [("unresolved_callsites_naming_target", .nat impact.unresolvedCallsitesNamingTarget),
   ("unresolved_callsites_outside_targets", .nat impact.unresolvedCallsitesOutsideTargets),
   ("unresolved_callsites_by_reason", countMap impact.unresolvedCallsitesByReason),
   ("unresolved_callsites_excluded_other_owner",
      .nat impact.unresolvedCallsitesExcludedOtherOwner)]

/-- The twins of the target, and its own gate when it is one of them. -/
def cfgTwins (impact : ImpactResult) (qn : Text) : List (String × Json) :=
  if impact.cfgTwins = [] then []
  else
    (match impact.cfgTwins.find? fun t => t.id = qn with
      | some own => [("cfg_gate", .str own.cfgGate), ("cfg_active", .str own.cfgActive)]
      | none => []) ++
    [("cfg_twins", .array (impact.cfgTwins.map TwinRow.toJson)),
     ("unresolved_callsites_cfg_twins", .nat impact.unresolvedCallsitesCfgTwins)]

def contextOf (caller : ImpactNode) : Text :=
  if caller.context = [] then "unknown".toList else caller.context

def byContext (callers : List ImpactNode) : List (Text × ℕ) :=
  Tally.collect (callers.map fun c => (contextOf c, 1))

/-- The callers not proven to be outside production. -/
def productionTotal (callers : List ImpactNode) : ℕ :=
  (callers.filter fun c =>
    contextOf c = "production".toList || contextOf c = "unknown".toList).length

def callerContexts (impact : ImpactResult) (dependents : ℕ) : List (String × Json) :=
  let provenAway := impact.callers.length - productionTotal impact.callers
  [("callers_by_context", countMap (byContext impact.callers)),
   ("callers_production_total", .nat (productionTotal impact.callers)),
   ("dependents_production_total", .nat (dependents - provenAway)),
   ("code_context_basis", .str impact.codeContextBasis)]

def impactEnvelope (sections : ImpactSections) (impact : ImpactResult) (qn : Text)
    (args : Arguments) : Envelope :=
  let render (items : List Json) : ListView :=
    renderList items impactColumns "qualified_name" (parseDetail args) (parseFormat args)
  let callers := render sections.callers.items
  { fields :=
      [("stage", .nat 3),
       ("status", .lit "ok"),
       ("tool", .lit "get_impact"),
       ("qualified_name", .str qn),
       ("communities", textArray impact.communities),
       ("communities_affected", .nat impact.communities.length),
       ("processes", textArray impact.processes),
       ("processes_affected", .nat impact.processes.length),
       ("detail", .lit callers.detail),
       ("format", .lit callers.format),
       ("callers", callers.value),
       ("callers_total", .nat sections.callers.totalCount),
       ("offset", .nat sections.offset),
       ("primary_list", .lit "callers"),
       ("secondary_lists_paged", .bool false),
       ("importers", (render sections.importers.items).value),
       ("importers_total", .nat sections.importers.totalCount),
       ("users", (render sections.users.items).value),
       ("users_total", .nat sections.users.totalCount),
       ("implementors", (render sections.implementors.items).value),
       ("implementors_total", .nat sections.implementors.totalCount),
       ("references", (render sections.references.items).value),
       ("references_total", .nat sections.references.totalCount),
       ("dependents_total", .nat sections.dependentsTotal),
       ("counts", .object
          [("code", .nat sections.dependentsTotal),
           ("references", .nat sections.referencesTotalFull)]),
       ("truncated", .bool sections.anyTruncated)] ++
      unresolvedCallsites impact ++ cfgTwins impact qn ++
      callerContexts impact sections.dependentsTotal ++
      optional "columns" callers.columns ++
      optional "next_offset" (sections.callers.nextOffset.map .nat)
    epistemic := impact.epistemic
    epistemicReasons := impact.epistemicReasons }

/-! ## The follow-ups -/

/-- The unqualified name: after the last `::`, then after the last dot. -/
def lastSegment (s : Text) : Text := lastPiece ['.'] (lastPiece "::".toList s)

/-- The filter of the open call sites that name the target. -/
def unresolvedNameFilter (bare : Text) : Text :=
  "cs.is_resolved = false AND (cs.callee_name = ".toList ++ cypherStr bare ++
  " OR cs.callee_name ENDS WITH ".toList ++ cypherStr ('.' :: bare) ++
  " OR cs.callee_name ENDS WITH ".toList ++ cypherStr ("::".toList ++ bare) ++ [')']

def outsideTargetSitesQuery (qn : Text) : Text :=
  "MATCH (cs:CallSite) WHERE ".toList ++ unresolvedNameFilter (lastSegment (stripCfgGates qn)) ++
  " AND cs.unresolved_reason = ".toList ++ cypherStr "outside_compiled_targets".toList ++
  " RETURN cs.id ORDER BY cs.id".toList

/-- The step for the open call sites outside every compiled target. -/
def outsideTargetsStep (impact : ImpactResult) (qn : Text) : Text :=
  let files := impact.unresolvedCallsiteOutsideTargetFiles
  let place := if files = [] then [] else " (".toList ++ joinWith ", ".toList files ++ [')']
  Nat.toDigits 10 impact.unresolvedCallsitesOutsideTargets ++
  (" unresolved call site(s) naming this symbol sit in files outside every compiled " ++
    "Cargo target").toList ++ place ++
  ("; the language server never loads those files, so lsp_resolve cannot resolve them. " ++
    "List the sites with query_graph(query=\"").toList ++ outsideTargetSitesQuery qn ++
  ("\"), and the files with query_graph(graph=\"missed\") under " ++
    "coverage.outside_build_targets.files").toList

/-- The step for open call sites where no caller is known. -/
def unresolvedStep (unresolved outside : ℕ) : Text :=
  Nat.toDigits 10 unresolved ++
  (if unresolved ≤ outside then
    (" call site(s) name this symbol but none resolved, and all of them sit outside the " ++
      "compiled Cargo targets, which the language server cannot see: see the next step").toList
  else
    (" call site(s) name this symbol but none resolved: run analyze_codebase with lsp: true " ++
      "(Rust receiver calls need it) or check query_graph(graph=\"missed\") for files the " ++
      "language server cannot see").toList)

def impactNextSteps (impact : ImpactResult) (qn : Text) : List Text :=
  let outside := impact.unresolvedCallsitesOutsideTargets
  let unresolved := impact.unresolvedCallsitesNamingTarget
  (if impact.callers ≠ [] then
    [("inspect a caller's own blast radius: get_impact on a " ++
      "`callers[].qualified_name`").toList] else []) ++
  (if impact.callers = [] ∧ 0 < unresolved then [unresolvedStep unresolved outside] else []) ++
  (if 0 < outside then [outsideTargetsStep impact qn] else []) ++
  (if impact.epistemic = .lowerBound then
    ["this is a lower bound — run get_context on '".toList ++ qn ++
      ("' to review its interface relationships, or lsp_resolve to tighten " ++
        "dynamic-dispatch edges").toList] else []) ++
  (if impact.implementors ≠ [] then
    [("review an implementor directly: get_symbol on an " ++
      "`implementors[].qualified_name`").toList] else [])

def attachCochangeSection (out : Envelope) (partners : List CochangePartner) (args : Arguments) :
    Envelope :=
  let view := renderList (partners.map CochangePartner.toJson) cochangePartnerColumns "file"
    (parseDetail args) (parseFormat args)
  out.set (
    [("cochange_partners", view.value), ("cochange_partners_total", .nat partners.length)] ++
    optional "cochange_partner_columns" view.columns)

def foreignReason (count : ℕ) : Text :=
  Nat.toDigits 10 count ++
  (" cross-repo caller(s) were matched by symbol name across sibling graphs without a shared " ++
    "linker (confidence 0.50); foreign blast radius is heuristic").toList

def attachForeignCallers (out : Envelope) : Option Foreign → Envelope
  | none => out
  | some foreign =>
      let page := boundValues Json.size perSectionChars (foreign.callers.map ForeignCaller.toJson)
      let out := out.set (
        [("foreign_callers", .array page.items),
         ("foreign_callers_total", .nat foreign.callers.length),
         ("foreign_callers_paged", .bool false)] ++
        optional "sibling_graphs_skipped"
          (if foreign.skipped = [] then none else some (textArray foreign.skipped)))
      if foreign.callers = [] then out else out.hedge (foreignReason foreign.callers.length)

/-- An exact answer needs a coverage record that shows no gap. -/
def requireCoverageEvidence (out : Envelope) (missingEvidence : Option Text) : Envelope :=
  if out.epistemic = .exact then
    match missingEvidence with
    | none => out
    | some reason => out.hedge reason
  else out

/-- The response for a target that the graph has, with its freshness receipt. -/
def impactResponse (lookups : Lookups) (qn : Text) (args : Arguments) : Envelope :=
  let impact := sortImpactLists lookups.impact
  let sections := pagedImpactSections impact (args.offset.getD 0)
  let out := impactEnvelope sections impact qn args
  let out := attachCochangeSection out lookups.partners args
  let out := out.set [("next_steps", textArray (impactNextSteps impact qn))]
  let out := attachForeignCallers out lookups.foreign
  let out := requireCoverageEvidence out lookups.missingEvidence
  out.set [("graph_freshness", lookups.freshness.toJson)]

end Impact

end CodeGraph
