import CodeGraph.ImpactResponse

/-!
# The size of a `get_impact` response

Each of the five lists keeps to its share of the cap, but five shares are twice
the cap, and what stands beside the lists has no share at all. `impactSize_eq` is
the size of a response as the sum of the three: the lists of dependents, the lists
that nothing cuts, and the envelope.
-/

namespace CodeGraph

open List

namespace Impact

open ResponseBudget
open QueryGraph (Arguments Detail Format parseDetail parseFormat optional optionalSize)
open Json (bracketed strSize litSize numSize boolSize fieldSize fieldsSize)

/-! ## What a handle costs -/

/-- What the budget counts of a dependent. -/
def handleSize (n : ImpactNode) : ℕ :=
  fieldsSize
    [("confidence", strSize n.confidence), ("id", strSize n.id), ("label", strSize n.label),
     ("qualified_name", strSize n.qualifiedName)] +
  optionalSize "context" (if n.context = [] then none else some (strSize n.context)) + 1

/-- The bytes of a list of dependents under a detail and a format. -/
def viewSize : Detail → Format → List ImpactNode → ℕ
  | .ids, _, nodes => bracketed (nodes.map fun n => strSize n.qualifiedName)
  | .full, .tabular, nodes => bracketed (nodes.map fun n => bracketed
      [strSize n.qualifiedName, strSize n.label, strSize n.confidence, strSize n.id,
       if n.context = [] then 4 else strSize n.context])
  | .full, .json, nodes => bracketed (nodes.map handleSize)

def partnerSize (p : CochangePartner) : ℕ :=
  fieldsSize
    [("cochange_count", Json.size (.num p.cochangeCount)), ("coupling", strSize p.coupling),
     ("file", strSize p.file), ("jaccard", strSize p.jaccard)] + 1

def partnersSize : Detail → Format → List CochangePartner → ℕ
  | .ids, _, partners => bracketed (partners.map fun p => strSize p.file)
  | .full, .tabular, partners => bracketed (partners.map fun p => bracketed
      [strSize p.file, Json.size (.num p.cochangeCount), strSize p.coupling, strSize p.jaccard])
  | .full, .json, partners => bracketed (partners.map partnerSize)

def foreignSize (f : ForeignCaller) : ℕ :=
  fieldsSize
    [("callee_name", strSize f.calleeName), ("caller_qn", strSize f.callerQn),
     ("callsite_id", strSize f.callsiteId), ("confidence", litSize "0.50"),
     ("repo", strSize f.repo), ("source", litSize "cross-repo")] + 1

def twinSize (t : TwinRow) : ℕ :=
  fieldsSize
    [("cfg_active", strSize t.cfgActive), ("cfg_gate", strSize t.cfgGate), ("id", strSize t.id)] + 1

def textsSize (texts : List Text) : ℕ := bracketed (texts.map strSize)

def countMapSize (counts : List (Text × ℕ)) : ℕ :=
  if counts = [] then 2
  else fieldsSize (counts.map fun (k, n) => (String.ofList k, numSize n)) + 1

theorem impactHandle_size (n : ImpactNode) : (impactHandle n).size = handleSize n := by
  have hcontext : (if n.context = [] then none else some (Json.str n.context)).map Json.size =
      if n.context = [] then none else some (strSize n.context) := by
    split_ifs
    · rfl
    · exact congrArg some (Json.size_str n.context)
  rw [impactHandle, Json.size_object (by simp)]
  simp only [Json.sized_append, Json.sized_cons, Json.sized_nil, Json.fieldsSize_append,
    QueryGraph.size_optional, hcontext, Json.size_str, handleSize, Json.fieldsSize_cons,
    Json.fieldsSize_nil]
  omega

theorem impactHandle_get (n : ImpactNode) :
    (impactHandle n).get "qualified_name" = some (.str n.qualifiedName) ∧
      (impactHandle n).get "label" = some (.str n.label) ∧
      (impactHandle n).get "confidence" = some (.str n.confidence) ∧
      (impactHandle n).get "id" = some (.str n.id) ∧
      (impactHandle n).get "context" =
        if n.context = [] then none else some (.str n.context) := by
  by_cases h : n.context = []
  · simp only [impactHandle, if_pos h]
    exact ⟨rfl, rfl, rfl, rfl, rfl⟩
  · simp only [impactHandle, if_neg h]
    exact ⟨rfl, rfl, rfl, rfl, rfl⟩

theorem bracketed_map {α : Type*} {f : α → Json} {g : α → ℕ} (h : ∀ a, (f a).size = g a)
    (l : List α) : Json.size (.array (l.map f)) = bracketed (l.map g) := by
  rw [Json.size_array, map_map]
  exact congrArg bracketed (map_congr_left fun a _ => h a)

theorem renderList_size (detail : Detail) (format : Format) (nodes : List ImpactNode) :
    Json.size (renderList (impactHandles nodes) impactColumns "qualified_name" detail format).value =
      viewSize detail format nodes := by
  cases detail with
  | ids =>
      have hids : (impactHandles nodes).filterMap (fun it => it.get "qualified_name") =
          nodes.map fun n => Json.str n.qualifiedName := by
        rw [impactHandles, filterMap_map]
        exact filterMap_eq_map_iff_forall_eq_some.mpr fun n _ => (impactHandle_get n).1
      simp only [renderList, hids]
      exact bracketed_map (fun n => Json.size_str n.qualifiedName) nodes
  | full =>
      cases format with
      | tabular =>
          simp only [renderList, impactHandles, map_map]
          refine bracketed_map (fun n => ?_) nodes
          obtain ⟨hname, hlabel, hconfidence, hid, hcontext⟩ := impactHandle_get n
          simp only [Function.comp_apply, impactColumns, map_cons, map_nil, hname, hlabel,
            hconfidence, hid, hcontext, Option.getD_some, Json.size_array, Json.size_str]
          congr 6
          split_ifs
          · rfl
          · exact Json.size_str n.context
      | json => exact bracketed_map impactHandle_size nodes

theorem partner_size (p : CochangePartner) : p.toJson.size = partnerSize p := by
  rw [CochangePartner.toJson, Json.size_object (by simp)]
  simp only [Json.sized_cons, Json.sized_nil, Json.size_str, partnerSize]

theorem renderPartners_size (detail : Detail) (format : Format) (partners : List CochangePartner) :
    Json.size (renderList (partners.map CochangePartner.toJson) cochangePartnerColumns "file" detail
      format).value = partnersSize detail format partners := by
  cases detail with
  | ids =>
      have hids : (partners.map CochangePartner.toJson).filterMap (fun it => it.get "file") =
          partners.map fun p => Json.str p.file := by
        rw [filterMap_map]
        exact filterMap_eq_map_iff_forall_eq_some.mpr fun p _ => rfl
      simp only [renderList, hids]
      exact bracketed_map (fun p => Json.size_str p.file) partners
  | full =>
      cases format with
      | tabular =>
          simp only [renderList, map_map]
          refine bracketed_map (fun p => ?_) partners
          show Json.size (.array [.str p.file, .num p.cochangeCount, .str p.coupling,
            .str p.jaccard]) = _
          simp only [Json.size_array, map_cons, map_nil, Json.size_str]
      | json => exact bracketed_map partner_size partners

theorem foreign_size (f : ForeignCaller) : f.toJson.size = foreignSize f := by
  rw [ForeignCaller.toJson, Json.size_object (by simp)]
  simp only [Json.sized_cons, Json.sized_nil, Json.size_str, Json.size_lit, foreignSize]

theorem twin_size (t : TwinRow) : t.toJson.size = twinSize t := by
  rw [TwinRow.toJson, Json.size_object (by simp)]
  simp only [Json.sized_cons, Json.sized_nil, Json.size_str, twinSize]

theorem textArray_size (texts : List Text) : (textArray texts).size = textsSize texts := by
  rw [textArray, Json.size_array, Json.map_size_str, textsSize]

theorem countMap_size (counts : List (Text × ℕ)) :
    (countMap counts).size = countMapSize counts := by
  by_cases h : counts = []
  · subst h
    rfl
  · have hsized : Json.sized (counts.map fun e => (String.ofList e.1, Json.nat e.2)) =
        counts.map fun e => (String.ofList e.1, numSize e.2) := by
      rw [Json.sized, map_map]
      exact map_congr_left fun e _ => congrArg (Prod.mk _) (Json.size_nat e.2)
    rw [countMap, Json.size_object (by simpa using h), hsized, countMapSize, if_neg h]

/-! ## The lists that are cut -/

/-- The first dependents that fit the share of a section. -/
def sectionRun (nodes : List ImpactNode) : List ImpactNode :=
  nodes.take (fitting handleSize perSectionChars nodes)

theorem fitting_map {α β : Type*} {f : α → β} {size : β → ℕ} {size' : α → ℕ}
    (h : ∀ a, size (f a) = size' a) (charBudget : ℕ) (values : List α) :
    fitting size charBudget (values.map f) = fitting size' charBudget values := by
  have hsum : ∀ n, (((values.map f).take n).map size).sum = ((values.take n).map size').sum := by
    intro n
    rw [← map_take, map_map]
    exact congrArg List.sum (map_congr_left fun a _ => h a)
  simp only [fitting, hsum, length_map]

theorem length_impactHandles (nodes : List ImpactNode) :
    (impactHandles nodes).length = nodes.length := length_map _

theorem take_fitting_handles (nodes : List ImpactNode) :
    (impactHandles nodes).take (fitting Json.size perSectionChars (impactHandles nodes)) =
        impactHandles (sectionRun nodes) ∧
      fitting Json.size perSectionChars (impactHandles nodes) = (sectionRun nodes).length := by
  have hrun : fitting Json.size perSectionChars (impactHandles nodes) =
      fitting handleSize perSectionChars nodes := fitting_map impactHandle_size _ _
  refine ⟨?_, ?_⟩
  · rw [hrun, impactHandles, ← map_take]
    rfl
  · rw [hrun, sectionRun, length_take, Nat.min_eq_left (fitting_le nodes)]

/-! ## What a response costs -/

def shapeNames : Detail → Format → String × String
  | .ids, _ => ("ids", "ids")
  | .full, .tabular => ("full", "tabular")
  | .full, .json => ("full", "json")

/-- The header of a table, shown in the tabular form only. -/
def headerSize (columns : List String) : Detail → Format → Option ℕ
  | .full, .tabular => some (bracketed (columns.map litSize))
  | _, _ => none

/-- The reason that callers matched by name alone add. -/
def foreignHedges : Option Foreign → List Text
  | none => []
  | some foreign =>
      if foreign.callers = [] then [] else [foreignReason foreign.callers.length]

/-- The reasons that the follow-ups add; what is still exact after the foreign
callers needs evidence. -/
def hedges (lookups : Lookups) : List Text :=
  let byName := foreignHedges lookups.foreign
  byName ++
    if byName = [] ∧ lookups.impact.epistemic = .exact then lookups.missingEvidence.toList else []

/-- The dependents shown of a list without a cursor. -/
def shownNodes (nodes : List ImpactNode) : List ImpactNode := sectionRun (sortNodes nodes)

section Response

variable (lookups : Lookups) (qn : Text) (args : Arguments)

/-- The dependents on the page, which starts at the offset. -/
def shownCallers : List ImpactNode :=
  sectionRun ((sortNodes lookups.impact.callers).drop (args.offset.getD 0))

def shownForeign (foreign : Foreign) : List ForeignCaller :=
  foreign.callers.take (fitting foreignSize perSectionChars foreign.callers)

/-- The bytes of the lists that have a share of the cap. -/
def sectionsSize : ℕ :=
  let view := viewSize (parseDetail args) (parseFormat args)
  fieldsSize
    [("callers", view (shownCallers lookups args)),
     ("importers", view (shownNodes lookups.impact.importers)),
     ("users", view (shownNodes lookups.impact.users)),
     ("implementors", view (shownNodes lookups.impact.implementors)),
     ("references", view (shownNodes lookups.impact.references))] +
  optionalSize "foreign_callers"
    (lookups.foreign.map fun foreign => bracketed ((shownForeign foreign).map foreignSize))

/-- The bytes of the lists that nothing cuts. -/
def uncutSize : ℕ :=
  let impact := lookups.impact
  fieldsSize
    [("communities", textsSize impact.communities),
     ("processes", textsSize impact.processes),
     ("epistemic_reasons", textsSize (impact.epistemicReasons ++ hedges lookups)),
     ("next_steps", textsSize (impactNextSteps (sortImpactLists impact) qn)),
     ("cochange_partners", partnersSize (parseDetail args) (parseFormat args) lookups.partners)] +
  optionalSize "cfg_twins"
    (if impact.cfgTwins = [] then none else some (bracketed (impact.cfgTwins.map twinSize))) +
  optionalSize "sibling_graphs_skipped" (lookups.foreign.bind fun foreign =>
    if foreign.skipped = [] then none else some (textsSize foreign.skipped))

/-- The index of the first caller after the page. -/
def nextCaller : ℕ := args.offset.getD 0 + (shownCallers lookups args).length

def leavesOut : Bool :=
  let impact := lookups.impact
  nextCaller lookups args < impact.callers.length ||
    (shownNodes impact.importers).length < impact.importers.length ||
    (shownNodes impact.users).length < impact.users.length ||
    (shownNodes impact.implementors).length < impact.implementors.length ||
    (shownNodes impact.references).length < impact.references.length

def dependentsTotal : ℕ :=
  lookups.impact.callers.length + lookups.impact.importers.length + lookups.impact.users.length +
    lookups.impact.implementors.length

/-- The bytes of the texts, the counts and the flags of the envelope. -/
def scalarsSize : ℕ :=
  let impact := lookups.impact
  let shape := shapeNames (parseDetail args) (parseFormat args)
  fieldsSize
    [("stage", numSize 3),
     ("status", litSize "ok"),
     ("tool", litSize "get_impact"),
     ("qualified_name", strSize qn),
     ("communities_affected", numSize impact.communities.length),
     ("processes_affected", numSize impact.processes.length),
     ("detail", litSize shape.1),
     ("format", litSize shape.2),
     ("callers_total", numSize impact.callers.length),
     ("offset", numSize (args.offset.getD 0)),
     ("primary_list", litSize "callers"),
     ("secondary_lists_paged", boolSize false),
     ("importers_total", numSize impact.importers.length),
     ("users_total", numSize impact.users.length),
     ("implementors_total", numSize impact.implementors.length),
     ("references_total", numSize impact.references.length),
     ("dependents_total", numSize (dependentsTotal lookups)),
     ("counts", fieldsSize
        [("code", numSize (dependentsTotal lookups)),
         ("references", numSize impact.references.length)] + 1),
     ("truncated", boolSize (leavesOut lookups args)),
     ("epistemic", litSize
        (if hedges lookups = [] then impact.epistemic else .lowerBound).asStr),
     ("graph_freshness", lookups.freshness.toJson.size)]

/-- The bytes of what the follow-ups count. -/
def followupsSize : ℕ :=
  let impact := lookups.impact
  let provenAway := impact.callers.length - productionTotal (sortNodes impact.callers)
  fieldsSize
    [("unresolved_callsites_naming_target", numSize impact.unresolvedCallsitesNamingTarget),
     ("unresolved_callsites_outside_targets", numSize impact.unresolvedCallsitesOutsideTargets),
     ("unresolved_callsites_by_reason", countMapSize impact.unresolvedCallsitesByReason),
     ("unresolved_callsites_excluded_other_owner",
        numSize impact.unresolvedCallsitesExcludedOtherOwner),
     ("callers_by_context", countMapSize (byContext (sortNodes impact.callers))),
     ("callers_production_total", numSize (productionTotal (sortNodes impact.callers))),
     ("dependents_production_total", numSize (dependentsTotal lookups - provenAway)),
     ("code_context_basis", strSize impact.codeContextBasis),
     ("cochange_partners_total", numSize lookups.partners.length)] +
  optionalSize "columns" (headerSize impactColumns (parseDetail args) (parseFormat args)) +
  optionalSize "cochange_partner_columns"
    (headerSize cochangePartnerColumns (parseDetail args) (parseFormat args)) +
  optionalSize "next_offset"
    (if nextCaller lookups args < impact.callers.length then some (numSize (nextCaller lookups args))
    else none) +
  optionalSize "cfg_gate"
    ((impact.cfgTwins.find? fun t => t.id = qn).map fun t => strSize t.cfgGate) +
  optionalSize "cfg_active"
    ((impact.cfgTwins.find? fun t => t.id = qn).map fun t => strSize t.cfgActive) +
  optionalSize "unresolved_callsites_cfg_twins"
    (if impact.cfgTwins = [] then none else some (numSize impact.unresolvedCallsitesCfgTwins)) +
  optionalSize "foreign_callers_total"
    (lookups.foreign.map fun foreign => numSize foreign.callers.length) +
  optionalSize "foreign_callers_paged" (lookups.foreign.map fun _ => boolSize false)

end Response

/-! ## The size of a response -/

/-- Each dependent fits the share of its section by itself. -/
structure RowsFit (lookups : Lookups) : Prop where
  callers : ∀ n ∈ lookups.impact.callers, (impactHandle n).size ≤ perSectionChars
  importers : ∀ n ∈ lookups.impact.importers, (impactHandle n).size ≤ perSectionChars
  users : ∀ n ∈ lookups.impact.users, (impactHandle n).size ≤ perSectionChars
  implementors : ∀ n ∈ lookups.impact.implementors, (impactHandle n).size ≤ perSectionChars
  references : ∀ n ∈ lookups.impact.references, (impactHandle n).size ≤ perSectionChars
  foreign : ∀ foreign ∈ lookups.foreign, ∀ f ∈ foreign.callers, f.toJson.size ≤ perSectionChars

theorem length_sortNodes (nodes : List ImpactNode) : (sortNodes nodes).length = nodes.length :=
  length_insertionSort ..

theorem mem_sortNodes {nodes : List ImpactNode} {n : ImpactNode} :
    n ∈ sortNodes nodes ↔ n ∈ nodes :=
  (perm_insertionSort _ nodes).mem_iff

theorem impactHandles_fit {nodes : List ImpactNode}
    (hfits : ∀ n ∈ nodes, (impactHandle n).size ≤ perSectionChars) :
    ∀ v ∈ impactHandles (sortNodes nodes), v.size ≤ perSectionChars := by
  intro v hv
  obtain ⟨n, hn, rfl⟩ := mem_map.mp hv
  exact hfits n (mem_sortNodes.mp hn)

/-- A list without a cursor, cut. -/
theorem boundValues_handles {nodes : List ImpactNode}
    (hfits : ∀ n ∈ nodes, (impactHandle n).size ≤ perSectionChars) :
    boundValues Json.size perSectionChars (impactHandles (sortNodes nodes)) =
      { items := impactHandles (shownNodes nodes)
        totalCount := nodes.length
        truncated := decide ((shownNodes nodes).length < nodes.length) } := by
  obtain ⟨hitems, hlen⟩ := take_fitting_handles (sortNodes nodes)
  rw [boundValues_fitting (impactHandles_fit hfits), hitems, hlen, length_impactHandles,
    length_sortNodes]
  rfl

theorem boundValuesPaged_handles {nodes : List ImpactNode}
    (hfits : ∀ n ∈ nodes, (impactHandle n).size ≤ perSectionChars) (offset : ℕ) :
    let next := offset + (sectionRun ((sortNodes nodes).drop offset)).length
    boundValuesPaged Json.size perSectionChars (impactHandles (sortNodes nodes)) offset =
      { items := impactHandles (sectionRun ((sortNodes nodes).drop offset))
        totalCount := nodes.length
        truncated := decide (next < nodes.length)
        nextOffset := if next < nodes.length then some next else none } := by
  have hdrop : (impactHandles (sortNodes nodes)).drop offset =
      impactHandles ((sortNodes nodes).drop offset) := map_drop.symm
  obtain ⟨hitems, hlen⟩ := take_fitting_handles ((sortNodes nodes).drop offset)
  rw [boundValuesPaged_fitting (impactHandles_fit hfits), hdrop, hitems, hlen,
    length_impactHandles, length_sortNodes]

/-- The bytes of the fields that a response has so far. -/
def Envelope.cost (out : Envelope) : ℕ := fieldsSize (Json.sized out.fields)

@[simp] theorem Envelope.cost_set (out : Envelope) (fields : List (String × Json)) :
    (out.set fields).cost = out.cost + fieldsSize (Json.sized fields) := by
  rw [Envelope.cost, Envelope.set, Json.sized_append, Json.fieldsSize_append, Envelope.cost]

@[simp] theorem Envelope.cost_hedge (out : Envelope) (reason : Text) :
    (out.hedge reason).cost = out.cost := rfl

theorem Envelope.size_toJson (out : Envelope) :
    out.toJson.size = fieldSize "epistemic" (litSize out.epistemic.asStr) +
      fieldSize "epistemic_reasons" (textsSize out.epistemicReasons) + out.cost + 1 := by
  rw [Envelope.toJson, Json.size_ordered (by simp)]
  simp only [Json.sized_append, Json.sized_cons, Json.sized_nil, Json.fieldsSize_append,
    Json.fieldsSize_cons, Json.fieldsSize_nil, Json.size_lit, Json.size_array, Json.map_size_str,
    textsSize, Envelope.cost]
  omega

theorem unresolvedCallsites_size (impact : ImpactResult) :
    fieldsSize (Json.sized (unresolvedCallsites impact)) = fieldsSize
      [("unresolved_callsites_naming_target", numSize impact.unresolvedCallsitesNamingTarget),
       ("unresolved_callsites_outside_targets", numSize impact.unresolvedCallsitesOutsideTargets),
       ("unresolved_callsites_by_reason", countMapSize impact.unresolvedCallsitesByReason),
       ("unresolved_callsites_excluded_other_owner",
          numSize impact.unresolvedCallsitesExcludedOtherOwner)] := by
  simp only [unresolvedCallsites, Json.sized_cons, Json.sized_nil, Json.size_nat, countMap_size]

theorem cfgTwins_size (impact : ImpactResult) (qn : Text) :
    fieldsSize (Json.sized (cfgTwins impact qn)) =
      optionalSize "cfg_twins"
        (if impact.cfgTwins = [] then none else some (bracketed (impact.cfgTwins.map twinSize))) +
      optionalSize "cfg_gate"
        ((impact.cfgTwins.find? fun t => t.id = qn).map fun t => strSize t.cfgGate) +
      optionalSize "cfg_active"
        ((impact.cfgTwins.find? fun t => t.id = qn).map fun t => strSize t.cfgActive) +
      optionalSize "unresolved_callsites_cfg_twins"
        (if impact.cfgTwins = [] then none
          else some (numSize impact.unresolvedCallsitesCfgTwins)) := by
  by_cases h : impact.cfgTwins = []
  · simp only [cfgTwins, h, if_true, find?_nil, Option.map_none, optionalSize,
      Json.sized_nil]
    rfl
  · rw [cfgTwins, if_neg h, if_neg h, if_neg h]
    simp only [Json.sized_append, Json.fieldsSize_append, Json.sized_cons, Json.sized_nil,
      Json.fieldsSize_cons, Json.fieldsSize_nil, Json.size_nat, bracketed_map twin_size,
      QueryGraph.optionalSize_some]
    cases impact.cfgTwins.find? fun t => t.id = qn with
    | none =>
        simp only [Json.sized_nil, Json.fieldsSize_nil, Option.map_none,
          QueryGraph.optionalSize_none]
        omega
    | some own =>
        simp only [Json.sized_cons, Json.sized_nil, Json.fieldsSize_cons, Json.fieldsSize_nil,
          Json.size_str, Option.map_some, QueryGraph.optionalSize_some]
        omega

theorem callerContexts_size (impact : ImpactResult) (dependents : ℕ) :
    fieldsSize (Json.sized (callerContexts impact dependents)) = fieldsSize
      [("callers_by_context", countMapSize (byContext impact.callers)),
       ("callers_production_total", numSize (productionTotal impact.callers)),
       ("dependents_production_total",
          numSize (dependents - (impact.callers.length - productionTotal impact.callers))),
       ("code_context_basis", strSize impact.codeContextBasis)] := by
  simp only [callerContexts, Json.sized_cons, Json.sized_nil, Json.size_nat, Json.size_str,
    countMap_size]

theorem renderList_shape (items : List Json) (columns : List String) (idField : String)
    (detail : Detail) (format : Format) :
    let view := renderList items columns idField detail format
    view.detail = (shapeNames detail format).1 ∧ view.format = (shapeNames detail format).2 ∧
      view.columns.map Json.size = headerSize columns detail format := by
  have hheader : Json.size (.array (columns.map .lit)) = bracketed (columns.map litSize) :=
    bracketed_map Json.size_lit columns
  cases detail with
  | ids => exact ⟨rfl, rfl, rfl⟩
  | full =>
      cases format with
      | tabular => exact ⟨rfl, rfl, congrArg some hheader⟩
      | json => exact ⟨rfl, rfl, rfl⟩

theorem attachCochangeSection_cost (out : Envelope) (partners : List CochangePartner)
    (args : Arguments) :
    (attachCochangeSection out partners args).cost = out.cost +
      fieldSize "cochange_partners" (partnersSize (parseDetail args) (parseFormat args) partners) +
      fieldSize "cochange_partners_total" (numSize partners.length) +
      optionalSize "cochange_partner_columns"
        (headerSize cochangePartnerColumns (parseDetail args) (parseFormat args)) := by
  obtain ⟨-, -, hcolumns⟩ := renderList_shape (partners.map CochangePartner.toJson)
    cochangePartnerColumns "file" (parseDetail args) (parseFormat args)
  simp only [attachCochangeSection, Envelope.cost_set, Json.sized_append, Json.fieldsSize_append,
    Json.sized_cons, Json.sized_nil, Json.fieldsSize_cons, Json.fieldsSize_nil, Json.size_nat,
    renderPartners_size, QueryGraph.size_optional, hcolumns]
  omega

theorem attachForeignCallers_cost {foreign : Option Foreign}
    (hfits : ∀ f ∈ foreign, ∀ c ∈ f.callers, c.toJson.size ≤ perSectionChars) (out : Envelope) :
    (attachForeignCallers out foreign).cost = out.cost +
      optionalSize "foreign_callers"
        (foreign.map fun f => bracketed ((shownForeign f).map foreignSize)) +
      optionalSize "foreign_callers_total" (foreign.map fun f => numSize f.callers.length) +
      optionalSize "foreign_callers_paged" (foreign.map fun _ => boolSize false) +
      optionalSize "sibling_graphs_skipped" (foreign.bind fun f =>
        if f.skipped = [] then none else some (textsSize f.skipped)) := by
  cases foreign with
  | none => rfl
  | some foreign =>
      have hvalues : ∀ v ∈ foreign.callers.map ForeignCaller.toJson, v.size ≤ perSectionChars := by
        intro v hv
        obtain ⟨f, hf, rfl⟩ := mem_map.mp hv
        exact hfits foreign rfl f hf
      have hitems : (boundValues Json.size perSectionChars
          (foreign.callers.map ForeignCaller.toJson)).items =
            (shownForeign foreign).map ForeignCaller.toJson := by
        rw [boundValues_fitting hvalues, fitting_map foreign_size]
        exact map_take.symm
      have hskipped : (if foreign.skipped = [] then none
          else some (textArray foreign.skipped)).map Json.size =
            if foreign.skipped = [] then none else some (textsSize foreign.skipped) := by
        split_ifs
        · rfl
        · exact congrArg some (textArray_size foreign.skipped)
      have hcost : ∀ (p : Prop) [Decidable p] (out' : Envelope) (reason : Text),
          (if p then out' else out'.hedge reason).cost = out'.cost := by
        intro p _ out' reason
        split_ifs <;> rfl
      simp only [attachForeignCallers, hcost, Envelope.cost_set, Json.sized_append,
        Json.fieldsSize_append, Json.sized_cons, Json.sized_nil, Json.fieldsSize_cons,
        Json.fieldsSize_nil, Json.size_nat, Json.size_bool, hitems, bracketed_map foreign_size,
        QueryGraph.size_optional, hskipped, Option.map_some, Option.bind_some,
        QueryGraph.optionalSize_some]
      omega

theorem requireCoverageEvidence_cost (out : Envelope) (missingEvidence : Option Text) :
    (requireCoverageEvidence out missingEvidence).cost = out.cost := by
  unfold requireCoverageEvidence
  cases missingEvidence with
  | none => split_ifs <;> rfl
  | some reason => split_ifs <;> rfl

section Response

variable {lookups : Lookups} {qn : Text} {args : Arguments}

/-- The sections of a response, where each dependent fits its share by itself. -/
def fittingSections (lookups : Lookups) (args : Arguments) : ImpactSections :=
  let cut (nodes : List ImpactNode) : Bounded Json :=
    { items := impactHandles (shownNodes nodes)
      totalCount := nodes.length
      truncated := decide ((shownNodes nodes).length < nodes.length) }
  let impact := lookups.impact
  let next := nextCaller lookups args
  { offset := args.offset.getD 0
    callers :=
      { items := impactHandles (shownCallers lookups args)
        totalCount := impact.callers.length
        truncated := decide (next < impact.callers.length)
        nextOffset := if next < impact.callers.length then some next else none }
    importers := cut impact.importers
    users := cut impact.users
    implementors := cut impact.implementors
    references := cut impact.references
    dependentsTotal := dependentsTotal lookups
    referencesTotalFull := impact.references.length }

theorem pagedImpactSections_eq (hfits : RowsFit lookups) :
    pagedImpactSections (sortImpactLists lookups.impact) (args.offset.getD 0) =
      fittingSections lookups args := by
  simp only [pagedImpactSections, sortImpactLists, length_sortNodes,
    boundValuesPaged_handles hfits.callers, boundValues_handles hfits.importers,
    boundValues_handles hfits.users, boundValues_handles hfits.implementors,
    boundValues_handles hfits.references]
  rfl

theorem anyTruncated_fittingSections :
    (fittingSections lookups args).anyTruncated = leavesOut lookups args := rfl

theorem attachForeignCallers_hedges (out : Envelope) (foreign : Option Foreign) :
    (attachForeignCallers out foreign).epistemicReasons =
        out.epistemicReasons ++ foreignHedges foreign ∧
      (attachForeignCallers out foreign).epistemic =
        if foreignHedges foreign = [] then out.epistemic else .lowerBound := by
  cases foreign with
  | none => exact ⟨(append_nil _).symm, rfl⟩
  | some foreign =>
      by_cases h : foreign.callers = []
      · simp only [attachForeignCallers, foreignHedges, if_pos h, if_true, append_nil]
        exact ⟨rfl, rfl⟩
      · simp only [attachForeignCallers, foreignHedges, if_neg h, cons_ne_nil, if_false]
        exact ⟨rfl, rfl⟩

theorem requireCoverageEvidence_hedges (out : Envelope) (missingEvidence : Option Text) :
    (requireCoverageEvidence out missingEvidence).epistemicReasons = out.epistemicReasons ++
        (if out.epistemic = .exact then missingEvidence.toList else []) ∧
      (requireCoverageEvidence out missingEvidence).epistemic =
        if out.epistemic = .exact ∧ missingEvidence.isSome then .lowerBound
        else out.epistemic := by
  by_cases h : out.epistemic = .exact
  · cases missingEvidence with
    | none => simp [requireCoverageEvidence, h]
    | some reason => simp [requireCoverageEvidence, h, Envelope.hedge]
  · simp [requireCoverageEvidence, h]

/-- The reasons that the follow-ups add, and the boundary they leave. -/
theorem impactResponse_hedges :
    (impactResponse lookups qn args).epistemicReasons =
        lookups.impact.epistemicReasons ++ hedges lookups ∧
      (impactResponse lookups qn args).epistemic =
        if hedges lookups = [] then lookups.impact.epistemic else .lowerBound := by
  let out := (attachCochangeSection (impactEnvelope
    (pagedImpactSections (sortImpactLists lookups.impact) (args.offset.getD 0))
    (sortImpactLists lookups.impact) qn args) lookups.partners args).set
      [("next_steps", textArray (impactNextSteps (sortImpactLists lookups.impact) qn))]
  obtain ⟨hreasons, hboundary⟩ := attachForeignCallers_hedges out lookups.foreign
  obtain ⟨hreasons', hboundary'⟩ := requireCoverageEvidence_hedges
    (attachForeignCallers out lookups.foreign) lookups.missingEvidence
  have hstart : out.epistemicReasons = lookups.impact.epistemicReasons ∧
      out.epistemic = lookups.impact.epistemic := ⟨rfl, rfl⟩
  rw [hstart.1] at hreasons
  rw [hstart.2] at hboundary
  rw [hboundary, hreasons, append_assoc] at hreasons'
  rw [hboundary] at hboundary'
  refine ⟨hreasons'.trans ?_, hboundary'.trans ?_⟩
  · rw [hedges]
    by_cases h : foreignHedges lookups.foreign = []
    · simp [h]
    · simp [h]
  · by_cases h : foreignHedges lookups.foreign = []
    · cases hmissing : lookups.missingEvidence with
      | none => simp [hedges, h, hmissing]
      | some reason => simp [hedges, h, hmissing]
    · simp [hedges, h]

theorem impactSize_eq (hfits : RowsFit lookups) :
    (impactResponse lookups qn args).toJson.size =
      sectionsSize lookups args + uncutSize lookups qn args + scalarsSize lookups qn args +
        followupsSize lookups qn args + 1 := by
  obtain ⟨hreasons, hboundary⟩ := @impactResponse_hedges lookups qn args
  have hcounts : ∀ m n : ℕ, (Json.object [("code", .nat m), ("references", .nat n)]).size =
      fieldsSize [("code", numSize m), ("references", numSize n)] + 1 := by
    intro m n
    rw [Json.size_object (by simp)]
    simp only [Json.sized_cons, Json.sized_nil, Json.size_nat]
  obtain ⟨hdetail, hformat, hcolumns⟩ := renderList_shape
    (impactHandles (shownCallers lookups args)) impactColumns "qualified_name" (parseDetail args)
    (parseFormat args)
  have hnext : ((if nextCaller lookups args < lookups.impact.callers.length then
      some (nextCaller lookups args) else none).map Json.nat).map Json.size =
        if nextCaller lookups args < lookups.impact.callers.length then
          some (numSize (nextCaller lookups args)) else none := by
    split_ifs
    · exact congrArg some (Json.size_nat _)
    · rfl
  rw [Envelope.size_toJson, hreasons, hboundary]
  simp only [impactResponse, Envelope.cost_set, requireCoverageEvidence_cost,
    attachForeignCallers_cost hfits.foreign, attachCochangeSection_cost,
    pagedImpactSections_eq hfits, impactEnvelope, anyTruncated_fittingSections]
  simp only [fittingSections, Envelope.cost, Json.sized_append, Json.fieldsSize_append,
    Json.sized_cons, Json.sized_nil, Json.fieldsSize_cons, Json.fieldsSize_nil, Json.size_nat,
    Json.size_str, Json.size_lit, Json.size_bool, textArray_size, unresolvedCallsites_size,
    cfgTwins_size, callerContexts_size, renderList_size, hdetail, hformat, hcolumns, hcounts, hnext,
    QueryGraph.size_optional, sortImpactLists, length_sortNodes, sectionsSize, uncutSize,
    scalarsSize, followupsSize]
  omega

end Response

end Impact

end CodeGraph
