import CodeGraph.ImpactSize

/-!
# Responses and the cap of a tool result

The budget counts rows, and gives them the whole cap. A response of `query_graph`
pays the rows of a page twice, and its envelope; a response of `get_impact` gives
five lists two fifths of the cap each, and has lists that nothing cuts.
-/

namespace CodeGraph

open List Cypher ResponseBudget
open QueryGraph Impact
open Json (bracketed strSize fieldSize)

/-- The rows of the page, each twice in the default form, and the envelope fit the
cap together. -/
def QueryFits (elapsedMs : ℕ) (args : Arguments) (qr : QueryResult) (info : QueryPageMeta) :
    Prop :=
  rowsSize (parseDetail args) (parseFormat args) (pageRows qr info) +
    envelopeSize elapsedMs args qr info ≤ maxResponseChars

/-- The runs of dependents that fit their shares, the lists without a share and the
envelope fit the cap together. -/
def ImpactFits (lookups : Lookups) (qn : Text) (args : Arguments) : Prop :=
  sectionsSize lookups args + uncutSize lookups qn args + scalarsSize lookups qn args +
    followupsSize lookups qn args + 1 ≤ maxResponseChars

def answersWith (qr : QueryResult) : Engine where
  graphPathExists := true
  executeReadOnlyQuery _ _ := .ok qr

/-- One row of one cell with `n` characters. -/
def wideAnswer (n : ℕ) : QueryResult where
  columns := ["n".toList]
  rows := [[List.replicate n 'a']]
  rows_fit := by
    rw [length_singleton]
    decide

/-- A dependent with a name of ordinary length. -/
def dependent (context : Text) (i : ℕ) : ImpactNode where
  id := "src/lib.rs::f".toList ++ List.replicate i 'a'
  qualifiedName := "src/lib.rs::f".toList ++ List.replicate i 'a'
  label := "Function".toList
  confidence := "1.00".toList
  context := context

/-- The answer of a store without communities, twins and open call sites. -/
def dependentsOnly (callers importers users : List ImpactNode) : Lookups where
  impact :=
    { communities := [], processes := [], callers, importers, users, implementors := []
      references := [], epistemic := .exact, epistemicReasons := []
      unresolvedCallsitesNamingTarget := 0, unresolvedCallsitesOutsideTargets := 0
      unresolvedCallsiteOutsideTargetFiles := [], unresolvedCallsitesCfgTwins := 0
      unresolvedCallsitesByReason := [], unresolvedCallsitesExcludedOtherOwner := 0
      cfgTwins := [], codeContextBasis := "source_only".toList }
  partners := []
  foreign := none
  missingEvidence := none
  freshness := .unknown

def threeLists : Lookups :=
  dependentsOnly ((List.range 150).map (dependent "production".toList))
    ((List.range 150).map (dependent [])) ((List.range 150).map (dependent []))

def noArguments : Arguments where
  graphPath := some "graph".toList

theorem rowSize_wide (n : ℕ) : rowSize [List.replicate n 'a'] = n + 4 := by
  have hone : Json.byteLen (Json.escapeChar 'a') = 1 := by decide
  rw [QueryGraph.rowSize_eq, map_cons, map_nil, bracketed, strSize,
    Json.escapedSize_replicate, hone, sum_cons, sum_nil, length_singleton]
  omega

theorem le_size_wideAnswer {n : ℕ} (hn : n + 4 ≤ maxResponseChars) (info : QueryPageMeta)
    (hoffset : info.offset = 0) (elapsedMs : ℕ) :
    2 * n + 6 ≤ ((shapeTokenSurface noArguments
      (pagedQueryResponse rowSize maxResponseChars (wideAnswer n) info)).toJson elapsedMs).size := by
  have hfits : ∀ row ∈ (wideAnswer n).rows, rowSize row ≤ maxResponseChars := by
    intro row hrow
    rw [mem_singleton.mp hrow, rowSize_wide]
    exact hn
  have hpage : pageRows (wideAnswer n) info = [[List.replicate n 'a']] := by
    have hsum : ((wideAnswer n).rows.map rowSize).sum ≤ maxResponseChars := by
      show (List.map rowSize [[List.replicate n 'a']]).sum ≤ maxResponseChars
      rw [map_cons, map_nil, sum_cons, sum_nil, rowSize_wide]
      exact hn
    rw [pageRows, hoffset, drop_zero, fitting_of_sum_le hsum, take_length]
    rfl
  have hrows : rowsSize .full .json [[List.replicate n 'a']] = 2 * n + 6 := by
    rw [rowsSize, map_cons, map_nil, sum_cons, sum_nil, rowSize_wide,
      length_singleton]
    omega
  have hparse : parseDetail noArguments = .full ∧ parseFormat noArguments = .json := by decide
  rw [pageSize_eq hfits, hpage, hparse.1, hparse.2, hrows]
  exact Nat.le_add_right _ _

theorem handleSize_eq (n : ImpactNode) :
    handleSize n = strSize n.confidence + strSize n.id + strSize n.label +
      strSize n.qualifiedName + (if n.context = [] then 0 else strSize n.context + 11) + 48 := by
  have hkeys : strSize "confidence".toList = 12 ∧ strSize "id".toList = 4 ∧
      strSize "label".toList = 7 ∧ strSize "qualified_name".toList = 16 ∧
      strSize "context".toList = 9 := by decide
  obtain ⟨hconfidence, hid, hlabel, hname, hcontext⟩ := hkeys
  simp only [handleSize, Json.fieldsSize_cons, Json.fieldsSize_nil, fieldSize, hconfidence, hid,
    hlabel, hname]
  split_ifs
  · rw [QueryGraph.optionalSize_none]
    omega
  · rw [QueryGraph.optionalSize_some, fieldSize, hcontext]
    omega

theorem handleSize_dependent (context : Text) (i : ℕ) :
    handleSize (dependent context i) =
      94 + 2 * i + if context = [] then 0 else strSize context + 11 := by
  have hone : Json.byteLen (Json.escapeChar 'a') = 1 := by decide
  have hprefix : Json.escapedSize "src/lib.rs::f".toList = 13 := by decide
  have hname : strSize ("src/lib.rs::f".toList ++ List.replicate i 'a') = 15 + i := by
    rw [strSize, Json.escapedSize_append, Json.escapedSize_replicate, hone, hprefix]
    omega
  have hconfidence : strSize "1.00".toList = 6 := by decide
  have hlabel : strSize "Function".toList = 10 := by decide
  rw [handleSize_eq]
  show strSize "1.00".toList + strSize ("src/lib.rs::f".toList ++ List.replicate i 'a') +
    strSize "Function".toList + strSize ("src/lib.rs::f".toList ++ List.replicate i 'a') +
      (if context = [] then 0 else strSize context + 11) + 48 = _
  rw [hconfidence, hlabel, hname]
  omega

theorem sum_dependents (context : Text) (m : ℕ) :
    (((List.range m).map (dependent context)).map handleSize).sum =
      m * (93 + m + if context = [] then 0 else strSize context + 11) := by
  induction m with
  | zero => simp
  | succ m ih =>
      rw [range_succ, map_append, map_append, sum_append, ih, map_singleton,
        map_singleton, sum_singleton, handleSize_dependent]
      ring

theorem dependents_fit {context : Text} {m : ℕ}
    (hsum : (((List.range m).map (dependent context)).map handleSize).sum ≤ perSectionChars) :
    ∀ n ∈ (List.range m).map (dependent context), (impactHandle n).size ≤ perSectionChars := by
  intro n hn
  rw [impactHandle_size]
  exact Nat.le_trans (single_le_sum (fun _ _ => Nat.zero_le _) _ (mem_map_of_mem hn)) hsum

/-- A list that fits its share is shown whole. -/
theorem sum_le_viewSize {nodes : List ImpactNode}
    (hsum : (nodes.map handleSize).sum ≤ perSectionChars) :
    (nodes.map handleSize).sum ≤ viewSize .full .json (sectionRun (sortNodes nodes)) := by
  have hsorted : ((sortNodes nodes).map handleSize).sum = (nodes.map handleSize).sum :=
    ((perm_insertionSort _ nodes).map handleSize).sum_eq
  rw [← hsorted] at hsum ⊢
  rw [sectionRun, fitting_of_sum_le hsum, take_length]
  exact Json.sum_le_bracketed _

theorem le_size_dependentsOnly {callers importers users : List ImpactNode}
    (hfits : RowsFit (dependentsOnly callers importers users))
    (hcallers : (callers.map handleSize).sum ≤ perSectionChars)
    (himporters : (importers.map handleSize).sum ≤ perSectionChars)
    (husers : (users.map handleSize).sum ≤ perSectionChars) (qn : Text) :
    (callers.map handleSize).sum + (importers.map handleSize).sum + (users.map handleSize).sum ≤
      (impactResponse (dependentsOnly callers importers users) qn noArguments).toJson.size := by
  have hparse : parseDetail noArguments = .full ∧ parseFormat noArguments = .json := by decide
  have hcallers' : (callers.map handleSize).sum ≤ viewSize .full .json
      (shownCallers (dependentsOnly callers importers users) noArguments) :=
    sum_le_viewSize hcallers
  have himporters' := Nat.le_trans (sum_le_viewSize himporters) (Json.le_fieldSize "importers" _)
  have husers' := Nat.le_trans (sum_le_viewSize husers) (Json.le_fieldSize "users" _)
  have hfield := Json.le_fieldSize "callers" (viewSize .full .json
    (shownCallers (dependentsOnly callers importers users) noArguments))
  rw [impactSize_eq hfits]
  have hsections : (callers.map handleSize).sum + (importers.map handleSize).sum +
      (users.map handleSize).sum ≤
        sectionsSize (dependentsOnly callers importers users) noArguments := by
    simp only [sectionsSize, hparse, Json.fieldsSize_cons, shownNodes]
    simp only [dependentsOnly] at hcallers' hfield ⊢
    omega
  omega

theorem threeLists_fit : RowsFit threeLists where
  callers := dependents_fit (by rw [sum_dependents]; decide)
  importers := dependents_fit (by rw [sum_dependents]; decide)
  users := dependents_fit (by rw [sum_dependents]; decide)
  implementors := nofun
  references := nofun
  foreign := nofun

theorem pagedAnswer_wide (query : Text) (n : ℕ) :
    (pagedAnswer query 0 (wideAnswer n)).1 = wideAnswer n := by
  simp only [pagedAnswer]
  split_ifs
  · rfl
  · rfl

def emptyAnswer : QueryResult where
  columns := []
  rows := []
  rows_fit := Nat.zero_le _

theorem noDependents_fit : RowsFit (dependentsOnly [] [] []) where
  callers := forall_mem_nil _
  importers := forall_mem_nil _
  users := forall_mem_nil _
  implementors := forall_mem_nil _
  references := forall_mem_nil _
  foreign := nofun

end CodeGraph
