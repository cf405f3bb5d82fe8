import CodeGraph.CfgVerdict
import CodeGraph.ImpactQueries

/-!
# An exact blast radius

What an exact answer should leave nothing of: traits, edges below full confidence, twins,
call sites that name the target and were never resolved, queries that failed. The answer is
exact where no query shows any of these (`exact_iff`), so what the queries cannot show is
all that an exact answer can hide: a site without a flag or with generic arguments behind
its callee, a twin whose gate is that of its file, a trait under the name of another item.
-/

namespace CodeGraph

open List

namespace Radius

open Schema (NodeLabel RelTable)
open Impact (Boundary TwinRow lastSegment)

/-! ## The callee a site names -/

/-- What stands before a group of arguments, read backwards from inside it; an arrow closes
nothing. -/
def beforeGroup : (depth : ℕ) → Text → Text
  | _, [] => []
  | depth, '>' :: '-' :: text => beforeGroup depth text
  | depth, '>' :: text => beforeGroup (depth + 1) text
  | depth, '<' :: text => if depth = 1 then text else beforeGroup (depth - 1) text
  | depth, _ :: text => beforeGroup depth text

def withoutArguments (cc : CharClass) (callee : Text) : Text :=
  match callee.reverse with
  | '>' :: text => trimEndMatches "::".toList ((beforeGroup 1 text).dropWhile cc.isWhitespace).reverse
  | _ => callee

def lastIdentifier (cc : CharClass) (callee : Text) : Text :=
  trim cc (lastSegment (withoutArguments cc callee))

/-- Generic arguments behind the name, or blanks beside it. -/
def OddlySpelled (cc : CharClass) (callee : Text) : Prop :=
  callee.getLast? = some '>' ∨ trim cc (lastSegment callee) ≠ lastSegment callee

theorem lastIdentifier_of_not_oddlySpelled {cc : CharClass} {callee : Text}
    (h : ¬OddlySpelled cc callee) : lastIdentifier cc callee = lastSegment callee := by
  obtain ⟨hlast, htrim⟩ := not_or.mp h
  have hsame : withoutArguments cc callee = callee := by
    rw [withoutArguments]
    split
    · next text heq =>
      refine absurd ?_ hlast
      rw [← head?_reverse, heq]
      rfl
    · rfl
  rw [lastIdentifier, hsame]
  exact not_not.mp htrim

theorem lastSegment_spelled (callee : Text) : callee = lastSegment callee ∨
    '.' :: lastSegment callee <:+ callee ∨ "::".toList ++ lastSegment callee <:+ callee := by
  have hpath := lastPiece_isSuffix "::".toList callee
  rcases lastPiece_isSuffix ['.'] (lastPiece "::".toList callee) with hdot | hdot
  · rw [← lastSegment] at hdot
    rw [hdot]
    exact hpath.elim (fun h => .inl h.symm) (fun h => .inr (.inr h))
  · have hpiece : lastPiece "::".toList callee <:+ callee :=
      hpath.elim (fun h => ⟨[], h⟩) fun h => (suffix_append _ _).trans h
    exact .inr (.inl (hdot.trans hpiece))

variable {cc : CharClass} {store : Store} {target : Text}

/-! ## What an exact answer leaves nothing of -/

namespace Store

/-- Of the facts of a file, those that its `mod` declarations give. -/
def view (store : Store) : TwinView := ⟨fun _ => none, store.files, fun _ => false⟩

def gated (store : Store) (n : Node) : Prop := hasCfgGate n.id ∨ store.view.fileIsGated n.id

/-- The name of the item: through the modules that lead to its file, and without suffixes. -/
def itemName (store : Store) (id : Text) : Text :=
  stripCfgGates ((store.view.logicalId id).getD id)

end Store

/-- `n` is a twin of the target `t`: one item under two gates. -/
structure Twin (store : Store) (target : Text) (t n : Node) : Prop where
  item : t ∈ store.nodes
  other : n ∈ store.nodes
  target : t.id = target ∨ t.qualifiedName = target
  label : n.label = t.label
  apart : n.id ≠ t.id
  gated : store.gated t ∧ store.gated n
  name : store.itemName n.id = store.itemName t.id

/-- An open site, by its flag, whose callee names the target. -/
def Names (cc : CharClass) (target : Text) (site : Site) : Prop :=
  site.isResolved ≠ some true ∧ lastIdentifier cc site.calleeName = bareName target

/-- The other-owner filter excludes the site. -/
def Excluded (cc : CharClass) (store : Store) (target : Text) (site : Site) : Prop :=
  ∃ f, (forTarget cc store target).value = some f ∧
    (excludesRow cc store f (store.nodeColumnExists .callSite "receiver_hint").value site).value

/-- Nothing stands behind the answer that it does not show. -/
structure HidesNothing (cc : CharClass) (store : Store) (target : Text) : Prop where
  dispatch : ∀ n ∈ store.nodes, ¬n.isTarget target .trait
  confident : ∀ d ∈ (getImpact cc store target).value.dependents.all, 1 ≤ d.confidence
  twins : ∀ t n, ¬Twin store target t n
  asked : ∀ q ∈ (getImpact cc store target).asked, store.fails q = false
  sites : ∀ site ∈ store.sites, Names cc target site → Excluded cc store target site

/-! ## What is shown -/

/-- A symbol of that label, by a query that does not fail. -/
def Found (store : Store) (target : Text) (label : NodeLabel) : Prop :=
  store.fails (.target label) = false ∧ ∃ n ∈ store.nodes, n.isTarget target label

def beforeTrait : List NodeLabel := [.function, .method, .struct, .enum]

def kinds : List String := ["Calls_", "Imports_", "Uses_", "Implements_", "References_"]

/-- The rows of a table with their answer. -/
def Row (store : Store) (target : Text) (table : RelTable) (e : Edge) : Prop :=
  store.fails (.dependents table.name) = false ∧ e ∈ store.table table ∧ reaches target table e

def HasReasons (store : Store) : Prop :=
  store.fails (.column .callSite "unresolved_reason") = false ∧
    store.hasColumn .callSite "unresolved_reason"

/-- The node is found as a twin of the plain name, under the given label. -/
def Listed (target : Text) (n : Node) : Prop :=
  n.label ∈ cfgGateLabels ∧ hasTwinMark (stripCfgGates target) n.label n ∧
    stripCfgGates n.id = stripCfgGates target

def twinNodes (store : Store) (target : Text) : List Node :=
  cfgGateLabels.flatMap fun label =>
    if store.fails (.twins label) then []
    else (store.nodes.filter (hasTwinMark (stripCfgGates target) label)).filter fun n =>
      stripCfgGates n.id = stripCfgGates target

/-- A query shows a reason why the answer may not be all. -/
inductive Carried (cc : CharClass) (store : Store) (target : Text) : Prop
  | dispatch (found : Found store target .trait)
      (first : ∀ label ∈ beforeTrait, ¬Found store target label)
  | edge {kind : String} {table : RelTable} {e : Edge} (hkind : kind ∈ kinds)
      (htable : table ∈ tablesOf kind) (row : Row store target table e)
      (heuristic : e.confidence.getD (relationConfidenceFloor kind) < 1)
  | site {site : Site} (mem : site ∈ store.sites) (names : namesTarget (bareName target) site)
      (hreasons : HasReasons store) (answers : store.fails .sites = false)
      (kept : ¬Excluded cc store target site)
  | counted {site : Site} (mem : site ∈ store.sites) (names : namesTarget (bareName target) site)
      (hreasons : ¬HasReasons store) (answers : store.fails .countSites = false)
  | file (none : ∀ table ∈ tablesOf "References_", ∀ e, ¬Row store target table e)
      (file : store.fails .fileNode = false ∧ ∃ f ∈ store.nodes, f.label = .file ∧ f.id = target)
      (docs : store.fails .docFiles = false ∧ ∃ f ∈ store.nodes, isDocFile f)
      (unindexed : store.fails .references ∨ store.edges "References_File_File" = [])
  | twin (gated : hasCfgGate target) (twins : 2 ≤ (twinNodes store target).length)

/-! ## Each reason -/

theorem found_value {label : NodeLabel} :
    ((store.found (.target label) (Node.isTarget target label)).value.getD false) = true ↔
      Found store target label := by
  rw [Store.found, Store.run, Asked.value_ask, Found]
  cases store.fails (.target label) <;> simp

theorem lookup_trait_iff : (lookupTargetLabel store target).value = some .trait ↔
    Found store target .trait ∧ ∀ label ∈ beforeTrait, ¬Found store target label := by
  rw [lookupTargetLabel, Asked.value_first, find?_eq_some_iff_append]
  simp only [Asked.value_bind, Asked.value_pure, Bool.not_eq_true', Bool.eq_false_iff, ne_eq,
    found_value]
  constructor
  · rintro ⟨hfound, pre, post, heq, hpre⟩
    refine ⟨hfound, ?_⟩
    have hlabels : beforeTrait ++ .trait :: [.constant, .typeAlias, .module] = pre ++ .trait :: post :=
      heq
    exact ((append_cons_inj_of_notMem (by decide) (by decide)).mp hlabels).1 ▸ hpre
  · rintro ⟨hfound, hpre⟩
    exact ⟨hfound, beforeTrait, [.constant, .typeAlias, .module], rfl, hpre⟩

theorem dispatch_eq_none_iff {implementors : List Dependent} :
    (dynamicDispatchReason store target implementors).value = none ↔
      ¬(Found store target .trait ∧ ∀ label ∈ beforeTrait, ¬Found store target label) := by
  rw [← lookup_trait_iff, dynamicDispatchReason, Asked.value_bind]
  cases h : (lookupTargetLabel store target).value with
  | none => exact iff_of_true rfl nofun
  | some label =>
    by_cases hlabel : label = .trait
    · have hsurface : isDynamicDispatchSurface label := decide_eq_true hlabel
      simp only [Asked.value_pure, if_pos hsurface]
      exact iff_of_false (Option.some_ne_none _) (not_not_intro (congrArg some hlabel))
    · have hsurface : ¬isDynamicDispatchSurface label := mt of_decide_eq_true hlabel
      simp only [Asked.value_pure, if_neg hsurface, true_iff]
      exact mt Option.some.inj hlabel

theorem heuristic_eq_none_iff {deps : Dependents} :
    heuristicEdgeReason deps = none ↔ ∀ d ∈ deps.all, 1 ≤ d.confidence := by
  have hcount : (deps.all.countP fun n => isHeuristicEdge n.confidence) = 0 ↔
      ∀ d ∈ deps.all, 1 ≤ d.confidence := by
    simp [isHeuristicEdge]
  rw [heuristicEdgeReason]
  by_cases h : (deps.all.countP fun n => isHeuristicEdge n.confidence) = 0
  · exact iff_of_true (if_pos h) (hcount.mp h)
  · exact iff_of_false (if_neg h ▸ Option.some_ne_none _) (mt hcount.mpr h)

theorem unresolved_eq_none_iff {attribution : Attribution} :
    unresolvedCallsiteReason attribution = none ↔ attribution.total = 0 := by
  rw [unresolvedCallsiteReason]
  by_cases h : attribution.total = 0
  · rw [if_pos h]
    exact iff_of_true rfl h
  · rw [if_neg h]
    exact iff_of_false (Option.some_ne_none _) h

theorem mem_reverseDependents {kind : String} {d : Dependent} :
    d ∈ (reverseDependents store target kind).value ↔ ∃ table ∈ tablesOf kind, ∃ e,
      Row store target table e ∧ dependentNode (relationConfidenceFloor kind) table e = d := by
  rw [reverseDependents, Asked.value_gather, mem_flatMap]
  refine exists_congr fun table => and_congr_right fun _ => ?_
  simp only [Asked.value_bind, Asked.value_pure, mem_map, Row, Store.run, Asked.value_ask]
  cases store.fails (.dependents table.name) <;> simp [and_assoc]

theorem value_collectDependents : (collectDependents store target).value =
    ⟨(reverseDependents store target "Calls_").value,
      (reverseDependents store target "Imports_").value,
      (reverseDependents store target "Uses_").value,
      (reverseDependents store target "Implements_").value,
      (reverseDependents store target "References_").value⟩ := rfl

theorem mem_all_dependents {d : Dependent} :
    d ∈ (collectDependents store target).value.all ↔
      ∃ kind ∈ kinds, d ∈ (reverseDependents store target kind).value := by
  simp [collectDependents, Dependents.all, kinds]

theorem hasReasons_iff :
    (store.nodeColumnExists .callSite "unresolved_reason").value = true ↔ HasReasons store := by
  rw [Store.nodeColumnExists, HasReasons]
  simp only [Asked.value_bind, Asked.value_pure, Store.run, Asked.value_ask]
  cases store.fails (.column .callSite "unresolved_reason") <;> simp

/-- Of the rows the query returns, those that the filter does not exclude are counted. -/
theorem mem_dropOtherOwnerSites {rows : List Site} {site : Site} :
    site ∈ (dropOtherOwnerSites cc store target
        (store.nodeColumnExists .callSite "receiver_hint").value rows).value.1 ↔
      site ∈ rows ∧ ¬Excluded cc store target site := by
  rw [dropOtherOwnerSites, Asked.value_bind, Excluded]
  cases h : (forTarget cc store target).value with
  | none => simp
  | some f => simp

theorem total_eq_zero_iff :
    (unresolvedCallsiteAttribution cc store target (bareName target)).value.total = 0 ↔
      (∀ site ∈ store.sites, namesTarget (bareName target) site → HasReasons store →
        store.fails .sites = false → Excluded cc store target site) ∧
      (∀ site ∈ store.sites, namesTarget (bareName target) site → ¬HasReasons store →
        store.fails .countSites = true) := by
  rw [unresolvedCallsiteAttribution, Asked.value_bind]
  by_cases h : HasReasons store
  · rw [if_pos (hasReasons_iff.mpr h)]
    simp only [Asked.value_bind, Asked.value_pure, Store.run, Asked.value_ask]
    rw [length_eq_zero_iff, eq_nil_iff_forall_not_mem]
    simp only [mem_dropOtherOwnerSites]
    cases store.fails .sites with
    | true => simp [h]
    | false => simp [h]
  · rw [if_neg (mt hasReasons_iff.mp h)]
    simp only [attributionWithoutReasonColumn, Asked.value_bind, Asked.value_pure, Store.run,
      Asked.value_ask]
    cases store.fails .countSites with
    | true => simp [h]
    | false => simp [h]

theorem isFileNode_iff : (isFileNode store target).value = true ↔
    store.fails .fileNode = false ∧ ∃ f ∈ store.nodes, f.label = .file ∧ f.id = target := by
  rw [isFileNode]
  simp only [Asked.value_bind, Asked.value_pure, Store.found, Store.run, Asked.value_ask]
  cases store.fails .fileNode <;> simp

theorem unindexed_eq_none_iff : (missingReferenceIndexingReason store).value = none ↔
    ¬((store.fails .docFiles = false ∧ ∃ f ∈ store.nodes, isDocFile f) ∧
      (store.fails .references ∨ store.edges "References_File_File" = [])) := by
  rw [missingReferenceIndexingReason, Asked.value_bind, Store.run, Asked.value_ask]
  cases hdocs : store.fails .docFiles with
  | true => simp
  | false =>
      simp only [Bool.false_eq_true, if_false, Option.getD_some]
      by_cases hcount : store.nodes.countP isDocFile = 0
      · rw [if_pos hcount, Asked.value_pure]
        rw [countP_eq_zero] at hcount
        simpa using fun f hf hdoc => absurd hdoc (hcount f hf)
      · have hdoc : ∃ f ∈ store.nodes, isDocFile f := by
          rw [countP_eq_zero] at hcount
          push Not at hcount
          exact hcount
        have hindexed : ((store.run .references
            (!(store.edges "References_File_File").isEmpty)).value.getD false) = true ↔
              ¬(store.fails .references ∨ store.edges "References_File_File" = []) := by
          rw [Store.run, Asked.value_ask]
          cases store.fails .references <;> simp
        rw [if_neg hcount, Asked.value_bind]
        by_cases hrefs : store.fails .references ∨ store.edges "References_File_File" = []
        · rw [if_neg fun h => hindexed.mp h hrefs, Asked.value_pure]
          exact iff_of_false (Option.some_ne_none _) fun h => h ⟨⟨trivial, hdoc⟩, hrefs⟩
        · rw [if_pos (hindexed.mpr hrefs), Asked.value_pure]
          exact iff_of_true rfl fun h => hrefs h.2

theorem file_eq_none_iff {references : List Dependent} :
    (fileReason store target references).value = none ↔
      ¬(references = [] ∧ (store.fails .fileNode = false ∧
          ∃ f ∈ store.nodes, f.label = .file ∧ f.id = target) ∧
        (store.fails .docFiles = false ∧ ∃ f ∈ store.nodes, isDocFile f) ∧
        (store.fails .references ∨ store.edges "References_File_File" = [])) := by
  rw [fileReason, ← isFileNode_iff]
  by_cases hnone : references = []
  · rw [if_pos hnone, Asked.value_bind]
    by_cases hfile : (isFileNode store target).value
    · rw [if_pos hfile, unindexed_eq_none_iff, hfile]
      simp [hnone]
    · rw [if_neg hfile]
      simp [hfile]
  · rw [if_neg hnone]
    simp [hnone]

theorem length_cfgTwinRows : ((cfgTwinRows store (stripCfgGates target)).value).length =
    (twinNodes store target).length := by
  rw [cfgTwinRows, Asked.value_bind, Asked.value_pure, SortDedup.sortByKey, length_insertionSort,
    Asked.value_gather, twinNodes, length_flatMap, length_flatMap]
  refine congrArg List.sum (map_congr_left fun label _ => ?_)
  simp only [Asked.value_bind, Asked.value_pure, length_map, Store.run, Asked.value_ask]
  cases store.fails (.twins label) <;> rfl

theorem twin_eq_none_iff {attribution : Attribution} :
    cfgTwinReason (cfgTwinRows store (stripCfgGates target)).value attribution = none ↔
      ¬2 ≤ (twinNodes store target).length := by
  rw [cfgTwinReason, length_cfgTwinRows, Nat.not_le]
  by_cases h : (twinNodes store target).length < 2
  · rw [if_pos h]
    exact iff_of_true rfl h
  · rw [if_neg h]
    exact iff_of_false (Option.some_ne_none _) h

/-! ## The boundary -/

theorem exact_iff : (getImpact cc store target).value.epistemic = .exact ↔
    (dynamicDispatchReason store target
        (collectDependents store target).value.implementors).value = none ∧
      heuristicEdgeReason (collectDependents store target).value = none ∧
      unresolvedCallsiteReason
        (unresolvedCallsiteAttribution cc store target (bareName target)).value = none ∧
      (fileReason store target (collectDependents store target).value.references).value = none ∧
      (hasCfgGate target → cfgTwinReason (cfgTwinRows store (stripCfgGates target)).value
        (unresolvedCallsiteAttribution cc store target (bareName target)).value = none) := by
  rw [getImpact]
  simp only [Asked.value_bind]
  by_cases hgate : hasCfgGate target
  · simp [hgate, buildEpistemicReasons]
  · have htwin : ∀ attribution, cfgTwinReason [] attribution = none := fun _ => rfl
    simp [hgate, buildEpistemicReasons, htwin]

theorem dependents_getImpact :
    (getImpact cc store target).value.dependents = (collectDependents store target).value := by
  rw [getImpact]
  by_cases hgate : hasCfgGate target
  · simp only [if_pos hgate, Asked.value_bind, Asked.value_pure]
  · simp only [if_neg hgate, Asked.value_bind, Asked.value_pure]

theorem attribution_getImpact : (getImpact cc store target).value.attribution =
    (unresolvedCallsiteAttribution cc store target (bareName target)).value := by
  rw [getImpact]
  by_cases hgate : hasCfgGate target
  · simp only [if_pos hgate, Asked.value_bind, Asked.value_pure]
  · simp only [if_neg hgate, Asked.value_bind, Asked.value_pure]

theorem references_eq_nil_iff : (collectDependents store target).value.references = [] ↔
    ∀ table ∈ tablesOf "References_", ∀ e, ¬Row store target table e := by
  rw [value_collectDependents, eq_nil_iff_forall_not_mem]
  constructor
  · exact fun h table htable e hrow => h _ (mem_reverseDependents.mpr ⟨table, htable, e, hrow, rfl⟩)
  · intro h d hd
    obtain ⟨table, htable, e, hrow, -⟩ := mem_reverseDependents.mp hd
    exact h table htable e hrow

theorem exact_iff_not_carried :
    (getImpact cc store target).value.epistemic = .exact ↔ ¬Carried cc store target := by
  rw [exact_iff, dispatch_eq_none_iff, heuristic_eq_none_iff, unresolved_eq_none_iff,
    total_eq_zero_iff, file_eq_none_iff, references_eq_nil_iff, twin_eq_none_iff]
  constructor
  · rintro ⟨hdispatch, hedges, ⟨hsites, hcounted⟩, hfile, htwins⟩ hcarried
    cases hcarried with
    | dispatch found first => exact hdispatch ⟨found, first⟩
    | edge hkind htable row heuristic =>
        have hmem := mem_all_dependents.mpr
          ⟨_, hkind, mem_reverseDependents.mpr ⟨_, htable, _, row, rfl⟩⟩
        exact absurd heuristic (not_lt.mpr (hedges _ hmem))
    | site mem names hreasons answers kept => exact kept (hsites _ mem names hreasons answers)
    | counted mem names hreasons answers =>
        exact Bool.false_ne_true (answers.symm.trans (hcounted _ mem names hreasons))
    | file none file docs unindexed => exact hfile ⟨none, file, docs, unindexed⟩
    | twin gated twins => exact htwins gated twins
  · intro h
    refine ⟨fun hd => h (.dispatch hd.1 hd.2), fun d hd => ?_, ⟨?_, ?_⟩,
      fun hf => h (.file hf.1 hf.2.1 hf.2.2.1 hf.2.2.2), fun hgate htwins => h (.twin hgate htwins)⟩
    · obtain ⟨kind, hkind, hd⟩ := mem_all_dependents.mp hd
      obtain ⟨table, htable, e, hrow, rfl⟩ := mem_reverseDependents.mp hd
      exact not_lt.mp fun hlt => h (.edge hkind htable hrow hlt)
    · exact fun site hsite hnames hreasons hanswers =>
        not_not.mp fun hkept => h (.site hsite hnames hreasons hanswers hkept)
    · intro site hsite hnames hreasons
      exact Bool.of_not_eq_false fun hanswers => h (.counted hsite hnames hreasons hanswers)

/-! ## What an exact answer can hide -/

/-- Nothing is out of reach of the queries: none of them fails, no trait stands behind another
item of its name, every twin is listed, and no site that is left in names the target without a
flag or in an odd spelling. -/
structure InReach (cc : CharClass) (store : Store) (target : Text) : Prop where
  asked : ∀ q ∈ (getImpact cc store target).asked, store.fails q = false
  dispatch : (∃ n ∈ store.nodes, n.isTarget target .trait) →
    ∀ label ∈ beforeTrait, ∀ n ∈ store.nodes, ¬n.isTarget target label
  twins : ∀ t n, Twin store target t n → hasCfgGate target ∧ Listed target t ∧ Listed target n
  sites : ∀ site ∈ store.sites, Names cc target site →
    site.isResolved = none ∨ OddlySpelled cc site.calleeName → Excluded cc store target site

theorem asked_getImpact : (getImpact cc store target).asked =
    (collectDependents store target).asked ++
      ((unresolvedCallsiteAttribution cc store target (bareName target)).asked ++
        ((buildEpistemicReasons store target
            (unresolvedCallsiteAttribution cc store target (bareName target)).value
            (collectDependents store target).value).asked ++
          (if hasCfgGate target then cfgTwinRows store (stripCfgGates target) else pure []).asked)) := by
  rw [getImpact]
  by_cases hgate : hasCfgGate target
  · simp only [if_pos hgate, Asked.asked_bind, Asked.asked_pure, append_nil]
  · simp only [if_neg hgate, Asked.asked_bind, Asked.asked_pure, append_nil]

theorem trait_asked (h : ∀ label ∈ beforeTrait, ¬Found store target label) :
    Query.target .trait ∈ (getImpact cc store target).asked := by
  have hlabels : symbolLabels = beforeTrait ++ .trait :: [.constant, .typeAlias, .module] := rfl
  have hlookup : Query.target .trait ∈ (lookupTargetLabel store target).asked := by
    rw [lookupTargetLabel, hlabels]
    refine Asked.mem_asked_first (fun label hlabel => ?_) _ _ mem_cons_self
    exact Bool.eq_false_iff.mpr fun hfound => h label hlabel (found_value.mp hfound)
  rw [asked_getImpact, buildEpistemicReasons, dynamicDispatchReason]
  simp only [Asked.asked_bind, mem_append]
  exact .inr (.inr (.inl (.inl (.inl hlookup))))

theorem sites_asked (h : HasReasons store) : Query.sites ∈ (getImpact cc store target).asked := by
  rw [asked_getImpact, unresolvedCallsiteAttribution]
  simp only [Asked.asked_bind, mem_append]
  rw [if_pos (hasReasons_iff.mpr h)]
  simp only [Asked.asked_bind, mem_append]
  exact .inr (.inl (.inr (.inr (.inl (mem_singleton_self _)))))

theorem countSites_asked (h : ¬HasReasons store) :
    Query.countSites ∈ (getImpact cc store target).asked := by
  rw [asked_getImpact, unresolvedCallsiteAttribution]
  simp only [Asked.asked_bind, mem_append]
  rw [if_neg (mt hasReasons_iff.mp h)]
  simp only [attributionWithoutReasonColumn, Asked.asked_bind, mem_append]
  exact .inr (.inl (.inr (.inl (mem_singleton_self _))))

theorem twins_asked (h : hasCfgGate target) {label : NodeLabel} (hlabel : label ∈ cfgGateLabels) :
    Query.twins label ∈ (getImpact cc store target).asked := by
  rw [asked_getImpact, if_pos h, cfgTwinRows]
  simp only [Asked.asked_bind, mem_append]
  refine .inr (.inr (.inr (.inl (Asked.mem_asked_gather.mpr ⟨label, hlabel, ?_⟩))))
  simp only [Asked.asked_bind, mem_append]
  exact .inr (.inl (mem_singleton_self _))

/-! ## Honesty -/

/-- A site left in by the filter is shown, where it has a flag and a plain spelling. -/
theorem namesTarget_of_names {site : Site} (h : Names cc target site)
    (hplain : ¬(site.isResolved = none ∨ OddlySpelled cc site.calleeName)) :
    namesTarget (bareName target) site := by
  obtain ⟨hflag, hspelled⟩ := not_or.mp hplain
  have hopen : site.isResolved = some false := by
    match hsite : site.isResolved with
    | none => exact absurd hsite hflag
    | some true => exact absurd hsite h.1
    | some false => rfl
  have hbare : lastSegment site.calleeName = bareName target :=
    (lastIdentifier_of_not_oddlySpelled hspelled).symm.trans h.2
  rw [namesTarget, decide_eq_true_eq]
  exact ⟨hopen, hbare ▸ lastSegment_spelled site.calleeName⟩

theorem mem_twinNodes {label : NodeLabel} (h : store.fails (.twins label) = false) {n : Node}
    (hn : n ∈ store.nodes) (hlabel : n.label = label) (hlisted : Listed target n) :
    n ∈ twinNodes store target := by
  obtain ⟨hgate, hmark, hname⟩ := hlisted
  refine mem_flatMap.mpr ⟨label, hlabel ▸ hgate, ?_⟩
  rw [if_neg (by rw [h]; exact Bool.false_ne_true)]
  exact mem_filter.mpr ⟨mem_filter.mpr ⟨hn, hlabel ▸ hmark⟩, decide_eq_true hname⟩

theorem two_le_twinNodes {t n : Node} (h : Twin store target t n)
    (hquery : store.fails (.twins t.label) = false) (ht : Listed target t) (hn : Listed target n) :
    2 ≤ (twinNodes store target).length := by
  have hmem := mem_twinNodes hquery h.item rfl ht
  have hmem' := mem_twinNodes hquery h.other h.label hn
  by_contra hlt
  have hone : (twinNodes store target).length = 1 := by
    have := length_pos_of_mem hmem
    omega
  obtain ⟨only, honly⟩ := length_eq_one_iff.mp hone
  rw [honly, mem_singleton] at hmem hmem'
  exact h.apart (congrArg Node.id (hmem'.trans hmem.symm))

theorem InReach.hidesNothing (h : InReach cc store target) (hshown : ¬Carried cc store target) :
    HidesNothing cc store target where
  dispatch n hn htrait := by
    have hfirst : ∀ label ∈ beforeTrait, ¬Found store target label := fun label hlabel hfound =>
      hfound.2.elim fun m hm => h.dispatch ⟨n, hn, htrait⟩ label hlabel m hm.1 hm.2
    exact hshown (.dispatch ⟨h.asked _ (trait_asked hfirst), n, hn, htrait⟩ hfirst)
  confident := by
    rw [dependents_getImpact]
    exact heuristic_eq_none_iff.mp (exact_iff.mp (exact_iff_not_carried.mpr hshown)).2.1
  twins t n htwin := by
    obtain ⟨hgate, ht, hn⟩ := h.twins t n htwin
    exact hshown (.twin hgate (two_le_twinNodes htwin (h.asked _ (twins_asked hgate ht.1)) ht hn))
  asked := h.asked
  sites site hsite hnames := by
    by_cases hodd : site.isResolved = none ∨ OddlySpelled cc site.calleeName
    · exact h.sites site hsite hnames hodd
    · have hshows := namesTarget_of_names hnames hodd
      by_cases hreasons : HasReasons store
      · exact not_not.mp fun hkept => hshown (.site hsite hshows hreasons
          (h.asked _ (sites_asked hreasons)) hkept)
      · exact absurd (.counted hsite hshows hreasons (h.asked _ (countSites_asked hreasons))) hshown

theorem HidesNothing.inReach (h : HidesNothing cc store target) : InReach cc store target where
  asked := h.asked
  dispatch := fun ⟨n, hn, htrait⟩ => absurd htrait (h.dispatch n hn)
  twins t n htwin := absurd htwin (h.twins t n)
  sites site hsite hnames _ := h.sites site hsite hnames

theorem sum_byReason (bare : Text) :
    (((unresolvedCallsiteAttribution cc store target bare).value.byReason).map Prod.snd).sum =
      (unresolvedCallsiteAttribution cc store target bare).value.total := by
  rw [unresolvedCallsiteAttribution, Asked.value_bind]
  split
  · simp only [Asked.value_bind, Asked.value_pure, countByReason]
    rw [Tally.sum_snd_collect, map_map]
    simp [Function.comp_def]
  · simp only [attributionWithoutReasonColumn, Asked.value_bind, Asked.value_pure]
    split
    · simp
    · next h => rw [Nat.eq_zero_of_not_pos h]; rfl

/-- An exact answer hides nothing just when it is no exact answer, some query showing a reason
against it, or nothing is out of reach of the queries; the reasons account for every site that
is counted in any case. -/
theorem exact_hidesNothing_iff (cc : CharClass) (store : Store) (target : Text) :
    (((getImpact cc store target).value.epistemic = .exact → HidesNothing cc store target) ∧
      ((getImpact cc store target).value.attribution.byReason.map Prod.snd).sum =
        (getImpact cc store target).value.attribution.total) ↔
      Carried cc store target ∨ InReach cc store target := by
  have hsum : ((getImpact cc store target).value.attribution.byReason.map Prod.snd).sum =
      (getImpact cc store target).value.attribution.total := by
    rw [attribution_getImpact, sum_byReason]
  rw [and_iff_left hsum, exact_iff_not_carried]
  constructor
  · intro h
    by_cases hcarried : Carried cc store target
    · exact .inl hcarried
    · exact .inr (h hcarried).inReach
  · rintro (hcarried | hreach) hexact
    · exact absurd hcarried hexact
    · exact hreach.hidesNothing hexact

/-- A function, and an open call of it with its generic arguments written out. -/
def turbofishStore : Store where
  nodes := [⟨.function, "src/lib.rs::load".toList, "src/lib.rs::load".toList, "load".toList, [], [],
    "rust".toList, [], [], []⟩]
  edges _ := []
  sites := [⟨"src/lib.rs::main::call@3:4".toList, "load::<u32>".toList, some false,
    "not_found".toList, "rust".toList, []⟩]
  files _ := none
  hasColumn _ _ := true
  fails _ := false

theorem dependents_turbofishStore {target : Text} :
    (collectDependents turbofishStore target).value = ⟨[], [], [], [], []⟩ := by
  have hnone : ∀ kind, (reverseDependents turbofishStore target kind).value = [] := by
    intro kind
    refine eq_nil_iff_forall_not_mem.mpr fun d hd => ?_
    obtain ⟨table, -, e, hrow, -⟩ := mem_reverseDependents.mp hd
    exact absurd hrow.2.1 not_mem_nil
  rw [value_collectDependents, hnone, hnone, hnone, hnone, hnone]

theorem epistemic_turbofishStore :
    (getImpact .ascii turbofishStore "src/lib.rs::load".toList).value.epistemic = .exact := by
  have hunnamed : ∀ site ∈ turbofishStore.sites,
      ¬namesTarget (bareName "src/lib.rs::load".toList) site := by decide +kernel
  have htotal : (unresolvedCallsiteAttribution .ascii turbofishStore "src/lib.rs::load".toList
      (bareName "src/lib.rs::load".toList)).value.total = 0 :=
    total_eq_zero_iff.mpr ⟨fun site hsite hname => absurd hname (hunnamed site hsite),
      fun site hsite hname => absurd hname (hunnamed site hsite)⟩
  rw [exact_iff, dependents_turbofishStore]
  exact ⟨by decide +kernel, rfl, if_pos htotal, by decide +kernel, by decide⟩

/-- The call is not among the sites that the filter selects, and the answer is exact. -/
theorem turbofish_hidden : ¬(((getImpact .ascii turbofishStore "src/lib.rs::load".toList).value.epistemic
      = .exact → HidesNothing .ascii turbofishStore "src/lib.rs::load".toList) ∧
    ((getImpact .ascii turbofishStore "src/lib.rs::load".toList).value.attribution.byReason.map
        Prod.snd).sum =
      (getImpact .ascii turbofishStore "src/lib.rs::load".toList).value.attribution.total) := by
  intro h
  have hexact : (getImpact .ascii turbofishStore "src/lib.rs::load".toList).value.epistemic = .exact :=
    epistemic_turbofishStore
  obtain ⟨f, hf, -⟩ := (h.1 hexact).sites _ mem_cons_self ⟨nofun, by decide +kernel⟩
  exact absurd hf nofun

end Radius

end CodeGraph
