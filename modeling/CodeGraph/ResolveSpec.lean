import CodeGraph.ResolveEvents

/-!
# What a run of the resolver leaves

Which rows a run takes back (`resetEarlier_rows`), which rows and keys are there
behind it (`mem_resolveGraph`, `hasKey_resolveGraph`), and which sites it flags
(`resolveGraph_isResolved`). What is staged depends on the nodes and the columns
alone, and neither the resets nor the run change these.
-/

namespace CodeGraph

open List

namespace Resolver

open Schema AmbiguityPolicy Unmet

/-! ## Tables -/

variable {t : Table}

theorem isKnownRelTable_of_index (i : Nat) {d : RelTable} (h : relTables[i]? = some d)
    (hname : d.name.toList = t.name) : isKnownRelTable t :=
  any_eq_true.mpr ⟨d, mem_of_getElem? h, decide_eq_true hname⟩

variable {c l : EndLabel}

theorem callRelTable_cases (h : callRelTable c l = some t) :
    c ∈ callables ∧ t.fromLabel = c ∧ t.toLabel = l := by
  rw [callRelTable] at h
  split at h
  next hc =>
    split at h
    · cases h
      exact ⟨hc, rfl, rfl⟩
    · split at h
      · cases h
        exact ⟨hc, rfl, rfl⟩
      · cases h
  next => cases h

theorem callRelTable_callable (hl : l ∈ callables)
    (h : callRelTable c l = some t) : t = ⟨.calls, c, l⟩ := by
  rw [callRelTable, if_pos hl] at h
  split at h
  · cases h
    rfl
  · cases h

theorem callSiteRelTable_eq (h : callSiteRelTable l = some t) :
    t = ⟨.calls, .symbol .callSite, l⟩ := by
  rw [callSiteRelTable] at h
  split at h
  · cases h
    rfl
  · cases h

theorem not_isSite_of_callRelTable (h : callRelTable c l = some t) : ¬ t.isSite := by
  obtain ⟨hc, hfrom, -⟩ := callRelTable_cases h
  rintro hsite
  simp only [Table.isSite, hfrom, Bool.and_eq_true, decide_eq_true_eq] at hsite
  rw [hsite.2] at hc
  simp [callables] at hc

theorem resolutionLabel_ne_lsp (evidence : Evidence) : resolutionLabel evidence ≠ lspDefinition := by
  cases evidence <;> decide

namespace Store

variable {Content Cargo : Type} {F : FrontEnd Content} {R : Rules Cargo}

/-! ## What a run takes back -/

def isMacroRow (r : RelRow) : Bool :=
  r.table.isMacro && "macro-expansion".toList.isPrefixOf r.method

/-- The language server's call of a twin that the build compiles out. -/
def isStaleLsp (F : FrontEnd Content) (s : Store Content Cargo) (r : RelRow) : Bool :=
  r.method = lspDefinition && !decide (s.HasNoTwin F) &&
    IsTwinIn (twinFiles (s.nodes F) s.columns) r.target && isCompiledOut (s.view F) r.source r.target

/-- A method that the resets delete wherever it stands. -/
def isRebuilt (method : Text) : Bool :=
  method = resolutionLabel .cfgSelected || method = resolutionLabel .receiverReturnType

theorem isRebuilt_lsp : isRebuilt lspDefinition = false := by
  simp [isRebuilt, (resolutionLabel_ne_lsp _).symm]

/-- A row of a call that the resets after the macros' delete. -/
def isUndone (F : FrontEnd Content) (s : Store Content Cargo) (r : RelRow) : Bool :=
  r.table.isCall && (isRebuilt r.method || isStaleLsp F s r)

/-- What a run takes back. -/
def isTaken (F : FrontEnd Content) (s : Store Content Cargo) (r : RelRow) : Bool :=
  isMacroRow r || isUndone F s r

section Reset

variable (s : Store Content Cargo)

@[simp] theorem resetEarlier_tree : (s.resetEarlier F R).tree = s.tree := by
  rw [resetEarlier, resetCompiledOutLspRows]
  split <;> rfl

@[simp] theorem resetEarlier_columns : (s.resetEarlier F R).columns = s.columns := by
  rw [resetEarlier, resetCompiledOutLspRows]
  split <;> rfl

@[simp] theorem resetEarlier_nodes : (s.resetEarlier F R).nodes F = s.nodes F := by
  rw [nodes, resetEarlier_tree, nodes]

@[simp] theorem resetEarlier_staged : (s.resetEarlier F R).staged F R = s.staged F R := by
  rw [staged, resetEarlier_nodes, resetEarlier_columns, staged]

@[simp] theorem resetEarlier_isDecided (id : Text) :
    (s.resetEarlier F R).isDecided F R id = s.isDecided F R id := by
  rw [isDecided, resetEarlier_nodes, resetEarlier_columns, isDecided]

@[simp] theorem resetEarlier_leftOpen (id : Text) :
    (s.resetEarlier F R).leftOpen F R id = s.leftOpen F R id := by
  rw [leftOpen, resetEarlier_nodes, resetEarlier_columns, leftOpen]

theorem resetCompiledOutLspRows_rows : (s.resetCompiledOutLspRows F).rows =
    s.rows.filter fun r => !(r.table.isCall && isStaleLsp F s r) := by
  rw [resetCompiledOutLspRows]
  split
  next h => simp [isStaleLsp, h]
  next h =>
    refine filter_congr fun r _ => congrArg _ ?_
    simp [isStaleLsp, h, Bool.and_assoc]

theorem resetMacroExpansion_rows :
    (s.resetMacroExpansion F R).rows = s.rows.filter (!isMacroRow ·) := rfl

theorem resetCallRows_rows (method : Text) : (s.resetCallRows method).rows =
    s.rows.filter fun r => !(r.table.isCall && r.method = method) := rfl

theorem resetEarlier_rows : (s.resetEarlier F R).rows = s.rows.filter (!isTaken F s ·) := by
  rw [resetEarlier, resetCompiledOutLspRows_rows, resetCallRows_rows, resetCallRows_rows,
    resetMacroExpansion_rows]
  simp only [filter_filter]
  refine filter_congr fun r _ => ?_
  have hstale : ∀ m m', isStaleLsp F (((s.resetMacroExpansion F R).resetCallRows m).resetCallRows m')
      r = isStaleLsp F s r := fun _ _ => rfl
  rw [hstale, isTaken, isUndone, isRebuilt]
  cases isMacroRow r <;> cases r.table.isCall <;> cases isStaleLsp F s r <;>
    simp only [Bool.and_false, Bool.and_true, Bool.true_and, Bool.false_and, Bool.or_false,
      Bool.false_or, Bool.or_true, Bool.true_or, Bool.not_true, Bool.not_false, Bool.not_or,
      Bool.and_comm]

theorem mem_resetEarlier {r : RelRow} :
    r ∈ (s.resetEarlier F R).rows ↔ r ∈ s.rows ∧ isTaken F s r = false := by
  rw [resetEarlier_rows, mem_filter, Bool.not_eq_true']

/-- A site stays flagged unless it is a macro or loses a row of its own. -/
def StaysFlagged (F : FrontEnd Content) (R : Rules Cargo) (s : Store Content Cargo) (id : Text) :
    Prop :=
  s.isResolved id ∧ ¬ s.isMacroSite F R id ∧
    ∀ r ∈ s.rows, r.table.isSite → r.source = id → isMacroRow r ∨ ¬ isUndone F s r

variable {s} in
theorem not_losesRow {gone : RelRow → Bool} {id : Text} : (!s.losesRow gone id) = true ↔
    ∀ r ∈ s.rows, r.table.isSite → r.source = id → ¬ gone r := by
  rw [Bool.not_eq_true', losesRow, any_eq_false]
  refine forall₂_congr fun r _ => ?_
  simp only [Bool.and_eq_true, decide_eq_true_eq]
  tauto

theorem isCall_of_isSite {r : RelRow} (h : r.table.isSite) : r.table.isCall :=
  (Bool.and_eq_true_iff.mp h).1

theorem resetCallRows_isResolved {s : Store Content Cargo} {method id : Text} :
    (s.resetCallRows method).isResolved id ↔
      s.isResolved id ∧ ∀ r ∈ s.rows, r.table.isSite → r.source = id → r.method ≠ method := by
  simp only [resetCallRows, deleteRows, reopen, Bool.and_eq_true, not_losesRow, decide_eq_true_eq]
  refine and_congr_right fun _ => forall₄_congr fun r _ hsite _ => ?_
  simp [isCall_of_isSite hsite]

theorem resetCompiledOutLspRows_isResolved {s : Store Content Cargo} {id : Text} :
    (s.resetCompiledOutLspRows F).isResolved id ↔
      s.isResolved id ∧ ∀ r ∈ s.rows, r.table.isSite → r.source = id → ¬ isStaleLsp F s r := by
  rw [resetCompiledOutLspRows]
  split
  next h => simp [isStaleLsp, h]
  next h =>
    simp only [resetLspTwinRows, deleteRows, reopen, Bool.and_eq_true, not_losesRow]
    refine and_congr_right fun _ => forall₄_congr fun r _ hsite _ => ?_
    simp [isCall_of_isSite hsite, isStaleLsp, h]

theorem resetEarlier_isResolved {id : Text} :
    (s.resetEarlier F R).isResolved id ↔ StaysFlagged F R s id := by
  have hflag : (s.resetMacroExpansion F R).isResolved id ↔
      s.isResolved id ∧ ¬ s.isMacroSite F R id := by
    simp [resetMacroExpansion]
  have hstale : ∀ m m' r, isStaleLsp F (((s.resetMacroExpansion F R).resetCallRows m).resetCallRows
      m') r = isStaleLsp F s r := fun _ _ _ => rfl
  rw [resetEarlier, resetCompiledOutLspRows_isResolved, resetCallRows_isResolved,
    resetCallRows_isResolved, hflag, StaysFlagged, and_assoc, and_assoc, and_assoc]
  refine and_congr_right fun _ => and_congr_right fun _ => ?_
  simp only [resetCallRows_rows, resetMacroExpansion_rows, mem_filter, hstale]
  constructor
  · rintro ⟨hcfg, hret, hlsp⟩ r hr hsite rfl
    have hc := hcfg r
    have hq := hret r
    have hl := hlsp r
    have hcall := isCall_of_isSite hsite
    simp only [isUndone, isRebuilt, hcall]
    cases hm : isMacroRow r <;> simp_all
  · intro h
    refine ⟨fun r hr hsite hsrc => ?_, fun r hr hsite hsrc => ?_, fun r hr hsite hsrc => ?_⟩
    all_goals
      have hcall := isCall_of_isSite hsite
      have hk := h r (by tauto) hsite hsrc
      simp only [isUndone, isRebuilt, hcall] at hk
      simp_all

end Reset

/-! ## What a run leaves -/

section Run

variable (s : Store Content Cargo)

@[simp] theorem resolveGraph_tree : (s.resolveGraph F R).tree = s.tree := resetEarlier_tree s

@[simp] theorem resolveGraph_columns : (s.resolveGraph F R).columns = s.columns :=
  resetEarlier_columns s

@[simp] theorem resolveGraph_nodes : (s.resolveGraph F R).nodes F = s.nodes F :=
  resetEarlier_nodes s

/-- The rows a run adds. -/
def fresh (F : FrontEnd Content) (R : Rules Cargo) (s : Store Content Cargo) : List RelRow :=
  unmet RelRow.key (s.staged F R) (keysOf RelRow.key (s.resetEarlier F R).rows)

theorem resolveGraph_rows : (s.resolveGraph F R).rows =
    insertEdges (s.nodes F) (s.resetEarlier F R).rows (s.fresh F R) := by
  have hrows : (s.resolveGraph F R).rows = (EdgeBuffer.addAll
      { persisted := keysOf RelRow.key (s.resetEarlier F R).rows }
        ((s.resetEarlier F R).staged F R)).flush ((s.resetEarlier F R).nodes F)
          (s.resetEarlier F R).rows := rfl
  rw [hrows, resetEarlier_staged, resetEarlier_nodes, EdgeBuffer.flush, EdgeBuffer.queued_addAll,
    fresh, nil_append, Finset.union_empty]

variable {s} {r : RelRow} {k : RowKey} {id : Text}

theorem mem_resolveGraph (h : r ∈ (s.resolveGraph F R).rows) :
    r ∈ s.rows ∧ isTaken F s r = false ∨ r ∈ s.staged F R ∧ Joins (s.nodes F) r.key := by
  rw [resolveGraph_rows, mem_insertEdges] at h
  refine h.imp (mem_resetEarlier s).mp ?_
  exact And.imp_left fun hr => unmet_subset _ _ hr

theorem mem_resolveGraph_of_kept (hr : r ∈ s.rows) (hkept : isTaken F s r = false) :
    r ∈ (s.resolveGraph F R).rows := by
  rw [resolveGraph_rows, mem_insertEdges]
  exact Or.inl ((mem_resetEarlier s).mpr ⟨hr, hkept⟩)

theorem hasKey_iff {rows : List RelRow} : HasKey rows k ↔ k ∈ keysOf RelRow.key rows :=
  mem_keysOf.symm

theorem hasKey_resolveGraph : HasKey (s.resolveGraph F R).rows k ↔
    (∃ r ∈ s.rows, isTaken F s r = false ∧ r.key = k) ∨
      HasKey (s.staged F R) k ∧ Joins (s.nodes F) k := by
  have hkept : HasKey (s.resetEarlier F R).rows k ↔
      ∃ r ∈ s.rows, isTaken F s r = false ∧ r.key = k := by
    simp only [HasKey, mem_resetEarlier, and_assoc]
  have hfresh : HasKey (s.fresh F R) k ↔
      HasKey (s.staged F R) k ∧ ¬ HasKey (s.resetEarlier F R).rows k := by
    rw [hasKey_iff, fresh, mem_keysOf_unmet, ← hasKey_iff, ← hasKey_iff]
  rw [resolveGraph_rows, hasKey_insertEdges, hfresh, hkept]
  by_cases hrow : ∃ r ∈ s.rows, isTaken F s r = false ∧ r.key = k
  · simp only [hrow, true_or]
  · simp only [hrow, false_or, not_false_eq_true, and_true]

theorem resolveGraph_isResolved : (s.resolveGraph F R).isResolved id ↔
    StaysFlagged F R s id ∨ s.isDecided F R id := by
  have hflag : (s.resolveGraph F R).isResolved id = ((s.resetEarlier F R).isResolved id ||
      (s.resetEarlier F R).isDecided F R id) := rfl
  rw [hflag, Bool.or_eq_true, resetEarlier_isResolved, resetEarlier_isDecided]

/-- The reason of a site that the run leaves open and that is not flagged is the
run's own. -/
theorem resolveGraph_reason : (s.resolveGraph F R).reason id =
    if s.isDecided F R id then noReason
    else if (s.resetEarlier F R).isResolved id then (s.resetEarlier F R).reason id
    else (s.leftOpen F R id).getD ((s.resetEarlier F R).reason id) := by
  rw [← resetEarlier_isDecided, ← resetEarlier_leftOpen]
  rfl

end Run

end Store

/-! ## What is staged -/

section Staged

variable {Cargo : Type} {R : Rules Cargo} {ns : Multiset Node} {cols : Columns Cargo}
  {site : CallSite} {r : RelRow} {rows : List RelRow}

/-- The rows of one call of a target: the caller's, then the site's own. -/
structure CallRows (callerLabel targetLabel : EndLabel) (site : CallSite) (target method : Text)
    (rows : List RelRow) : Prop where
  method : ∀ r ∈ rows, r.method = method
  caller : ∃ rel, callRelTable callerLabel targetLabel = some rel ∧ isKnownRelTable rel ∧
    HasKey rows (rel, site.caller, target)
  keys : ∀ r ∈ rows, callRelTable callerLabel targetLabel = some r.table ∧
    r.source = site.caller ∧ r.target = target ∨
    callSiteRelTable targetLabel = some r.table ∧ r.source = site.id ∧ r.target = target

variable {callerLabel : EndLabel} {confidence : ℚ}

theorem callRows {targetLabel : EndLabel} {target method : Text} {rel : Table} (hrel : callRelTable callerLabel targetLabel = some rel)
    (hknown : isKnownRelTable rel) : CallRows callerLabel targetLabel site target method
      (⟨rel, site.caller, target, confidence, method⟩ ::
        ((callSiteRelTable targetLabel).map fun table =>
          (⟨table, site.id, target, confidence, method⟩ : RelRow)).toList) where
  method r hr := by
    rcases mem_cons.mp hr with rfl | hr
    · rfl
    · obtain ⟨table, -, rfl⟩ := Option.map_eq_some_iff.mp (Option.mem_toList.mp hr)
      rfl
  caller := ⟨rel, hrel, hknown, _, mem_cons_self, rfl⟩
  keys r hr := by
    rcases mem_cons.mp hr with rfl | hr
    · exact Or.inl ⟨hrel, rfl, rfl⟩
    · obtain ⟨table, htable, rfl⟩ := Option.map_eq_some_iff.mp (Option.mem_toList.mp hr)
      exact Or.inr ⟨htable, rfl, rfl⟩

theorem CallRows.toLabel {target method : Text} (h : CallRows c l site target method rows)
    (hr : r ∈ rows) : r.table.toLabel = l := by
  obtain ⟨htable, -⟩ | ⟨htable, -⟩ := h.keys r hr
  · exact (callRelTable_cases htable).2.2
  · rw [callSiteRelTable_eq htable]

variable {target : SymbolEntry} {evidence : Evidence}

theorem stageCallEdge_rows (h : stageCallEdge callerLabel site target evidence confidence = some rows) :
    ∃ label, CallRows callerLabel label site target.id (resolutionLabel evidence) rows := by
  obtain ⟨label, -, h⟩ := Option.bind_eq_some_iff.mp h
  obtain ⟨rel, hrel, h⟩ := Option.bind_eq_some_iff.mp h
  dsimp only at h
  split at h
  next hknown =>
    cases h
    exact ⟨label, callRows hrel hknown⟩
  next => cases h

theorem stagedLabel_eq {label : EndLabel} {rel : Table}
    (hcaller : determineCallerLabel ns site.caller = callerLabel) (hlabel : labelOf target = some label)
    (hrel : callRelTable callerLabel label = some rel) (hknown : isKnownRelTable rel) :
    stagedLabel R ns cols site target evidence confidence =
      .ok (⟨rel, site.caller, target.id, confidence, resolutionLabel evidence⟩ ::
        ((callSiteRelTable label).map fun table => (⟨table, site.id, target.id, confidence,
          resolutionLabel evidence⟩ : RelRow)).toList) := by
  have hstage : stageCallEdge callerLabel site target evidence confidence =
      some (⟨rel, site.caller, target.id, confidence, resolutionLabel evidence⟩ ::
        ((callSiteRelTable label).map fun table => (⟨table, site.id, target.id, confidence,
          resolutionLabel evidence⟩ : RelRow)).toList) := by
    rw [stageCallEdge, hlabel, Option.bind_eq_bind, Option.bind_some, hrel, Option.bind_eq_bind,
      Option.bind_some, if_pos hknown]
  rw [stagedLabel, hcaller, hstage]

theorem stagedLabel_rows (h : stagedLabel R ns cols site target evidence confidence = .ok rows) :
    ∃ label, CallRows (determineCallerLabel ns site.caller) label site target.id
      (resolutionLabel evidence) rows := by
  rw [stagedLabel] at h
  split at h
  next hrows =>
    cases h
    exact stageCallEdge_rows hrows
  next => cases h

theorem settle_rows (h : settle R ns cols site = .ok rows) : ∃ label target evidence,
    CallRows (determineCallerLabel ns site.caller) label site target (resolutionLabel evidence)
      rows := by
  rw [settle] at h
  split at h
  next target evidence confidence _ _ =>
    obtain ⟨label, hrows⟩ := stagedLabel_rows h
    exact ⟨label, _, _, hrows⟩
  next candidates _ _ =>
    dsimp only at h
    split at h
    next twin _ =>
      obtain ⟨label, hrows⟩ := stagedLabel_rows h
      exact ⟨label, _, _, hrows⟩
    next => cases h
  next => cases h

structure MacroRow (r : RelRow) : Prop where
  target : r.table.toLabel = .stdlibSymbol
  method : ∃ evidence, r.method = resolutionLabel evidence

theorem stageMacroEmission_rows {emission : Text × Evidence}
    (h : r ∈ stageMacroEmission callerLabel site emission) : MacroRow r := by
  rw [stageMacroEmission] at h
  dsimp only at h
  split at h
  next =>
    rcases mem_cons.mp h with rfl | h
    · exact ⟨rfl, _, rfl⟩
    · obtain ⟨table, htable, rfl⟩ := Option.map_eq_some_iff.mp (Option.mem_toList.mp h)
      obtain rfl := callSiteRelTable_eq htable
      exact ⟨rfl, _, rfl⟩
  next => cases h

theorem settleMacro_rows (h : settleMacro R ns cols site = .ok rows) : ∀ r ∈ rows, MacroRow r := by
  rw [settleMacro] at h
  dsimp only at h
  split at h
  next => cases h
  next hrows =>
    cases h
    intro r hr
    obtain ⟨emission, -, hr⟩ := mem_flatMap.mp hr
    exact stageMacroEmission_rows hr

theorem settled_of_mem (h : r ∈ siteRows R ns cols site) :
    ∃ rows, settled R ns cols site = .ok rows ∧ r ∈ rows := by
  rw [siteRows] at h
  split at h
  next rows hrows => exact ⟨rows, hrows, h⟩
  next => cases h

theorem mem_siteRows (h : r ∈ siteRows R ns cols site) : MacroRow r ∨
    ∃ label target evidence, CallRows (determineCallerLabel ns site.caller) label site target
      (resolutionLabel evidence) (siteRows R ns cols site) := by
  obtain ⟨rows, hrows, hr⟩ := settled_of_mem h
  have heq : siteRows R ns cols site = rows := by
    rw [siteRows, hrows]
  rw [heq]
  rw [settled] at hrows
  split at hrows
  · exact Or.inl (settleMacro_rows hrows r hr)
  · exact Or.inr (settle_rows hrows)

theorem mem_stagedRows : r ∈ stagedRows R ns cols ↔
    (r ∈ R.importRows ns cols ∨ r ∈ R.typeRows ns cols) ∨
      ∃ site ∈ callSites R ns, r ∈ siteRows R ns cols site := by
  simp only [stagedRows, mem_append, mem_flatMap, mem_filter]
  constructor
  · rintro (((himport | ⟨site, ⟨hsite, -⟩, hr⟩) | htype) | ⟨site, ⟨hsite, -⟩, hr⟩)
    · exact Or.inl (Or.inl himport)
    · exact Or.inr ⟨site, hsite, hr⟩
    · exact Or.inl (Or.inr htype)
    · exact Or.inr ⟨site, hsite, hr⟩
  · rintro ((himport | htype) | ⟨site, hsite, hr⟩)
    · exact Or.inl (Or.inl (Or.inl himport))
    · exact Or.inl (Or.inr htype)
    · cases hrust : site.isRustMacro with
      | false => exact Or.inl (Or.inl (Or.inr ⟨site, ⟨hsite, by rw [hrust]; rfl⟩, hr⟩))
      | true => exact Or.inr ⟨site, ⟨hsite, hrust⟩, hr⟩

theorem other_of_phase (h : r ∈ R.importRows ns cols ∨ r ∈ R.typeRows ns cols) : r.Other :=
  h.elim (R.importRows_other ns cols r) (R.typeRows_other ns cols r)

theorem stagedRows_ne_lsp (h : r ∈ stagedRows R ns cols) : r.method ≠ lspDefinition := by
  obtain hphase | ⟨site, -, hr⟩ := mem_stagedRows.mp h
  · exact (other_of_phase hphase).method
  · obtain hrust | ⟨label, target, evidence, hrows⟩ := mem_siteRows hr
    · obtain ⟨evidence, hmethod⟩ := hrust.method
      exact hmethod ▸ resolutionLabel_ne_lsp evidence
    · exact hrows.method r hr ▸ resolutionLabel_ne_lsp evidence

end Staged

/-! ## Calls alone -/

section Calls

variable {Cargo : Type}

/-- The rules of a tree that has nothing to resolve but calls. -/
noncomputable def callRules
    (resolveSingleCall : Multiset Node → Columns Cargo → CallSite → Resolution SymbolEntry) :
    Rules Cargo where
  scan := Multiset.toList
  scan_eq := Multiset.coe_toList
  resolveSingleCall ns cols site := (resolveSingleCall ns cols site, none)
  classify _ _ _ _ := noReason
  expandMacro _ _ _ _ := ([], noReason)
  importRows _ _ := []
  importRows_other _ _ _ hr := nomatch hr
  typeRows _ _ := []
  typeRows_other _ _ _ hr := nomatch hr

variable {pick : Multiset Node → Columns Cargo → CallSite → Resolution SymbolEntry}
  {ns : Multiset Node} {cols : Columns Cargo} {site : CallSite} {r : RelRow}

theorem mem_callSites {R : Rules Cargo} {n : Node} (hn : n ∈ ns) (hsite : CallSite.ofNode n = some site) :
    site ∈ callSites R ns := by
  refine mem_filterMap.mpr ⟨n, ?_, hsite⟩
  rwa [← Multiset.mem_coe, R.scan_eq]

theorem settle_of_settled {rows : List RelRow}
    (h : settled (callRules pick) ns cols site = .ok rows) :
    settle (callRules pick) ns cols site = .ok rows := by
  rw [settled] at h
  split at h
  · cases h
  · exact h

theorem Store.settle_of_isDecided {Content : Type} {F : FrontEnd Content} {s : Store Content Cargo}
    {id : Text} (h : s.isDecided F (callRules pick) id) :
    ∃ site rows, site.id = id ∧
      settle (callRules pick) (s.nodes F) s.columns site = .ok rows := by
  obtain ⟨site, -, hsite⟩ := any_eq_true.mp h
  obtain ⟨hid, hok⟩ := Bool.and_eq_true_iff.mp hsite
  cases hrows : settled (callRules pick) (s.nodes F) s.columns site with
  | error why =>
      rw [hrows] at hok
      cases hok
  | ok rows => exact ⟨site, rows, of_decide_eq_true hid, settle_of_settled hrows⟩

theorem mem_staged_callRules (h : r ∈ stagedRows (callRules pick) ns cols) :
    ∃ site ∈ callSites (callRules pick) ns, ∃ rows,
      settle (callRules pick) ns cols site = .ok rows ∧ r ∈ rows := by
  obtain hphase | ⟨site, hsite, hr⟩ := mem_stagedRows.mp h
  · exact hphase.elim nofun nofun
  · obtain ⟨rows, hrows, hr⟩ := settled_of_mem hr
    exact ⟨site, hsite, rows, settle_of_settled hrows, hr⟩

theorem staged_of_settle {rows : List RelRow} (hsite : site ∈ callSites (callRules pick) ns)
    (hrust : ¬ site.isRustMacro) (hrows : settle (callRules pick) ns cols site = .ok rows) :
    rows ⊆ stagedRows (callRules pick) ns cols := by
  intro r hr
  refine mem_stagedRows.mpr (Or.inr ⟨site, hsite, ?_⟩)
  rwa [siteRows, settled, if_neg hrust, hrows]

/-- A call site of a tree, its caller, and a target for whose label the caller's row
has a table. -/
structure CallSite.Calls (ns : Multiset Node) (site : CallSite) (caller : Text) (rel : Table)
    (target : SymbolEntry) : Prop where
  mem : ∃ n ∈ ns, CallSite.ofNode n = some site
  rust : ¬ site.isRustMacro
  ofCaller : site.caller = caller
  callerLabel : determineCallerLabel ns caller = rel.fromLabel
  label : labelOf target = some rel.toLabel
  table : callRelTable rel.fromLabel rel.toLabel = some rel
  joins : Joins ns (rel, caller, target.id)

/-- All of it as one evaluation, given the place of the table in the schema. -/
def CallSite.calls (ns : Multiset Node) (site : CallSite) (caller : Text) (rel : Table)
    (target : SymbolEntry) (index : Nat) : Bool :=
  have : Decidable (∃ n ∈ ns, CallSite.ofNode n = some site) := Multiset.decidableExistsMultiset
  decide (∃ n ∈ ns, CallSite.ofNode n = some site) && !site.isRustMacro && site.caller = caller &&
    determineCallerLabel ns caller = rel.fromLabel && labelOf target = some rel.toLabel &&
    callRelTable rel.fromLabel rel.toLabel = some rel &&
    (relTables[index]?.any fun d => d.name.toList = rel.name) &&
    HasNode ns rel.fromLabel caller && HasNode ns rel.toLabel target.id

theorem CallSite.Calls.of_calls {caller : Text} {rel : Table} {target : SymbolEntry} (index : Nat)
    (h : site.calls ns caller rel target index) : site.Calls ns caller rel target := by
  simp only [CallSite.calls, Bool.and_eq_true, decide_eq_true_eq, Bool.not_eq_true'] at h
  obtain ⟨⟨⟨⟨⟨⟨⟨⟨hmem, hrust⟩, hcaller⟩, hlabel⟩, htarget⟩, hrel⟩, hknown⟩, hfrom⟩, hto⟩ := h
  obtain ⟨d, hd, hname⟩ := (Option.any_eq_true _ _).mp hknown
  have hknown := isKnownRelTable_of_index index hd (of_decide_eq_true hname)
  exact ⟨hmem, Bool.not_eq_true _ ▸ hrust, hcaller, hlabel, htarget, hrel, hknown, hfrom, hto⟩

theorem CallSite.Calls.staged {caller : Text} {rel : Table} {target : SymbolEntry}
    {evidence : Evidence} {confidence : ℚ} (h : site.Calls ns caller rel target)
    (hsettle : settle (callRules pick) ns cols site =
      stagedLabel (callRules pick) ns cols site target evidence confidence) :
    HasKey (stagedRows (callRules pick) ns cols) (rel, caller, target.id) := by
  obtain ⟨n, hn, hsite⟩ := h.mem
  have hlabel : determineCallerLabel ns site.caller = rel.fromLabel := h.ofCaller ▸ h.callerLabel
  have hrows := hsettle.trans (stagedLabel_eq hlabel h.label h.table h.joins.1)
  refine ⟨_, staged_of_settle (mem_callSites hn hsite) h.rust hrows mem_cons_self, ?_⟩
  exact congrArg (fun caller => (rel, caller, target.id)) h.ofCaller

/-- Reads every file as a rust file that holds given declarations. -/
def declReader (decls : Text → List ExtractedNode) : FrontEnd Unit where
  size _ := 0
  readText _ := some []
  language _ _ := "rust".toList
  hasLanguage _ := true
  restrictToPublicApi _ := false
  parseFile _ rel _ := some ⟨decls rel, [], 0⟩
  captureFullAst _ _ _ := none
  extractRelativeSpecifiers _ := []
  extractMarkdownSpecifiers _ := []
  extractShellSpecifiers _ := []
  parseDockerfile _ := none
  parseKustomization _ := ⟨[]⟩
  looksLikeManifest _ := false
  scanManifest _ := []
  scan _ := []

/-- A declaration on one line. -/
def declAt (label : SymbolLabel) (name : Text) (line : Nat) : ExtractedNode :=
  ⟨label, name, name, line, line, [], []⟩

def oneFile : SourceTree Unit where
  rels := {"a.rs".toList}
  content _ := ()
  plain := by decide
  shallow := by decide

end Calls

end Resolver

end CodeGraph
