import CodeGraph.ResolvePhases
import CodeGraph.ResolveSpec

/-!
# A run behind a run

A second run finds the nodes and the columns of the first, takes back what the
first took back, and stages the same rows. So it leaves the rows, the flags and
the reasons as they are (`Again`), and counts the same references.
-/

namespace CodeGraph

open List

namespace Resolver

open Schema AmbiguityPolicy Unmet

/-! ## The rules of the phases -/

namespace PhaseResult

theorem mem_rows_sum {results : List PhaseResult} {r : RelRow} :
    r ∈ (sum results).rows ↔ ∃ t ∈ results, r ∈ t.rows := by
  induction results with
  | nil => simp [sum]
  | cons t results ih =>
      have hcons : (sum (t :: results)).rows = t.rows ++ (sum results).rows := rfl
      rw [hcons, mem_append, ih, exists_mem_cons_iff]

@[simp] theorem rows_found (rows : List RelRow) : (found rows).rows = rows := rfl

end PhaseResult

theorem knownTable_eq_some {kind : RelKind} {source : EndLabel} {target : SymbolEntry} {t : Table}
    (h : knownTable kind source target = some t) :
    t.kind = kind ∧ t.fromLabel = source ∧ isKnownRelTable t := by
  obtain ⟨label, -, h⟩ := Option.bind_eq_some_iff.mp h
  dsimp only at h
  split at h
  next hknown =>
    cases h
    exact ⟨rfl, rfl, hknown⟩
  next => cases h

namespace Phases

variable {Cargo : Type} {P : Phases Cargo} {ns : Multiset Node} {cols : Columns Cargo} {r : RelRow}

theorem other_of_label {kind : RelKind} {table : Table} {source target : Text} {confidence : ℚ}
    (evidence : Evidence) (hkind : table.kind = kind) (hne : kind ≠ .calls) :
    RelRow.Other ⟨table, source, target, confidence, resolutionLabel evidence⟩ :=
  ⟨hkind ▸ hne, resolutionLabel_ne_lsp evidence⟩

theorem other_resolveOneImport {n : Node} (h : r ∈ (P.resolveOneImport ns n).rows) : r.Other := by
  rw [resolveOneImport] at h
  split at h
  · cases h
  split at h
  · obtain ⟨e, -, h⟩ := mem_filterMap.mp h
    obtain ⟨table, htable, rfl⟩ := Option.map_eq_some_iff.mp h
    exact other_of_label .importMatch (knownTable_eq_some htable).1 nofun
  dsimp only at h
  split at h
  next row hrow =>
    obtain rfl := mem_singleton.mp h
    rw [resolveSingleImport] at hrow
    split at hrow
    · split at hrow
      next table htable =>
        cases hrow
        exact other_of_label _ (knownTable_eq_some htable).1 nofun
      next => cases hrow
    · cases hrow
  next => cases h

theorem other_resolveImports (h : r ∈ (P.resolveImports ns).rows) : r.Other := by
  obtain ⟨t, ht, hr⟩ := PhaseResult.mem_rows_sum.mp h
  obtain ⟨n, -, rfl⟩ := mem_map.mp ht
  exact other_resolveOneImport hr

/-- A method of the phases behind the calls. -/
def typeMethods : List Text :=
  ["declared-implements", "derive-macro", "impl-block", "declared-extends",
    "type-annotation-parse", "type-reference-parse"].map String.toList

theorem lsp_notMem_typeMethods : lspDefinition ∉ typeMethods := by decide

theorem other_of_method {kind : RelKind} (hkind : r.table.kind = kind) (hne : kind ≠ .calls)
    (hmethod : r.method ∈ typeMethods) : r.Other :=
  ⟨hkind ▸ hne, fun h => lsp_notMem_typeMethods (h ▸ hmethod)⟩

theorem other_resolveImplements (h : r ∈ (P.resolveImplements ns).rows) : r.Other := by
  obtain ⟨t, ht, hr⟩ := PhaseResult.mem_rows_sum.mp h
  rcases mem_append.mp ht with ht | ht
  · obtain ⟨label, -, ht⟩ := mem_flatMap.mp ht
    obtain ⟨n, -, ht⟩ := mem_flatMap.mp ht
    obtain ⟨name, -, rfl⟩ := mem_map.mp ht
    rw [resolveOneImplements] at hr
    split at hr
    · cases hr
    · rw [PhaseResult.rows_found, implementsRows] at hr
      split at hr
      · obtain ⟨target, -, rfl⟩ := Option.map_eq_some_iff.mp (Option.mem_toList.mp hr)
        exact other_of_method rfl nofun (by simp [typeMethods, declaredImplements])
      split at hr
      · obtain ⟨canonical, -, rfl⟩ := mem_map.mp hr
        exact other_of_method rfl nofun (by simp [typeMethods, deriveMacro])
      · cases hr
  · obtain ⟨⟨receiver, label, name⟩, -, rfl⟩ := mem_map.mp ht
    rw [resolveImplBlock] at hr
    split at hr
    · obtain rfl := mem_singleton.mp hr
      exact other_of_method rfl nofun (by simp [typeMethods])
    · cases hr

theorem other_resolveExtends (h : r ∈ (P.resolveExtends ns).rows) : r.Other := by
  obtain ⟨t, ht, hr⟩ := PhaseResult.mem_rows_sum.mp h
  obtain ⟨label, -, ht⟩ := mem_flatMap.mp ht
  obtain ⟨n, -, ht⟩ := mem_flatMap.mp ht
  obtain ⟨name, -, rfl⟩ := mem_map.mp ht
  rw [resolveOneExtendsBase] at hr
  dsimp only at hr
  split at hr
  · cases hr
  split at hr
  next table htable =>
    obtain rfl := mem_singleton.mp hr
    exact other_of_method (knownTable_eq_some htable).1 nofun (by simp [typeMethods])
  next => cases hr

theorem other_resolveOneTypeUse {label : EndLabel} {method name : Text} {n : Node}
    (hmethod : method ∈ typeMethods) (hr : r ∈ (P.resolveOneTypeUse ns label method n name).rows) :
    r.Other := by
  rw [resolveOneTypeUse] at hr
  dsimp only at hr
  split at hr
  · cases hr
  split at hr
  next table htable =>
    obtain rfl := mem_singleton.mp hr
    exact other_of_method (knownTable_eq_some htable).1 nofun hmethod
  next => cases hr

theorem other_resolveUses (h : r ∈ (P.resolveUses ns).rows) : r.Other := by
  obtain ⟨t, ht, hr⟩ := PhaseResult.mem_rows_sum.mp h
  rcases mem_append.mp ht with ht | ht
  · obtain ⟨n, -, ht⟩ := mem_flatMap.mp ht
    obtain ⟨name, -, rfl⟩ := mem_map.mp ht
    exact other_resolveOneTypeUse (by simp [typeMethods]) hr
  · obtain ⟨label, -, ht⟩ := mem_flatMap.mp ht
    obtain ⟨n, -, ht⟩ := mem_flatMap.mp ht
    obtain ⟨name, -, rfl⟩ := mem_map.mp ht
    exact other_resolveOneTypeUse (by simp [typeMethods]) hr

/-- The rows of the phases behind the calls. -/
def typeRows (P : Phases Cargo) (ns : Multiset Node) : List RelRow :=
  (P.resolveImplements ns).rows ++ (P.resolveExtends ns).rows ++ (P.resolveUses ns).rows

theorem other_typeRows (h : r ∈ P.typeRows ns) : r.Other := by
  rcases mem_append.mp h with h | h
  · rcases mem_append.mp h with h | h
    · exact other_resolveImplements h
    · exact other_resolveExtends h
  · exact other_resolveUses h

def rules (P : Phases Cargo) : Rules Cargo where
  scan := P.scan .callSites
  scan_eq := P.scan_eq .callSites
  resolveSingleCall := P.resolveSingleCall
  classify := P.classify
  expandMacro ns cols callerLabel site :=
    (match P.expandMacro ns cols callerLabel site with
      | .calls emissions => emissions
      | _ => [],
    P.macroReason ns cols callerLabel site)
  importRows ns _ := (P.resolveImports ns).rows
  importRows_other _ _ _ := other_resolveImports
  typeRows ns _ := P.typeRows ns
  typeRows_other _ _ _ := other_typeRows

end Phases

/-! ## A second run -/

theorem determineCallerLabel_ne_callSite (ns : Multiset Node) (callerQn : Text) :
    determineCallerLabel ns callerQn ≠ .symbol .callSite := by
  rw [determineCallerLabel]
  cases h : (indexedLabels.filter fun label => HasNode ns label callerQn).getLast? with
  | none => exact nofun
  | some label =>
      have hmem := mem_of_mem_filter (mem_of_getLast? h)
      rintro (rfl : label = _)
      simp [indexedLabels] at hmem

variable {Cargo Content : Type} {F : FrontEnd Content} {R : Rules Cargo}

theorem source_of_isSite {ns : Multiset Node} {cols : Columns Cargo} {site : CallSite} {r : RelRow}
    (h : r ∈ siteRows R ns cols site) (hsite : r.table.isSite) : r.source = site.id := by
  obtain ⟨rows, hrows, hr⟩ := settled_of_mem h
  rw [settled] at hrows
  split at hrows
  · rw [settleMacro] at hrows
    dsimp only at hrows
    split at hrows
    · cases hrows
    · cases hrows
      obtain ⟨emission, -, hr⟩ := mem_flatMap.mp hr
      rw [stageMacroEmission] at hr
      dsimp only at hr
      split at hr
      · rcases mem_cons.mp hr with rfl | hr
        · have hcaller : determineCallerLabel ns site.caller = .symbol .callSite :=
            of_decide_eq_true (Bool.and_eq_true_iff.mp hsite).2
          exact absurd hcaller (determineCallerLabel_ne_callSite ns _)
        · obtain ⟨table, -, rfl⟩ := Option.map_eq_some_iff.mp (Option.mem_toList.mp hr)
          rfl
      · cases hr
  · obtain ⟨label, target, evidence, hcall⟩ := settle_rows hrows
    obtain ⟨hrel, -⟩ | ⟨-, hsource, -⟩ := hcall.keys r hr
    · exact absurd hsite (not_isSite_of_callRelTable hrel)
    · exact hsource

namespace Store

/-- The stores hold the same rows, by their keys, and the same flags and reasons. -/
structure Again (s s' : Store Content Cargo) : Prop where
  tree : s'.tree = s.tree
  columns : s'.columns = s.columns
  keys : ∀ k, HasKey s'.rows k ↔ HasKey s.rows k
  flags : ∀ id, s'.isResolved id = s.isResolved id
  reasons : ∀ id, s'.reason id = s.reason id

variable {s : Store Content Cargo} {r : RelRow} {k : RowKey} {id : Text}

theorem isStaleLsp_congr {s' : Store Content Cargo} (htree : s'.tree = s.tree)
    (hcolumns : s'.columns = s.columns) : isStaleLsp F s' r = isStaleLsp F s r := by
  cases s
  cases s'
  cases htree
  cases hcolumns
  rfl

theorem isStaleLsp_resolveGraph : isStaleLsp F (s.resolveGraph F R) r = isStaleLsp F s r :=
  isStaleLsp_congr (resolveGraph_tree s) (resolveGraph_columns s)

theorem isUndone_resolveGraph : isUndone F (s.resolveGraph F R) r = isUndone F s r := by
  rw [isUndone, isUndone, isStaleLsp_resolveGraph]

theorem isTaken_resolveGraph : isTaken F (s.resolveGraph F R) r = isTaken F s r := by
  rw [isTaken, isTaken, isUndone_resolveGraph]

theorem staged_resolveGraph : (s.resolveGraph F R).staged F R = s.staged F R := by
  rw [staged, staged, resolveGraph_nodes, resolveGraph_columns]

theorem isDecided_resolveGraph : (s.resolveGraph F R).isDecided F R id = s.isDecided F R id := by
  rw [isDecided, isDecided, resolveGraph_nodes, resolveGraph_columns]

theorem leftOpen_resolveGraph : (s.resolveGraph F R).leftOpen F R id = s.leftOpen F R id := by
  rw [leftOpen, leftOpen, resolveGraph_nodes, resolveGraph_columns]

theorem staged_of_isTaken (hr : r ∈ (s.resolveGraph F R).rows) (htaken : isTaken F s r) :
    r ∈ s.staged F R := by
  obtain ⟨-, hkept⟩ | ⟨hstaged, -⟩ := mem_resolveGraph hr
  · exact absurd (hkept.symm.trans htaken) Bool.false_ne_true
  · exact hstaged

theorem isDecided_of_staged (hr : r ∈ s.staged F R) (hsite : r.table.isSite) :
    s.isDecided F R r.source := by
  obtain hphase | ⟨site, hmem, hrow⟩ := mem_stagedRows.mp hr
  · exact absurd (of_decide_eq_true (isCall_of_isSite hsite)) (other_of_phase hphase).table
  · obtain ⟨rows, hrows, -⟩ := settled_of_mem hrow
    refine any_eq_true.mpr ⟨site, hmem, ?_⟩
    rw [hrows, source_of_isSite hrow hsite, decide_eq_true rfl]
    rfl

theorem keys_resolveGraph_twice : HasKey ((s.resolveGraph F R).resolveGraph F R).rows k ↔
    HasKey (s.resolveGraph F R).rows k := by
  rw [hasKey_resolveGraph, staged_resolveGraph, resolveGraph_nodes]
  simp only [isTaken_resolveGraph]
  constructor
  · rintro (⟨r, hr, -, rfl⟩ | hstaged)
    · exact ⟨r, hr, rfl⟩
    · exact hasKey_resolveGraph.mpr (Or.inr hstaged)
  · intro h
    obtain ⟨r, hr, hkept, rfl⟩ | hstaged := hasKey_resolveGraph.mp h
    · exact Or.inl ⟨r, mem_resolveGraph_of_kept hr hkept, hkept, rfl⟩
    · exact Or.inr hstaged

theorem staysFlagged_resolveGraph (hopen : ¬ s.isDecided F R id) :
    StaysFlagged F R (s.resolveGraph F R) id ↔ StaysFlagged F R s id := by
  have hmacro : (s.resolveGraph F R).isMacroSite F R id = s.isMacroSite F R id := by
    rw [isMacroSite, isMacroSite, resolveGraph_nodes]
  constructor
  · intro h
    obtain hflag | hdecided := resolveGraph_isResolved.mp h.1
    · exact hflag
    · exact absurd hdecided hopen
  · intro h
    refine ⟨resolveGraph_isResolved.mpr (Or.inl h), hmacro ▸ h.2.1, fun r hr hsite hsource => ?_⟩
    rw [isUndone_resolveGraph]
    by_contra hno
    obtain ⟨-, hundone⟩ := not_or.mp hno
    have htaken : isTaken F s r := Bool.or_eq_true_iff.mpr (Or.inr (not_not.mp hundone))
    exact hopen (hsource ▸ isDecided_of_staged (staged_of_isTaken hr htaken) hsite)

theorem flags_resolveGraph_twice :
    ((s.resolveGraph F R).resolveGraph F R).isResolved id = (s.resolveGraph F R).isResolved id := by
  rw [Bool.eq_iff_iff, resolveGraph_isResolved, resolveGraph_isResolved, isDecided_resolveGraph]
  by_cases hdecided : s.isDecided F R id
  · simp only [hdecided, or_true]
  · rw [staysFlagged_resolveGraph hdecided]

theorem resetEarlier_reason (hnone : ∀ r ∈ s.rows, r.table.isCall → ¬ isStaleLsp F s r) :
    (s.resetEarlier F R).reason id = s.reason id := by
  rw [resetEarlier, resetCompiledOutLspRows]
  split
  next => rfl
  next hno =>
    refine if_neg ?_
    rw [losesRow, any_eq_true]
    rintro ⟨r, hr, hgone⟩
    simp only [resetCallRows_rows, resetMacroExpansion_rows, mem_filter] at hr
    simp only [Bool.and_eq_true, decide_eq_true_eq] at hgone
    obtain ⟨⟨-, ⟨⟨hcall, hmethod⟩, htwin⟩, hdrop⟩, -⟩ := hgone
    refine hnone r hr.1.1.1 hcall ?_
    have hno' : ¬ s.HasNoTwin F := hno
    simp only [isStaleLsp, Bool.and_eq_true, decide_eq_true_eq]
    exact ⟨⟨⟨hmethod, by simp [hno']⟩, htwin⟩, hdrop⟩

/-- No row of the language server is left for the second run to take. -/
theorem not_isStaleLsp_resolveGraph (hr : r ∈ (s.resolveGraph F R).rows) (hcall : r.table.isCall) :
    ¬ isStaleLsp F (s.resolveGraph F R) r := by
  rw [isStaleLsp_resolveGraph]
  intro hstale
  have htaken : isTaken F s r := by
    rw [isTaken, isUndone, hcall, hstale]
    simp
  have hmethod : r.method = lspDefinition := by
    simp only [isStaleLsp, Bool.and_eq_true, decide_eq_true_eq] at hstale
    exact hstale.1.1.1
  exact stagedRows_ne_lsp (staged_of_isTaken hr htaken) hmethod

theorem reasons_resolveGraph_twice :
    ((s.resolveGraph F R).resolveGraph F R).reason id = (s.resolveGraph F R).reason id := by
  have hreset : ((s.resolveGraph F R).resetEarlier F R).reason id = (s.resolveGraph F R).reason id :=
    resetEarlier_reason fun r => not_isStaleLsp_resolveGraph
  rw [resolveGraph_reason, isDecided_resolveGraph, leftOpen_resolveGraph, hreset]
  by_cases hdecided : s.isDecided F R id
  · rw [if_pos hdecided, resolveGraph_reason, if_pos hdecided]
  · rw [if_neg hdecided]
    split
    next => rfl
    next hopen =>
      -- not flagged in the second run, so not in the first: its reason was written there
      rw [resetEarlier_isResolved, staysFlagged_resolveGraph hdecided, ← resetEarlier_isResolved]
        at hopen
      rw [resolveGraph_reason, if_neg hdecided, if_neg hopen]
      cases s.leftOpen F R id <;> rfl

/-- A second run leaves the store as it is. -/
theorem again_resolveGraph (s : Store Content Cargo) :
    Again (s.resolveGraph F R) ((s.resolveGraph F R).resolveGraph F R) where
  tree := resolveGraph_tree _
  columns := resolveGraph_columns _
  keys _ := keys_resolveGraph_twice
  flags _ := flags_resolveGraph_twice
  reasons _ := reasons_resolveGraph_twice

/-! ## The report -/

def resolveGraphReport (P : Phases Cargo) (F : FrontEnd Content) (s : Store Content Cargo) :
    Store Content Cargo × ResolutionResult :=
  (s.resolveGraph F P.rules, (P.runPhases (s.nodes F) s.columns).intoResult)

end Store

end Resolver

end CodeGraph
