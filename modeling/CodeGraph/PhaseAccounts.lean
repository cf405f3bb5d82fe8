import CodeGraph.ResolveAgain

/-!
# The accounts of a run

Every reference of a phase is counted once in the total and once as resolved or
unresolved. The one branch that would count it on neither side is that of a call
table the schema does not declare, and no call has one (`known_callRelTable`).

What the phases take for a reference is said by `CountsEach`: a glob import is one
for each symbol it finds, and a macro one for each call it expands to.
-/

namespace CodeGraph

open List

namespace Resolver

open Schema AmbiguityPolicy

/-! ## The law of the counts -/

namespace PhaseResult

/-- Each reference is resolved or left, and not both. -/
def Accounted (t : PhaseResult) : Prop := t.resolved + t.unresolved.length = t.total

theorem Accounted.resolved_le {t : PhaseResult} (h : t.Accounted) : t.resolved ≤ t.total :=
  h ▸ Nat.le_add_right _ _

theorem accounted_empty : Accounted {} := rfl

theorem Accounted.append {a b : PhaseResult} (ha : a.Accounted) (hb : b.Accounted) :
    (a.append b).Accounted := by
  have hunresolved : (a.append b).unresolved.length = a.unresolved.length + b.unresolved.length :=
    length_append
  have hsum : a.resolved + b.resolved + (a.unresolved.length + b.unresolved.length) =
      a.total + b.total := by
    rw [Accounted] at ha hb
    omega
  rw [Accounted, hunresolved]
  exact hsum

theorem accounted_sum {results : List PhaseResult} (h : ∀ t ∈ results, t.Accounted) :
    (sum results).Accounted := by
  induction results with
  | nil => exact accounted_empty
  | cons t results ih =>
      have hrest := ih fun u hu => h u (mem_cons_of_mem _ hu)
      exact (h t mem_cons_self).append hrest

theorem total_sum (results : List PhaseResult) :
    (sum results).total = (results.map PhaseResult.total).sum := by
  induction results with
  | nil => rfl
  | cons t results ih =>
      have hcons : (sum (t :: results)).total = t.total + (sum results).total := rfl
      rw [hcons, ih, map_cons, sum_cons]

/-- One reference: it has a row, or it is left with a reason. -/
inductive One : PhaseResult → Prop where
  | found {rows : List RelRow} (h : rows ≠ []) : One (.found rows)
  | missed (ref : UnresolvedRef) : One (.missed ref)

theorem One.accounted {t : PhaseResult} (h : t.One) : t.Accounted := by
  cases h <;> rfl

theorem One.total_eq {t : PhaseResult} (h : t.One) : t.total = 1 := by
  cases h <;> rfl

theorem total_sum_of_one {results : List PhaseResult} (h : ∀ t ∈ results, t.One) :
    (sum results).total = results.length := by
  rw [total_sum, map_congr_left fun t ht => (h t ht).total_eq, map_const',
    sum_replicate_nat, mul_one]

theorem accounted_sum_of_one {results : List PhaseResult} (h : ∀ t ∈ results, t.One) :
    (sum results).Accounted :=
  accounted_sum fun t ht => (h t ht).accounted

end PhaseResult

open PhaseResult

/-! ## The tables of the calls -/

/-- The tables that calls go to, each with its place in the schema. -/
def callTables : List (Nat × Table) :=
  [(39, ⟨.calls, .symbol .function, .symbol .function⟩),
    (40, ⟨.calls, .symbol .function, .symbol .method⟩),
    (41, ⟨.calls, .symbol .method, .symbol .function⟩),
    (42, ⟨.calls, .symbol .method, .symbol .method⟩),
    (54, ⟨.uses, .symbol .function, .symbol .struct⟩),
    (55, ⟨.uses, .symbol .function, .symbol .enum⟩),
    (56, ⟨.uses, .symbol .function, .symbol .trait⟩),
    (57, ⟨.uses, .symbol .function, .symbol .typeAlias⟩),
    (58, ⟨.uses, .symbol .method, .symbol .struct⟩),
    (59, ⟨.uses, .symbol .method, .symbol .enum⟩),
    (60, ⟨.uses, .symbol .method, .symbol .trait⟩),
    (61, ⟨.uses, .symbol .method, .symbol .typeAlias⟩)]

theorem known_callTables : ∀ p ∈ callTables,
    relTables[p.1]?.any fun d => d.name.toList = p.2.name := by decide

theorem mem_callTables {callerLabel targetLabel : EndLabel} {t : Table}
    (h : callRelTable callerLabel targetLabel = some t) : t ∈ callTables.map Prod.snd := by
  obtain ⟨hcaller, -, -⟩ := callRelTable_cases h
  rw [callRelTable, if_pos hcaller] at h
  rw [callables, mem_pair] at hcaller
  split at h
  next hcallee =>
    cases h
    rw [callables, mem_pair] at hcallee
    obtain rfl | rfl := hcaller <;> obtain rfl | rfl := hcallee <;> simp [callTables]
  split at h
  next htype =>
    cases h
    simp only [types, mem_cons, not_mem_nil, or_false] at htype
    obtain rfl | rfl := hcaller <;> obtain rfl | rfl | rfl | rfl := htype <;> simp [callTables]
  next => cases h

theorem known_callRelTable {callerLabel targetLabel : EndLabel} {t : Table}
    (h : callRelTable callerLabel targetLabel = some t) : isKnownRelTable t := by
  obtain ⟨p, hp, rfl⟩ := mem_map.mp (mem_callTables h)
  obtain ⟨d, hd, hname⟩ := (Option.any_eq_true _ _).mp (known_callTables p hp)
  exact isKnownRelTable_of_index p.1 hd (of_decide_eq_true hname)

/-- The tables of a file's imports, each with its place in the schema. -/
def importTables : List (Nat × EndLabel) :=
  [(26, .symbol .function), (27, .symbol .method), (28, .symbol .struct), (29, .symbol .enum),
    (30, .symbol .trait), (31, .symbol .constant), (32, .symbol .typeAlias),
    (25, .symbol .module), (23, .file)]

theorem known_importTables : ∀ p ∈ importTables, relTables[p.1]?.any fun d =>
    d.name.toList = Table.name ⟨.imports, .file, p.2⟩ := by decide

theorem known_imports {label : EndLabel} (h : label ∈ indexedLabels) :
    isKnownRelTable ⟨.imports, .file, label⟩ := by
  have himport : importTables.map Prod.snd = indexedLabels := rfl
  obtain ⟨p, hp, rfl⟩ := mem_map.mp (himport ▸ h)
  obtain ⟨d, hd, hname⟩ := (Option.any_eq_true _ _).mp (known_importTables p hp)
  exact isKnownRelTable_of_index p.1 hd (of_decide_eq_true hname)

theorem labelOf_indexed : ∀ label ∈ indexedLabels,
    indexedLabels.find? (fun l => l.text = label.text) = some label := by decide

theorem labelOf_of_mem_index {nodes : List Node} {e : Text × SymbolEntry}
    (h : e ∈ (buildSymbolIndex nodes).entries) :
    ∃ label ∈ indexedLabels, labelOf e.2 = some label := by
  obtain ⟨label, hlabel, he⟩ := mem_flatMap.mp h
  obtain ⟨n, -, rfl⟩ := mem_map.mp he
  exact ⟨label, hlabel, labelOf_indexed label hlabel⟩

/-- No symbol that a glob finds is skipped. -/
theorem knownTable_imports {nodes : List Node} {e : SymbolEntry} {parent : Text}
    (h : e ∈ (buildSymbolIndex nodes).byParentModule parent) :
    (knownTable .imports .file e).isSome := by
  obtain ⟨entry, hentry, rfl⟩ := mem_map.mp (mem_of_mem_filter h)
  obtain ⟨label, hlabel, hof⟩ := labelOf_of_mem_index hentry
  rw [knownTable, hof, Option.bind_some]
  dsimp only
  rw [if_pos (known_imports hlabel)]
  rfl

/-! ## One reference -/

namespace Phases

variable {Cargo : Type} {P : Phases Cargo} {ns : Multiset Node} {cols : Columns Cargo}
  {site : CallSite} {callerLabel label : EndLabel} {n : Node} {name : Text}

theorem stageCallEdge_cases {target : SymbolEntry} {evidence : Evidence} {confidence : ℚ} :
    (∃ rows, rows ≠ [] ∧
        Phases.stageCallEdge callerLabel site target evidence confidence = .found rows ∧
        Resolver.stageCallEdge callerLabel site target evidence confidence = some rows) ∨
      (∃ ref, Phases.stageCallEdge callerLabel site target evidence confidence = .missed ref) ∧
        Resolver.stageCallEdge callerLabel site target evidence confidence = none := by
  rw [Phases.stageCallEdge, Resolver.stageCallEdge]
  cases hlabel : labelOf target with
  | none => exact Or.inr ⟨⟨_, rfl⟩, rfl⟩
  | some label =>
      cases hrel : callRelTable callerLabel label with
      | none =>
          refine Or.inr ⟨?_, ?_⟩
          · rw [Option.bind_some, hrel, Option.map_none]
            exact ⟨_, rfl⟩
          · rw [Option.bind_eq_bind, Option.bind_some, hrel]
            rfl
      | some rel =>
          have hknown := known_callRelTable hrel
          rw [Option.bind_some, hrel, Option.map_some, Option.bind_eq_bind, Option.bind_some, hrel,
            Option.bind_eq_bind, Option.bind_some]
          dsimp only
          rw [if_pos hknown, if_pos hknown]
          exact Or.inl ⟨_, cons_ne_nil _ _, rfl, rfl⟩

theorem one_stageCallEdge {target : SymbolEntry} {evidence : Evidence} {confidence : ℚ} :
    (Phases.stageCallEdge callerLabel site target evidence confidence).One := by
  obtain ⟨rows, hne, hfound, -⟩ | ⟨⟨ref, hmissed⟩, -⟩ := stageCallEdge_cases
  · exact hfound ▸ .found hne
  · exact hmissed ▸ .missed ref

theorem one_resolveOneCallSite (site : CallSite) : (P.resolveOneCallSite ns cols site).One := by
  rw [resolveOneCallSite]
  dsimp only
  split
  · exact one_stageCallEdge
  · split
    · exact one_stageCallEdge
    · exact .missed _
  · exact .missed _

theorem one_resolveOneImplements : (P.resolveOneImplements ns label n name).One := by
  rw [resolveOneImplements]
  split
  · exact .missed _
  next hrows => exact .found hrows

theorem one_resolveImplBlock (block : SymbolEntry × EndLabel × Text) :
    (P.resolveImplBlock ns block).One := by
  rw [resolveImplBlock]
  split
  · exact .found (cons_ne_nil _ _)
  · exact .missed _

theorem one_resolveOneExtendsBase : (P.resolveOneExtendsBase ns label n name).One := by
  rw [resolveOneExtendsBase]
  dsimp only
  split
  · exact .missed _
  split
  · exact .found (cons_ne_nil _ _)
  · exact .missed _

theorem one_resolveOneTypeUse {method : Text} :
    (P.resolveOneTypeUse ns label method n name).One := by
  rw [resolveOneTypeUse]
  dsimp only
  split
  · exact .missed _
  split
  · exact .found (cons_ne_nil _ _)
  · exact .missed _

theorem one_resolveEmission (emission : Text × Evidence) :
    (resolveEmission callerLabel site emission).One := by
  rw [resolveEmission]
  split
  next hknown =>
    refine .found ?_
    rw [stageMacroEmission, if_pos hknown]
    exact cons_ne_nil _ _
  · exact .missed _

/-! ## References that count as several -/

/-- The calls that a macro expands to are references of their own. -/
def Expansion.units : Expansion → Nat
  | .noCall => 0
  | .none _ => 1
  | .calls emissions => emissions.length

def macroUnits (P : Phases Cargo) (ns : Multiset Node) (cols : Columns Cargo) (site : CallSite) :
    Nat :=
  (P.expandMacro ns cols (determineCallerLabel ns site.caller) site).units

theorem macroUnits_eq_zero :
    P.macroUnits ns cols site = 0 ↔ P.dispatchFor (macroName site) = some .noCall := by
  rw [macroUnits, expandMacro]
  split
  next hdispatch => exact iff_of_true rfl hdispatch
  next hdispatch =>
    refine iff_of_false ?_ hdispatch
    split
    · exact Nat.one_ne_zero
    split
    · split <;> exact Nat.one_ne_zero
    split
    · exact Nat.one_ne_zero
    · exact Nat.one_ne_zero
    next canonicals hne _ =>
      rw [Expansion.units, length_map]
      exact fun h => hne (length_eq_zero_iff.mp h)

theorem accounted_resolveExpansion (expansion : Expansion) :
    (resolveExpansion callerLabel site expansion).Accounted := by
  cases expansion with
  | noCall => exact accounted_empty
  | none reason => exact (One.missed _).accounted
  | calls emissions => exact accounted_sum_of_one (forall_mem_map.mpr fun e _ => one_resolveEmission e)

theorem total_resolveExpansion (expansion : Expansion) :
    (resolveExpansion callerLabel site expansion).total = expansion.units := by
  cases expansion with
  | noCall => rfl
  | none reason => rfl
  | calls emissions =>
      rw [resolveExpansion,
        total_sum_of_one (forall_mem_map.mpr fun e _ => one_resolveEmission e), length_map,
        Expansion.units]

/-- The symbols that a glob import finds are references of their own. -/
def importUnits (P : Phases Cargo) (ns : Multiset Node) (n : Node) : Nat :=
  let provider := P.providerFor n.language
  let path := n.column "path"
  if provider.isExternalImport path then 1
  else if n.column "is_glob" = "true".toList ∨ n.column "is_glob" = "True".toList then
    ((P.index ns).byParentModule (provider.normalizeImportPath path)).length
  else 1

theorem length_resolveGlobImport (fileId modulePath : Text) :
    (P.resolveGlobImport ns fileId modulePath).length =
      ((P.index ns).byParentModule modulePath).length := by
  rw [resolveGlobImport, length_filterMap_eq_countP, countP_eq_length]
  intro e he
  rw [Option.isSome_map]
  exact knownTable_imports he

theorem accounted_resolveOneImport : (P.resolveOneImport ns n).Accounted := by
  rw [resolveOneImport]
  dsimp only
  split
  · exact (One.missed _).accounted
  split
  · exact Nat.add_zero _
  split
  · exact (One.found (cons_ne_nil _ _)).accounted
  · exact (One.missed _).accounted

theorem total_resolveOneImport : (P.resolveOneImport ns n).total = P.importUnits ns n := by
  rw [resolveOneImport, importUnits]
  dsimp only
  split
  · rfl
  split
  · exact length_resolveGlobImport _ _
  split <;> rfl

/-! ## The rows that a run stages -/

/-! ## The phases -/

def implementsRefs (P : Phases Cargo) (ns : Multiset Node) : List (EndLabel × Node × Text) :=
  [.symbol .struct, .symbol .enum].flatMap fun label =>
    (P.rowsOf ns .implements label).flatMap fun n =>
      (P.csvNames (n.column "implements")).map (label, n, ·)

def implBlocks (P : Phases Cargo) (ns : Multiset Node) : List (SymbolEntry × EndLabel × Text) :=
  (P.rowsOf ns .implBlocks (.symbol .method)).filterMap (P.implBlock ns)

def extendsRefs (P : Phases Cargo) (ns : Multiset Node) : List (EndLabel × Node × Text) :=
  [.symbol .struct, .symbol .enum, .symbol .trait].flatMap fun label =>
    (P.rowsOf ns .extensions label).flatMap fun n =>
      (P.csvNames (n.column "bases")).map (label, n, ·)

/-- The types that fields and callables name. -/
def usesRefs (P : Phases Cargo) (ns : Multiset Node) : List (EndLabel × Node × Text) :=
  ((P.rowsOf ns .fields (.symbol .field)).flatMap fun n =>
    (P.fieldTypes n).map (.symbol .field, n, ·)) ++
  callables.flatMap fun label => (P.rowsOf ns .callables label).flatMap fun n =>
    (P.callableTypes n).map (label, n, ·)

/-- How many references each phase counts, each of them once. -/
structure CountsEach (P : Phases Cargo) (ns : Multiset Node) (cols : Columns Cargo)
    (t : PhaseTallies) : Prop where
  imports : t.imports.total =
    ((P.rowsOf ns .imports (.symbol .imported)).map (P.importUnits ns)).sum
  calls : t.calls.total = ((P.sites ns).filter (!·.isRustMacro)).length
  implements : t.implements.total = (P.implementsRefs ns).length +
    (P.implBlocks ns).length
  extensions : t.extensions.total = (P.extendsRefs ns).length
  uses : t.uses.total = (P.usesRefs ns).length
  macros : t.macros.total =
    (((P.sites ns).filter (·.isRustMacro)).map (P.macroUnits ns cols)).sum
  noCall : t.noCallMacroSites =
    (((P.sites ns).filter (·.isRustMacro)).filter (P.macroUnits ns cols · = 0)).length

/-- A reference of a list, by a label, a node and a name. -/
def ofRef (one : EndLabel → Node → Text → PhaseResult) (ref : EndLabel × Node × Text) : PhaseResult :=
  one ref.1 ref.2.1 ref.2.2

theorem one_map_ofRef {one : EndLabel → Node → Text → PhaseResult}
    (h : ∀ label n name, (one label n name).One) (refs : List (EndLabel × Node × Text)) :
    ∀ t ∈ refs.map (ofRef one), t.One :=
  forall_mem_map.mpr fun _ _ => h _ _ _

theorem resolveImplements_eq : P.resolveImplements ns =
    sum ((P.implementsRefs ns).map (ofRef (P.resolveOneImplements ns)) ++
      (P.implBlocks ns).map (P.resolveImplBlock ns)) := by
  rw [resolveImplements, implementsRefs, implBlocks]
  simp only [map_flatMap, map_map]
  rfl

theorem resolveExtends_eq : P.resolveExtends ns =
    sum ((P.extendsRefs ns).map (ofRef (P.resolveOneExtendsBase ns))) := by
  rw [resolveExtends, extendsRefs]
  simp only [map_flatMap, map_map]
  rfl

/-- The method of a use says where the type is named. -/
def resolveOneUse (P : Phases Cargo) (ns : Multiset Node) (label : EndLabel) (n : Node) (name : Text) :
    PhaseResult :=
  if label = .symbol .field then P.resolveOneFieldTypeUse ns n name
  else P.resolveOneCallableTypeUse ns label n name

theorem one_resolveOneUse (label : EndLabel) (n : Node) (name : Text) :
    (P.resolveOneUse ns label n name).One := by
  rw [resolveOneUse]
  split <;> exact one_resolveOneTypeUse

theorem resolveUses_eq : P.resolveUses ns =
    sum ((P.usesRefs ns).map (ofRef (P.resolveOneUse ns))) := by
  rw [resolveUses, usesRefs]
  simp only [map_append, map_flatMap, map_map, callables, flatMap_cons,
    flatMap_nil, append_nil]
  rfl

theorem one_implements : ∀ t ∈ (P.implementsRefs ns).map (ofRef (P.resolveOneImplements ns)) ++
    (P.implBlocks ns).map (P.resolveImplBlock ns), t.One := by
  intro t ht
  rcases mem_append.mp ht with ht | ht
  · exact one_map_ofRef (fun _ _ _ => one_resolveOneImplements) _ t ht
  · obtain ⟨block, -, rfl⟩ := mem_map.mp ht
    exact one_resolveImplBlock block

theorem one_calls (sites : List CallSite) : ∀ t ∈ sites.map (P.resolveOneCallSite ns cols), t.One :=
  forall_mem_map.mpr fun site _ => one_resolveOneCallSite site

theorem accounted_resolveOneMacro : (P.resolveOneMacro ns cols site).Accounted :=
  accounted_resolveExpansion _

theorem accounted_runPhases : ∀ t ∈ (P.runPhases ns cols).phases, t.Accounted := by
  have himports : (P.resolveImports ns).Accounted :=
    accounted_sum (forall_mem_map.mpr fun _ _ => accounted_resolveOneImport)
  have hcalls : (P.resolveCalls ns cols).Accounted := accounted_sum_of_one (one_calls _)
  have himplements : (P.resolveImplements ns).Accounted :=
    resolveImplements_eq ▸ accounted_sum_of_one one_implements
  have hextends : (P.resolveExtends ns).Accounted :=
    resolveExtends_eq ▸ accounted_sum_of_one (one_map_ofRef (fun _ _ _ => one_resolveOneExtendsBase) _)
  have huses : (P.resolveUses ns).Accounted :=
    resolveUses_eq ▸ accounted_sum_of_one (one_map_ofRef one_resolveOneUse _)
  have hmacros : (P.resolveMacros ns cols).Accounted :=
    accounted_sum (forall_mem_map.mpr fun _ _ => accounted_resolveOneMacro)
  simp only [PhaseTallies.phases, runPhases, forall_mem_cons, not_mem_nil,
    IsEmpty.forall_iff, implies_true, and_true]
  exact ⟨himports, hcalls, himplements, hextends, huses, hmacros⟩

theorem total_resolveImports : (P.resolveImports ns).total =
    ((P.rowsOf ns .imports (.symbol .imported)).map (P.importUnits ns)).sum := by
  rw [resolveImports, total_sum, map_map]
  exact congrArg List.sum (map_congr_left fun _ _ => total_resolveOneImport)

theorem countsEach_runPhases : CountsEach P ns cols (P.runPhases ns cols) where
  imports := total_resolveImports
  calls := by
    rw [runPhases, resolveCalls, total_sum_of_one (one_calls _), length_map]
  implements := by
    rw [runPhases, resolveImplements_eq, total_sum_of_one one_implements, length_append,
      length_map, length_map]
  extensions := by
    rw [runPhases, resolveExtends_eq,
      total_sum_of_one (one_map_ofRef (fun _ _ _ => one_resolveOneExtendsBase) _), length_map]
  uses := by
    rw [runPhases, resolveUses_eq, total_sum_of_one (one_map_ofRef one_resolveOneUse _),
      length_map]
  macros := by
    rw [runPhases, resolveMacros, total_sum, map_map]
    congr 1
    exact map_congr_left fun site _ => total_resolveExpansion _
  noCall := by
    rw [runPhases, noCallSites, filter_filter]
    refine congrArg List.length (filter_congr fun site _ => ?_)
    rw [Bool.and_comm, decide_eq_decide.mpr macroUnits_eq_zero]

end Phases

/-- The counts of the phases add up in the report. -/
theorem PhaseTallies.accounted_intoResult {t : PhaseTallies} (h : ∀ p ∈ t.phases, p.Accounted) :
    t.intoResult.totalEdges + t.intoResult.unresolved.length = t.intoResult.totalRefs := by
  simp only [phases, forall_mem_cons, not_mem_nil, IsEmpty.forall_iff, implies_true,
    and_true, Accounted] at h
  simp only [intoResult, length_append]
  omega

/-- Each reference that a phase counts is resolved or left, in the phase and in the
report. -/
theorem resolution_accounting {Cargo : Type} (P : Phases Cargo) (ns : Multiset Node)
    (cols : Columns Cargo) :
    let t := P.runPhases ns cols
    (∀ p ∈ t.phases, p.resolved + p.unresolved.length = p.total ∧ p.resolved ≤ p.total) ∧
      t.intoResult.totalEdges + t.intoResult.unresolved.length = t.intoResult.totalRefs ∧
      Phases.CountsEach P ns cols t :=
  ⟨fun p hp => ⟨Phases.accounted_runPhases p hp, (Phases.accounted_runPhases p hp).resolved_le⟩,
    PhaseTallies.accounted_intoResult Phases.accounted_runPhases, Phases.countsEach_runPhases⟩

/-! ## A glob that finds nothing -/

/-- `use crate::prelude::*;` in a crate without a `prelude`. -/
def globRows : List Node :=
  [⟨"src/lib.rs".toList, .file "lib.rs".toList "rs".toList 24 0⟩,
    ⟨"src/lib.rs::crate::prelude::*".toList, .symbol "rust".toList
      { label := .imported
        name := "crate::prelude::*".toList
        localName := "crate::prelude::*".toList
        startLine := 1
        endLine := 1
        visibility := []
        properties := [("path".toList, "crate::prelude".toList), ("alias".toList, []),
          ("is_glob".toList, "true".toList)] }⟩]

def rustProvider : LanguageProvider where
  isExternalImport path := ["std", "core", "alloc"].any fun root =>
    path = root.toList || (root.toList ++ "::".toList).isPrefixOf path
  normalizeImportPath path := (stripPrefix "crate::".toList path).getD path
  importLastSegment := lastPiece "::".toList
  primitives := []
  deriveMacroKey := none

/-- Phases that read the rows of the glob in their order. -/
noncomputable def globPhases : Phases Unit where
  scan _ ns := if ns = globRows then globRows else ns.toList
  scan_eq _ ns := by
    split
    next h => exact h.symm
    next => exact Multiset.coe_toList ns
  cc := .ascii
  isUppercase := Char.isUpper
  providerFor _ := rustProvider
  resolveSingleCall _ _ _ := (.notFound, none)
  classify _ _ _ _ := noReason
  emitImplements _ _ := none
  dispatchFor _ := none
  decide _ _ _ _ := .noStableTarget
  emitCalls _ := none
  isOutsideTargets _ _ := false

theorem scan_globPhases (query : Query) : globPhases.scan query globRows = globRows := by
  dsimp only [globPhases]
  exact if_pos rfl

/-- The import is counted on neither side. -/
theorem glob_import_uncounted : ¬ ∀ (P : Phases Unit) (ns : Multiset Node),
    (P.rowsOf ns .imports (.symbol .imported)).length ≤ (P.resolveImports ns).total := by
  intro h
  have hrows : globPhases.rowsOf globRows .imports (.symbol .imported) = globRows.drop 1 := by
    rw [Phases.rowsOf, scan_globPhases]
    decide +kernel
  have hunits : ∀ n ∈ globRows.drop 1, globPhases.importUnits globRows n = 0 := by
    have hindex : globPhases.index globRows = buildSymbolIndex globRows :=
      congrArg buildSymbolIndex (scan_globPhases _)
    simp only [Phases.importUnits, hindex]
    decide +kernel
  have htotal := h globPhases globRows
  rw [Phases.total_resolveImports, hrows, map_congr_left hunits] at htotal
  exact absurd htotal (by decide)

end Resolver

end CodeGraph
