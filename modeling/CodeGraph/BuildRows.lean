import CodeGraph.CfgSelect
import CodeGraph.ResolveSound

/-!
# Rows that depend on the build

A row a run chose by the build's columns, or by a return type, must not outlive
what it was chosen by. In the call tables the resets see to it: what the verdict
compiles out is a twin they read (`isStaleLsp_of_compiledOut`). A row of a type a
call uses lies in a table they do not go through, so it goes only if nothing
there is out of date before the run (`upToDate_iff`).
-/

namespace CodeGraph

namespace Resolver

open Schema AmbiguityPolicy Runs Keyed

/-! ## What the verdict compiles out is a twin -/

section Twins

variable {Cargo : Type} {ns : Multiset Node} {cols : Columns Cargo} {caller id : Text}

theorem extractFilePrefix_isPrefix {file : Text} (h : extractFilePrefix id = some file) :
    file ++ "::".toList <+: id := by
  obtain ⟨ext, -, hext⟩ := List.exists_of_findSome?_eq_some h
  obtain ⟨⟨before, rest⟩, hbreak, rfl⟩ := Option.map_eq_some_iff.mp hext
  refine ⟨rest, ?_⟩
  rw [breakOn_eq hbreak]
  simp only [List.append_assoc, List.cons_append]

theorem hasCfgGate_of_gates (h : cfgGatesIn id ≠ []) : hasCfgGate id := by
  rw [cfgGatesIn] at h
  split at h
  · exact absurd rfl h
  next _ gate rest hgate =>
    obtain ⟨_, hbreak, -⟩ := Option.bind_eq_some_iff.mp hgate
    rw [hasCfgGate, hbreak, Option.isSome_some]

theorem of_notCompiled {view : TwinView} {c : CallerGates}
    (h : verdict view c id id = .notCompiled) :
    cfgGatesIn id ≠ [] ∨ (view.file id).isSome ∨ (view.active id).isSome := by
  rw [verdict] at h
  split at h
  next v hv =>
    subst h
    rw [syntacticVerdict] at hv
    split at hv
    next => cases hv
    next gate hgate =>
      split at hv
      · cases hv
      · split at hv
        next hneg =>
          obtain ⟨p, hp, -⟩ := hneg
          obtain ⟨text, htext, -⟩ | ⟨q, ⟨facts, hfacts, -⟩, -⟩ :=
            ((mem_conjunctsInFile hgate).2 p).mp hp
          · exact Or.inl (List.ne_nil_of_mem htext)
          · exact Or.inr (Or.inl (Option.isSome_iff_exists.mpr ⟨facts, hfacts⟩))
        · cases hv
  next =>
    split at h
    · cases h
    · rw [columnVerdict] at h
      split at h
      next hfile =>
        obtain ⟨facts, hfacts, -⟩ := Option.map_eq_some_iff.mp hfile
        exact Or.inr (Or.inl (Option.isSome_iff_exists.mpr ⟨facts, hfacts⟩))
      · split at h
        · cases h
        next hactive => exact Or.inr (Or.inr (Option.isSome_iff_exists.mpr ⟨_, hactive⟩))
        · split at h <;> cases h

theorem mem_twinFiles_of_files {file : Text} {facts : FileCfg}
    (h : (loadView ns cols).files file = some facts) : file ∈ twinFiles ns cols := by
  by_contra hnot
  simp [loadView, hnot] at h

theorem hasCfgGate_of_active (h : ((loadView ns cols).active id).isSome) : hasCfgGate id := by
  by_contra hnot
  simp [loadView, cfgActiveById, hnot] at h

/-- The reset reads every node that the verdict can compile out. -/
theorem isTwinIn_of_compiledOut (h : isCompiledOut (loadView ns cols) caller id) :
    hasCfgGate id ∨ ∃ file ∈ twinFiles ns cols, file ++ "::".toList <+: id := by
  rw [isCompiledOut, decide_eq_true_eq] at h
  obtain hgates | hfile | hactive := of_notCompiled h
  · exact Or.inl (hasCfgGate_of_gates hgates)
  · obtain ⟨facts, hfacts⟩ := Option.isSome_iff_exists.mp hfile
    obtain ⟨file, hprefix, hmem⟩ := file_eq_some hfacts
    exact Or.inr ⟨file, mem_twinFiles_of_files hmem, extractFilePrefix_isPrefix hprefix⟩
  · exact Or.inl (hasCfgGate_of_active hactive)

end Twins

namespace Store

variable {Content Cargo : Type} {F : FrontEnd Content} {R : Rules Cargo}
  {s : Store Content Cargo} {r : RelRow}

theorem positionLabels_subset : positionLabels ⊆ cfgGateLabels := by
  simp [positionLabels, cfgGateLabels]

/-- A declaration the verdict compiles out is there, so the reset does not skip. -/
theorem not_hasNoTwin {l : SymbolLabel} (hl : l ∈ positionLabels)
    (hnode : HasNode (s.nodes F) (.symbol l) r.target)
    (htwin : IsTwinIn (twinFiles (s.nodes F) s.columns) r.target) : ¬ s.HasNoTwin F := by
  rintro ⟨hnodes, hfiles⟩
  obtain hgate | ⟨file, hfile, -⟩ := htwin
  · obtain ⟨n, hn, hkey⟩ := Multiset.mem_map.mp hnode
    obtain ⟨hlabel, hid⟩ := Prod.mk.inj hkey
    refine Multiset.filter_eq_nil.mp hnodes n hn ⟨⟨l, positionLabels_subset hl, hlabel⟩, ?_⟩
    exact hid ▸ hgate
  · rw [hfiles] at hfile
    exact absurd hfile (Multiset.notMem_zero _)

theorem isStaleLsp_of_compiledOut (hs : Sound F s) (hr : r ∈ s.rows) (hlsp : r.method = lspDefinition)
    (hout : isCompiledOut (s.view F) r.source r.target) : isStaleLsp F s r := by
  have htwin : IsTwinIn (twinFiles (s.nodes F) s.columns) r.target := isTwinIn_of_compiledOut hout
  obtain ⟨l, hl, hlabel⟩ := hs.lsp r hr hlsp
  have hnode : HasNode (s.nodes F) r.table.toLabel r.target := (hs.joins r hr).2.2
  rw [hlabel] at hnode
  have hread := not_hasNoTwin hl hnode htwin
  simp [isStaleLsp, hlsp, htwin, hout, hread]

/-! ## What a run leaves of earlier builds -/

/-- The run stages the row. -/
def Chose (F : FrontEnd Content) (R : Rules Cargo) (s : Store Content Cargo) (r : RelRow) : Prop :=
  ∃ chosen ∈ s.staged F R, chosen.key = r.key ∧ chosen.method = r.method

/-- Behind a run over the store every row by a twin or by a return type is the
run's own, and no row of the language server points at what the build compiles out
for the row's source. -/
structure UpToDate (F : FrontEnd Content) (R : Rules Cargo) (s : Store Content Cargo) : Prop where
  chosen : ∀ r ∈ (s.resolveGraph F R).rows,
    r.method = resolutionLabel .cfgSelected ∨ r.method = resolutionLabel .receiverReturnType →
      Chose F R s r
  compiled : ∀ r ∈ (s.resolveGraph F R).rows, r.method = lspDefinition →
    ¬ isCompiledOut ((s.resolveGraph F R).view F) r.source r.target

/-- The same of the rows that are there before the run, in the tables that hold no
calls. -/
structure UsesUpToDate (F : FrontEnd Content) (R : Rules Cargo) (s : Store Content Cargo) :
    Prop where
  chosen : ∀ r ∈ s.rows, r.table.kind ≠ .calls →
    r.method = resolutionLabel .cfgSelected ∨ r.method = resolutionLabel .receiverReturnType →
      Chose F R s r
  compiled : ∀ r ∈ s.rows, r.table.kind ≠ .calls → r.method = lspDefinition →
    ¬ isCompiledOut (s.view F) r.source r.target

theorem isCall_eq_false : r.table.isCall = false ↔ r.table.kind ≠ .calls := by
  simp [Table.isCall]

theorem isRebuilt_iff {method : Text} : isRebuilt method ↔
    method = resolutionLabel .cfgSelected ∨ method = resolutionLabel .receiverReturnType := by
  simp [isRebuilt]

theorem isTaken_eq_false_of_kind (h : r.table.kind ≠ .calls) : isTaken F s r = false := by
  have hcall := isCall_eq_false.mpr h
  simp [isTaken, isMacroRow, Table.isMacro, isUndone, hcall]

theorem isTaken_of_isUndone (h : isUndone F s r) : isTaken F s r = true := by
  rw [isTaken, h, Bool.or_true]

theorem resolveGraph_view : (s.resolveGraph F R).view F = s.view F := by
  rw [view, resolveGraph_nodes, resolveGraph_columns, view]

/-- A run leaves nothing of an earlier build if nothing is left to it in the
tables that hold no calls. -/
theorem upToDate_iff (hs : Sound F s) : UpToDate F R s ↔ UsesUpToDate F R s := by
  constructor
  · intro h
    have hleft : ∀ r ∈ s.rows, r.table.kind ≠ .calls → r ∈ (s.resolveGraph F R).rows :=
      fun r hr hkind => mem_resolveGraph_of_kept hr (isTaken_eq_false_of_kind hkind)
    refine ⟨fun r hr hkind => h.chosen r (hleft r hr hkind), fun r hr hkind => ?_⟩
    rw [← resolveGraph_view (R := R)]
    exact h.compiled r (hleft r hr hkind)
  · intro h
    refine ⟨fun r hr hmethod => ?_, fun r hr hlsp hout => ?_⟩
    · obtain ⟨hmem, hkept⟩ | ⟨hstaged, -⟩ := mem_resolveGraph hr
      · refine h.chosen r hmem (fun hkind => ?_) hmethod
        have hundone : isUndone F s r := by
          simp [isUndone, Table.isCall, hkind, isRebuilt_iff.mpr hmethod]
        rw [isTaken_of_isUndone hundone] at hkept
        cases hkept
      · exact ⟨r, hstaged, rfl, rfl⟩
    · rw [resolveGraph_view] at hout
      obtain ⟨hmem, hkept⟩ | ⟨hstaged, -⟩ := mem_resolveGraph hr
      · refine h.compiled r hmem (fun hkind => ?_) hlsp hout
        have hundone : isUndone F s r := by
          simp [isUndone, Table.isCall, hkind, isStaleLsp_of_compiledOut hs hmem hlsp hout]
        rw [isTaken_of_isUndone hundone] at hkept
        cases hkept
      · exact stagedRows_ne_lsp hstaged hlsp

end Store

/-- Along any run from an index, every run of the resolver leaves nothing of an
earlier build if and only if nothing is out of date before it in the tables that
hold no calls. -/
theorem resolve_upToDate_iff {Content Cargo : Type} (F : FrontEnd Content) (R : Rules Cargo)
    (tree : SourceTree Content) (columns : Columns Cargo) (events : List (Event Content Cargo))
    (hevents : Along (step F R) (IsEvent F) events (.indexed tree columns)) :
    (∀ before after, events = before ++ .resolve :: after →
        (run (step F R) before (.indexed tree columns)).UpToDate F R) ↔
      Along (step F R) (fun s e => e = .resolve → Store.UsesUpToDate F R s) events
        (.indexed tree columns) := by
  have hsound := Store.sound_indexed (F := F) tree columns
  have hiff : ∀ (s : Store Content Cargo) (e : Event Content Cargo), s.Sound F → IsEvent F s e →
      ((e = .resolve → s.UpToDate F R) ↔ (e = .resolve → s.UsesUpToDate F R)) :=
    fun s e hs _ => imp_congr_right fun _ => Store.upToDate_iff hs
  rw [← along_congr_along hiff (fun s e hs he => sound_step e hs he) hsound hevents, along_iff]
  constructor
  · rintro h before e after hsplit rfl
    exact h before after hsplit
  · intro h before after hsplit
    exact h before .resolve after hsplit rfl

/-! ## A tuple struct declared twice -/

def fastTwin : SymbolEntry := ⟨"a.rs::S#cfg(feature=fast)".toList, "Struct".toList, _, rfl⟩

def slowTwin : SymbolEntry := ⟨"a.rs::S#cfg(not(feature=fast))".toList, "Struct".toList, _, rfl⟩

/-- The call `S(1)` in `f`. -/
def twinSite : CallSite := ⟨"a.rs::f::call@6:4".toList, "S".toList, "rust".toList, [], [], [], []⟩

def twinCall : ExtractedNode :=
  { declAt .callSite "f::call@6:4".toList 6 with
    properties := [("callee_name".toList, "S".toList)] }

def twinReader : FrontEnd Unit := declReader fun _ =>
  [declAt .struct "S#cfg(feature=fast)".toList 2, declAt .struct "S#cfg(not(feature=fast))".toList 4,
    declAt .function "f".toList 5, twinCall]

/-- The call is of either twin, as far as the names go. -/
noncomputable def twinRules : Rules Unit := callRules fun _ _ site =>
  if site.id = twinSite.id then .ambiguous [fastTwin, slowTwin] else .notFound

def twinColumns (fast slow : CfgActive) : Columns Unit where
  cfgActive _ id := if id = fastTwin.id then fast else if id = slowTwin.id then slow else .unknown
  files _ := ⟨[], [], .unknown⟩
  cargo := ()

section Example

variable {ns : Multiset Node} {cols : Columns Unit} {r : RelRow}

def usesStruct : Table := ⟨.uses, .symbol .function, .symbol .struct⟩

theorem calls_twinSite :
    twinSite.Calls (treeNodes twinReader oneFile) "a.rs::f".toList usesStruct fastTwin :=
  .of_calls 54 (by decide)

theorem choose_twins :
    choose (loadView (treeNodes twinReader oneFile) (twinColumns .active .inactive))
        "a.rs::f".toList [fastTwin, slowTwin] = some fastTwin ∧
      choose (loadView (treeNodes twinReader oneFile) (twinColumns .inactive .active))
        "a.rs::f".toList [fastTwin, slowTwin] = some slowTwin ∧ slowTwin.id ≠ fastTwin.id := by
  decide +kernel

theorem mem_staged_twinRules (h : r ∈ stagedRows twinRules ns cols) :
    r.method = resolutionLabel .cfgSelected ∧ ∃ twin,
      choose (loadView ns cols) "a.rs::f".toList [fastTwin, slowTwin] = some twin ∧
        r.target = twin.id := by
  obtain ⟨site, -, rows, hrows, hr⟩ := mem_staged_callRules h
  rw [settle] at hrows
  by_cases hsite : site.id = twinSite.id
  · have hpick : twinRules.resolveSingleCall ns cols site = (.ambiguous [fastTwin, slowTwin], none) :=
      congrArg (·, none) (if_pos hsite)
    have hcaller : site.caller = "a.rs::f".toList :=
      (congrArg extractCallerFromCallsiteId hsite).trans calls_twinSite.ofCaller
    rw [twinRules] at hpick
    rw [hpick, hcaller] at hrows
    dsimp only at hrows
    split at hrows
    next twin htwin =>
      obtain ⟨label, hcall⟩ := stagedLabel_rows hrows
      refine ⟨hcall.method r hr, twin, htwin, ?_⟩
      obtain ⟨-, -, htarget⟩ | ⟨-, -, htarget⟩ := hcall.keys r hr
      · exact htarget
      · exact htarget
    next => cases hrows
  · have hpick : twinRules.resolveSingleCall ns cols site = (.notFound, none) :=
      congrArg (·, none) (if_neg hsite)
    rw [twinRules] at hpick
    rw [hpick] at hrows
    cases hrows

theorem staged_usesTwin : HasKey (stagedRows twinRules (treeNodes twinReader oneFile)
    (twinColumns .active .inactive)) (usesStruct, "a.rs::f".toList, fastTwin.id) := by
  have hpick : twinRules.resolveSingleCall (treeNodes twinReader oneFile)
      (twinColumns .active .inactive) twinSite = (.ambiguous [fastTwin, slowTwin], none) :=
    congrArg (·, none) (if_pos rfl)
  have hsettle : settle twinRules (treeNodes twinReader oneFile) (twinColumns .active .inactive)
      twinSite = stagedLabel twinRules (treeNodes twinReader oneFile)
        (twinColumns .active .inactive) twinSite fastTwin .cfgSelected
          (confidenceFor .cfgSelected) := by
    rw [settle, hpick]
    dsimp only
    rw [calls_twinSite.ofCaller, choose_twins.1]
  exact calls_twinSite.staged hsettle

/-- The feature goes, and the function still uses the struct that only a build
with it has. -/
theorem uses_of_other_build :
    ¬ (run (step twinReader twinRules) [.resolve, .rewrite (twinColumns .inactive .active)]
      (.indexed oneFile (twinColumns .active .inactive))).UpToDate twinReader twinRules := by
  intro hup
  obtain ⟨r, hr, hkey⟩ : HasKey (Store.resolveGraph twinReader twinRules
      (.indexed oneFile (twinColumns .active .inactive))).rows
        (usesStruct, "a.rs::f".toList, fastTwin.id) :=
    Store.hasKey_resolveGraph.mpr (Or.inr ⟨staged_usesTwin, calls_twinSite.joins⟩)
  have hmethod : r.method = resolutionLabel .cfgSelected := by
    obtain ⟨hnone, -⟩ | ⟨hstaged, -⟩ := Store.mem_resolveGraph hr
    · cases hnone
    · exact (mem_staged_twinRules hstaged).1
  have hkind : r.table.kind ≠ .calls := by
    rw [show r.table = _ from congrArg Prod.fst hkey]
    exact nofun
  obtain ⟨chosen, hchosen, hsame, -⟩ := hup.chosen r
    (Store.mem_resolveGraph_of_kept hr (Store.isTaken_eq_false_of_kind hkind)) (Or.inl hmethod)
  obtain ⟨-, twin, hchoose, htarget⟩ := mem_staged_twinRules hchosen
  obtain rfl : twin = slowTwin := Option.some.inj (hchoose.symm.trans choose_twins.2.1)
  have hfast : chosen.target = fastTwin.id := congrArg (fun k : RowKey => k.2.2) (hsame.trans hkey)
  exact choose_twins.2.2 (htarget.symm.trans hfast)

/-- The first run has no rows of an earlier build before it. -/
theorem resolve_upToDate_first : Store.UpToDate twinReader twinRules
    (.indexed oneFile (twinColumns .active .inactive)) := by
  have hnone : Store.UsesUpToDate twinReader twinRules
      (.indexed oneFile (twinColumns .active .inactive)) :=
    ⟨fun r hr => absurd hr List.not_mem_nil, fun r hr => absurd hr List.not_mem_nil⟩
  have hall := (resolve_upToDate_iff twinReader twinRules oneFile (twinColumns .active .inactive)
    [.resolve] ⟨trivial, trivial⟩).mpr ⟨fun _ => hnone, trivial⟩
  exact hall [] [] rfl

end Example

end Resolver

end CodeGraph
