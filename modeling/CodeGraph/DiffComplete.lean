import CodeGraph.DiffAttribution

/-!
# Complete attribution

Both attributions report the touched symbols of a changed file, each once, and an exact
analysis rests on exact impacts alone: this holds of a diff just when every touched symbol
is one that the file itself defines under the path git prints, no two of them share an id
or a hunk's file, and the impacts that fail are not the only ones short of exact.
-/

namespace CodeGraph

open List

namespace DiffSymbols

open Schema (NodeLabel)
open GitDiff (FileHunk)
open Impact (ImpactResult Boundary)

/-- The diff is attributed to the touched symbols of its files, by both, and each once. -/
structure Attributed (g : IndexedGraph) (getImpact : Text → Except Text ImpactResult)
    (root : Text) (hunks : List FileHunk) : Prop where
  reported : ∀ hunk ∈ hunks, ∀ label qn,
    (∃ s ∈ mapLinesToSymbols g getImpact hunk, s.label = label ∧ s.qualifiedName = qn) ↔
      ∃ row, Expected g root hunk row ∧ row.label = label ∧ row.qualifiedName = qn
  once : ((buildAnalysis g getImpact hunks).symbolsAffected.map fun s =>
    (s.label, s.qualifiedName)).Nodup
  history : ∀ hunk ∈ hunks, ∀ label qn,
    (∃ e ∈ changedEntities g root hunk, e.label = some label ∧ e.qualifiedName = qn) ↔
      ∃ s ∈ mapLinesToSymbols g getImpact hunk, s.label = label ∧ s.qualifiedName = qn
  exact : (buildAnalysis g getImpact hunks).epistemic = .exact → ∀ hunk ∈ hunks, ∀ row,
    Expected g root hunk row →
      ∃ impact, getImpact row.qualifiedName = .ok impact ∧ impact.epistemic = .exact

/-- The touched symbols are ones that both attributions can find. -/
structure Covered (g : IndexedGraph) (getImpact : Text → Except Text ImpactResult)
    (root : Text) (hunks : List FileHunk) : Prop where
  direct : ∀ hunk ∈ hunks, ∀ row, Expected g root hunk row → Direct g hunk.filePath row
  stray : ∀ hunk ∈ hunks, stripRoot hunk.filePath root ≠ some hunk.filePath →
    ∀ row, Direct g hunk.filePath row → ¬Touched hunk row
  apart : ∀ hunk ∈ hunks, ∀ row row', Expected g root hunk row → Expected g root hunk row' →
    row.id = row'.id → row = row'
  disjoint : hunks.Pairwise fun hunk hunk' => ∀ row, Expected g root hunk row →
    ¬Expected g root hunk' row
  impact : (∃ hunk ∈ hunks, ∃ row, Expected g root hunk row ∧ ∃ impact,
      getImpact row.qualifiedName = .ok impact ∧ impact.epistemic = .lowerBound) ∨
    ∀ hunk ∈ hunks, ∀ row, Expected g root hunk row →
      ∃ impact, getImpact row.qualifiedName = .ok impact ∧ impact.epistemic = .exact

variable {g : IndexedGraph} {getImpact : Text → Except Text ImpactResult} {root : Text}
  {hunks : List FileHunk} {hunk : FileHunk}

/-! ## The status -/

theorem assess_exact_iff {symbols : List ChangedSymbol} :
    (assess getImpact symbols).1 = .exact ↔ ∀ s ∈ symbols, ∀ impact,
      getImpact s.qualifiedName = .ok impact → impact.epistemic = .exact := by
  have hboundary : ∀ {b : Boundary}, b ≠ .lowerBound ↔ b = .exact := by
    intro b
    cases b <;> decide
  rw [assess]
  dsimp only
  constructor
  · intro h s hs impact himpact
    rw [← hboundary]
    intro hlower
    split at h
    · next hnone =>
      have hmem := (filterMap_eq_nil_iff.mp hnone) s hs
      rw [himpact] at hmem
      dsimp only at hmem
      rw [if_pos hlower] at hmem
      exact absurd hmem (by simp)
    · cases h
  · intro h
    rw [if_pos]
    rw [filterMap_eq_nil_iff]
    intro s hs
    cases himpact : getImpact s.qualifiedName with
    | error e => rfl
    | ok impact =>
        dsimp only
        rw [if_neg (hboundary.mpr (h s hs impact himpact))]

/-! ## From the condition -/

theorem Covered.expected (h : Covered g getImpact root hunks) (hhunk : hunk ∈ hunks)
    {row : SymbolRow} (htouched : Touched hunk row) (hdirect : Direct g hunk.filePath row) :
    Expected g root hunk row := by
  by_cases hroot : stripRoot hunk.filePath root = some hunk.filePath
  · exact ⟨htouched, hunk.filePath, hroot, hdirect.belongs⟩
  · exact absurd htouched (h.stray hunk hhunk hroot row hdirect)

theorem Covered.reported (h : Covered g getImpact root hunks) (hhunk : hunk ∈ hunks)
    (label : NodeLabel) (qn : Text) :
    (∃ s ∈ mapLinesToSymbols g getImpact hunk, s.label = label ∧ s.qualifiedName = qn) ↔
      ∃ row, Expected g root hunk row ∧ row.label = label ∧ row.qualifiedName = qn := by
  constructor
  · rintro ⟨s, hs, rfl, rfl⟩
    obtain ⟨row, htouched, hdirect, rfl⟩ := of_mem_mapLinesToSymbols hs
    exact ⟨row, h.expected hhunk htouched hdirect, rfl, rfl⟩
  · rintro ⟨row, hrow, rfl, rfl⟩
    obtain ⟨first, htouched, hdirect, hid, hmem⟩ :=
      exists_mapLinesToSymbols getImpact hrow.1 (h.direct hunk hhunk row hrow)
    have hsame := h.apart hunk hhunk first row (h.expected hhunk htouched hdirect) hrow hid
    exact ⟨_, hmem, congrArg SymbolRow.label hsame, congrArg SymbolRow.qualifiedName hsame⟩

theorem Covered.history (h : Covered g getImpact root hunks) (hhunk : hunk ∈ hunks)
    (label : NodeLabel) (qn : Text) :
    (∃ e ∈ changedEntities g root hunk, e.label = some label ∧ e.qualifiedName = qn) ↔
      ∃ s ∈ mapLinesToSymbols g getImpact hunk, s.label = label ∧ s.qualifiedName = qn := by
  rw [h.reported hhunk]
  constructor
  · rintro ⟨e, he, hlabel, rfl⟩
    obtain ⟨file, hroot, -, row, hrow, rfl⟩ := (mem_changedEntities hlabel).mp he
    obtain ⟨hmem, htouched, -⟩ := of_mem_kept hrow
    exact ⟨row, ⟨htouched, file, hroot, mem_fileSymbolRanges hmem⟩, Option.some.inj hlabel, rfl⟩
  · rintro ⟨row, hrow, rfl, rfl⟩
    obtain ⟨htouched, file, hroot, hbelongs⟩ := hrow
    have hdirect := h.direct hunk hhunk row ⟨htouched, file, hroot, hbelongs⟩
    have hfile : file = hunk.filePath := hbelongs.file_eq hdirect.belongs
    subst hfile
    obtain ⟨first, hfirst, hid⟩ := exists_kept htouched hdirect.mem_ranges not_mem_nil
    obtain ⟨hmem, hfirstTouched, -⟩ := of_mem_kept hfirst
    have hsame := h.apart hunk hhunk first row
      ⟨hfirstTouched, _, hroot, mem_fileSymbolRanges hmem⟩ ⟨htouched, _, hroot, hbelongs⟩ hid
    exact ⟨symbolEntity hunk first,
      (mem_changedEntities rfl).mpr ⟨_, hroot, hbelongs.1, first, hfirst, rfl⟩,
      congrArg (some ∘ SymbolRow.label) hsame, congrArg SymbolRow.qualifiedName hsame⟩

theorem nodup_mapLinesToSymbols (hunk : FileHunk) :
    ((mapLinesToSymbols g getImpact hunk).map fun s => (s.label, s.qualifiedName)).Nodup := by
  rw [mapLinesToSymbols, foldl_mapRow, nil_append, map_map]
  have hrows : ((kept hunk [] (diffLabels.flatMap fun label =>
      orNone (g.definedRows label hunk.filePath))).map SymbolRow.id).Nodup := nodup_kept _ []
  refine (hrows.of_map _).map_on fun row hrow row' hrow' hkey => ?_
  exact row_eq (mem_symbols_of_kept hrow) (mem_symbols_of_kept hrow') (congrArg Prod.fst hkey)
    (congrArg Prod.snd hkey)

theorem Covered.once (h : Covered g getImpact root hunks) :
    ((buildAnalysis g getImpact hunks).symbolsAffected.map fun s =>
      (s.label, s.qualifiedName)).Nodup := by
  show ((hunks.flatMap (mapLinesToSymbols g getImpact)).map _).Nodup
  rw [map_flatMap, nodup_flatMap]
  refine ⟨fun hunk _ => nodup_mapLinesToSymbols hunk, ?_⟩
  refine h.disjoint.imp_of_mem fun {hunk hunk'} hhunk hhunk' hrows key hkey hkey' => ?_
  obtain ⟨s, hs, rfl⟩ := mem_map.mp hkey
  obtain ⟨s', hs', heq⟩ := mem_map.mp hkey'
  obtain ⟨row, hrow, hlabel, hqn⟩ := (h.reported hhunk _ _).mp ⟨s, hs, rfl, rfl⟩
  obtain ⟨row', hrow', hlabel', hqn'⟩ := (h.reported hhunk' _ _).mp ⟨s', hs', rfl, rfl⟩
  obtain ⟨hsameLabel, hsameQn⟩ := Prod.mk.inj heq
  have hsame : row = row' := row_eq hrow.mem hrow'.mem
    (by rw [hlabel, hlabel', hsameLabel]) (by rw [hqn, hqn', hsameQn])
  exact hrows row hrow (hsame ▸ hrow')

theorem Covered.exact (h : Covered g getImpact root hunks)
    (hexact : (buildAnalysis g getImpact hunks).epistemic = .exact) (hhunk : hunk ∈ hunks)
    {row : SymbolRow} (hrow : Expected g root hunk row) :
    ∃ impact, getImpact row.qualifiedName = .ok impact ∧ impact.epistemic = .exact := by
  rcases h.impact with ⟨hunk', hhunk', row', hrow', impact, himpact, hlower⟩ | hall
  · obtain ⟨s, hs, -, hqn⟩ := (h.reported hhunk' _ _).mpr ⟨row', hrow', rfl, rfl⟩
    have hmem : s ∈ hunks.flatMap (mapLinesToSymbols g getImpact) :=
      mem_flatMap.mpr ⟨hunk', hhunk', hs⟩
    have := assess_exact_iff.mp hexact s hmem impact (hqn ▸ himpact)
    rw [hlower] at this
    cases this
  · exact hall hunk hhunk row hrow

theorem Covered.attributed (h : Covered g getImpact root hunks) :
    Attributed g getImpact root hunks where
  reported _ hhunk := h.reported hhunk
  once := h.once
  history _ hhunk := h.history hhunk
  exact hexact _ hhunk _ hrow := h.exact hexact hhunk hrow

/-! ## From attribution -/

theorem Attributed.direct (h : Attributed g getImpact root hunks) (hhunk : hunk ∈ hunks)
    {row : SymbolRow} (hrow : Expected g root hunk row) : Direct g hunk.filePath row := by
  obtain ⟨s, hs, hlabel, hqn⟩ := (h.reported hunk hhunk _ _).mpr ⟨row, hrow, rfl, rfl⟩
  obtain ⟨row', -, hdirect, rfl⟩ := of_mem_mapLinesToSymbols hs
  exact row_eq hdirect.1 hrow.mem hlabel hqn ▸ hdirect

theorem Attributed.stray (h : Attributed g getImpact root hunks) (hhunk : hunk ∈ hunks)
    (hroot : stripRoot hunk.filePath root ≠ some hunk.filePath) {row : SymbolRow}
    (hdirect : Direct g hunk.filePath row) : ¬Touched hunk row := by
  intro htouched
  obtain ⟨first, -, hfirst, -, hmem⟩ :=
    exists_mapLinesToSymbols getImpact htouched hdirect
  obtain ⟨row', hrow', hlabel, hqn⟩ := (h.reported hunk hhunk _ _).mp ⟨_, hmem, rfl, rfl⟩
  obtain ⟨file, hsome, hbelongs⟩ := hrow'.2
  have hsame : row' = first := row_eq hrow'.mem hfirst.1 hlabel hqn
  exact hroot (hsome.trans (congrArg some ((hsame ▸ hbelongs).file_eq hfirst.belongs)))

theorem Attributed.apart (h : Attributed g getImpact root hunks) (hhunk : hunk ∈ hunks)
    {row row' : SymbolRow} (hrow : Expected g root hunk row) (hrow' : Expected g root hunk row')
    (hid : row.id = row'.id) : row = row' := by
  have hkept : ∀ {row}, Expected g root hunk row → row ∈ kept hunk []
      (diffLabels.flatMap fun label => orNone (g.definedRows label hunk.filePath)) := by
    intro row hrow
    obtain ⟨s, hs, hlabel, hqn⟩ := (h.reported hunk hhunk _ _).mpr ⟨row, hrow, rfl, rfl⟩
    obtain ⟨found, hfound, rfl⟩ := mem_mapLinesToSymbols.mp hs
    exact row_eq (mem_symbols_of_kept hfound) hrow.mem hlabel hqn ▸ hfound
  exact inj_on_of_nodup_map (nodup_kept _ []) (hkept hrow) (hkept hrow') hid

theorem Attributed.disjoint (h : Attributed g getImpact root hunks) :
    hunks.Pairwise fun hunk hunk' => ∀ row, Expected g root hunk row →
      ¬Expected g root hunk' row := by
  have honce : ((hunks.flatMap (mapLinesToSymbols g getImpact)).map fun s =>
      (s.label, s.qualifiedName)).Nodup := h.once
  rw [map_flatMap, nodup_flatMap] at honce
  refine honce.2.imp_of_mem fun {hunk hunk'} hhunk hhunk' hkeys row hrow hrow' => ?_
  have hkey : ∀ {hunk}, hunk ∈ hunks → Expected g root hunk row → (row.label, row.qualifiedName) ∈
      (mapLinesToSymbols g getImpact hunk).map fun s => (s.label, s.qualifiedName) := by
    intro hunk hhunk hrow
    obtain ⟨s, hs, hlabel, hqn⟩ := (h.reported hunk hhunk _ _).mpr ⟨row, hrow, rfl, rfl⟩
    exact mem_map.mpr ⟨s, hs, Prod.ext hlabel hqn⟩
  exact hkeys (hkey hhunk hrow) (hkey hhunk' hrow')

theorem Attributed.impact (h : Attributed g getImpact root hunks) :
    (∃ hunk ∈ hunks, ∃ row, Expected g root hunk row ∧ ∃ impact,
      getImpact row.qualifiedName = .ok impact ∧ impact.epistemic = .lowerBound) ∨
    ∀ hunk ∈ hunks, ∀ row, Expected g root hunk row →
      ∃ impact, getImpact row.qualifiedName = .ok impact ∧ impact.epistemic = .exact := by
  by_cases hexact : (buildAnalysis g getImpact hunks).epistemic = .exact
  · exact .inr (h.exact hexact)
  · left
    have hsymbols := mt assess_exact_iff.mpr hexact
    push Not at hsymbols
    obtain ⟨s, hs, impact, himpact, hne⟩ := hsymbols
    obtain ⟨hunk, hhunk, hs⟩ := mem_flatMap.mp hs
    obtain ⟨row, hrow, -, hqn⟩ := (h.reported hunk hhunk _ _).mp ⟨s, hs, rfl, rfl⟩
    have hlower : impact.epistemic = .lowerBound := by
      cases hboundary : impact.epistemic with
      | exact => exact absurd hboundary hne
      | lowerBound => rfl
    exact ⟨hunk, hhunk, row, hrow, impact, hqn ▸ himpact, hlower⟩

theorem Attributed.covered (h : Attributed g getImpact root hunks) :
    Covered g getImpact root hunks where
  direct _ hhunk _ hrow := h.direct hhunk hrow
  stray _ hhunk hroot _ hdirect := h.stray hhunk hroot hdirect
  apart _ hhunk _ _ hrow hrow' hid := h.apart hhunk hrow hrow' hid
  disjoint := h.disjoint
  impact := h.impact

/-- The diff is attributed completely just when each touched symbol is one its file defines. -/
theorem attributed_iff_covered (g : IndexedGraph) (getImpact : Text → Except Text ImpactResult)
    (root : Text) (hunks : List FileHunk) :
    Attributed g getImpact root hunks ↔ Covered g getImpact root hunks :=
  ⟨Attributed.covered, Covered.attributed⟩

/-! ## A method of a type -/

/-- `struct S;` on the first line of a file, and its method `m` on the lines below. -/
def methodGraph : IndexedGraph where
  files := ["src/lib.rs".toList]
  symbols :=
    [⟨.struct, "src/lib.rs::S".toList, "S".toList, "src/lib.rs::S".toList, 1, 1⟩,
     ⟨.method, "src/lib.rs::S::m".toList, "m".toList, "src/lib.rs::S::m".toList, 3, 5⟩]
  edges table :=
    if table = "Defines_File_Struct" then [("src/lib.rs".toList, "src/lib.rs::S".toList)]
    else if table = "HasMethod_Struct_Method" then
      [("src/lib.rs::S".toList, "src/lib.rs::S::m".toList)]
    else []
  plain := by decide
  named := by decide
  unique := by decide
  defines label file id h := by
    have hnot : ∀ label : NodeLabel,
        "HasMethod_Struct_Method" ≠ "Defines_File_" ++ String.ofList label.text := by
      intro label
      cases label <;> decide
    split at h
    · obtain ⟨rfl, rfl⟩ := Prod.mk.inj (mem_singleton.mp h)
      decide
    · rw [if_neg (hnot label).symm] at h
      exact absurd h not_mem_nil
  hasMethod label owner id h file hfile := by
    have hnot : ∀ label : NodeLabel,
        "HasMethod_" ++ String.ofList label.text ++ "_Method" ≠ "Defines_File_Struct" := by
      intro label
      cases label <;> decide
    split at h
    · next hlabel => exact absurd hlabel (hnot label)
    · split at h
      · obtain ⟨rfl, rfl⟩ := Prod.mk.inj (mem_singleton.mp h)
        exact hfile.trans (prefix_append _ "::m".toList)
      · exact absurd h not_mem_nil

/-- A changed line of a method is attributed to nothing by the analysis of the diff. -/
theorem method_unreported :
    ¬Attributed methodGraph
      (fun _ => .ok ⟨[], [], [], [], [], [], [], .exact, [], 0, 0, [], 0, [], 0, [], []⟩) []
      [⟨"src/lib.rs".toList, [4], false, false⟩] := by
  intro h
  have hrow : Expected methodGraph [] ⟨"src/lib.rs".toList, [4], false, false⟩
      ⟨.method, "src/lib.rs::S::m".toList, "m".toList, "src/lib.rs::S::m".toList, 3, 5⟩ :=
    ⟨by decide, _, rfl, by decide, by decide, by decide, by decide⟩
  exact absurd (h.direct mem_cons_self hrow).2.1 (by decide)

end DiffSymbols

end CodeGraph
