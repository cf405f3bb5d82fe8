import CodeGraph.DiffSymbols

/-!
# What a diff is attributed to

The symbols that a changed file has, by their ids, against those the two attributions
find. A symbol is found by both when the file itself defines it; the methods and what is
in an inline module, and every symbol where the index begins below the root of the
repository, one of them or both leave out.
-/

namespace CodeGraph

open List

namespace DiffSymbols

open Schema (NodeLabel relTables)
open GitDiff (FileHunk)
open Impact (ImpactResult Boundary)

/-! ## Rows kept once -/

/-- The touched rows whose id has not been seen. -/
def kept (hunk : FileHunk) : (seen : List Text) → List SymbolRow → List SymbolRow
  | _, [] => []
  | seen, row :: rows =>
      if Touched hunk row ∧ row.id ∉ seen then row :: kept hunk (row.id :: seen) rows
      else kept hunk seen rows

section Kept

variable {hunk : FileHunk}

theorem of_mem_kept {rows : List SymbolRow} {row : SymbolRow} : ∀ {seen : List Text},
    row ∈ kept hunk seen rows → row ∈ rows ∧ Touched hunk row ∧ row.id ∉ seen := by
  induction rows with
  | nil => exact fun h => absurd h not_mem_nil
  | cons first rows ih =>
      intro seen h
      rw [kept] at h
      split at h
      · next hfirst =>
        rcases mem_cons.mp h with rfl | h
        · exact ⟨mem_cons_self, hfirst⟩
        · obtain ⟨hrow, htouched, hseen⟩ := ih h
          exact ⟨mem_cons_of_mem _ hrow, htouched, fun hin => hseen (mem_cons_of_mem _ hin)⟩
      · obtain ⟨hrow, htouched, hseen⟩ := ih h
        exact ⟨mem_cons_of_mem _ hrow, htouched, hseen⟩

theorem nodup_kept (rows : List SymbolRow) : ∀ seen : List Text,
    ((kept hunk seen rows).map SymbolRow.id).Nodup := by
  induction rows with
  | nil => exact fun _ => nodup_nil
  | cons first rows ih =>
      intro seen
      rw [kept]
      split
      · rw [map_cons, nodup_cons]
        refine ⟨fun hmem => ?_, ih _⟩
        obtain ⟨row, hrow, hid⟩ := mem_map.mp hmem
        exact (of_mem_kept hrow).2.2 (hid ▸ mem_cons_self)
      · exact ih seen

theorem exists_kept {rows : List SymbolRow} {row : SymbolRow} (htouched : Touched hunk row) :
    ∀ {seen : List Text}, row ∈ rows → row.id ∉ seen →
      ∃ first ∈ kept hunk seen rows, first.id = row.id := by
  induction rows with
  | nil => exact fun h => absurd h not_mem_nil
  | cons first rows ih =>
      intro seen hrow hseen
      rw [kept]
      split
      · next hfirst =>
        by_cases hid : first.id = row.id
        · exact ⟨first, mem_cons_self, hid⟩
        · have hrow : row ∈ rows := (mem_cons.mp hrow).resolve_left fun h => hid (h ▸ rfl)
          have hnew : row.id ∉ first.id :: seen := fun h =>
            (mem_cons.mp h).elim (fun h => hid h.symm) hseen
          obtain ⟨found, hfound, hsame⟩ := ih hrow hnew
          exact ⟨found, mem_cons_of_mem _ hfound, hsame⟩
      · next hfirst =>
        rcases mem_cons.mp hrow with rfl | hrow
        · exact absurd ⟨htouched, hseen⟩ hfirst
        · exact ih hrow hseen

end Kept

variable {g : IndexedGraph} {getImpact : Text → Except Text ImpactResult} {root : Text}
  {hunk : FileHunk}

theorem foldl_mapRow (rows : List SymbolRow) : ∀ (seen : List Text) (symbols : List ChangedSymbol),
    (rows.foldl (mapRow getImpact hunk) (seen, symbols)).2 =
      symbols ++ (kept hunk seen rows).map (changedSymbol getImpact hunk) := by
  induction rows with
  | nil => exact fun _ symbols => (append_nil symbols).symm
  | cons row rows ih =>
      intro seen symbols
      rw [foldl_cons, mapRow, kept]
      by_cases hseen : row.id ∈ seen
      · rw [if_pos hseen, if_neg fun h => h.2 hseen, ih]
      · by_cases htouched : Touched hunk row
        · rw [if_neg hseen, if_pos htouched, if_pos ⟨htouched, hseen⟩, ih, append_assoc]
          rfl
        · rw [if_neg hseen, if_neg htouched, if_neg fun h => htouched h.1, ih]

def symbolEntity (hunk : FileHunk) (row : SymbolRow) : ChangedEntity :=
  ⟨row.id, row.qualifiedName, some row.label, changeType hunk, linesChanged hunk row⟩

theorem foldl_overlappingRow (rows : List SymbolRow) :
    ∀ (seen : List Text) (entities : List ChangedEntity),
      (rows.foldl (overlappingRow hunk) (seen, entities)).2 =
        entities ++ (kept hunk seen rows).map (symbolEntity hunk) := by
  induction rows with
  | nil => exact fun _ entities => (append_nil entities).symm
  | cons row rows ih =>
      intro seen entities
      rw [foldl_cons, overlappingRow, kept]
      by_cases htouched : Touched hunk row
      · by_cases hseen : row.id ∈ seen
        · rw [if_pos htouched, if_pos hseen, if_neg fun h => h.2 hseen, ih]
        · rw [if_pos htouched, if_neg hseen, if_pos ⟨htouched, hseen⟩, ih, append_assoc]
          rfl
      · rw [if_neg htouched, if_neg fun h => htouched h.1, ih]

/-! ## What the queries return -/

/-- The file itself defines the symbol. -/
def Direct (g : IndexedGraph) (file : Text) (row : SymbolRow) : Prop :=
  row ∈ g.symbols ∧ row.label ∈ historyLabels ∧
    (file, row.id) ∈ g.edges ("Defines_File_" ++ String.ofList row.label.text)

variable {row : SymbolRow} {label : NodeLabel}

theorem mem_rows {id : Text} :
    row ∈ g.rows label id ↔ row ∈ g.symbols ∧ row.label = label ∧ row.id = id := by
  rw [IndexedGraph.rows, mem_filter, decide_eq_true_eq]

theorem table_defines (h : label ∈ historyLabels) :
    g.table ("Defines_File_" ++ String.ofList label.text) =
      .ok (g.edges ("Defines_File_" ++ String.ofList label.text)) := by
  have hall : ∀ label ∈ historyLabels,
      relTables.any fun table => table.name = "Defines_File_" ++ String.ofList label.text := by
    decide
  rw [IndexedGraph.table, if_pos (hall label h)]

variable {path : Text}

theorem mem_definedRows (h : label ∈ historyLabels) : row ∈ orNone (g.definedRows label path) ↔
      row.label = label ∧ Direct g path row := by
  rw [IndexedGraph.definedRows, table_defines h]
  show row ∈ List.flatMap _ _ ↔ _
  rw [mem_flatMap]
  constructor
  · rintro ⟨⟨file, id⟩, hedge, hrow⟩
    dsimp only at hrow
    split at hrow
    · next hfile =>
      obtain ⟨hsymbol, rfl, rfl⟩ := mem_rows.mp hrow
      exact ⟨rfl, hsymbol, h, hfile ▸ hedge⟩
    · exact absurd hrow not_mem_nil
  · rintro ⟨rfl, hsymbol, -, hedge⟩
    refine ⟨_, hedge, ?_⟩
    dsimp only
    rw [if_pos rfl]
    exact mem_rows.mpr ⟨hsymbol, rfl, rfl⟩

theorem definedRows_method (path : Text) : orNone (g.definedRows .method path) = [] := by
  have hnone : ¬(relTables.any fun table =>
      table.name = "Defines_File_" ++ String.ofList NodeLabel.method.text) = true := by
    decide
  rw [IndexedGraph.definedRows, IndexedGraph.table, if_neg hnone]
  rfl

theorem mem_diffRows :
    (row ∈ diffLabels.flatMap fun label => orNone (g.definedRows label path)) ↔ Direct g path row := by
  have hhistory : ∀ label ∈ diffLabels, label ≠ .method → label ∈ historyLabels := by decide
  rw [mem_flatMap]
  constructor
  · rintro ⟨label, hlabel, hrow⟩
    by_cases hmethod : label = .method
    · rw [hmethod, definedRows_method] at hrow
      exact absurd hrow not_mem_nil
    · exact ((mem_definedRows (hhistory label hlabel hmethod)).mp hrow).2
  · intro hdirect
    have hdiff : ∀ label ∈ historyLabels, label ∈ diffLabels := by decide
    exact ⟨row.label, hdiff _ hdirect.2.1, (mem_definedRows hdirect.2.1).mpr ⟨rfl, hdirect⟩⟩

theorem of_mem_methodRows (h : label ∈ containers) (hrow : row ∈ orNone (g.methodRows label path)) :
    row ∈ g.symbols ∧ row.label = .method ∧ ∃ owner, Direct g path owner ∧
      (owner.id, row.id) ∈ g.edges ("HasMethod_" ++ String.ofList label.text ++ "_Method") := by
  have hlabel : ∀ label ∈ containers, label ∈ historyLabels := by decide
  rw [IndexedGraph.methodRows] at hrow
  have howners : ∀ {row}, row ∈ orNone (g.definedRows label path) ↔
      row.label = label ∧ Direct g path row := mem_definedRows (hlabel label h)
  cases htable : g.table ("HasMethod_" ++ String.ofList label.text ++ "_Method") with
  | error e =>
      rw [htable] at hrow
      exact absurd hrow not_mem_nil
  | ok edges =>
      have hedges : edges = g.edges ("HasMethod_" ++ String.ofList label.text ++ "_Method") := by
        rw [IndexedGraph.table] at htable
        split at htable
        · exact (Except.ok.inj htable).symm
        · exact absurd htable (by simp)
      cases howned : g.definedRows label path with
      | error e =>
          rw [htable, howned] at hrow
          exact absurd hrow not_mem_nil
      | ok owners =>
          rw [htable, howned] at hrow
          obtain ⟨owner, howner, hrow⟩ := mem_flatMap.mp hrow
          obtain ⟨⟨src, id⟩, hedge, hrow⟩ := mem_flatMap.mp hrow
          dsimp only at hrow
          split at hrow
          · next hsrc =>
            obtain ⟨hsymbol, hmethod, rfl⟩ := mem_rows.mp hrow
            have howner : owner ∈ orNone (g.definedRows label path) := by rwa [howned]
            exact ⟨hsymbol, hmethod, owner, (howners.mp howner).2, hsrc ▸ hedges ▸ hedge⟩
          · exact absurd hrow not_mem_nil

/-! ## Attribution -/

/-- The symbols of a file: its ids begin with the path. -/
def Belongs (g : IndexedGraph) (file : Text) (row : SymbolRow) : Prop :=
  file ∈ g.files ∧ row ∈ g.symbols ∧ row.label ∈ diffLabels ∧ inFile file [] <+: row.id

def Expected (g : IndexedGraph) (root : Text) (hunk : FileHunk) (row : SymbolRow) : Prop :=
  Touched hunk row ∧ ∃ file, stripRoot hunk.filePath root = some file ∧ Belongs g file row

variable {file : Text}

theorem Direct.belongs (h : Direct g file row) : Belongs g file row := by
  obtain ⟨hsymbol, hlabel, hedge⟩ := h
  have hdiff : ∀ label ∈ historyLabels, label ∈ diffLabels := by decide
  obtain ⟨hfile, hid⟩ := g.defines _ _ _ hedge
  exact ⟨hfile, hsymbol, hdiff _ hlabel, hid⟩

/-- The ids of two files differ. -/
theorem Belongs.file_eq {file' : Text} (h : Belongs g file row)
    (h' : Belongs g file' row) : file = file' := by
  obtain ⟨name, hname⟩ := h'.2.2.2
  have hid : inFile file [] <+: inFile file' name := by
    have hsame : inFile file' name = row.id := by
      rw [← hname, inFile, inFile, append_nil]
    exact hsame ▸ h.2.2.2
  exact (inFile_prefix_iff (g.plain file h.1) (g.plain file' h'.1)).mp hid

theorem Expected.mem (h : Expected g root hunk row) : row ∈ g.symbols :=
  h.2.choose_spec.2.2.1

theorem row_eq {row' : SymbolRow} (h : row ∈ g.symbols) (h' : row' ∈ g.symbols)
    (hlabel : row.label = row'.label) (hqn : row.qualifiedName = row'.qualifiedName) : row = row' :=
  g.unique row h row' h' hlabel (by rw [← g.named row h, ← g.named row' h', hqn])

/-! ## What the two attributions report -/

theorem mem_mapLinesToSymbols {s : ChangedSymbol} :
    s ∈ mapLinesToSymbols g getImpact hunk ↔
      ∃ row ∈ kept hunk [] (diffLabels.flatMap fun label =>
          orNone (g.definedRows label hunk.filePath)),
        changedSymbol getImpact hunk row = s := by
  rw [mapLinesToSymbols, foldl_mapRow, nil_append, mem_map]

theorem mem_symbols_of_kept {seen : List Text}
    (h : row ∈ kept hunk seen (diffLabels.flatMap fun label => orNone (g.definedRows label path))) :
    row ∈ g.symbols :=
  (mem_diffRows.mp (of_mem_kept h).1).1

theorem of_mem_mapLinesToSymbols {s : ChangedSymbol}
    (h : s ∈ mapLinesToSymbols g getImpact hunk) : ∃ row, Touched hunk row ∧
      Direct g hunk.filePath row ∧ changedSymbol getImpact hunk row = s := by
  obtain ⟨row, hrow, heq⟩ := mem_mapLinesToSymbols.mp h
  obtain ⟨hmem, htouched, -⟩ := of_mem_kept hrow
  exact ⟨row, htouched, mem_diffRows.mp hmem, heq⟩

theorem exists_mapLinesToSymbols (getImpact : Text → Except Text ImpactResult) (htouched : Touched hunk row)
    (hdirect : Direct g hunk.filePath row) : ∃ first, Touched hunk first ∧
      Direct g hunk.filePath first ∧ first.id = row.id ∧
        changedSymbol getImpact hunk first ∈ mapLinesToSymbols g getImpact hunk := by
  obtain ⟨first, hfirst, hid⟩ := exists_kept htouched (mem_diffRows.mpr hdirect) not_mem_nil
  obtain ⟨hmem, hfirstTouched, -⟩ := of_mem_kept hfirst
  exact ⟨first, hfirstTouched, mem_diffRows.mp hmem, hid,
    mem_mapLinesToSymbols.mpr ⟨first, hfirst, rfl⟩⟩

theorem mem_fileSymbolRanges (h : row ∈ fileSymbolRanges g file) : Belongs g file row := by
  rcases mem_append.mp h with h | h
  · obtain ⟨label, hlabel, hrow⟩ := mem_flatMap.mp h
    exact ((mem_definedRows hlabel).mp hrow).2.belongs
  · obtain ⟨label, hlabel, hrow⟩ := mem_flatMap.mp h
    obtain ⟨hsymbol, hmethod, owner, howner, hedge⟩ := of_mem_methodRows hlabel hrow
    obtain ⟨hfile, -, -, hid⟩ := howner.belongs
    exact ⟨hfile, hsymbol, hmethod ▸ by decide, g.hasMethod _ _ _ hedge file hid⟩

theorem Direct.mem_ranges (h : Direct g file row) : row ∈ fileSymbolRanges g file :=
  mem_append_left _ (mem_flatMap.mpr ⟨row.label, h.2.1, (mem_definedRows h.2.1).mpr ⟨rfl, h⟩⟩)

theorem mem_changedEntities {e : ChangedEntity} (hlabel : e.label = some label) :
    e ∈ changedEntities g root hunk ↔ ∃ file, stripRoot hunk.filePath root = some file ∧
      file ∈ g.files ∧ ∃ row ∈ kept hunk [] (fileSymbolRanges g file), symbolEntity hunk row = e := by
  rw [changedEntities]
  cases hroot : stripRoot hunk.filePath root with
  | none => simp
  | some file =>
      dsimp only
      by_cases hfile : file ∈ g.files
      · rw [if_pos hfile, mem_cons, overlapping, foldl_overlappingRow, nil_append,
          mem_map]
        constructor
        · rintro (rfl | h)
          · exact absurd hlabel (by simp)
          · exact ⟨file, rfl, hfile, h⟩
        · rintro ⟨file', hsome, -, h⟩
          cases hsome
          exact .inr h
      · rw [if_neg hfile]
        constructor
        · exact fun h => absurd h not_mem_nil
        · rintro ⟨file', hsome, hin, -⟩
          cases hsome
          exact absurd hin hfile

end DiffSymbols

end CodeGraph
