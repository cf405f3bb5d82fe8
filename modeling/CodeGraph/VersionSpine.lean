import CodeGraph.DiffAttribution
import CodeGraph.Lib.Chains
import CodeGraph.Lib.Percent

/-!
# The version spine

`collect_versions` of `history/mod.rs`: a version for every entity that a commit changed, tied to
the last version of the same id. The ties are one chain for each entity exactly when no commit
changes an id in two sections of its diff and no id is changed under two labels (`spine_iff`).
-/

namespace CodeGraph

open List Chains

namespace VersionSpine

open Schema (NodeLabel relTables)
open GitDiff (FileHunk parseUnifiedDiff)
open DiffSymbols

/-! ## The symbols of a file -/

/-- A graph of any origin. Ids are unique in the table of a label; two labels can share one. -/
structure SymbolGraph where
  files : List Text
  symbols : List SymbolRow
  edges : String → List (Text × Text)
  unique : ∀ row ∈ symbols, ∀ row' ∈ symbols, row.label = row'.label → row.id = row'.id → row = row'

namespace SymbolGraph

variable (g : SymbolGraph)

def rows (label : NodeLabel) (id : Text) : List SymbolRow :=
  g.symbols.filter fun row => row.label = label ∧ row.id = id

/-- A query over a table that the schema does not have fails, and is passed over. -/
def table (name : String) : List (Text × Text) :=
  if relTables.any fun table => table.name = name then g.edges name else []

def definedRows (label : NodeLabel) (path : Text) : List SymbolRow :=
  (g.table ("Defines_File_" ++ String.ofList label.text)).flatMap fun (file, id) =>
    if file = path then g.rows label id else []

def methodRows (label : NodeLabel) (path : Text) : List SymbolRow :=
  (g.definedRows label path).flatMap fun owner =>
    (g.table ("HasMethod_" ++ String.ofList label.text ++ "_Method")).flatMap fun (src, id) =>
      if src = owner.id then g.rows .method id else []

def fileSymbolRanges (path : Text) : List SymbolRow :=
  historyLabels.flatMap (g.definedRows · path) ++ containers.flatMap (g.methodRows · path)

/-- The entity is in the graph; `none` is the label of a file. -/
def Has (id : Text) : Option NodeLabel → Prop
  | none => id ∈ g.files
  | some label => ∃ row ∈ g.symbols, row.label = label ∧ row.id = id

end SymbolGraph

/-! ## The code -/

structure CommitMeta where
  sha : Text
  committedAt : Int
  parents : List Text

structure VersionRow where
  id : Text
  entity : ChangedEntity
  commitSha : Text
  committedAt : Int

abbrev VersionRow.entityId (row : VersionRow) : Text := row.entity.entityId

structure Collected where
  versions : List VersionRow
  changedIn : List (Text × Text)
  versionOf : Option NodeLabel → List (Text × Text)
  prevVersion : List (Text × Text)

/-- The output of `git show`, the quoting of a text in an error, and the path of the indexed root. -/
structure Repository where
  gitShow : Text → Except Text Text
  debug : Text → Text
  root : Text

variable (g : SymbolGraph) (repo : Repository)

def validateSha (sha : Text) : Except Text Unit :=
  let length := (Percent.utf8 sha).length
  if length < 4 ∨ length > 64 then
    .error ("invalid_sha: implausible length (".toList ++ Nat.toDigits 10 length ++ ")".toList)
  else if ¬sha.all fun c => (hexDigitValue c).isSome then
    .error ("invalid_sha: non-hex characters in ".toList ++ repo.debug sha)
  else .ok ()

def gitShowDiff (sha : Text) : Except Text Text := do
  validateSha repo sha
  repo.gitShow sha

/-- The entities of one section of a diff: the file, and its symbols. -/
def sectionEntities (hunk : FileHunk) : List ChangedEntity :=
  match stripRoot hunk.filePath repo.root with
  | none => []
  | some fileId =>
      if fileId ∈ g.files then
        ⟨fileId, fileId, none, changeType hunk, hunk.changedLines.length⟩ ::
          overlapping hunk (g.fileSymbolRanges fileId)
      else []

def readDiff (commit : CommitMeta) : Except Text (List FileHunk) := do
  let diff ← gitShowDiff repo commit.sha
  parseUnifiedDiff diff

def changedEntities (commit : CommitMeta) : Except Text (List ChangedEntity) := do
  let hunks ← readDiff repo commit
  return hunks.flatMap (sectionEntities g repo)

def versionRow (commit : CommitMeta) (e : ChangedEntity) : VersionRow where
  id := e.entityId ++ '@' :: commit.sha
  entity := e
  commitSha := commit.sha
  committedAt := commit.committedAt

/-- One version is recorded; `last` has the last version of each id. -/
def record (s : Collected × (Text → Option Text)) (row : VersionRow) :
    Collected × (Text → Option Text) :=
  let (c, last) := s
  let id := row.entity.entityId
  ({ versions := c.versions ++ [row]
     changedIn := c.changedIn ++ [(row.id, row.commitSha)]
     versionOf := Function.update c.versionOf row.entity.label
       (c.versionOf row.entity.label ++ [(row.id, id)])
     prevVersion := c.prevVersion ++ ((last id).map (row.id, ·)).toList },
   Function.update last id (some row.id))

/-- The diff of a merge is not read. -/
def collectCommit (s : Collected × (Text → Option Text)) (commit : CommitMeta) :
    Except Text (Collected × (Text → Option Text)) :=
  if commit.parents.length > 1 then .ok s
  else do
    let entities ← changedEntities g repo commit
    return entities.foldl (fun s e => record s (versionRow commit e)) s

/-- Oldest first; `git log` lists the newest first. -/
def collectVersions (commits : List CommitMeta) : Except Text Collected := do
  let s ← commits.reverse.foldlM (collectCommit g repo) (⟨[], [], fun _ => [], []⟩, fun _ => none)
  return s.1

/-! ## What a commit changes -/

/-- A section of a diff changes a file of the graph, and those of its symbols that have a changed
line; all of them where the file came or went. -/
inductive Touches (hunk : FileHunk) : Option NodeLabel → Text → Prop
  | file {fileId : Text} (hroot : stripRoot hunk.filePath repo.root = some fileId)
      (hknown : fileId ∈ g.files) : Touches hunk none fileId
  | symbol {fileId : Text} {row : SymbolRow}
      (hroot : stripRoot hunk.filePath repo.root = some fileId) (hknown : fileId ∈ g.files)
      (hrow : row ∈ g.fileSymbolRanges fileId) (htouched : Touched hunk row) :
      Touches hunk (some row.label) row.id

def sections (commits : List CommitMeta) : List (CommitMeta × FileHunk) :=
  (commits.filter fun commit => commit.parents.length ≤ 1).flatMap fun commit =>
    match readDiff repo commit with
    | .ok hunks => hunks.map (commit, ·)
    | .error _ => []

def Changes (commits : List CommitMeta) (label : Option NodeLabel) (id sha : Text) : Prop :=
  ∃ s ∈ sections repo commits.reverse, s.1.sha = sha ∧ Touches g repo s.2 label id

/-- The ids of the versions of an entity, the oldest first. -/
def spineOf (c : Collected) (label : Option NodeLabel) (id : Text) : List Text :=
  (c.versions.filter fun row => row.entity.label = label ∧ row.entity.entityId = id).map VersionRow.id

structure Spine (commits : List CommitMeta) (c : Collected) : Prop where
  distinct : (c.versions.map VersionRow.id).Nodup
  changed : ∀ row ∈ c.versions, Changes g repo commits row.entity.label row.entity.entityId row.commitSha
  once : ∀ label id sha, Changes g repo commits label id sha →
    ∃! row, row ∈ c.versions ∧ row.entity.label = label ∧ row.entity.entityId = id ∧
      row.commitSha = sha
  changedIn : c.changedIn = c.versions.map fun row => (row.id, row.commitSha)
  versionOf : ∀ label, c.versionOf label =
    (c.versions.filter fun row => row.entity.label = label).map fun row => (row.id, row.entity.entityId)
  stands : ∀ row ∈ c.versions, g.Has row.entity.entityId row.entity.label
  oldestFirst : ∃ count : CommitMeta → ℕ, c.versions.map VersionRow.commitSha =
    commits.reverse.flatMap fun commit => replicate (count commit) commit.sha
  chain : ∀ label id,
    c.prevVersion.filter (fun e => e.1 ∈ spineOf c label id ∨ e.2 ∈ spineOf c label id) =
      neighbours (spineOf c label id)

/-- No commit changes an id in two sections, and no id is changed under two labels. -/
structure Single (commits : List CommitMeta) : Prop where
  unrepeated : (sections repo commits.reverse).Pairwise fun s t => s.1.sha = t.1.sha →
    ∀ label label' id, Touches g repo s.2 label id → ¬Touches g repo t.2 label' id
  oneLabel : ∀ s ∈ sections repo commits.reverse, ∀ t ∈ sections repo commits.reverse,
    ∀ label label' id, Touches g repo s.2 label id → Touches g repo t.2 label' id →
      label = label'

/-! ## One section -/

section Sections

variable {g repo} {hunk : FileHunk} {label : Option NodeLabel} {id : Text}

theorem has_of_touches (h : Touches g repo hunk label id) : g.Has id label := by
  have hrows : ∀ {label id row}, row ∈ g.rows label id →
      row ∈ g.symbols ∧ row.label = label ∧ row.id = id := fun h => by
    simpa [SymbolGraph.rows] using h
  cases h with
  | file _ hknown => exact hknown
  | @symbol _ row _ _ hrow _ =>
      refine ⟨row, ?_, rfl, rfl⟩
      have hdefined : ∀ {label path}, row ∈ g.definedRows label path → row ∈ g.symbols := by
        intro label path h
        obtain ⟨⟨file, id⟩, -, h⟩ := mem_flatMap.mp h
        dsimp only at h
        split at h
        · exact (hrows h).1
        · cases h
      rcases mem_append.mp hrow with h | h
      · obtain ⟨label, -, h⟩ := mem_flatMap.mp h
        exact hdefined h
      · obtain ⟨label, -, h⟩ := mem_flatMap.mp h
        obtain ⟨owner, -, h⟩ := mem_flatMap.mp h
        obtain ⟨⟨src, id⟩, -, h⟩ := mem_flatMap.mp h
        dsimp only at h
        split at h
        · exact (hrows h).1
        · cases h

theorem overlapping_eq (hunk : FileHunk) (ranges : List SymbolRow) :
    overlapping hunk ranges = (kept hunk [] ranges).map (symbolEntity hunk) := by
  rw [overlapping, foldl_overlappingRow, nil_append]

theorem touches_of_mem {e : ChangedEntity} (he : e ∈ sectionEntities g repo hunk) :
    Touches g repo hunk e.label e.entityId := by
  rw [sectionEntities] at he
  split at he
  · cases he
  · next fileId hroot =>
    split at he
    · next hknown =>
      rw [overlapping_eq] at he
      rcases mem_cons.mp he with rfl | he
      · exact .file hroot hknown
      · obtain ⟨row, hrow, rfl⟩ := mem_map.mp he
        exact .symbol hroot hknown (of_mem_kept hrow).1 (of_mem_kept hrow).2.1
    · cases he

theorem exists_of_touches (h : Touches g repo hunk label id) :
    ∃ e ∈ sectionEntities g repo hunk, e.entityId = id := by
  cases h with
  | file hroot hknown =>
      rw [sectionEntities, hroot]
      dsimp only
      rw [if_pos hknown]
      exact ⟨_, mem_cons_self, rfl⟩
  | symbol hroot hknown hrow htouched =>
      obtain ⟨first, hfirst, hid⟩ := exists_kept htouched hrow not_mem_nil
      rw [sectionEntities, hroot]
      dsimp only
      rw [if_pos hknown, overlapping_eq]
      exact ⟨_, mem_cons_of_mem _ (mem_map_of_mem hfirst), hid⟩

/-- The symbols are told apart by their ids, and the file is none of them. -/
theorem nodup_sectionEntities (h : ∀ label label' id, Touches g repo hunk label id →
    Touches g repo hunk label' id → label = label') :
    ((sectionEntities g repo hunk).map ChangedEntity.entityId).Nodup := by
  have hmem := @touches_of_mem g repo hunk
  rw [sectionEntities] at hmem ⊢
  split
  · exact nodup_nil
  · next fileId hroot =>
    split
    · next hknown =>
      rw [hroot] at hmem
      dsimp only at hmem
      rw [if_pos hknown, overlapping_eq] at hmem
      rw [overlapping_eq, map_cons, map_map, nodup_cons]
      refine ⟨fun hin => ?_, nodup_kept _ []⟩
      obtain ⟨row, hrow, hid⟩ := mem_map.mp hin
      have hsymbol := hmem (mem_cons_of_mem _ (mem_map_of_mem hrow))
      have hsame : none = some row.label := h _ _ _ (hmem mem_cons_self) (hid ▸ hsymbol)
      cases hsame
    · exact nodup_nil

end Sections

/-! ## The run -/

variable {g repo} {commits : List CommitMeta}

def sectionRows (g : SymbolGraph) (repo : Repository) (s : CommitMeta × FileHunk) : List VersionRow :=
  (sectionEntities g repo s.2).map (versionRow s.1)

def recorded (rows : List VersionRow) : Collected where
  versions := rows
  changedIn := rows.map fun row => (row.id, row.commitSha)
  versionOf label := (rows.filter fun row => row.entity.label = label).map fun row =>
    (row.id, row.entity.entityId)
  prevVersion := (ties VersionRow.entityId (fun _ => none) rows).map
    (Prod.map VersionRow.id VersionRow.id)

theorem foldl_record : ∀ (rows : List VersionRow) (c : Collected) (last : Text → Option VersionRow),
    (rows.foldl record (c, fun id => (last id).map VersionRow.id)).1 =
      { versions := c.versions ++ rows
        changedIn := c.changedIn ++ (recorded rows).changedIn
        versionOf := fun label => c.versionOf label ++ (recorded rows).versionOf label
        prevVersion := c.prevVersion ++ (ties VersionRow.entityId last rows).map
          (Prod.map VersionRow.id VersionRow.id) }
  | [], c, last => by simp [recorded, ties]
  | row :: rows, c, last => by
      have hlast : Function.update (fun id => (last id).map VersionRow.id) row.entity.entityId
          (some row.id) =
            fun id => (Function.update last row.entity.entityId (some row) id).map VersionRow.id := by
        funext id
        rcases eq_or_ne id row.entity.entityId with rfl | hne
        · rw [Function.update_self, Function.update_self, Option.map_some]
        · rw [Function.update_of_ne hne, Function.update_of_ne hne]
      rw [foldl_cons, record, hlast, foldl_record rows]
      refine Collected.mk.injEq .. |>.mpr ⟨append_assoc .., append_assoc .., funext fun label => ?_, ?_⟩
      · rcases eq_or_ne label row.entity.label with rfl | hne
        · simp [recorded, filter_cons]
        · simp [recorded, filter_cons, Function.update_of_ne hne, hne.symm]
      · rw [ties, map_append, append_assoc]
        cases last row.entity.entityId <;> rfl

theorem foldlM_collectCommit : ∀ (commits : List CommitMeta) (s : Collected × (Text → Option Text)),
    (∀ commit ∈ commits, commit.parents.length ≤ 1 → ∃ hunks, readDiff repo commit = .ok hunks) →
    commits.foldlM (collectCommit g repo) s =
      .ok (((sections repo commits).flatMap (sectionRows g repo)).foldl record s)
  | [], _, _ => rfl
  | commit :: commits, s, h => by
      have hrest := fun s => foldlM_collectCommit commits s (forall_mem_cons.mp h).2
      rw [foldlM_cons, collectCommit, sections]
      by_cases hmerge : commit.parents.length > 1
      · rw [if_pos hmerge, filter_cons_of_neg (by simpa using hmerge)]
        exact hrest s
      · obtain ⟨hunks, hread⟩ := (forall_mem_cons.mp h).1 (not_lt.mp hmerge)
        rw [if_neg hmerge, filter_cons_of_pos (by simpa using hmerge), flatMap_cons, hread,
          changedEntities, hread, flatMap_append, foldl_append]
        refine (hrest _).trans ?_
        congr 2
        simp [sectionRows, flatMap_map, foldl_flatMap, foldl_map]

theorem exists_of_collectCommit : ∀ {commits : List CommitMeta} {s t : Collected × (Text → Option Text)},
    commits.foldlM (collectCommit g repo) s = .ok t →
    ∀ commit ∈ commits, commit.parents.length ≤ 1 → ∃ hunks, readDiff repo commit = .ok hunks
  | [], _, _, _ => nofun
  | commit :: commits, s, t, h => by
      rw [foldlM_cons] at h
      cases hstep : collectCommit g repo s commit with
      | error e =>
          rw [hstep] at h
          cases h
      | ok s' =>
          rw [hstep] at h
          refine forall_mem_cons.mpr ⟨fun hone => ?_, exists_of_collectCommit h⟩
          rw [collectCommit, if_neg (not_lt.mpr hone), changedEntities] at hstep
          cases hread : readDiff repo commit with
          | error e =>
              rw [hread] at hstep
              cases hstep
          | ok hunks => exact ⟨hunks, rfl⟩

def versionsOf (g : SymbolGraph) (repo : Repository) (commits : List CommitMeta) : List VersionRow :=
  (sections repo commits.reverse).flatMap (sectionRows g repo)

theorem collectVersions_eq {c : Collected} (h : collectVersions g repo commits = .ok c) :
    c = recorded (versionsOf g repo commits) := by
  rw [collectVersions] at h
  cases hrun : commits.reverse.foldlM (collectCommit g repo)
      (⟨[], [], fun _ => [], []⟩, fun _ => none) with
  | error e =>
      rw [hrun] at h
      cases h
  | ok t =>
      rw [hrun] at h
      cases h
      rw [foldlM_collectCommit _ _ (exists_of_collectCommit hrun)] at hrun
      cases hrun
      exact foldl_record _ ⟨[], [], fun _ => [], []⟩ fun _ => none

theorem collectVersions_isOk : (∃ c, collectVersions g repo commits = .ok c) ↔
    ∀ commit ∈ commits, commit.parents.length ≤ 1 → ∃ hunks, readDiff repo commit = .ok hunks := by
  constructor
  · rintro ⟨c, h⟩ commit hmem
    rw [collectVersions] at h
    cases hrun : commits.reverse.foldlM (collectCommit g repo)
        (⟨[], [], fun _ => [], []⟩, fun _ => none) with
    | error e =>
        rw [hrun] at h
        cases h
    | ok t => exact exists_of_collectCommit hrun commit (mem_reverse.mpr hmem)
  · intro h
    rw [collectVersions, foldlM_collectCommit _ _ fun commit hmem => h commit (mem_reverse.mp hmem)]
    exact ⟨_, rfl⟩

/-! ## The rows of a run -/

section Rows

variable {s : CommitMeta × FileHunk} {row row' : VersionRow} {label : Option NodeLabel} {id : Text}

theorem notMem_sha {s : CommitMeta × FileHunk} (h : s ∈ sections repo commits) : '@' ∉ s.1.sha := by
  obtain ⟨commit, -, hs⟩ := mem_flatMap.mp h
  split at hs
  · next hunks hread =>
    obtain ⟨hunk, -, rfl⟩ := mem_map.mp hs
    rw [readDiff, gitShowDiff, validateSha] at hread
    split at hread
    · cases hread
    · split at hread
      · cases hread
      · next hhex =>
        intro hat
        have hdigit := all_eq_true.mp (not_not.mp hhex) '@' hat
        exact absurd hdigit (by decide)
  · cases hs

theorem mem_versionsOf : row ∈ versionsOf g repo commits ↔
    ∃ s ∈ sections repo commits.reverse, row ∈ sectionRows g repo s := mem_flatMap

theorem of_mem_sectionRows (h : row ∈ sectionRows g repo s) :
    row.id = row.entity.entityId ++ '@' :: s.1.sha ∧ row.commitSha = s.1.sha ∧
      Touches g repo s.2 row.entity.label row.entity.entityId := by
  obtain ⟨e, he, rfl⟩ := mem_map.mp h
  exact ⟨rfl, rfl, touches_of_mem he⟩

theorem exists_sectionRow (h : Touches g repo s.2 label id) :
    ∃ row ∈ sectionRows g repo s, row.entity.entityId = id := by
  obtain ⟨e, he, hid⟩ := exists_of_touches h
  exact ⟨_, mem_map_of_mem he, hid⟩

theorem versionId_inj {id id' sha sha' : Text} (h : '@' ∉ sha) (h' : '@' ∉ sha') :
    id ++ '@' :: sha = id' ++ '@' :: sha' ↔ id = id' ∧ sha = sha' := by
  refine ⟨fun heq => ?_, fun ⟨hid, hsha⟩ => hid ▸ hsha ▸ rfl⟩
  have hpieces := congrArg (fun text => (splitOnChar '@' text).getLast?) heq
  simp only [splitOnChar_append, splitOnChar_of_notMem h, splitOnChar_of_notMem h',
    getLast?_concat, Option.some.injEq] at hpieces
  subst hpieces
  exact ⟨append_cancel_right heq, rfl⟩

theorem id_eq_iff (h : row ∈ versionsOf g repo commits) (h' : row' ∈ versionsOf g repo commits) :
    row.id = row'.id ↔
      row.entity.entityId = row'.entity.entityId ∧ row.commitSha = row'.commitSha := by
  obtain ⟨s, hs, hrow⟩ := mem_versionsOf.mp h
  obtain ⟨t, ht, hrow'⟩ := mem_versionsOf.mp h'
  rw [(of_mem_sectionRows hrow).1, (of_mem_sectionRows hrow').1, (of_mem_sectionRows hrow).2.1,
    (of_mem_sectionRows hrow').2.1]
  exact versionId_inj (notMem_sha hs) (notMem_sha ht)

theorem nodup_versionsOf (h : Single g repo commits) :
    ((versionsOf g repo commits).map VersionRow.id).Nodup := by
  rw [versionsOf, map_flatMap, nodup_flatMap]
  constructor
  · intro s hs
    have hnodup := nodup_sectionEntities (h.oneLabel s hs s hs)
    have hids : (sectionRows g repo s).map VersionRow.id =
        ((sectionEntities g repo s.2).map ChangedEntity.entityId).map (· ++ '@' :: s.1.sha) := by
      rw [sectionRows, map_map, map_map]
      rfl
    exact hids ▸ hnodup.map (append_left_injective _)
  · refine h.unrepeated.imp_of_mem fun {s t} hs ht hst => ?_
    intro x hx hx'
    obtain ⟨row, hrow, rfl⟩ := mem_map.mp hx
    obtain ⟨row', hrow', hid⟩ := mem_map.mp hx'
    obtain ⟨hrowId, -, htouch⟩ := of_mem_sectionRows hrow
    obtain ⟨hrowId', -, htouch'⟩ := of_mem_sectionRows hrow'
    rw [hrowId, hrowId', versionId_inj (notMem_sha ht) (notMem_sha hs)] at hid
    exact hst hid.2.symm _ _ _ htouch (hid.1 ▸ htouch')

end Rows

/-! ## One chain for each entity -/

theorem map_commitSha : ∀ commits : List CommitMeta,
    ((sections repo commits).flatMap (sectionRows g repo)).map VersionRow.commitSha =
      commits.flatMap fun commit =>
        replicate ((sections repo [commit]).flatMap (sectionRows g repo)).length commit.sha
  | [] => rfl
  | commit :: commits => by
      have hsections : sections repo (commit :: commits) =
          sections repo [commit] ++ sections repo commits := by
        rw [sections, sections, sections, ← flatMap_append, ← filter_append]
        rfl
      rw [hsections, flatMap_append, map_append, map_commitSha commits, flatMap_cons]
      congr 1
      refine eq_replicate_iff.mpr ⟨length_map _, fun sha hsha => ?_⟩
      obtain ⟨row, hrow, rfl⟩ := mem_map.mp hsha
      obtain ⟨s, hs, hrow⟩ := mem_flatMap.mp hrow
      obtain ⟨c, hc, hs⟩ := mem_flatMap.mp hs
      have hcommit : s.1 = c := by
        split at hs
        · obtain ⟨hunk, -, rfl⟩ := mem_map.mp hs
          rfl
        · cases hs
      rw [(of_mem_sectionRows hrow).2.1, hcommit, mem_singleton.mp (mem_filter.mp hc).1]

/-- Versions of one id are of one label. -/
theorem label_eq_of_single (h : Single g repo commits) {row row' : VersionRow}
    (hrow : row ∈ versionsOf g repo commits) (hrow' : row' ∈ versionsOf g repo commits)
    (hid : row.entity.entityId = row'.entity.entityId) : row.entity.label = row'.entity.label := by
  obtain ⟨s, hs, hrow⟩ := mem_versionsOf.mp hrow
  obtain ⟨t, ht, hrow'⟩ := mem_versionsOf.mp hrow'
  exact h.oneLabel s hs t ht _ _ _ (of_mem_sectionRows hrow).2.2
    (hid ▸ (of_mem_sectionRows hrow').2.2)

theorem mem_spineOf_iff (hnodup : ((versionsOf g repo commits).map VersionRow.id).Nodup)
    {row : VersionRow} (hrow : row ∈ versionsOf g repo commits) {label : Option NodeLabel} {id : Text} :
    row.id ∈ spineOf (recorded (versionsOf g repo commits)) label id ↔
      row.entity.label = label ∧ row.entity.entityId = id := by
  rw [spineOf, mem_map]
  constructor
  · rintro ⟨row', hrow', hid⟩
    obtain ⟨hmem, hentity⟩ := mem_filter.mp hrow'
    rw [← inj_on_of_nodup_map hnodup hmem hrow hid]
    exact of_decide_eq_true hentity
  · exact fun hentity => ⟨row, mem_filter.mpr ⟨hrow, decide_eq_true hentity⟩, rfl⟩

/-- The ties of an id are those of the one entity that has it. -/
theorem chain_of_single (h : Single g repo commits) (label : Option NodeLabel) (id : Text) :
    let c := recorded (versionsOf g repo commits)
    c.prevVersion.filter (fun e => e.1 ∈ spineOf c label id ∨ e.2 ∈ spineOf c label id) =
      neighbours (spineOf c label id) := by
  intro c
  have hnodup := nodup_versionsOf h
  have hends : ∀ e ∈ ties VersionRow.entityId (fun _ => none)
      (versionsOf g repo commits), ((e.1.id ∈ spineOf c label id ∨ e.2.id ∈ spineOf c label id) ↔
        e.1.entity.label = label ∧ e.1.entity.entityId = id) := by
    intro e he
    obtain ⟨h1, h2⟩ := mem_of_mem_ties he
    have hkey : e.1.entity.entityId = e.2.entity.entityId :=
      key_eq_of_mem_ties (fun _ _ hnone => by cases hnone) e he
    rw [mem_spineOf_iff hnodup h1, mem_spineOf_iff hnodup h2, ← hkey,
      ← label_eq_of_single h h1 h2 hkey, or_self]
  have hfilter : c.prevVersion.filter
      (fun e => e.1 ∈ spineOf c label id ∨ e.2 ∈ spineOf c label id) =
        ((ties VersionRow.entityId (fun _ => none) (versionsOf g repo commits)).filter
          fun e => e.1.entity.label = label ∧ e.1.entityId = id).map
            (Prod.map VersionRow.id VersionRow.id) :=
    filter_map.trans (congrArg _ (filter_congr fun e he => decide_eq_decide.mpr (hends e he)))
  rw [hfilter]
  by_cases hnone : ∃ row ∈ versionsOf g repo commits, row.entity.label = label ∧ row.entity.entityId = id
  · obtain ⟨first, hfirst, rfl, rfl⟩ := hnone
    have hlabel : ∀ row ∈ versionsOf g repo commits, row.entity.entityId = first.entity.entityId →
        row.entity.label = first.entity.label := fun row hrow =>
      label_eq_of_single h hrow hfirst
    have hsame : ∀ row ∈ versionsOf g repo commits,
        decide (row.entity.label = first.entity.label ∧ row.entityId = first.entityId) =
          decide (row.entityId = first.entityId) := fun row hrow =>
      decide_eq_decide.mpr (and_iff_right_of_imp (hlabel row hrow))
    rw [filter_congr fun e he => hsame e.1 (mem_of_mem_ties he).1, filter_ties_none, map_neighbours,
      spineOf]
    exact congrArg _ (congrArg _ (filter_congr hsame).symm)
  · have hspine : spineOf c label id = [] := by
      rw [spineOf, map_eq_nil_iff, filter_eq_nil_iff]
      exact fun row hrow hentity => hnone ⟨row, hrow, of_decide_eq_true hentity⟩
    rw [hspine, filter_eq_nil_iff.mpr fun e he hentity =>
      hnone ⟨e.1, (mem_of_mem_ties he).1, of_decide_eq_true hentity⟩]
    rfl

theorem spine_of_single (h : Single g repo commits) :
    Spine g repo commits (recorded (versionsOf g repo commits)) where
  distinct := nodup_versionsOf h
  changed row hrow := by
    obtain ⟨s, hs, hrow⟩ := mem_versionsOf.mp hrow
    obtain ⟨-, hsha, htouch⟩ := of_mem_sectionRows hrow
    exact ⟨s, hs, hsha.symm, htouch⟩
  once label id sha := by
    rintro ⟨s, hs, rfl, htouch⟩
    obtain ⟨row, hrow, rfl⟩ := exists_sectionRow htouch
    obtain ⟨-, hsha, htouch'⟩ := of_mem_sectionRows hrow
    have hmem := mem_versionsOf.mpr ⟨s, hs, hrow⟩
    refine ⟨row, ⟨hmem, h.oneLabel s hs s hs _ _ _ htouch' htouch, rfl, hsha⟩, ?_⟩
    rintro row' ⟨hrow', -, hid', hsha'⟩
    exact inj_on_of_nodup_map (nodup_versionsOf h) hrow' hmem
      ((id_eq_iff hrow' hmem).mpr ⟨hid', hsha'.trans hsha.symm⟩)
  changedIn := rfl
  versionOf _ := rfl
  stands row hrow := by
    obtain ⟨s, -, hrow⟩ := mem_versionsOf.mp hrow
    exact has_of_touches (of_mem_sectionRows hrow).2.2
  oldestFirst := ⟨_, map_commitSha commits.reverse⟩
  chain := chain_of_single h

theorem single_of_spine (h : Spine g repo commits (recorded (versionsOf g repo commits))) :
    Single g repo commits where
  unrepeated := by
    have hdisjoint := (nodup_flatMap.mp ((map_flatMap ..).symm ▸ h.distinct)).2
    refine hdisjoint.imp fun {s t} hst hsha label label' id htouch htouch' => ?_
    obtain ⟨row, hrow, hid⟩ := exists_sectionRow htouch
    obtain ⟨row', hrow', hid'⟩ := exists_sectionRow htouch'
    refine hst (mem_map_of_mem hrow) (mem_map.mpr ⟨row', hrow', ?_⟩)
    rw [(of_mem_sectionRows hrow).1, (of_mem_sectionRows hrow').1, hid, hid', hsha]
  oneLabel := by
    intro s hs t ht label label' id htouch htouch'
    -- a tie that leaves the versions of one label leaves the chain of that entity
    have hchain : ∀ e ∈ neighbours ((versionsOf g repo commits).filter fun row =>
        row.entity.entityId = id), e.1.entity.label = e.2.entity.label := by
      intro e he
      have hmem := mem_of_neighbours he
      have h1 := (mem_filter.mp hmem.1).1
      have h2 := (mem_filter.mp hmem.2).1
      rw [← filter_ties_none VersionRow.entityId] at he
      have htie : (e.1.id, e.2.id) ∈ (recorded (versionsOf g repo commits)).prevVersion :=
        mem_map.mpr ⟨e, (mem_filter.mp he).1, rfl⟩
      have hspine := (mem_spineOf_iff h.distinct h1).mpr ⟨rfl, rfl⟩
      have hnext := h.chain e.1.entity.label e.1.entity.entityId ▸
        mem_filter.mpr ⟨htie, decide_eq_true (Or.inl hspine)⟩
      exact ((mem_spineOf_iff h.distinct h2).mp (mem_of_neighbours hnext).2).1.symm
    obtain ⟨row, ⟨hrow, rfl, hid, -⟩, -⟩ := h.once label id _ ⟨s, hs, rfl, htouch⟩
    obtain ⟨row', ⟨hrow', rfl, hid', -⟩, -⟩ := h.once label' id _ ⟨t, ht, rfl, htouch'⟩
    have hmem : ∀ {row}, row ∈ versionsOf g repo commits → row.entityId = id →
        row ∈ (versionsOf g repo commits).filter fun row => row.entityId = id := fun hrow hid =>
      mem_filter.mpr ⟨hrow, decide_eq_true hid⟩
    exact eq_of_neighbours (fun row => row.entity.label) hchain row (hmem hrow hid) row'
      (hmem hrow' hid')

/-- The versions are collected when every diff can be read, and are a spine exactly when no commit
changes an id twice and no id is changed under two labels. -/
theorem spine_iff (g : SymbolGraph) (repo : Repository) (commits : List CommitMeta) :
    ((∃ c, collectVersions g repo commits = .ok c) ↔
      ∀ commit ∈ commits, commit.parents.length ≤ 1 → ∃ hunks, readDiff repo commit = .ok hunks) ∧
    ∀ c, collectVersions g repo commits = .ok c → (Spine g repo commits c ↔ Single g repo commits) := by
  refine ⟨collectVersions_isOk, fun c hrun => ?_⟩
  rw [collectVersions_eq hrun]
  exact ⟨single_of_spine, spine_of_single⟩

/-! ## A file in two sections of one diff -/

/-- `a.rs` was a symbolic link and is a file. -/
def typeChange : Text :=
  ("diff --git a/a.rs b/a.rs\ndeleted file mode 120000\nindex 1e2d7a8..0000000\n--- a/a.rs\n" ++
    "+++ /dev/null\n@@ -1 +0,0 @@\n-b.rs\ndiff --git a/a.rs b/a.rs\nnew file mode 100644\n" ++
    "index 0000000..7c1d5f0\n--- /dev/null\n+++ b/a.rs\n@@ -0,0 +1 @@\n+fn f() {}\n").toList

def deletedLink : FileHunk := ⟨"a.rs".toList, [0], false, true⟩

def addedFile : FileHunk := ⟨"a.rs".toList, [1], true, false⟩

theorem parse_parts {a b c : String} {hunks : List FileHunk}
    (h : parseUnifiedDiff (a.toList ++ b.toList ++ c.toList) = .ok hunks) :
    parseUnifiedDiff (a ++ b ++ c).toList = .ok hunks := by
  rwa [String.toList_append, String.toList_append]

theorem parse_typeChange : parseUnifiedDiff typeChange = .ok [deletedLink, addedFile] :=
  parse_parts (by decide +kernel)

def oneFile : SymbolGraph := ⟨["a.rs".toList], [], fun _ => [], nofun⟩

def typeChangeRepo : Repository := ⟨fun _ => .ok typeChange, id, []⟩

def typeChangeCommit : CommitMeta := ⟨"c0de".toList, 0, []⟩

theorem readDiff_eq {repo : Repository} {commit : CommitMeta} {diff : Text}
    (hsha : validateSha repo commit.sha = .ok ()) (hshow : repo.gitShow commit.sha = .ok diff) :
    readDiff repo commit = parseUnifiedDiff diff := by
  simp only [readDiff, gitShowDiff, hsha, hshow]
  rfl

/-- Both sections change the file, so it has two versions of one id. -/
theorem type_change_has_two_versions :
    ¬∀ (g : SymbolGraph) (repo : Repository) (commits : List CommitMeta) (c : Collected),
      collectVersions g repo commits = .ok c → Spine g repo commits c := by
  intro h
  have hread : readDiff typeChangeRepo typeChangeCommit = .ok [deletedLink, addedFile] :=
    (readDiff_eq (by decide) rfl).trans parse_typeChange
  obtain ⟨c, hc⟩ : ∃ c, collectVersions oneFile typeChangeRepo [typeChangeCommit] = .ok c :=
    collectVersions_isOk.mpr (forall_mem_singleton.mpr fun _ => ⟨_, hread⟩)
  have hspine := h _ _ _ c hc
  rw [collectVersions_eq hc] at hspine
  have hsections : sections typeChangeRepo [typeChangeCommit].reverse =
      [(typeChangeCommit, deletedLink), (typeChangeCommit, addedFile)] := by
    rw [reverse_singleton, sections, filter_cons_of_pos (by decide), flatMap_cons, hread]
    rfl
  have hpair := (single_of_spine hspine).unrepeated
  rw [hsections, pairwise_pair] at hpair
  exact hpair rfl none none "a.rs".toList (.file rfl mem_cons_self) (.file rfl mem_cons_self)

end VersionSpine

end CodeGraph
