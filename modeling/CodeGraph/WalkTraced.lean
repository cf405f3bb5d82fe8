import CodeGraph.Walk

/-!
# What the walk leaves untraced

A file of a tree is met by the walk (`Reached`) or lies at or under an entry the
walk stopped at (`Stopped`), and every stop leaves a record. A file that is met is
collected unless it is oversized; then nothing is left of it.
-/

namespace CodeGraph

open List

section WalkTraced

variable {ν : Type} (lossy : ν → Text) (opts : WalkOptions ν)

/-- The walk stops at the entry and leaves a record of it. -/
def stopsAt (dir : List ν) : FsEntry ν → Bool
  | .dir name dotGit readable _ =>
      dotGit || shouldSkip (lossy name) opts.dependencyScope
        || (!opts.excludeDirs.isEmpty
          && opts.excludeDirs.matches (lossy name) (dirRel lossy (dir ++ [name])))
        || !readable
  | e => shouldSkip (lossy e.name) opts.dependencyScope

/-- The paths at and below an entry of `dir` where the walk stops. -/
inductive Stopped : List ν → FsEntry ν → List ν → Prop
  | here {dir e} : stopsAt lossy opts dir e = true → Stopped dir e (dir ++ [e.name])
  | inside {dir name dotGit readable entries e path} :
      stopsAt lossy opts dir (.dir name dotGit readable entries) = false → e ∈ entries →
      Stopped (dir ++ [name]) e path → Stopped dir (.dir name dotGit readable entries) path

/-- The files at and below an entry of `dir` that the walk meets, with their
sizes. -/
inductive Reached : List ν → FsEntry ν → List ν → Nat → Prop
  | here {dir name size} : stopsAt lossy opts dir (.file name size) = false →
      Reached dir (.file name size) (dir ++ [name]) size
  | inside {dir name dotGit readable entries e path size} :
      stopsAt lossy opts dir (.dir name dotGit readable entries) = false → e ∈ entries →
      Reached (dir ++ [name]) e path size → Reached dir (.dir name dotGit readable entries) path size

/-- The regular files at and below an entry of `dir`. -/
inductive FileAt : List ν → FsEntry ν → List ν → Prop
  | here {dir name size} : FileAt dir (.file name size) (dir ++ [name])
  | inside {dir name dotGit readable entries e path} : e ∈ entries →
      FileAt (dir ++ [name]) e path → FileAt dir (.dir name dotGit readable entries) path

/-- The files the walk meets below an entry that are not too large. -/
def Collected (dir : List ν) (e : FsEntry ν) (path : List ν) : Prop :=
  ∃ size ≤ maxFileBytes, Reached lossy opts dir e path size

def WalkOutcome.Records (c : WalkOutcome ν) (rel : Text) : Prop :=
  rel ∈ c.excludedDirs ∨ rel ∈ c.unreadableDirs ∨ ∃ reason, (rel, reason) ∈ c.prunedDirs

/-! ## The walk of a tree -/

variable {lossy opts}

variable (lossy) in
/-- What a part of the walk adds: the files of `files` and records of the paths of
`stops`. -/
structure Grows (c c' : WalkOutcome ν) (files stops : List ν → Prop) : Prop where
  files : ∀ path, path ∈ c'.files ↔ path ∈ c.files ∨ files path
  records : ∀ rel, c'.Records rel ↔ c.Records rel ∨ ∃ path, stops path ∧ dirRel lossy path = rel

variable {files stops : List ν → Prop}

theorem Grows.refl (c : WalkOutcome ν) (hfiles : ∀ p, ¬ files p)
    (hstops : ∀ p, ¬ stops p) : Grows lossy c c files stops := by
  constructor
  · simp [hfiles]
  · simp [hstops]

variable {c c' : WalkOutcome ν}

theorem Grows.trans {c'' : WalkOutcome ν} {files' stops' : List ν → Prop}
    (h : Grows lossy c c' files stops) (h' : Grows lossy c' c'' files' stops') :
    Grows lossy c c'' (fun p => files p ∨ files' p) (fun p => stops p ∨ stops' p) := by
  constructor
  · intro path
    rw [h'.files, h.files, or_assoc]
  · intro rel
    rw [h'.records, h.records, or_assoc]
    simp only [or_and_right, exists_or]

theorem Grows.congr {files' stops' : List ν → Prop}
    (h : Grows lossy c c' files stops) (hfiles : ∀ p, files p ↔ files' p)
    (hstops : ∀ p, stops p ↔ stops' p) : Grows lossy c c' files' stops' := by
  rwa [funext fun p => propext (hfiles p), funext fun p => propext (hstops p)] at h

theorem grows_addFile (c : WalkOutcome ν) (path : List ν) :
    Grows lossy c (c.addFile path) (· = path) (fun _ => False) := by
  constructor
  · simp [WalkOutcome.addFile]
  · simp [WalkOutcome.addFile, WalkOutcome.Records]

theorem grows_addPruned (c : WalkOutcome ν) (path : List ν) (reason : Text) :
    Grows lossy c (c.addPruned (dirRel lossy path) reason) (fun _ => False)
      (· = path) := by
  constructor
  · simp [WalkOutcome.addPruned]
  · intro rel
    simp only [WalkOutcome.addPruned, WalkOutcome.Records, mem_append, mem_singleton,
      Prod.mk.injEq, exists_or, exists_eq_right, exists_eq_left, or_assoc, eq_comm (a := rel)]

theorem grows_addExcluded (c : WalkOutcome ν) (path : List ν) :
    Grows lossy c (c.addExcluded (dirRel lossy path)) (fun _ => False) (· = path) := by
  constructor
  · simp [WalkOutcome.addExcluded]
  · intro rel
    simp only [WalkOutcome.addExcluded, WalkOutcome.Records, mem_append,
      mem_singleton, exists_eq_left, eq_comm (a := rel)]
    tauto

theorem grows_addUnreadable (c : WalkOutcome ν) (path : List ν) :
    Grows lossy c (c.addUnreadable (dirRel lossy path)) (fun _ => False)
      (· = path) := by
  constructor
  · simp [WalkOutcome.addUnreadable]
  · intro rel
    simp only [WalkOutcome.addUnreadable, WalkOutcome.Records, mem_append,
      mem_singleton, exists_eq_left, eq_comm (a := rel)]
    tauto

section Entries

variable {dir : List ν} {e : FsEntry ν}

variable {path : List ν}

theorem stopped_iff_of_stopsAt (h : stopsAt lossy opts dir e = true) :
    Stopped lossy opts dir e path ↔ path = dir ++ [e.name] := by
  constructor
  · rintro (_ | ⟨hnot, -, -⟩)
    · rfl
    · exact absurd h (hnot ▸ Bool.false_ne_true)
  · rintro rfl
    exact .here h

theorem not_reached_of_stopsAt (h : stopsAt lossy opts dir e = true) {size : Nat} :
    ¬ Reached lossy opts dir e path size := by
  rintro (hnot | ⟨hnot, -, -⟩)
  all_goals exact absurd h (hnot ▸ Bool.false_ne_true)

theorem Grows.of_stop (h : stopsAt lossy opts dir e = true)
    (hc : Grows lossy c c' (fun _ => False) (· = dir ++ [e.name])) :
    Grows lossy c c' (Collected lossy opts dir e) (Stopped lossy opts dir e) := by
  refine hc.congr ?_ (fun path => (stopped_iff_of_stopsAt h).symm)
  intro path
  refine iff_of_false id ?_
  rintro ⟨size, -, hreached⟩
  exact not_reached_of_stopsAt h hreached

variable {name : ν}

theorem stopped_dir_iff {dotGit readable : Bool} {entries : List (FsEntry ν)}
    (h : stopsAt lossy opts dir (.dir name dotGit readable entries) = false) :
    Stopped lossy opts dir (.dir name dotGit readable entries) path ↔
      ∃ e ∈ entries, Stopped lossy opts (dir ++ [name]) e path := by
  constructor
  · rintro (hstop | ⟨-, hmem, hin⟩)
    · exact absurd hstop (h ▸ Bool.false_ne_true)
    · exact ⟨_, hmem, hin⟩
  · rintro ⟨e, hmem, hin⟩
    exact .inside h hmem hin

theorem collected_dir_iff {dotGit readable : Bool} {entries : List (FsEntry ν)}
    (h : stopsAt lossy opts dir (.dir name dotGit readable entries) = false) :
    Collected lossy opts dir (.dir name dotGit readable entries) path ↔
      ∃ e ∈ entries, Collected lossy opts (dir ++ [name]) e path := by
  constructor
  · rintro ⟨size, hle, _ | ⟨-, hmem, hin⟩⟩
    exact ⟨_, hmem, size, hle, hin⟩
  · rintro ⟨e, hmem, size, hle, hin⟩
    exact ⟨size, hle, .inside h hmem hin⟩

theorem collected_file_iff {size : Nat} (h : stopsAt lossy opts dir (.file name size) = false) :
    Collected lossy opts dir (.file name size) path ↔
      size ≤ maxFileBytes ∧ path = dir ++ [name] := by
  constructor
  · rintro ⟨size', hle, ⟨⟩⟩
    exact ⟨hle, rfl⟩
  · rintro ⟨hle, rfl⟩
    exact ⟨size, hle, .here h⟩

end Entries

theorem visitFileEntry_grows (hall : opts.languageFilter = none) (path : List ν) (name : ν)
    (size : Nat) (c : WalkOutcome ν) :
    Grows lossy c (visitFileEntry opts path name size c)
      (fun p => size ≤ maxFileBytes ∧ p = path) (fun _ => False) := by
  unfold visitFileEntry
  by_cases hsize : size > maxFileBytes
  · rw [if_pos hsize]
    exact Grows.refl c (fun p hp => absurd hp.1 (Nat.not_le.mpr hsize)) (fun _ => id)
  · rw [if_neg hsize, hall]
    refine (grows_addFile c path).congr ?_ (fun _ => Iff.rfl)
    intro p
    rw [and_iff_right (Nat.not_lt.mp hsize)]

/-- An entry that is neither a file nor a directory: recorded by its name, or
nothing. -/
theorem visitLeaf_grows {dir : List ν} {e : FsEntry ν}
    (hstop : stopsAt lossy opts dir e = shouldSkip (lossy e.name) opts.dependencyScope)
    (hleaf : stopsAt lossy opts dir e = false →
      ∀ path, ¬ Collected lossy opts dir e path ∧ ¬ Stopped lossy opts dir e path)
    (h : (if shouldSkip (lossy e.name) opts.dependencyScope then
        .ok (c.addPruned (dirRel lossy (dir ++ [e.name])) (pruneReason (lossy e.name)))
      else .ok c) = (.ok c' : Except Text (WalkOutcome ν))) :
    Grows lossy c c' (Collected lossy opts dir e) (Stopped lossy opts dir e) := by
  cases hskip : shouldSkip (lossy e.name) opts.dependencyScope with
  | true =>
      obtain rfl : c.addPruned _ _ = c' := by simpa [hskip] using h
      exact Grows.of_stop (hstop.trans hskip) (grows_addPruned c _ _)
  | false =>
      obtain rfl : c = c' := by simpa [hskip] using h
      have hnot := hleaf (hstop.trans hskip)
      exact Grows.refl c (fun path => (hnot path).1) (fun path => (hnot path).2)

/-- A directory that is neither a nested repository nor of the built-in policy. -/
theorem visitDirEntry_grows {dir : List ν} {name : ν} {readable : Bool} {depth : Nat}
    {entries : List (FsEntry ν)}
    (hinner : ∀ c c', visitEntries lossy opts (dir ++ [name]) (depth + 1) entries c = .ok c' →
      Grows lossy c c' (fun p => ∃ e ∈ entries, Collected lossy opts (dir ++ [name]) e p)
        (fun p => ∃ e ∈ entries, Stopped lossy opts (dir ++ [name]) e p))
    (hskip : shouldSkip (lossy name) opts.dependencyScope = false)
    (h : visitDirEntry lossy opts (dir ++ [name]) name
      (walkDirRecursive lossy (dir ++ [name]) (depth + 1) readable
        (visitEntries lossy opts (dir ++ [name]) (depth + 1) entries)) c = .ok c') :
    Grows lossy c c' (Collected lossy opts dir (.dir name false readable entries))
      (Stopped lossy opts dir (.dir name false readable entries)) := by
  unfold visitDirEntry walkDirRecursive at h
  cases hexcl : !opts.excludeDirs.isEmpty
      && opts.excludeDirs.matches (lossy name) (dirRel lossy (dir ++ [name])) with
  | true =>
      obtain rfl : c.addExcluded _ = c' := by simpa [hexcl] using h
      exact Grows.of_stop (by simp only [stopsAt, hexcl, Bool.or_true, Bool.true_or])
        (grows_addExcluded c _)
  | false =>
      rw [hexcl, if_neg Bool.false_ne_true] at h
      by_cases hdepth : depth + 1 > walkMaxDepth
      · rw [if_pos hdepth] at h
        cases h
      rw [if_neg hdepth] at h
      -- what the descent returns is returned, or there are too many files
      obtain ⟨c1, hc1, rfl⟩ : ∃ c1, (if readable = true then
            visitEntries lossy opts (dir ++ [name]) (depth + 1) entries c
          else if depth + 1 > 0 then .ok (c.addUnreadable (dirRel lossy (dir ++ [name])))
          else .error (readDirFailed lossy (dir ++ [name]))) = .ok c1 ∧ c1 = c' := by
        revert h
        cases (if readable = true then
            visitEntries lossy opts (dir ++ [name]) (depth + 1) entries c
          else if depth + 1 > 0 then .ok (c.addUnreadable (dirRel lossy (dir ++ [name])))
          else .error (readDirFailed lossy (dir ++ [name]))) with
        | error err =>
            intro h
            cases h
        | ok c1 =>
            intro h
            by_cases hmany : c1.files.length > maxFiles
            · simp [Bind.bind, Except.bind, hmany] at h
            · exact ⟨c1, rfl, by simpa [Bind.bind, Except.bind, hmany] using h⟩
      cases hread : readable with
      | false =>
          obtain rfl : c.addUnreadable _ = c1 := by simpa [hread] using hc1
          exact Grows.of_stop (by simp [stopsAt]) (grows_addUnreadable c _)
      | true =>
          rw [if_pos hread] at hc1
          have hnot : stopsAt lossy opts dir (.dir name false true entries) = false := by
            simp only [stopsAt, hskip, hexcl, Bool.not_true, Bool.or_false]
          exact (hinner c c1 hc1).congr (fun path => (collected_dir_iff hnot).symm)
            (fun path => (stopped_dir_iff hnot).symm)

mutual

theorem visitEntry_grows (hall : opts.languageFilter = none) (dir : List ν) (depth : Nat) :
    ∀ (e : FsEntry ν) (c c' : WalkOutcome ν), visitEntry lossy opts dir depth e c = .ok c' →
      Grows lossy c c' (Collected lossy opts dir e) (Stopped lossy opts dir e)
  | .file name size, c, c', h => by
      rw [visitEntry] at h
      cases hskip : shouldSkip (lossy name) opts.dependencyScope with
      | true =>
          obtain rfl : c.addPruned _ _ = c' := by simpa [hskip] using h
          exact Grows.of_stop (e := .file name size) hskip (grows_addPruned c _ _)
      | false =>
          obtain rfl : visitFileEntry opts (dir ++ [name]) name size c = c' := by
            simpa [hskip] using h
          refine (visitFileEntry_grows hall _ name size c).congr
            (fun path => (collected_file_iff hskip).symm) ?_
          intro path
          refine iff_of_false id ?_
          rintro ⟨hstop⟩
          exact absurd hstop (ne_true_of_eq_false hskip)
  | .symlink name, c, c', h => by
      rw [visitEntry] at h
      refine visitLeaf_grows (e := .symlink name) rfl ?_ h
      refine fun hnot path => ⟨?_, ?_⟩
      · rintro ⟨size, -, ⟨⟩⟩
      · rintro ⟨hstop⟩
        exact absurd hstop (ne_true_of_eq_false hnot)
  | .other name, c, c', h => by
      rw [visitEntry] at h
      refine visitLeaf_grows (e := .other name) rfl ?_ h
      refine fun hnot path => ⟨?_, ?_⟩
      · rintro ⟨size, -, ⟨⟩⟩
      · rintro ⟨hstop⟩
        exact absurd hstop (ne_true_of_eq_false hnot)
  | .dir name dotGit readable entries, c, c', h => by
      rw [visitEntry] at h
      cases hgit : dotGit with
      | true =>
          obtain rfl : c.addPruned _ _ = c' := by simpa [hgit] using h
          exact Grows.of_stop (by simp [stopsAt]) (grows_addPruned c _ _)
      | false =>
          cases hskip : shouldSkip (lossy name) opts.dependencyScope with
          | true =>
              obtain rfl : c.addPruned _ _ = c' := by simpa [hgit, hskip] using h
              exact Grows.of_stop (by simp [stopsAt, hskip]) (grows_addPruned c _ _)
          | false =>
              rw [hgit, hskip, if_neg Bool.false_ne_true, if_neg Bool.false_ne_true] at h
              exact visitDirEntry_grows
                (visitEntries_grows hall (dir ++ [name]) (depth + 1) entries) hskip h

theorem visitEntries_grows (hall : opts.languageFilter = none) (dir : List ν) (depth : Nat) :
    ∀ (entries : List (FsEntry ν)) (c c' : WalkOutcome ν),
      visitEntries lossy opts dir depth entries c = .ok c' →
      Grows lossy c c' (fun p => ∃ e ∈ entries, Collected lossy opts dir e p)
        (fun p => ∃ e ∈ entries, Stopped lossy opts dir e p)
  | [], c, c', h => by
      obtain rfl : c = c' := by simpa [visitEntries] using h
      exact Grows.refl c (by simp) (by simp)
  | e :: entries, c, c', h => by
      rw [visitEntries] at h
      cases hone : visitEntry lossy opts dir depth e c with
      | error err => simp [hone] at h
      | ok c1 =>
          rw [hone] at h
          have hhead := visitEntry_grows hall dir depth e c c1 hone
          have htail := visitEntries_grows hall dir depth entries c1 c' h
          exact (hhead.trans htail).congr (by simp) (by simp)

end

/-! ## The outcome -/

variable (lossy opts) in
/-- The entry or one of its ancestors, by its text, is recorded. -/
def WalkOutcome.Covers (out : WalkOutcome ν) (path : List ν) : Prop :=
  ∃ q, q ≠ [] ∧ q <+: path ∧ out.Records (dirRel lossy q)

variable (lossy) in
/-- Every regular file is collected or has itself or an ancestor recorded, and no
collected file has. -/
def Traced (entries : List (FsEntry ν)) (out : WalkOutcome ν) : Prop :=
  (∀ path, (∃ e ∈ entries, FileAt [] e path) → path ∈ out.files ∨ out.Covers lossy path)
    ∧ ∀ path ∈ out.files, ¬ out.Covers lossy path

variable (lossy opts) in
/-- The file or one of its ancestors has the text of an entry the walk stops
at. -/
def Shadowed (entries : List (FsEntry ν)) (path : List ν) : Prop :=
  ∃ q, q ≠ [] ∧ q <+: path ∧ ∃ e ∈ entries, ∃ r, Stopped lossy opts [] e r
    ∧ dirRel lossy r = dirRel lossy q

variable {path : List ν}

theorem FileAt.isPrefix {dir : List ν} {e : FsEntry ν} (h : FileAt dir e path) :
    dir ++ [e.name] <+: path := by
  induction h with
  | here => exact prefix_refl _
  | inside hmem hin ih => exact (prefix_append _ _).trans ih

variable (lossy opts) in
theorem FileAt.reached_or_stopped {dir : List ν} {e : FsEntry ν} (h : FileAt dir e path) :
    (∃ size, Reached lossy opts dir e path size)
      ∨ ∃ r, Stopped lossy opts dir e r ∧ r ≠ [] ∧ r <+: path := by
  induction h with
  | @here dir name size =>
      cases hstop : stopsAt lossy opts dir (.file name size) with
      | true => exact Or.inr ⟨_, .here hstop, by simp, prefix_refl _⟩
      | false => exact Or.inl ⟨size, .here hstop⟩
  | @inside dir name dotGit readable entries e path hmem hin ih =>
      cases hstop : stopsAt lossy opts dir (.dir name dotGit readable entries) with
      | true =>
          exact Or.inr ⟨_, .here hstop, by simp, (prefix_append _ _).trans hin.isPrefix⟩
      | false =>
          rcases ih with ⟨size, hreached⟩ | ⟨r, hstopped, hne, hpre⟩
          · exact Or.inl ⟨size, .inside hstop hmem hreached⟩
          · exact Or.inr ⟨r, .inside hstop hmem hstopped, hne, hpre⟩

theorem Reached.fileAt {dir : List ν} {e : FsEntry ν} {size : Nat}
    (h : Reached lossy opts dir e path size) : FileAt dir e path := by
  induction h with
  | here => exact .here
  | inside _ hmem _ ih => exact .inside hmem ih

theorem collectSourceFiles_grows [LinearOrder ν] (hall : opts.languageFilter = none)
    {readable : Bool} {entries : List (FsEntry ν)} {out : WalkOutcome ν}
    (h : collectSourceFiles lossy opts readable entries = .ok out) :
    (∀ path, path ∈ out.files ↔ ∃ e ∈ entries, Collected lossy opts [] e path)
      ∧ ∀ rel, out.Records rel ↔
          ∃ e ∈ entries, ∃ r, Stopped lossy opts [] e r ∧ dirRel lossy r = rel := by
  unfold collectSourceFiles at h
  cases hwalk : walkDirRecursive lossy [] 0 readable (visitEntries lossy opts [] 0 entries) {} with
  | error err => simp [hwalk] at h
  | ok c =>
      rw [hwalk] at h
      by_cases hmany : c.files.length > maxFiles
      · simp [hmany] at h
      simp only [hmany, if_false, Except.ok.injEq] at h
      subst h
      cases readable with
      | false => simp [walkDirRecursive] at hwalk
      | true =>
          have hvisit : visitEntries lossy opts [] 0 entries {} = .ok c := by
            simpa [walkDirRecursive] using hwalk
          have hgrows := visitEntries_grows hall [] 0 entries {} c hvisit
          constructor
          · intro path
            rw [mem_mergeSort, hgrows.files]
            simp
          · intro rel
            have hsorted := hgrows.records rel
            simp only [WalkOutcome.Records, mem_mergeSort] at hsorted ⊢
            rw [hsorted]
            simp only [not_mem_nil, exists_false, or_false, false_or]
            exact ⟨fun ⟨r, ⟨e, he, hs⟩, hr⟩ => ⟨e, he, r, hs, hr⟩,
              fun ⟨e, he, r, hs, hr⟩ => ⟨r, ⟨e, he, hs⟩, hr⟩⟩

variable (lossy opts) in
/-- A walk leaves every file traced exactly when, of the files it meets, those
within the size limit have no text in common with a stop, and the oversized ones
do. -/
theorem walk_traced_iff [LinearOrder ν] (hall : opts.languageFilter = none) (readable : Bool)
    (entries : List (FsEntry ν)) (out : WalkOutcome ν)
    (h : collectSourceFiles lossy opts readable entries = .ok out) :
    Traced lossy entries out ↔
      ∀ path, (∃ e ∈ entries, ∃ size, Reached lossy opts [] e path size) →
        ((∃ e ∈ entries, ∃ size ≤ maxFileBytes, Reached lossy opts [] e path size)
          ↔ ¬ Shadowed lossy opts entries path) := by
  obtain ⟨hfiles, hrecords⟩ := collectSourceFiles_grows hall h
  have hcovers : ∀ path, out.Covers lossy path ↔ Shadowed lossy opts entries path := by
    intro path
    simp only [WalkOutcome.Covers, Shadowed, hrecords]
  simp only [Traced, hcovers, hfiles, Collected]
  constructor
  · rintro ⟨htraced, hapart⟩ path ⟨e, he, size, hreached⟩
    refine ⟨hapart path, ?_⟩
    intro hnot
    exact (htraced path ⟨e, he, hreached.fileAt⟩).resolve_right hnot
  · intro hmet
    constructor
    · rintro path ⟨e, he, hfile⟩
      by_cases hshadow : Shadowed lossy opts entries path
      · exact Or.inr hshadow
      · rcases hfile.reached_or_stopped lossy opts with
          ⟨size, hreached⟩ | ⟨r, hstopped, hne, hpre⟩
        · exact Or.inl ((hmet path ⟨e, he, size, hreached⟩).mpr hshadow)
        · exact absurd ⟨r, hne, hpre, e, he, r, hstopped, rfl⟩ hshadow
    · rintro path ⟨e, he, size, hsize, hreached⟩
      exact (hmet path ⟨e, he, size, hreached⟩).mp ⟨e, he, size, hsize, hreached⟩

end WalkTraced

theorem shouldSkip_a : shouldSkip ['a'] .none = false := by decide

theorem collectSourceFiles_oneFile {size : Nat} {out : WalkOutcome Text}
    (h : visitFileEntry {} [['a']] ['a'] size {} = out) (hone : out.files.length ≤ 1)
    (hpruned : out.prunedDirs = []) :
    collectSourceFiles id {} true [.file ['a'] size] = .ok out := by
  have hvisit : visitEntries id {} [] 0 [.file ['a'] size] {} = .ok out := by
    simp only [visitEntries, visitEntry, id, shouldSkip_a, Bool.false_eq_true, if_false,
      nil_append, h]
  have hfew : ¬ out.files.length > maxFiles := Nat.not_lt.mpr (hone.trans (by decide))
  have hsorted : out.files.mergeSort (· ≤ ·) = out.files := by
    match out.files, hone with
    | [], _ => exact mergeSort_nil
    | [path], _ => exact mergeSort_singleton path
  rw [collectSourceFiles, walkDirRecursive, if_neg (by decide), if_pos rfl, hvisit]
  simp only [if_neg hfew, hsorted, hpruned, mergeSort_nil]
  rw [← hpruned]

/-- A tree of one file that is too large leaves nothing. -/
theorem oversized_untraced :
    collectSourceFiles id {} true [.file ['a'] 10485761] = .ok {}
      ∧ ¬ Traced id [.file ['a'] 10485761] {} := by
  constructor
  · refine collectSourceFiles_oneFile ?_ (Nat.zero_le _) rfl
    rw [visitFileEntry, if_pos (by decide)]
  · rintro ⟨htraced, -⟩
    rcases htraced [['a']] ⟨_, mem_singleton_self _, .here⟩ with hfile | ⟨q, -, -, hrec⟩
    · exact absurd hfile not_mem_nil
    · simp [WalkOutcome.Records] at hrec

theorem small_file_traced : Traced id [.file ['a'] 3] { files := [[['a']]] } := by
  refine (walk_traced_iff id {} rfl true [.file ['a'] 3] _ ?_).mpr ?_
  · refine collectSourceFiles_oneFile ?_ (Nat.le_refl _) rfl
    rw [visitFileEntry, if_neg (by decide)]
    rfl
  · rintro path ⟨e, he, size, hreached⟩
    obtain rfl := mem_singleton.mp he
    obtain ⟨⟩ := hreached
    refine iff_of_true ⟨_, he, 3, by decide, .here shouldSkip_a⟩ ?_
    rintro ⟨q, -, -, e', he', r, hstopped, -⟩
    obtain rfl := mem_singleton.mp he'
    obtain ⟨hstop⟩ := hstopped
    exact absurd hstop (ne_true_of_eq_false shouldSkip_a)

end CodeGraph
