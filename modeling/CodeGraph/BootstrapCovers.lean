import CodeGraph.GitListing

/-!
# What the fill covers

Every file that differs from the artifact's commit is to be in the change set of
git's listings, and so is every file of the artifact that is no longer indexed;
and a fill after a call that failed is not to record the tree.

The listings hold the difference, but not in the spelling it is looked up by:
untracked paths are printed relative to the indexed directory, special paths are
quoted. A listing that failed is read as an empty one. `covers_iff` says exactly
when nothing is lost.
-/

namespace CodeGraph

/-- The mode and the content of a file. -/
structure TreeEntry where
  mode : Nat
  content : Text
  deriving DecidableEq

/-- A repository, by root-relative path: the artifact's commit, the paths in the
index (those left unmerged apart), the working tree and the paths that are
neither tracked nor ignored. `subtree` is the indexed directory, slash-ended,
empty at the root. -/
structure Repository where
  subtree : Text
  commit : Text → Option TreeEntry
  tracked : Text → Bool
  unmerged : Text → Bool
  work : Text → Option TreeEntry
  untracked : Text → Bool

namespace Repository

variable (repo : Repository)

def side (path : Text) : Option TreeEntry := if repo.tracked path then repo.work path else none

/-- The path is in the working tree and is listed as not being the commit's. -/
def Edited (path : Text) : Prop :=
  (repo.side path ≠ none ∧ repo.side path ≠ repo.commit path) ∨ repo.unmerged path = true

/-- The path is in the commit and tracked no more in the working tree. -/
def Gone (path : Text) : Prop := repo.commit path ≠ none ∧ repo.side path = none

/-- The content of the file of an id is not that of the commit. -/
def Differs (rel : Text) : Prop :=
  (repo.commit (repo.subtree ++ rel)).map TreeEntry.content ≠
    (repo.work (repo.subtree ++ rel)).map TreeEntry.content

end Repository

/-- What the calls answer, `none` when one exits non-zero: the entries of the
tracked difference and the untracked paths below the indexed directory. Which
deletion is paired with which addition as a rename is git's choice. -/
structure GitAnswers (repo : Repository) where
  inWorkTree : Bool
  hasCommit : Bool
  diff : Option (List DiffEntry)
  others : Option (List Text)
  edited : ∀ entries ∈ diff, ∀ path,
    (∃ entry ∈ entries, entry.newEnd = some path) ↔ repo.Edited path
  gone : ∀ entries ∈ diff, ∀ path,
    (∃ entry ∈ entries, entry.oldEnd = some path) ↔ repo.Gone path
  untracked : ∀ paths ∈ others, ∀ path,
    path ∈ paths ↔ repo.untracked (repo.subtree ++ path) = true

namespace GitAnswers

variable {repo : Repository} (answers : GitAnswers repo)

/-- The standard output of the calls. -/
def git : Git where
  showPrefix := if answers.inWorkTree then some (repo.subtree ++ ['\n']) else none
  catFile := if answers.hasCommit then some [] else none
  diff := answers.diff.map Bootstrap.printDiff
  others := answers.others.map Bootstrap.printOthers

def Fails : Prop :=
  answers.inWorkTree = false ∨ answers.hasCommit = false ∨ answers.diff = none ∨
    answers.others = none

end GitAnswers

namespace Bootstrap

/-- A bootstrap to fill: the artifact's sha, the files its graph holds, the manifest
it bundles, and the files discovered now. -/
structure Setup (repo : Repository) where
  cc : CharClass
  hashFile : Text → Option Text
  answers : GitAnswers repo
  artifactSha : Text
  artifact : List Text
  importedManifest : Option FileManifest
  current : List Discovered

namespace Setup

variable {repo : Repository} (setup : Setup repo)

def changes : Option ChangeSet :=
  gitChanges setup.cc setup.answers.git setup.artifactSha setup.current

def fill : Except Text Fill :=
  fillAfterBootstrap setup.cc setup.hashFile setup.answers.git setup.artifactSha
    setup.importedManifest setup.current

/-- The ids of the files discovered now. -/
def ids : List Text := setup.current.map Discovered.rel

/-- What the change set of git promises. -/
structure Covers : Prop where
  /-- Every file that differs from the commit is there to be read. -/
  current : ∀ cs, setup.changes = some cs → ∀ rel ∈ setup.ids, repo.Differs rel → cs.HasNew rel
  /-- Every file of the artifact that is no longer indexed is there to be dropped. -/
  dropped : ∀ cs, setup.changes = some cs → ∀ rel ∈ setup.artifact, rel ∉ setup.ids → cs.HasOld rel
  /-- After a call that failed the tree is not recorded as filled from git. -/
  failure : setup.answers.Fails → ∀ fill, setup.fill = .ok fill → fill.method ≠ .gitDiff

/-- The prefix that is taken off the listed paths. -/
def subtree : Text := trim setup.cc (repo.subtree ++ ['\n'])

/-- The checks before the listings pass. -/
def Reached : Prop :=
  isHexSha setup.artifactSha = true ∧ setup.answers.inWorkTree = true ∧
    setup.answers.hasCommit = true

/-- The tracked difference prints the file, as a path that is looked up as it. -/
def ShownTracked (rel : Text) : Prop :=
  ∃ path, repo.Edited path ∧ Prints setup.subtree path rel

/-- The untracked paths print the file, as a path that is looked up as it. -/
def ShownUntracked (rel : Text) : Prop :=
  ∃ path, repo.untracked (repo.subtree ++ path) = true ∧
    stripPrefixPath (trim setup.cc (quotePath path)) setup.subtree = some rel

/-- The tracked difference prints the loss of the file, not as a rename out of the
subtree. -/
def ShownGone (entries : List DiffEntry) (rel : Text) : Prop :=
  ∃ entry ∈ entries, OldEnd setup.subtree entry rel

/-- Both listings answer, and what they print is what is looked up. -/
structure Complete : Prop where
  calls : setup.answers.diff ≠ none ∧ setup.answers.others ≠ none
  current : ∀ rel ∈ setup.ids, repo.Differs rel → setup.ShownTracked rel ∨ setup.ShownUntracked rel
  dropped : ∀ entries ∈ setup.answers.diff, ∀ rel ∈ setup.artifact, rel ∉ setup.ids →
    setup.ShownGone entries rel

variable {setup}

theorem gitChanges_eq : setup.changes =
    if isHexSha setup.artifactSha = true ∧ setup.answers.inWorkTree = true ∧
        setup.answers.hasCommit = true then
      some (collectUntrackedAdds setup.cc setup.subtree setup.current setup.answers.git.others
        (collectTrackedChanges setup.subtree setup.current setup.answers.git.diff {}))
    else none := by
  unfold changes gitChanges GitAnswers.git
  cases isHexSha setup.artifactSha <;> cases setup.answers.inWorkTree <;>
    cases setup.answers.hasCommit <;> rfl

theorem changes_of_reached (h : setup.Reached) : setup.changes =
    some (collectUntrackedAdds setup.cc setup.subtree setup.current setup.answers.git.others
      (collectTrackedChanges setup.subtree setup.current setup.answers.git.diff {})) :=
  gitChanges_eq.trans (if_pos h)

theorem changes_of_not_reached (h : ¬ setup.Reached) : setup.changes = none :=
  gitChanges_eq.trans (if_neg h)

theorem exists_newEnd_iff {entries : List DiffEntry} (h : setup.answers.diff = some entries)
    {rel : Text} : (∃ entry ∈ entries, NewEnd setup.subtree setup.current entry rel) ↔
      rel ∈ setup.ids ∧ setup.ShownTracked rel := by
  constructor
  · rintro ⟨entry, hentry, hmem, path, hpath, hprints⟩
    exact ⟨hmem, path, (setup.answers.edited entries h path).mp ⟨entry, hentry, hpath⟩, hprints⟩
  · rintro ⟨hmem, path, hedited, hprints⟩
    obtain ⟨entry, hentry, hpath⟩ := (setup.answers.edited entries h path).mpr hedited
    exact ⟨entry, hentry, hmem, path, hpath, hprints⟩

theorem exists_otherEnd_iff {paths : List Text} (h : setup.answers.others = some paths)
    {rel : Text} : (∃ path ∈ paths, OtherEnd setup.cc setup.subtree setup.current path rel) ↔
      rel ∈ setup.ids ∧ setup.ShownUntracked rel := by
  constructor
  · rintro ⟨path, hpath, hmem, hstrip⟩
    exact ⟨hmem, path, (setup.answers.untracked paths h path).mp hpath, hstrip⟩
  · rintro ⟨hmem, path, huntracked, hstrip⟩
    exact ⟨path, (setup.answers.untracked paths h path).mpr huntracked, hmem, hstrip⟩

theorem changes_iff (h : setup.Reached) {entries : List DiffEntry} {paths : List Text}
    (hdiff : setup.answers.diff = some entries) (hothers : setup.answers.others = some paths)
    {cs : ChangeSet} (hcs : setup.changes = some cs) {rel : Text} :
    (cs.HasNew rel ↔ rel ∈ setup.ids ∧ (setup.ShownTracked rel ∨ setup.ShownUntracked rel)) ∧
      (cs.HasOld rel ↔ setup.ShownGone entries rel) := by
  have hprinted : setup.answers.git.diff = some (printDiff entries) ∧
      setup.answers.git.others = some (printOthers paths) := by
    simp only [GitAnswers.git, hdiff, hothers, Option.map_some, and_self]
  rw [changes_of_reached h, hprinted.1, hprinted.2] at hcs
  cases hcs
  obtain ⟨hnew, hold⟩ :=
    @collectTrackedChanges_iff setup.subtree setup.current rel entries
  refine ⟨?_, (hasOld_collectUntrackedAdds _ _).trans hold⟩
  rw [hasNew_collectUntrackedAdds, hnew, exists_newEnd_iff hdiff, exists_otherEnd_iff hothers,
    and_or_left]

/-- Whatever the two listings answer, the fill records the tree once they are
asked. -/
theorem fill_of_reached (h : setup.Reached) :
    ∃ fill, setup.fill = .ok fill ∧ fill.method = .gitDiff := by
  have hchanges := changes_of_reached h
  unfold changes at hchanges
  unfold Setup.fill fillAfterBootstrap
  rw [hchanges]
  exact ⟨_, rfl, rfl⟩

theorem fill_of_not_reached (h : ¬ setup.Reached) {fill : Fill} (hfill : setup.fill = .ok fill) :
    fill.method ≠ .gitDiff := by
  have hchanges := changes_of_not_reached h
  unfold changes at hchanges
  unfold Setup.fill fillAfterBootstrap at hfill
  rw [hchanges] at hfill
  dsimp only at hfill
  split at hfill
  · cases hfill
  · cases hfill
    nofun

/-- The change set of git covers the difference exactly when, once the checks before
the listings pass, both listings answer and every file they are to show is printed
as the path it is looked up by. -/
theorem covers_iff {repo : Repository} (setup : Setup repo) :
    setup.Covers ↔ (setup.Reached → setup.Complete) := by
  constructor
  · intro hcovers hreached
    obtain ⟨fill, hfill, hmethod⟩ := fill_of_reached hreached
    have hcalls : setup.answers.diff ≠ none ∧ setup.answers.others ≠ none := by
      refine ⟨fun hnone => ?_, fun hnone => ?_⟩
      · exact hcovers.failure (Or.inr (Or.inr (Or.inl hnone))) fill hfill hmethod
      · exact hcovers.failure (Or.inr (Or.inr (Or.inr hnone))) fill hfill hmethod
    obtain ⟨entries, hdiff⟩ := Option.ne_none_iff_exists'.mp hcalls.1
    obtain ⟨paths, hothers⟩ := Option.ne_none_iff_exists'.mp hcalls.2
    have hcs := changes_of_reached hreached
    refine ⟨hcalls, fun rel hrel hdiffers => ?_, fun entries' hentries' rel hrel hgone => ?_⟩
    · exact ((changes_iff hreached hdiff hothers hcs).1.mp
        (hcovers.current _ hcs rel hrel hdiffers)).2
    · obtain rfl : entries = entries' := Option.some.inj (hdiff.symm.trans hentries')
      exact (changes_iff hreached hdiff hothers hcs).2.mp (hcovers.dropped _ hcs rel hrel hgone)
  · intro hcomplete
    by_cases hreached : setup.Reached
    · obtain ⟨hcalls, hcurrent, hdropped⟩ := hcomplete hreached
      obtain ⟨entries, hdiff⟩ := Option.ne_none_iff_exists'.mp hcalls.1
      obtain ⟨paths, hothers⟩ := Option.ne_none_iff_exists'.mp hcalls.2
      refine ⟨fun cs hcs rel hrel hdiffers => ?_, fun cs hcs rel hrel hgone => ?_, fun hfails => ?_⟩
      · exact (changes_iff hreached hdiff hothers hcs).1.mpr ⟨hrel, hcurrent rel hrel hdiffers⟩
      · exact (changes_iff hreached hdiff hothers hcs).2.mpr
          (hdropped entries hdiff rel hrel hgone)
      · obtain ⟨-, htree, hcommit⟩ := hreached
        rcases hfails with h | h | h | h
        · cases h.symm.trans htree
        · cases h.symm.trans hcommit
        · exact absurd h hcalls.1
        · exact absurd h hcalls.2
    · have hnone := changes_of_not_reached hreached
      refine ⟨fun cs hcs => ?_, fun cs hcs => ?_, fun _ fill hfill => ?_⟩
      · cases hnone.symm.trans hcs
      · cases hnone.symm.trans hcs
      · exact fill_of_not_reached hreached hfill

end Setup

/-! ## A new file in a subdirectory -/

def subDir : Text := "sub/".toList

def newFile : Text := "a.rs".toList

/-- The indexed directory `sub/` holds `a.rs`, not added to git. -/
def subdirectory : Repository where
  subtree := subDir
  commit := fun _ => none
  tracked := fun _ => false
  unmerged := fun _ => false
  work := fun path => if path = subDir ++ newFile then some ⟨0o100644, "fn a() {}".toList⟩ else none
  untracked := fun path => path = subDir ++ newFile

theorem subdirectory_side (path : Text) : subdirectory.side path = none := if_neg Bool.false_ne_true

theorem not_edited_subdirectory (path : Text) : ¬ subdirectory.Edited path := by
  rintro (⟨hside, -⟩ | hunmerged)
  · exact hside (subdirectory_side path)
  · cases hunmerged

theorem not_gone_subdirectory (path : Text) : ¬ subdirectory.Gone path := fun h => h.1 rfl

theorem differs_newFile : subdirectory.Differs newFile := by
  have hwork : subdirectory.work (subdirectory.subtree ++ newFile) =
      some ⟨0o100644, "fn a() {}".toList⟩ := by
    show (if subDir ++ newFile = subDir ++ newFile then some _ else none) = _
    exact if_pos rfl
  unfold Repository.Differs
  rw [hwork]
  nofun

/-- `git diff` prints nothing and `git ls-files` prints `a.rs`. -/
def subdirectoryAnswers : GitAnswers subdirectory where
  inWorkTree := true
  hasCommit := true
  diff := some []
  others := some [newFile]
  edited := fun entries h path => by
    obtain rfl : [] = entries := Option.some.inj h
    exact ⟨nofun, fun hedited => absurd hedited (not_edited_subdirectory path)⟩
  gone := fun entries h path => by
    obtain rfl : [] = entries := Option.some.inj h
    exact ⟨nofun, fun hgone => absurd hgone (not_gone_subdirectory path)⟩
  untracked := fun paths h path => by
    obtain rfl : [newFile] = paths := Option.some.inj h
    show path ∈ [newFile] ↔ decide (subDir ++ path = subDir ++ newFile) = true
    rw [decide_eq_true_iff, List.append_cancel_left_eq, List.mem_singleton]

def subdirectorySetup : Setup subdirectory where
  cc := .ascii
  hashFile := fun _ => some "00".toList
  answers := subdirectoryAnswers
  artifactSha := "ab12".toList
  artifact := []
  importedManifest := none
  current := [⟨newFile, "/repo/sub/a.rs".toList, 1, 9⟩]

/-- The new file is in no part of the change set, and the tree is recorded. -/
theorem untracked_in_subdirectory_is_missed :
    subdirectorySetup.changes = some {} ∧ newFile ∈ subdirectorySetup.ids ∧
      subdirectory.Differs newFile ∧ ¬ subdirectorySetup.Covers := by
  have hchanges : subdirectorySetup.changes = some {} := by decide +kernel
  have hmem : newFile ∈ subdirectorySetup.ids := List.mem_singleton_self _
  refine ⟨hchanges, hmem, differs_newFile, fun hcovers => ?_⟩
  rcases hcovers.current _ hchanges _ hmem differs_newFile with h | h | h <;> cases h

end Bootstrap

end CodeGraph
