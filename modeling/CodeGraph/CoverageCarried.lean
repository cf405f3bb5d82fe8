import CodeGraph.ClassifyPartition
import CodeGraph.Coverage
import CodeGraph.Lib.Runs
import CodeGraph.NodeIds
import CodeGraph.Segments

/-!
# The record carried from pass to pass

The record of an incremental pass against the one a full index of the same tree would write,
over every run of passes. `Kept` is the invariant: but for the verdicts of the language server,
the two have the same entries. One pass keeps it because what it carries is the full record
less the kinds that are found anew, and a file that is not read again has the content it had.

The two passes spell a file differently. The collector of a full index keys a gap by the path
as the walk has it, the manifest and the incremental pass by its id, with forward slashes; and
one takes the Rust files by their extension, the other by the end of their id. `Plain` is a tree
on which the two spellings agree.
-/

namespace CodeGraph

open List

namespace Coverage

variable {Content : Type}

/-! ## The lookups of a record -/

namespace Gaps

theorem lookup_keep (p : Text → FileCoverage → Bool) (gaps : Gaps) (rel : Text) :
    (gaps.keep p).lookup rel = (gaps.lookup rel).filter (p rel) := by
  ext cov
  rw [← Option.mem_def, AList.mem_lookup_iff, Option.filter_eq_some_iff, ← Option.mem_def,
    AList.mem_lookup_iff]
  exact mem_filter

theorem lookup_insert (gaps : Gaps) (key rel : Text) (cov : FileCoverage) :
    (gaps.insert key cov).lookup rel = if key = rel then some cov else gaps.lookup rel := by
  split_ifs with h
  · subst h
    exact AList.lookup_insert gaps
  · exact AList.lookup_insert_ne (Ne.symm h)

theorem lookup_orInsert (gaps : Gaps) (key rel : Text) (cov : FileCoverage) :
    (gaps.orInsert key cov).lookup rel
      = (gaps.lookup rel).or (if key = rel then some cov else none) := by
  unfold orInsert
  split_ifs with hmem heq heq
  · subst heq
    obtain ⟨cov', hcov'⟩ := Option.isSome_iff_exists.mp (AList.lookup_isSome.mpr hmem)
    rw [hcov', Option.some_or]
  · rw [Option.or_none]
  · subst heq
    rw [AList.lookup_insert, AList.lookup_eq_none.mpr hmem, Option.none_or]
  · rw [AList.lookup_insert_ne (Ne.symm heq), Option.or_none]

theorem lookup_union (gaps gaps' : Gaps) (rel : Text) :
    (gaps ∪ gaps').lookup rel = (gaps.lookup rel).or (gaps'.lookup rel) := by
  by_cases h : rel ∈ gaps
  · obtain ⟨cov, hcov⟩ := Option.isSome_iff_exists.mp (AList.lookup_isSome.mpr h)
    rw [AList.lookup_union_left h, hcov, Option.some_or]
  · rw [AList.lookup_union_right h, AList.lookup_eq_none.mpr h, Option.none_or]

end Gaps

variable {rel : Text}

/-- A loop that records at most one gap of each of its items: what the record then says of a
path is the gap of the item of that path, over what it said before. -/
theorem lookup_foldl {α σ : Type} {files : σ → Gaps} {step : σ → α → σ} (key : α → Text)
    (gap : Text → Option FileCoverage) {items : List α}
    (hstep : ∀ s, ∀ a ∈ items, (files (step s a)).lookup rel
      = if key a = rel then (gap rel).or ((files s).lookup rel) else (files s).lookup rel) (s : σ) :
    (files (items.foldl step s)).lookup rel
      = if rel ∈ items.map key then (gap rel).or ((files s).lookup rel)
        else (files s).lookup rel := by
  induction items generalizing s with
  | nil => rfl
  | cons a items ih =>
      rw [foldl_cons, ih fun s b hb => hstep s b (mem_cons_of_mem a hb),
        hstep s a mem_cons_self, map_cons]
      by_cases ha : key a = rel
      · rw [if_pos ha, if_pos (mem_cons.mpr (.inl ha.symm)), ← Option.or_assoc,
          Option.or_self, ite_self]
      · simp only [mem_cons, Ne.symm ha, ha, if_false, false_or]

theorem lookup_foldl_orInsert {α : Type} (key : α → Text) (cov : α → FileCoverage)
    (items : List α) (gaps : Gaps) (rel : Text) :
    (items.foldl (fun gaps a => gaps.orInsert (key a) (cov a)) gaps).lookup rel
      = (gaps.lookup rel).or ((items.find? fun a => key a = rel).map cov) := by
  induction items generalizing gaps with
  | nil => exact (Option.or_none).symm
  | cons a items ih =>
      rw [foldl_cons, ih, Gaps.lookup_orInsert, Option.or_assoc, find?_cons]
      by_cases ha : key a = rel <;> simp [ha]

/-! ## What a tree has to record -/

def ParseOutcome.gap : ParseOutcome → Option FileCoverage
  | .indexed => none
  | .partialParse ranges => some (partialGap ranges)
  | .skipped reason => some (skippedGap reason)
  | .quarantined reason => some (quarantinedGap reason)

def IacGap.gap : IacGap → FileCoverage
  | .partialParse ranges => partialGap ranges
  | .skipped reason => skippedGap reason

section Recorded

variable (I : Indexer Content)

def iacFileGap (path : Text) (content : Content) : Option FileCoverage :=
  (I.iacGap path content).map IacGap.gap

/-- The gap of a file: that of the infrastructure pass over that of the parse. -/
def fileGap (path : Text) (content : Content) : Option FileCoverage :=
  (iacFileGap I path content).or (I.parse path content).gap

/-- The gap of a directory the walk did not enter. -/
def dirGap (tree : Walked Content) (rel : Text) : Option FileCoverage :=
  if rel ∈ tree.unreadableDirs then some (skippedGap "unreadable".toList)
  else if rel ∈ tree.excludedDirs then some (skippedGap "user_excluded".toList)
  else none

def treeGap (tree : Walked Content) (rel : Text) : Option FileCoverage :=
  if rel ∈ tree.paths then fileGap I rel (tree.content rel) else dirGap tree rel

def cargoGap (found : CargoAttributions) (rel : Text) : Option FileCoverage :=
  ((found.outsideTargets.find? (· = rel)).map
      fun _ => ⟨.outsideBuildTargets, outsideTargetsDetail, []⟩).or
    ((found.featureGated.find? (·.1 = rel)).map fun e => ⟨.featureGated, e.2, []⟩)

/-- The two spellings of a file agree on every file of the tree. -/
structure Plain (tree : Walked Content) : Prop where
  slashes : ∀ path ∈ tree.paths, '\\' ∉ path
  named : ∀ path ∈ tree.paths, basename path ≠ ".rs".toList

variable {path : Text}

theorem relId_eq_self (h : '\\' ∉ path) : relId path = path := by
  refine (map_congr_left fun c hc => ?_).trans (map_id path)
  exact if_neg fun heq : c = '\\' => h (heq ▸ hc)

variable {I}

/-! ## The two collectors -/

theorem lookup_recordOutcome (path : Text) (outcome : ParseOutcome) (c : CoverageCollector)
    (rel : Text) : (recordOutcome path outcome c).files.lookup rel
      = if path = rel then outcome.gap.or (c.files.lookup rel) else c.files.lookup rel := by
  cases outcome with
  | indexed => exact (ite_self _).symm
  | partialParse ranges => exact Gaps.lookup_insert c.files path rel _
  | skipped reason => exact Gaps.lookup_insert c.files path rel _
  | quarantined reason => exact Gaps.lookup_insert c.files path rel _

theorem recordReparseOutcome_files (rel : Text) (outcome : ParseOutcome) (c : CoverageCollector) :
    (recordReparseOutcome rel outcome c).files = (recordOutcome rel outcome c).files := by
  cases outcome <;> rfl

theorem lookup_recordWalk (tree : Walked Content) (rel : Text) :
    (recordWalk tree {}).files.lookup rel = dirGap tree rel := by
  have hskip (reason : Text) (c : CoverageCollector) (dirs : List Text) :
      (dirs.foldl (fun c rel => c.recordSkipped rel reason) c).files.lookup rel
        = if rel ∈ dirs then some (skippedGap reason) else c.files.lookup rel := by
    rw [lookup_foldl id (fun _ => some (skippedGap reason))
      fun c dir _ => Gaps.lookup_insert c.files dir rel _, map_id]
    rfl
  have hpruned (c : CoverageCollector) :
      (tree.prunedDirs.foldl (fun c e => c.recordPruned e.1 e.2) c).files
        = c.files :=
    List.foldlRecOn tree.prunedDirs _
      (motive := fun c' : CoverageCollector => c'.files = c.files) rfl fun _ h _ _ => h
  rw [recordWalk, hpruned, hskip, hskip]
  rfl

@[simp] def skippedPart : Option IacGap → Option FileCoverage
  | some (.skipped reason) => some (skippedGap reason)
  | _ => none

@[simp] def partialPart : Option IacGap → Option FileCoverage
  | some (.partialParse ranges) => some (partialGap ranges)
  | _ => none

variable {tree : Walked Content}

theorem lookup_foldIacGaps {sources : List Text}
    (hplain : ∀ path ∈ sources, '\\' ∉ path) (c : CoverageCollector) (rel : Text) :
    (foldIacGaps (runIacPass I tree sources) c).files.lookup rel
      = if rel ∈ sources then (iacFileGap I rel (tree.content rel)).or (c.files.lookup rel)
        else c.files.lookup rel := by
  have hmap : sources.map relId = sources :=
    (map_congr_left fun path h => relId_eq_self (hplain path h)).trans (map_id _)
  simp only [foldIacGaps, runIacPass, foldl_filterMap]
  rw [lookup_foldl relId (fun rel => skippedPart (I.iacGap rel (tree.content rel))),
    lookup_foldl relId (fun rel => partialPart (I.iacGap rel (tree.content rel))), hmap]
  · by_cases hrel : rel ∈ sources
    · simp only [hrel, if_true, iacFileGap]
      rcases I.iacGap rel (tree.content rel) with _ | ranges | reason <;> rfl
    · simp only [hrel, if_false]
  all_goals
    intro c path hpath
    rw [relId_eq_self (hplain path hpath)]
    by_cases hrel : path = rel
    · subst hrel
      rcases I.iacGap path (tree.content path) with _ | ranges | reason <;>
        simp [CoverageCollector.recordPartial, CoverageCollector.recordSkipped]
    · rcases I.iacGap path (tree.content path) with _ | ranges | reason <;>
        simp [CoverageCollector.recordPartial, CoverageCollector.recordSkipped,
          Gaps.lookup_insert, hrel]

theorem lookup_collectFull (hplain : Plain tree) (rel : Text) :
    (collectFull I tree).files.lookup rel = treeGap I tree rel := by
  have hparsed (c : CoverageCollector) : (tree.paths.foldl
        (fun c path => recordOutcome path (I.parse path (tree.content path)) c) c).files.lookup rel
      = if rel ∈ tree.paths then (I.parse rel (tree.content rel)).gap.or (c.files.lookup rel)
        else c.files.lookup rel := by
    rw [lookup_foldl id fun rel => (I.parse rel (tree.content rel)).gap,
      map_id]
    intro c path _
    rw [lookup_recordOutcome]
    by_cases hrel : path = rel
    · subst hrel
      rfl
    · rw [if_neg hrel, id_eq, if_neg hrel]
  rw [collectFull, lookup_foldIacGaps hplain.slashes, hparsed, lookup_recordWalk, treeGap]
  split_ifs with hrel
  · obtain ⟨hexcluded, hunreadable⟩ := tree.apart rel hrel
    rw [dirGap, if_neg hunreadable, if_neg hexcluded, Option.or_none, fileGap]
  · rfl

theorem lookup_reparsedGaps (hplain : Plain tree) {changes : ChangeSet}
    (hread : ∀ d ∈ reparsed changes, d.abs ∈ tree.paths ∧ d.rel = relId d.abs) (rel : Text) :
    (reparsedGaps I tree changes).lookup rel
      = if rel ∈ reparsedRels changes then fileGap I rel (tree.content rel) else none := by
  have hself (d) (hd : d ∈ reparsed changes) : d.rel = d.abs :=
    (hread d hd).2.trans (relId_eq_self (hplain.slashes d.abs (hread d hd).1))
  have hparsed : ((reparsed changes).foldl
        (fun c d => recordReparseOutcome d.rel (I.parse d.abs (tree.content d.abs)) c)
        ({} : CoverageCollector)).files.lookup rel
      = if rel ∈ reparsedRels changes then (I.parse rel (tree.content rel)).gap else none := by
    rw [lookup_foldl Discovered.rel fun rel => (I.parse rel (tree.content rel)).gap]
    · rw [show ({} : CoverageCollector).files.lookup rel = none from rfl, Option.or_none]
      rfl
    · intro c d hd
      rw [recordReparseOutcome_files, lookup_recordOutcome, ← hself d hd]
      by_cases hrel : d.rel = rel
      · rw [if_pos hrel, if_pos hrel, hrel]
      · rw [if_neg hrel, if_neg hrel]
  have hsources : rel ∈ tree.paths.filter (fun path => relId path ∈ reparsedRels changes)
      ↔ rel ∈ reparsedRels changes := by
    rw [mem_filter, decide_eq_true_eq]
    constructor
    · rintro ⟨hrel, hmem⟩
      rwa [relId_eq_self (hplain.slashes rel hrel)] at hmem
    · intro hmem
      obtain ⟨d, hd, rfl⟩ := mem_map.mp hmem
      have hpath : d.rel ∈ tree.paths := (hself d hd).symm ▸ (hread d hd).1
      exact ⟨hpath, by rwa [relId_eq_self (hplain.slashes d.rel hpath)]⟩
  rw [reparsedGaps, lookup_foldIacGaps fun path h => hplain.slashes path (mem_of_mem_filter h),
    hparsed]
  simp only [hsources]
  split_ifs <;> rfl

/-! ## The overlay of Cargo -/

/-- The entries of Cargo over a record, under `or_insert`. -/
def overlay (found : CargoAttributions) (files : Gaps) : Gaps :=
  let files := found.outsideTargets.foldl
    (fun files rel => files.orInsert rel ⟨.outsideBuildTargets, outsideTargetsDetail, []⟩) files
  found.featureGated.foldl
    (fun files (rel, detail) => files.orInsert rel ⟨.featureGated, detail, []⟩) files

theorem lookup_overlay (found : CargoAttributions) (files : Gaps) (rel : Text) :
    (overlay found files).lookup rel = (files.lookup rel).or (cargoGap found rel) := by
  rw [overlay, lookup_foldl_orInsert Prod.fst fun e => ⟨.featureGated, e.2, []⟩,
    lookup_foldl_orInsert (fun rel => rel)
      fun _ => ⟨.outsideBuildTargets, outsideTargetsDetail, []⟩,
    Option.or_assoc]
  rfl

theorem recordCargoAttributions_files (tree : Walked Content) (c : CoverageCollector) :
    (recordCargoAttributions I tree c).files
      = overlay (I.attributed tree (tree.paths.filter hasRustExtension).toFinset) c.files := by
  have houtside (rels : List Text) (c : CoverageCollector) :
      (rels.foldl (fun c rel => c.recordOutsideTargets rel outsideTargetsDetail) c).files
        = rels.foldl (fun files rel => files.orInsert rel
            ⟨.outsideBuildTargets, outsideTargetsDetail, []⟩) c.files :=
    (foldl_hom CoverageCollector.files fun _ _ => rfl).symm
  have hgated (gated : List (Text × Text)) (c : CoverageCollector) :
      (gated.foldl (fun c (rel, detail) => c.recordFeatureGated rel detail) c).files
        = gated.foldl (fun files (rel, detail) => files.orInsert rel
            ⟨.featureGated, detail, []⟩) c.files :=
    (foldl_hom CoverageCollector.files fun _ _ => rfl).symm
  simp only [recordCargoAttributions, CoverageCollector.setCargoAttribution, overlay]
  rw [hgated, houtside]

theorem overlayCargoAttributions_files (tree : Walked Content) (report : CoverageReport) :
    (overlayCargoAttributions I tree report).files
      = overlay (I.attributed tree
          (tree.currentRels.filter fun rel => ".rs".toList.isSuffixOf rel).toFinset)
        report.files := rfl

theorem suffix_basename {tail : Text} (htail : '/' ∉ tail) :
    tail <:+ basename path ↔ tail <:+ path := by
  obtain ⟨pieces, name, hpieces⟩ : ∃ pieces name, splitOnChar '/' path = pieces ++ [name] :=
    ⟨_, _, (dropLast_append_getLast (splitOnChar_ne_nil '/' path)).symm⟩
  have hname : basename path = name := by
    rw [basename, hpieces, getLast?_concat, Option.getD_some]
  rw [hname, ← @joinWith_splitOnChar '/' path, hpieces]
  cases pieces with
  | nil => rfl
  | cons piece pieces =>
      rw [joinWith_append (cons_ne_nil piece pieces) (cons_ne_nil name []),
        append_assoc]
      constructor
      · exact fun h => h.trans ((suffix_append _ _).trans (suffix_append _ _))
      · intro h
        have hslash : ['/'] ++ name <:+ joinWith ['/'] (piece :: pieces) ++ (['/'] ++ name) :=
          suffix_append _ _
        rcases suffix_or_suffix_of_suffix h hslash with hshort | hlong
        · rcases suffix_cons_iff.mp hshort with heq | hin
          · exact absurd (heq ▸ mem_cons_self) htail
          · exact hin
        · exact absurd (hlong.subset mem_cons_self) htail

theorem hasRustExtension_iff (hnamed : basename path ≠ ".rs".toList) :
    hasRustExtension path = true ↔ ".rs".toList <:+ path := by
  rw [hasRustExtension, decide_eq_true_eq, ← suffix_basename (by decide), extension]
  constructor
  · intro h
    rcases hlast : beforeLast ['.'] (basename path) with _ | _ | ⟨c, before⟩
    · simp [hlast] at h
    · simp [hlast] at h
    · rw [hlast] at h
      have hpiece : lastPiece ['.'] (basename path) = "rs".toList := h
      rcases lastPiece_isSuffix ['.'] (basename path) with hself | hdot
      · rw [hself.symm.trans hpiece, beforeLast_eq_none (by decide)] at hlast
        cases hlast
      · rw [hpiece] at hdot
        exact hdot
  · rintro ⟨stem, hstem⟩
    have hlast : beforeLast ['.'] (basename path) = some stem :=
      hstem ▸ @beforeLast_last '.' [] "rs".toList (by decide) stem
    cases stem with
    | nil => exact absurd hstem.symm hnamed
    | cons c stem =>
        rw [hlast]
        dsimp only
        have hsplit : c :: stem ++ ".rs".toList = (c :: stem ++ ['.']) ++ "rs".toList := by simp
        rw [lastPiece, hlast, ← hstem, hsplit]
        exact drop_left' (by simp)

theorem rustFiles_eq (hplain : Plain tree) :
    tree.currentRels.filter (fun rel => ".rs".toList.isSuffixOf rel)
      = tree.paths.filter hasRustExtension := by
  have hrels : tree.currentRels = tree.paths :=
    (map_congr_left fun path h => relId_eq_self (hplain.slashes path h)).trans
      (map_id tree.paths)
  rw [hrels]
  refine filter_congr fun path hpath => ?_
  rw [Bool.eq_iff_iff, isSuffixOf_iff_suffix, hasRustExtension_iff (hplain.named path hpath)]

variable (I) in
/-- The attributions that both passes put over their record. -/
def attributions (tree : Walked Content) : CargoAttributions :=
  I.attributed tree (tree.paths.filter hasRustExtension).toFinset

theorem lookup_fullReport (hplain : Plain tree) (rel : Text) : (fullReport I tree).files.lookup rel
      = (treeGap I tree rel).or (cargoGap (attributions I tree) rel) := by
  rw [fullReport, recordCargoAttributions_files, lookup_overlay, lookup_collectFull hplain]
  rfl

/-- The record of an incremental pass: its own gaps, what it carries, and Cargo below both. -/
theorem lookup_incrementalReport (hplain : Plain tree) {changes : ChangeSet}
    (hread : ∀ d ∈ reparsed changes, d.abs ∈ tree.paths ∧ d.rel = relId d.abs)
    (prior : CoverageReport) (rel : Text) :
    (incrementalReport I (some prior) tree changes).files.lookup rel = (((dirGap tree rel).or
            (if rel ∈ reparsedRels changes then fileGap I rel (tree.content rel) else none)).or
          ((prior.files.lookup rel).filter fun cov =>
            rel ∈ tree.currentRels && rel ∉ reparsedRels changes && !isRecomputed cov.kind)).or
        (cargoGap (attributions I tree) rel) := by
  rw [incrementalReport, overlayCargoAttributions_files, rustFiles_eq hplain, lookup_overlay]
  simp only [mergeCoverage, Gaps.lookup_union, Gaps.lookup_keep, lookup_recordWalk,
    lookup_reparsedGaps hplain hread]
  rfl

end Recorded

/-! ## Which gaps are found anew -/

variable {cov : FileCoverage}

theorem ParseOutcome.gap_carried {outcome : ParseOutcome}
    (h : outcome.gap = some cov) : isRecomputed cov.kind = false := by
  cases outcome <;> cases h <;> rfl

theorem IacGap.gap_carried (gap : IacGap) : isRecomputed gap.gap.kind = false := by
  cases gap <;> rfl

variable {tree : Walked Content}

theorem treeGap_carried {I : Indexer Content} (h : treeGap I tree rel = some cov) : isRecomputed cov.kind = false := by
  unfold treeGap at h
  split_ifs at h with hfile
  · rcases Option.or_eq_some_iff.mp h with hiac | ⟨-, hparse⟩
    · obtain ⟨gap, -, rfl⟩ := Option.map_eq_some_iff.mp hiac
      exact gap.gap_carried
    · exact ParseOutcome.gap_carried hparse
  · unfold dirGap at h
    split_ifs at h <;> cases h <;> rfl

theorem cargoGap_recomputed {found : CargoAttributions} (h : cargoGap found rel = some cov) :
    isRecomputed cov.kind = true ∧ cov.kind ≠ .unlinkedFile := by
  rcases Option.or_eq_some_iff.mp h with houtside | ⟨-, hgated⟩
  · obtain ⟨_, -, rfl⟩ := Option.map_eq_some_iff.mp houtside
    exact ⟨rfl, nofun⟩
  · obtain ⟨_, -, rfl⟩ := Option.map_eq_some_iff.mp hgated
    exact ⟨rfl, nofun⟩

theorem filter_of_all {o : Option FileCoverage} {p : FileCoverage → Bool}
    (h : ∀ cov, o = some cov → p cov = true) : o.filter p = o := by
  cases o with
  | none => rfl
  | some cov => exact Option.filter_some_pos (h cov rfl)

theorem not_unlinked {I : Indexer Content} {found : CargoAttributions}
    (h : (treeGap I tree rel).or (cargoGap found rel) = some cov) :
    decide (cov.kind ≠ .unlinkedFile) = true := by
  rw [decide_eq_true_eq]
  rcases Option.or_eq_some_iff.mp h with hgap | ⟨-, hcargo⟩
  · intro hkind
    have := treeGap_carried hgap
    rw [hkind] at this
    cases this
  · exact (cargoGap_recomputed hcargo).2

theorem carried_of_settled {o gap cargo : Option FileCoverage}
    (h : o.filter (fun cov => cov.kind ≠ .unlinkedFile) = gap.or cargo)
    (hgap : ∀ cov, gap = some cov → isRecomputed cov.kind = false)
    (hcargo : ∀ cov, cargo = some cov → isRecomputed cov.kind = true) :
    o.filter (fun cov => !isRecomputed cov.kind) = gap := by
  have hboth : o.filter (fun cov => !isRecomputed cov.kind)
      = (o.filter fun cov => cov.kind ≠ .unlinkedFile).filter
          fun cov => !isRecomputed cov.kind := by
    rw [Option.filter_filter]
    refine congrArg (Option.filter · o) (funext fun cov => ?_)
    cases cov.kind <;> rfl
  rw [hboth, h]
  cases gap with
  | some cov => exact Option.filter_some_pos (by simp [hgap cov rfl])
  | none =>
      cases cargo with
      | none => rfl
      | some cov => exact Option.filter_some_neg (by simp [hcargo cov rfl])

/-- The entries but for the verdicts of the language server. -/
def CoverageReport.settled (report : CoverageReport) : Gaps :=
  report.files.keep fun _ cov => cov.kind ≠ .unlinkedFile

/-! ## Runs -/

/-- A codebase as a pass sees it, with the change signal of each file. -/
structure Visit (Content : Type) extends Walked Content where
  stat : Text → Int × ℕ

/-- The codebase at the last pass, and what that pass left for the next one. -/
structure Indexed (Content : Type) where
  visit : Visit Content
  manifest : FileManifest
  report : CoverageReport

/-- What happens to the record: a pass, or verdicts of the language server on files that no
crate links. -/
inductive CoverageEvent (Content : Type)
  | incremental (visit : Visit Content)
  | verdicts (unlinked : List (Text × Text))

section Runs

variable (I : Indexer Content) (hash : Content → Option Text)

namespace Visit

variable (visit : Visit Content)

def discovered : List Discovered :=
  visit.paths.map fun path => ⟨relId path, path, (visit.stat path).1, (visit.stat path).2⟩

def hashFile (path : Text) : Option Text := hash (visit.content path)

/-- `write_full_manifest`. -/
def fullManifest : FileManifest :=
  visit.discovered.foldl (fun m d => m.insert d.rel (d.state (hashOf (visit.hashFile hash) d))) .new

def plan (prior : FileManifest) : Plan := classify (visit.hashFile hash) prior visit.discovered

end Visit

def indexFull (visit : Visit Content) : Indexed Content where
  visit := visit
  manifest := visit.fullManifest hash
  report := fullReport I visit.toWalked

def Indexed.step (s : Indexed Content) : CoverageEvent Content → Indexed Content
  | .incremental visit =>
      let plan := visit.plan hash s.manifest
      { visit := visit
        manifest := plan.nextManifest
        report := incrementalReport I (some s.report) visit.toWalked plan.changeSet }
  | .verdicts unlinked =>
      { s with
        report := unlinked.foldl (fun report (rel, detail) => report.recordUnlinkedFile rel detail)
          s.report }

/-- The hash a manifest holds of a content, empty when it cannot be read. -/
def contentHash (content : Content) : Text := (hash content).getD []

/-- A file that was there before has other content only with another change signal and
another hash. -/
def Signalled (before after : Visit Content) : Prop :=
  ∀ path ∈ before.paths, path ∈ after.paths →
    (before.stat path = after.stat path ∨
      contentHash hash (after.content path) ≠ [] ∧
        contentHash hash (after.content path) = contentHash hash (before.content path)) →
    before.content path = after.content path

/-- The next pass walks a plain tree, every edit of which it can see. -/
def Visible (s : Indexed Content) : CoverageEvent Content → Prop
  | .incremental visit => Plain visit.toWalked ∧ Signalled hash s.visit visit
  | .verdicts _ => True

/-- What holds between the passes: the manifest knows the files of the last pass as they were,
and the record is the one a full index of them would leave. -/
structure Kept (s : Indexed Content) : Prop where
  plain : Plain s.visit.toWalked
  known : ∀ rel, rel ∈ s.manifest.files ↔ rel ∈ s.visit.paths
  states : s.manifest.All fun rel state => (state.mtimeNs, state.size) = s.visit.stat rel ∧
    state.contentHash = contentHash hash (s.visit.content rel)
  full : ∀ rel, s.report.settled.lookup rel
    = (fullReport I s.visit.toWalked).files.lookup rel

variable {I hash}

theorem mem_discovered {visit : Visit Content} (hplain : Plain visit.toWalked) {d : Discovered}
    (hd : d ∈ visit.discovered) :
    d.abs ∈ visit.paths ∧ d.rel = d.abs ∧ (d.mtimeNs, d.size) = visit.stat d.abs := by
  obtain ⟨path, hpath, rfl⟩ := mem_map.mp hd
  exact ⟨hpath, relId_eq_self (hplain.slashes path hpath), rfl⟩

theorem discovered_rels {visit : Visit Content} (hplain : Plain visit.toWalked) :
    visit.discovered.map Discovered.rel = visit.paths := by
  rw [Visit.discovered, map_map]
  exact (map_congr_left fun path h => relId_eq_self (hplain.slashes path h)).trans
    (map_id visit.paths)

theorem mem_fullManifest {visit : Visit Content} (hplain : Plain visit.toWalked) (rel : Text) :
    rel ∈ (visit.fullManifest hash).files ↔ rel ∈ visit.paths := by
  have hfold (l : List Discovered) (m : FileManifest) :
      rel ∈ (l.foldl (fun m d => m.insert d.rel (d.state (hashOf (visit.hashFile hash) d))) m).files
        ↔ rel ∈ m.files ∨ rel ∈ l.map Discovered.rel := by
    induction l generalizing m with
    | nil => simp
    | cons d l ih =>
        rw [foldl_cons, ih, FileManifest.mem_insert, map_cons, mem_cons, or_assoc,
          or_left_comm]
  rw [Visit.fullManifest, hfold, discovered_rels hplain]
  exact or_iff_right Finmap.notMem_empty

variable {s : Indexed Content}

/-- A step sees every edit: a file it does not read again is one it had, unchanged. -/
theorem Kept.unread (hs : Kept I hash s) {visit : Visit Content}
    (hplain : Plain visit.toWalked) (hsignal : Signalled hash s.visit visit)
    (hrel : rel ∈ visit.paths)
    (hunread : rel ∉ reparsedRels (visit.plan hash s.manifest).changeSet) :
    rel ∈ s.visit.paths ∧ s.visit.content rel = visit.content rel := by
  obtain ⟨d, hd, rfl⟩ : ∃ d ∈ visit.discovered, d.rel = rel :=
    mem_map.mp ((discovered_rels hplain).symm ▸ hrel)
  obtain ⟨-, hself, hstat⟩ := mem_discovered hplain hd
  have hunchanged : d ∈ (visit.plan hash s.manifest).unchanged := by
    rcases mem_append.mp ((classify_current_perm _ _ _).mem_iff.mpr hd) with hread | h
    · rw [← append_assoc] at hread
      exact absurd (mem_map_of_mem hread) hunread
    · exact h
  obtain ⟨-, prev, hprev, hseen⟩ := mem_classify_unchanged.mp hunchanged
  have hold : d.rel ∈ s.visit.paths :=
    (hs.known d.rel).mp (Finmap.lookup_isSome.mp (Option.isSome_of_eq_some hprev))
  obtain ⟨hprevStat, hprevHash⟩ := hs.states d.rel prev hprev
  refine ⟨hold, hsignal d.rel hold hrel ?_⟩
  rcases hseen with ⟨hmtime, hsize⟩ | ⟨hne, hhash⟩
  · left
    rw [← hprevStat, hmtime, hsize, hstat, hself]
  · rw [hprevHash, hself] at hhash
    rw [hself]
    exact .inr ⟨hne, hhash⟩

theorem settled_of_fullReport (hplain : Plain tree) (rel : Text) :
    (fullReport I tree).settled.lookup rel = (fullReport I tree).files.lookup rel := by
  rw [CoverageReport.settled, Gaps.lookup_keep, lookup_fullReport hplain]
  exact filter_of_all fun cov => not_unlinked

theorem Kept.fullIndex {visit : Visit Content} (hplain : Plain visit.toWalked) :
    Kept I hash (indexFull I hash visit) where
  plain := hplain
  known := mem_fullManifest hplain
  states := by
    refine List.foldlRecOn visit.discovered _ (FileManifest.all_new _) ?_
    intro m hm d hd
    obtain ⟨-, hself, hstat⟩ := mem_discovered hplain hd
    exact hm.insert ⟨hself ▸ hstat, hself ▸ rfl⟩
  full := settled_of_fullReport hplain

theorem reread_of_plan {visit : Visit Content} (hplain : Plain visit.toWalked)
    (prior : FileManifest) : ∀ d ∈ reparsed (visit.plan hash prior).changeSet,
      d.abs ∈ visit.paths ∧ d.rel = relId d.abs := by
  intro d hd
  have hcurrent : d ∈ visit.discovered := by
    refine (classify_current_perm (visit.hashFile hash) prior visit.discovered).mem_iff.mp ?_
    rw [reparsed, append_assoc] at hd
    exact mem_append_left _ hd
  obtain ⟨hpath, hself, -⟩ := mem_discovered hplain hcurrent
  exact ⟨hpath, hself.trans (relId_eq_self (hplain.slashes d.abs hpath)).symm⟩

/-- What a pass records before Cargo is asked: the gaps of its tree, some read again and the
others carried. -/
theorem Kept.merged (hs : Kept I hash s) {visit : Visit Content}
    (hplain : Plain visit.toWalked) (hsignal : Signalled hash s.visit visit) (rel : Text) :
    ((dirGap visit.toWalked rel).or
        (if rel ∈ reparsedRels (visit.plan hash s.manifest).changeSet then
          fileGap I rel (visit.content rel) else none)).or
      ((s.report.files.lookup rel).filter fun cov => rel ∈ visit.currentRels &&
        rel ∉ reparsedRels (visit.plan hash s.manifest).changeSet && !isRecomputed cov.kind)
      = treeGap I visit.toWalked rel := by
  have hread := @reread_of_plan _ hash visit hplain s.manifest
  have hrels : visit.currentRels = visit.paths :=
    (map_congr_left fun path h => relId_eq_self (hplain.slashes path h)).trans
      (map_id visit.paths)
  have hcarried : (s.report.files.lookup rel).filter (fun cov => !isRecomputed cov.kind)
      = treeGap I s.visit.toWalked rel := by
    have hsettled := (Gaps.lookup_keep _ _ rel).symm.trans (hs.full rel)
    rw [lookup_fullReport hs.plain] at hsettled
    exact carried_of_settled hsettled (fun cov => treeGap_carried)
      fun cov h => (cargoGap_recomputed h).1
  rw [hrels, treeGap]
  by_cases hrel : rel ∈ visit.paths
  · obtain ⟨hexcluded, hunreadable⟩ := visit.apart rel hrel
    rw [dirGap, if_neg hunreadable, if_neg hexcluded, if_pos hrel, Option.none_or]
    by_cases hagain : rel ∈ reparsedRels (visit.plan hash s.manifest).changeSet
    · simp [hagain]
    · obtain ⟨hold, hcontent⟩ := hs.unread hplain hsignal hrel hagain
      simp only [hagain, hrel, if_false, Option.none_or, not_false_eq_true, decide_true,
        Bool.true_and, hcarried]
      rw [treeGap, if_pos hold, hcontent]
  · have hunread : rel ∉ reparsedRels (visit.plan hash s.manifest).changeSet := by
      intro h
      obtain ⟨d, hd, rfl⟩ := mem_map.mp h
      obtain ⟨hpath, hself⟩ := hread d hd
      rw [relId_eq_self (hplain.slashes d.abs hpath)] at hself
      exact hrel (hself ▸ hpath)
    simp [hrel, hunread]

/-- A pass leaves the record of a full index, verdicts gone. -/
theorem Kept.exact (hs : Kept I hash s) {visit : Visit Content}
    (hplain : Plain visit.toWalked) (hsignal : Signalled hash s.visit visit) (rel : Text) :
    (s.step I hash (.incremental visit)).report.files.lookup rel
      = (fullReport I visit.toWalked).files.lookup rel := by
  change (incrementalReport I (some s.report) visit.toWalked
    (visit.plan hash s.manifest).changeSet).files.lookup rel = _
  rw [lookup_incrementalReport hplain (reread_of_plan hplain s.manifest),
    hs.merged hplain hsignal, lookup_fullReport hplain]

theorem Kept.incremental (hs : Kept I hash s) {visit : Visit Content}
    (hplain : Plain visit.toWalked) (hsignal : Signalled hash s.visit visit) :
    Kept I hash (s.step I hash (.incremental visit)) where
  plain := hplain
  known rel := by
    exact (classify_nextManifest _ _ _ rel).trans (by rw [discovered_rels hplain]; rfl)
  states := by
    refine classify_nextManifest_all _ _ _ fun d hd => ?_
    obtain ⟨hpath, hself, hstat⟩ := mem_discovered hplain hd
    have hfresh : (d.mtimeNs, d.size) = visit.stat d.rel ∧
        hashOf (visit.hashFile hash) d = contentHash hash (visit.content d.rel) :=
      ⟨hself ▸ hstat, hself ▸ rfl⟩
    unfold nextState
    split
    · rename_i prev hprev
      split_ifs with hsame
      · obtain ⟨hprevStat, hprevHash⟩ := hs.states d.rel prev hprev
        have hold : d.rel ∈ s.visit.paths :=
          (hs.known d.rel).mp (Finmap.lookup_isSome.mp (Option.isSome_of_eq_some hprev))
        have hstat' : s.visit.stat d.rel = visit.stat d.rel := by
          rw [← hprevStat, ← hfresh.1, hsame.1, hsame.2]
        refine ⟨hprevStat.trans hstat', ?_⟩
        rw [hprevHash, hsignal d.rel hold (hself ▸ hpath) (.inl hstat')]
        rfl
      · exact hfresh
    · exact hfresh
  full rel := by
    rw [CoverageReport.settled, Gaps.lookup_keep, hs.exact hplain hsignal,
      ← Gaps.lookup_keep fun _ cov => cov.kind ≠ .unlinkedFile]
    exact settled_of_fullReport hplain rel

theorem settled_recordUnlinkedFile (report : CoverageReport) (key detail rel : Text) :
    (report.recordUnlinkedFile key detail).settled.lookup rel = report.settled.lookup rel := by
  simp only [CoverageReport.recordUnlinkedFile, CoverageReport.settled, Gaps.lookup_keep,
    Gaps.lookup_orInsert]
  cases report.files.lookup rel with
  | some cov => rfl
  | none => split_ifs <;> rfl

theorem Kept.verdicts (hs : Kept I hash s) (unlinked : List (Text × Text)) :
    Kept I hash (s.step I hash (.verdicts unlinked)) where
  plain := hs.plain
  known := hs.known
  states := hs.states
  full rel := by
    refine Eq.trans ?_ (hs.full rel)
    refine List.foldlRecOn unlinked _
      (motive := fun report : CoverageReport => report.settled.lookup rel = _) rfl ?_
    intro report hreport e _
    exact (settled_recordUnlinkedFile report e.1 e.2 rel).trans hreport

theorem Kept.step (hs : Kept I hash s) {e : CoverageEvent Content}
    (he : Visible hash s e) : Kept I hash (s.step I hash e) := by
  cases e with
  | incremental visit => exact hs.incremental he.1 he.2
  | verdicts unlinked => exact hs.verdicts unlinked

/-- After every pass of a run, the record has the entries that a full index of the tree of that
pass would record. -/
theorem carried_forward (I : Indexer Content) (hash : Content → Option Text)
    {first : Visit Content} (hfirst : Plain first.toWalked)
    {events : List (CoverageEvent Content)}
    (hvisible : Runs.Along (Indexed.step I hash) (Visible hash) events (indexFull I hash first)) :
    ∀ before visit after, events = before ++ .incremental visit :: after →
      (Runs.run (Indexed.step I hash) (before ++ [.incremental visit])
          (indexFull I hash first)).report.files.toFinmap
        = (fullReport I visit.toWalked).files.toFinmap := by
  intro before visit after hsplit
  rw [hsplit, Runs.along_append] at hvisible
  obtain ⟨hbefore, ⟨hplain, hsignal⟩, -⟩ := hvisible
  have hkept : Kept I hash (Runs.run (Indexed.step I hash) before (indexFull I hash first)) :=
    Runs.run_inv (fun s e hs he => hs.step he) (Kept.fullIndex hfirst) hbefore
  rw [Runs.run_append]
  exact Finmap.ext_lookup fun rel => hkept.exact hplain hsignal rel

/-! A file repaired between two passes, and one whose name has a backslash. -/

section Instances

/-- A parser that stops at the first `(`, over files without infrastructure or Cargo. -/
def parenIndexer : Indexer Text where
  parse _ content := if '(' ∈ content then .partialParse [(1, 1)] else .indexed
  iacGap _ _ := none
  attributed _ _ := ⟨.notApplicable [], [], []⟩

def oneFile (path content : Text) (mtimeNs : Int) : Visit Text where
  paths := [path]
  content _ := content
  excludedDirs := []
  unreadableDirs := []
  prunedDirs := []
  apart := by simp
  stat _ := (mtimeNs, content.length)

theorem carried_forward_repaired :
    (Runs.run (Indexed.step parenIndexer some)
        ([.verdicts [("b.py".toList, [])]] ++ [.incremental (oneFile "a.py".toList "x".toList 2)])
        (indexFull parenIndexer some (oneFile "a.py".toList "(".toList 1))).report.files.toFinmap
      = (fullReport parenIndexer (oneFile "a.py".toList "x".toList 2).toWalked).files.toFinmap := by
  have hplain (content : Text) (mtimeNs : Int) :
      Plain (oneFile "a.py".toList content mtimeNs).toWalked :=
    ⟨fun path h => by rw [mem_singleton.mp h]; decide,
      fun path h => by rw [mem_singleton.mp h]; decide⟩
  refine carried_forward parenIndexer some (hplain _ _) ?_ _ _ [] rfl
  refine ⟨trivial, ⟨hplain _ _, ?_⟩, trivial⟩
  rintro path - - (hstat | ⟨-, hhash⟩)
  · exact absurd (congrArg Prod.fst hstat) (show (1 : Int) ≠ 2 by decide)
  · exact absurd hhash (show "x".toList ≠ "(".toList by decide)

theorem backslash_gap_lost :
    ¬ (Runs.run (Indexed.step parenIndexer some)
        [.incremental (oneFile "a\\b.py".toList "(".toList 1)]
        (indexFull parenIndexer some (oneFile "a\\b.py".toList "(".toList 1))).report.files.toFinmap
      = (fullReport parenIndexer
          (oneFile "a\\b.py".toList "(".toList 1).toWalked).files.toFinmap := by
  decide +kernel

end Instances

end Runs

end Coverage

end CodeGraph
