import Mathlib.Data.List.AList
import CodeGraph.Classify
import CodeGraph.LightLink

/-!
# The coverage record

Which files an index could not fully cover, and why. A full index collects the gaps of every
file it walks; an incremental pass keeps the gaps of the files it does not read again, and
both then ask Cargo which files no default build compiles. The sidecar holds one gap a file,
so the order in which the gaps are recorded decides which one it is.
-/

namespace CodeGraph

namespace Coverage

inductive CoverageKind
  | parsePartial | skipped | quarantined | outsideBuildTargets | unlinkedFile | featureGated
  deriving DecidableEq

structure FileCoverage where
  kind : CoverageKind
  detail : Text
  errorRanges : List (ℕ × ℕ)
  deriving DecidableEq

abbrev Gaps := AList fun _ : Text => FileCoverage

/-- The entries that `p` lets through. -/
def Gaps.keep (p : Text → FileCoverage → Bool) (gaps : Gaps) : Gaps where
  entries := gaps.entries.filter fun e => p e.1 e.2
  nodupKeys := gaps.nodupKeys.sublist List.filter_sublist

/-- `entry(rel).or_insert(cov)`. -/
def Gaps.orInsert (rel : Text) (cov : FileCoverage) (gaps : Gaps) : Gaps :=
  if rel ∈ gaps then gaps else gaps.insert rel cov

inductive CargoAttributionStatus
  | known
  | unknown (detail : Text)
  | notApplicable (detail : Text)
  deriving DecidableEq

structure CoverageReport where
  indexMode : Text
  filesIndexed : ℕ
  files : Gaps
  prunedDirs : AList fun _ : Text => Text
  cargoAttribution : Option CargoAttributionStatus

namespace CoverageReport

def new (indexMode : Text) (filesIndexed : ℕ) : CoverageReport where
  indexMode := indexMode
  filesIndexed := filesIndexed
  files := ∅
  prunedDirs := ∅
  cargoAttribution := none

/-- `counts()` at one kind. -/
def count (report : CoverageReport) (kind : CoverageKind) : ℕ :=
  report.files.entries.countP fun e => e.2.kind = kind

def recordUnlinkedFile (rel detail : Text) (report : CoverageReport) : CoverageReport :=
  { report with files := report.files.orInsert rel ⟨.unlinkedFile, detail, []⟩ }

end CoverageReport

/-! ## What the files and Cargo say -/

inductive ParseOutcome
  | indexed
  | partialParse (ranges : List (ℕ × ℕ))
  | skipped (reason : Text)
  | quarantined (reason : Text)
  deriving DecidableEq

/-- What the infrastructure pass found of one file. -/
inductive IacGap
  | partialParse (ranges : List (ℕ × ℕ))
  | skipped (reason : Text)
  deriving DecidableEq

/-- One walk of the codebase: the files to index, by the text of their root-relative path, and
the directories it did not enter. -/
structure Walked (Content : Type) where
  paths : List Text
  content : Text → Content
  excludedDirs : List Text
  unreadableDirs : List Text
  prunedDirs : List (Text × Text)
  /-- A path is a file or a directory. -/
  apart : ∀ path ∈ paths, path ∉ excludedDirs ∧ path ∉ unreadableDirs

structure CargoAttributions where
  status : CargoAttributionStatus
  outsideTargets : List Text
  featureGated : List (Text × Text)

/-- The parts of the indexer that the record rests on. `attributed` is what `cargo metadata`
and the module trees say of a set of Rust files of the codebase. -/
structure Indexer (Content : Type) where
  parse : Text → Content → ParseOutcome
  iacGap : Text → Content → Option IacGap
  attributed : Walked Content → Finset Text → CargoAttributions

/-! ## The collector -/

structure CoverageCollector where
  files : Gaps := ∅
  filesIndexed : ℕ := 0
  prunedDirs : AList (fun _ : Text => Text) := ∅
  cargoAttribution : Option CargoAttributionStatus := none

def partialGap (errorRanges : List (ℕ × ℕ)) : FileCoverage where
  kind := .parsePartial
  detail := Nat.toDigits 10 errorRanges.length ++ " error range(s)".toList
  errorRanges := errorRanges

def skippedGap (reason : Text) : FileCoverage := ⟨.skipped, reason, []⟩

def quarantinedGap (reason : Text) : FileCoverage := ⟨.quarantined, reason, []⟩

namespace CoverageCollector

variable (c : CoverageCollector)

def noteIndexed : CoverageCollector := { c with filesIndexed := c.filesIndexed + 1 }

def recordPartial (rel : Text) (errorRanges : List (ℕ × ℕ)) : CoverageCollector :=
  { c with files := c.files.insert rel (partialGap errorRanges) }

def recordSkipped (rel reason : Text) : CoverageCollector :=
  { c with files := c.files.insert rel (skippedGap reason) }

def recordQuarantined (rel reason : Text) : CoverageCollector :=
  { c with files := c.files.insert rel (quarantinedGap reason) }

def recordPruned (rel reason : Text) : CoverageCollector :=
  { c with prunedDirs := c.prunedDirs.insert rel reason }

def recordOutsideTargets (rel detail : Text) : CoverageCollector :=
  { c with files := c.files.orInsert rel ⟨.outsideBuildTargets, detail, []⟩ }

def recordFeatureGated (rel detail : Text) : CoverageCollector :=
  { c with files := c.files.orInsert rel ⟨.featureGated, detail, []⟩ }

def setCargoAttribution (status : CargoAttributionStatus) : CoverageCollector :=
  { c with cargoAttribution := some status }

end CoverageCollector

def recordOutcome (rel : Text) (outcome : ParseOutcome) (c : CoverageCollector) :
    CoverageCollector :=
  match outcome with
  | .indexed => c.noteIndexed
  | .partialParse ranges => c.noteIndexed.recordPartial rel ranges
  | .skipped reason => c.recordSkipped rel reason
  | .quarantined reason => c.recordQuarantined rel reason

/-- As `recordOutcome`; the caller counts the files itself. -/
def recordReparseOutcome (rel : Text) (outcome : ParseOutcome) (c : CoverageCollector) :
    CoverageCollector :=
  match outcome with
  | .indexed => c
  | .partialParse ranges => c.recordPartial rel ranges
  | .skipped reason => c.recordSkipped rel reason
  | .quarantined reason => c.recordQuarantined rel reason

/-- The gaps of one infrastructure pass. -/
structure IacGaps where
  partials : List (Text × List (ℕ × ℕ))
  skipped : List (Text × Text)

def foldIacGaps (gaps : IacGaps) (c : CoverageCollector) : CoverageCollector :=
  let c := gaps.partials.foldl (fun c (rel, ranges) => c.recordPartial rel ranges) c
  gaps.skipped.foldl (fun c (rel, reason) => c.recordSkipped rel reason) c

section Passes

variable {Content : Type} (I : Indexer Content)

def recordWalk (tree : Walked Content) (c : CoverageCollector) : CoverageCollector :=
  let c := tree.excludedDirs.foldl (fun c rel => c.recordSkipped rel "user_excluded".toList) c
  let c := tree.unreadableDirs.foldl (fun c rel => c.recordSkipped rel "unreadable".toList) c
  tree.prunedDirs.foldl (fun c (rel, reason) => c.recordPruned rel reason) c

/-- The gaps that the infrastructure pass finds in `sources`. -/
def runIacPass (tree : Walked Content) (sources : List Text) : IacGaps where
  partials := sources.filterMap fun path =>
    match I.iacGap path (tree.content path) with
    | some (.partialParse ranges) => some (relId path, ranges)
    | _ => none
  skipped := sources.filterMap fun path =>
    match I.iacGap path (tree.content path) with
    | some (.skipped reason) => some (relId path, reason)
    | _ => none

def outsideTargetsDetail : Text :=
  ("not in any Cargo target (cargo metadata --no-deps); " ++
    "declarations are indexed, calls cannot be resolved by the language server").toList

/-! ## The full index -/

/-- `path.extension() == Some("rs")`. -/
def hasRustExtension (path : Text) : Bool := extension path = "rs".toList

def recordCargoAttributions (tree : Walked Content) (c : CoverageCollector) : CoverageCollector :=
  let rustFiles := (tree.paths.filter hasRustExtension).toFinset
  let found := I.attributed tree rustFiles
  let c := found.outsideTargets.foldl
    (fun c rel => c.recordOutsideTargets rel outsideTargetsDetail) c
  let c := found.featureGated.foldl (fun c (rel, detail) => c.recordFeatureGated rel detail) c
  c.setCargoAttribution found.status

/-- The collector of a full index before Cargo is asked. -/
def collectFull (tree : Walked Content) : CoverageCollector :=
  let c := recordWalk tree {}
  let c := tree.paths.foldl
    (fun c path => recordOutcome path (I.parse path (tree.content path)) c) c
  foldIacGaps (runIacPass I tree tree.paths) c

/-- The coverage of `index_codebase_with_language`. -/
def fullReport (tree : Walked Content) : CoverageReport :=
  let collector := recordCargoAttributions I tree (collectFull I tree)
  { CoverageReport.new "full".toList collector.filesIndexed with
    files := collector.files
    prunedDirs := collector.prunedDirs
    cargoAttribution := collector.cargoAttribution }

/-! ## The incremental pass -/

/-- The ids of the walked files. -/
def Walked.currentRels (tree : Walked Content) : List Text := tree.paths.map relId

/-- The files that `apply_changes` reads again. -/
def reparsed (changes : ChangeSet) : List Discovered :=
  changes.changed ++ changes.added ++ changes.renamed.map Rename.newFile

def reparsedRels (changes : ChangeSet) : List Text := (reparsed changes).map Discovered.rel

/-- The gaps that `apply_changes` returns. -/
def reparsedGaps (tree : Walked Content) (changes : ChangeSet) : Gaps :=
  let c := (reparsed changes).foldl
    (fun c d => recordReparseOutcome d.rel (I.parse d.abs (tree.content d.abs)) c)
    ({} : CoverageCollector)
  let sources := tree.paths.filter fun path => relId path ∈ reparsedRels changes
  (foldIacGaps (runIacPass I tree sources) c).files

/-- The kinds that are found anew in every pass. -/
def isRecomputed (kind : CoverageKind) : Bool :=
  kind ∈ [CoverageKind.outsideBuildTargets, .unlinkedFile, .featureGated]

def mergeCoverage (prior : Option CoverageReport) (reparsedRels currentRels : List Text)
    (reparsedGaps : Gaps) (indexMode : Text) (filesIndexed : ℕ) : CoverageReport :=
  let report := CoverageReport.new indexMode filesIndexed
  let carried := match prior with
    | some prior => prior.files.keep fun rel cov =>
        rel ∈ currentRels && rel ∉ reparsedRels && !isRecomputed cov.kind
    | none => ∅
  let report := { report with files := reparsedGaps ∪ carried }
  { report with
    filesIndexed := filesIndexed - (report.count .skipped + report.count .quarantined) }

def overlayCargoAttributions (tree : Walked Content) (report : CoverageReport) : CoverageReport :=
  let rustFiles := (tree.currentRels.filter fun rel => ".rs".toList.isSuffixOf rel).toFinset
  let found := I.attributed tree rustFiles
  let files := found.outsideTargets.foldl
    (fun files rel => files.orInsert rel ⟨.outsideBuildTargets, outsideTargetsDetail, []⟩)
    report.files
  let files := found.featureGated.foldl
    (fun files (rel, detail) => files.orInsert rel ⟨.featureGated, detail, []⟩) files
  { report with files := files, cargoAttribution := some found.status }

/-- `index_incremental`, as far as the record goes: the gaps of the files read again and of the
walk, merged into the prior record. -/
def incrementalReport (prior : Option CoverageReport) (tree : Walked Content)
    (changes : ChangeSet) : CoverageReport :=
  let walk := recordWalk tree {}
  let mergedGaps := walk.files ∪ reparsedGaps I tree changes
  let report := mergeCoverage prior (reparsedRels changes) tree.currentRels mergedGaps
    "incremental".toList tree.paths.length
  overlayCargoAttributions I tree { report with prunedDirs := walk.prunedDirs }

end Passes

end Coverage

end CodeGraph
