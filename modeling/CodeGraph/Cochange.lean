import CodeGraph.UnifiedDiff
import CodeGraph.GitListing
import CodeGraph.Lib.Upsert

/-!
# Co-change mining

`mine` folds the commits of a range of `git log` into the change counts of the
files and of the pairs of files, which the sidecar keeps with the commit they are
current as of. The range is the window for a full run and what came after the last
mined commit for an incremental one.
-/

namespace CodeGraph

/-- `text.parse::<i64>()`. -/
def parseI64 : Text → Option Int
  | '-' :: '+' :: _ => none
  | '-' :: digits => ((GitDiff.parseU64 digits).filter (· ≤ 2 ^ 63)).map fun n => -n
  | text => ((GitDiff.parseU64 text).filter (· < 2 ^ 63)).map fun n => n

/-- `text.trim_matches(c)`. -/
def trimMatches (c : Char) (text : Text) : Text :=
  ((text.dropWhile (· = c)).reverse.dropWhile (· = c)).reverse

namespace Cochange

open Upsert

def cochangeSchemaVersion : Nat := 1

def maxFilesPerCommit : Nat := 20

inductive Mode where
  | full
  | incremental
  deriving DecidableEq

structure PairAgg where
  count : Nat
  lastTs : Int
  deriving DecidableEq

/-- The sidecar: how many commits changed a file, how many a pair of files, and the
commit the counts reflect. -/
structure CochangeState where
  schemaVersion : Nat
  lastSha : Text
  fileChanges : Finmap fun _ : Text => Nat
  pairs : Finmap fun _ : Text => PairAgg

def CochangeState.new : CochangeState where
  schemaVersion := cochangeSchemaVersion
  lastSha := []
  fileChanges := ∅
  pairs := ∅

structure MineResult where
  mode : Text
  commitsScanned : Nat
  edgesWritten : Nat
  minedToSha : Text
  deriving DecidableEq

/-- The changed files of a commit, as ids of the indexed subtree. -/
structure CommitFiles where
  files : List Text
  ts : Int
  deriving DecidableEq

/-! ## Counting -/

def order (a b : Text) : Text × Text := if a ≤ b then (a, b) else (b, a)

def pairKey (a b : Text) : Text := a ++ '\x1f' :: b

def splitKey (key : Text) : Option (Text × Text) :=
  match splitOnChar '\x1f' key with
  | a :: b :: _ => some (a, b)
  | _ => none

/-- `*entry(f).or_insert(0) += 1`. -/
def bump (n : Option Nat) : Nat := n.getD 0 + 1

def bumpPair (ts : Int) (agg : Option PairAgg) : PairAgg :=
  let agg := agg.getD ⟨0, 0⟩
  { count := agg.count + 1
    lastTs := if ts > agg.lastTs then ts else agg.lastTs }

/-- The pairs at `i < j`. -/
def pairsOf : List Text → List (Text × Text)
  | [] => []
  | f :: rest => rest.map (fun g => (f, g)) ++ pairsOf rest

def keyOf (pair : Text × Text) : Text :=
  let (a, b) := order pair.1 pair.2
  pairKey a b

def accumulateCommit (state : CochangeState) (c : CommitFiles) : CochangeState :=
  if c.files.length > maxFilesPerCommit ∨ c.files.length < 2 then
    match c.files with
    | [f] => { state with fileChanges := upsert f bump state.fileChanges }
    | _ => state
  else
    { state with
      fileChanges := c.files.foldl (fun m f => upsert f bump m) state.fileChanges
      pairs := (pairsOf c.files).foldl (fun m p => upsert (keyOf p) (bumpPair c.ts) m)
        state.pairs }

def accumulate (state : CochangeState) (commits : List CommitFiles) : CochangeState :=
  commits.foldl accumulateCommit state

/-! ## Reading git -/

/-- What `git log` is asked for: the window of a full run, or what came after a
commit. -/
inductive LogRange where
  | window
  | after (sha : Text)
  deriving DecidableEq

/-- The standard output of the git calls; `none` for a call that failed. -/
structure GitCalls where
  revParseHead : Option Text
  showPrefix : Option Text
  catFile : Text → Bool
  log : LogRange → Option Text

variable (cc : CharClass)

def gitHead (git : GitCalls) : Option Text :=
  git.revParseHead.bind fun out => if trim cc out = [] then none else some (trim cc out)

def gitKnown (git : GitCalls) (sha : Text) : Bool :=
  sha.all (fun c => (hexDigitValue c).isSome) && git.catFile sha

def parseTs (header : Text) : Int :=
  ((splitOnChar '\x1f' header)[1]?.bind fun ts => parseI64 (trim cc ts)).getD 0

def subtreeFiles (subtree : Text) (paths : List Text) : List Text :=
  (paths.filter fun l => trim cc l ≠ []).filterMap fun p => Bootstrap.stripPrefixPath p subtree

/-- One record of the log; `none` for a commit without a file of the subtree. -/
def parseCommit (subtree chunk : Text) : Option CommitFiles :=
  match lines (trimMatches '\n' chunk) with
  | [] => none
  | header :: rest =>
      let files := subtreeFiles cc subtree rest
      if files = [] then none else some ⟨files, parseTs cc header⟩

/-- A log that fails is read as an empty one. -/
def readCommitFiles (git : GitCalls) (range : LogRange) (subtree : Text) : List CommitFiles :=
  match git.log range with
  | none => []
  | some out => (splitOnChar '\x1e' out).filterMap (parseCommit cc subtree)

def showSubtree (git : GitCalls) : Text := (git.showPrefix.map (trim cc)).getD []

/-! ## A run -/

/-- What the writes of a run come to: the edges of the graph, counted, and the
sidecar. -/
structure Writes where
  rewriteEdges : Except Text Nat
  saveState : Except Text Unit

/-- The last mined commit is there and git knows it. -/
def hasResumePoint (git : GitCalls) (p : CochangeState) : Bool :=
  !p.lastSha.isEmpty && gitKnown git p.lastSha

/-- The counts to start from, the range to read and the name of the mode. -/
def startingPoint (git : GitCalls) (mode : Mode) (prior : Option CochangeState) :
    CochangeState × LogRange × Text :=
  match mode, prior with
  | .incremental, some p =>
      if hasResumePoint git p then (p, .after p.lastSha, "incremental".toList)
      else (.new, .window, "full".toList)
  | _, _ => (.new, .window, "full".toList)

/-- The result, and the state that is saved; nothing outside a git tree. -/
def mine (git : GitCalls) (writes : Writes) (mode : Mode) (prior : Option CochangeState) :
    Except Text (Option (MineResult × CochangeState)) :=
  match gitHead cc git with
  | none => .ok none
  | some head => do
      let (start, range, effectiveMode) := startingPoint git mode prior
      let commits := readCommitFiles cc git range (showSubtree cc git)
      let state := { accumulate start commits with lastSha := head }
      let edgesWritten ← writes.rewriteEdges
      writes.saveState
      return some (⟨effectiveMode, commits.length, edgesWritten, head⟩, state)

/-- A sidecar of a newer schema is not read. -/
def loadState (sidecar : Option CochangeState) : Option CochangeState :=
  sidecar.filter (·.schemaVersion ≤ cochangeSchemaVersion)

/-! ## The counts of a list of commits -/

def CommitFiles.isNoise (c : CommitFiles) : Bool :=
  c.files.length > maxFilesPerCommit || c.files.length < 2

def CommitFiles.counted (c : CommitFiles) : List Text :=
  if c.isNoise then (if c.files.length = 1 then c.files else []) else c.files

def CommitFiles.pairs (c : CommitFiles) : List (Text × Text) :=
  if c.isNoise then [] else pairsOf c.files

def fileEntries (commits : List CommitFiles) : List Text := commits.flatMap CommitFiles.counted

def pairEntries (commits : List CommitFiles) : List ((Text × Text) × Int) :=
  commits.flatMap fun c => c.pairs.map fun p => (p, c.ts)

variable {cc}

theorem accumulateCommit_eq (state : CochangeState) (c : CommitFiles) :
    accumulateCommit state c = { state with
      fileChanges := upserts id (fun _ => bump) c.counted state.fileChanges
      pairs := upserts (fun e => keyOf e.1) (fun e => bumpPair e.2)
        (c.pairs.map fun p => (p, c.ts)) state.pairs } := by
  unfold accumulateCommit CommitFiles.counted CommitFiles.pairs CommitFiles.isNoise
  by_cases hnoise : c.files.length > maxFilesPerCommit ∨ c.files.length < 2
  · simp only [if_pos hnoise, Bool.or_eq_true, decide_eq_true_eq, List.map_nil, upserts_nil]
    match hfiles : c.files with
    | [] => rfl
    | [f] => rfl
    | f :: g :: rest => rfl
  · simp only [if_neg hnoise, Bool.or_eq_true, decide_eq_true_eq]
    simp only [upserts, List.foldl_map, id]

theorem accumulate_eq (state : CochangeState) (commits : List CommitFiles) :
    accumulate state commits = { state with
      fileChanges := upserts id (fun _ => bump) (fileEntries commits) state.fileChanges
      pairs := upserts (fun e => keyOf e.1) (fun e => bumpPair e.2) (pairEntries commits)
        state.pairs } := by
  unfold accumulate fileEntries pairEntries
  induction commits generalizing state with
  | nil => rfl
  | cons c commits ih =>
      rw [List.foldl_cons, ih, accumulateCommit_eq, List.flatMap_cons, List.flatMap_cons,
        upserts_append, upserts_append]

theorem bumpPair_comm (e e' : (Text × Text) × Int) (x : Option PairAgg) :
    bumpPair e.2 (some (bumpPair e'.2 x)) = bumpPair e'.2 (some (bumpPair e.2 x)) := by
  simp only [bumpPair, Option.getD_some, PairAgg.mk.injEq, true_and]
  split_ifs <;> omega

/-- The order of the commits plays no part. -/
theorem accumulate_perm {commits commits' : List CommitFiles} (h : commits.Perm commits')
    (state : CochangeState) : accumulate state commits = accumulate state commits' := by
  have hfiles : (fileEntries commits).Perm (fileEntries commits') := h.flatMap_right _
  have hpairs : (pairEntries commits).Perm (pairEntries commits') := h.flatMap_right _
  rw [accumulate_eq, accumulate_eq, upserts_perm id _ (fun _ _ _ => rfl) hfiles,
    upserts_perm _ _ bumpPair_comm hpairs]

theorem accumulate_append (state : CochangeState) (before after : List CommitFiles) :
    accumulate (accumulate state before) after = accumulate state (before ++ after) :=
  List.foldl_append.symm

end Cochange

end CodeGraph
