import CodeGraph.Lib.Upsert
import CodeGraph.Verification

/-!
# The index of findings

The stages that write a finding's entry into the index of a run, each with the
merge it asks for. After any calls the entry is settled by the last refinement,
the last verification and whether the finding was extracted (`settled`), whatever
the order of the calls and whatever was written of other findings between them.
-/

namespace CodeGraph

namespace FindingIndex

open Upsert

/-! ## Merging -/

inductive MergeMode where
  | preserveDownstream
  | preserveStage2
  | preserveRefinedOnly
  | replace
  deriving DecidableEq

/-- The refined and the verified fields are those of the existing entry. -/
def mergePreserveDownstream (existing entry : IndexEntry) : IndexEntry where
  artifactPath := if existing.refinedAt.isSome then existing.artifactPath else entry.artifactPath
  extractorVersion := entry.extractorVersion
  orchestratorVersion := existing.orchestratorVersion
  refinedAt := existing.refinedAt
  verifiedAt := existing.verifiedAt
  verified := existing.verified
  stage2Path := existing.stage2Path

/-- The verified fields are those of the existing entry. -/
def mergePreserveStage2 (existing entry : IndexEntry) : IndexEntry where
  artifactPath := entry.artifactPath
  extractorVersion := entry.extractorVersion
  orchestratorVersion := entry.orchestratorVersion
  refinedAt := entry.refinedAt
  verifiedAt := existing.verifiedAt
  verified := existing.verified
  stage2Path := existing.stage2Path

def mergeIndexEntry (existing : Option IndexEntry) (entry : IndexEntry) :
    MergeMode → IndexEntry
  | .replace => entry
  | .preserveDownstream => (existing.map (mergePreserveDownstream · entry)).getD entry
  | .preserveStage2 => (existing.map (mergePreserveStage2 · entry)).getD entry
  | .preserveRefinedOnly => mergePreserveRefinedOnly existing entry

/-! ## The stages -/

def extractedFileName : Text := "stage-1.extracted.json".toList

/-- A stage that has written its artifact: the version of the orchestrator and the time
of a refinement, the receipt and the time of a verification. -/
inductive Stage where
  | extract
  | refine (orchestratorVersion refinedAt : Text)
  | finalize (receipt : VerifiedArtifact) (now : Text)

namespace Stage

def mode : Stage → MergeMode
  | extract => .preserveDownstream
  | refine _ _ => .preserveStage2
  | finalize _ _ => .preserveRefinedOnly

/-- The entry that a stage asks to write. -/
def entry (findingId : Text) : Stage → IndexEntry
  | extract =>
      { artifactPath := runRelative findingId extractedFileName
        extractorVersion := extractorVersion }
  | refine version refinedAt =>
      { artifactPath := runRelative findingId refinedFileName
        extractorVersion := extractorVersion
        orchestratorVersion := some version
        refinedAt := some refinedAt }
  | finalize receipt now => verifiedEntry findingId receipt now

def refined? : Stage → Option (Text × Text)
  | refine version refinedAt => some (version, refinedAt)
  | _ => none

def verified? : Stage → Option (VerifiedArtifact × Text)
  | finalize receipt now => some (receipt, now)
  | _ => none

def isExtract : Stage → Bool
  | extract => true
  | _ => false

end Stage

/-- A stage of a finding, and the clock when the index is written. -/
structure Call where
  findingId : Text
  stage : Stage
  now : Text

def upsertIndex (runId : Text) (idx : Option Index) (c : Call) : Index :=
  let idx := idx.getD ⟨runId, c.now, c.now, ∅⟩
  { idx with
    lastUpdatedAt := c.now
    findings := idx.findings.insert c.findingId
      (mergeIndexEntry (idx.findings.lookup c.findingId) (c.stage.entry c.findingId) c.stage.mode) }

/-- The index file after some calls, no file being there before them. -/
def indexAfter (runId : Text) (calls : List Call) : Option Index :=
  calls.foldl (fun idx c => some (upsertIndex runId idx c)) none

def entries (idx : Option Index) : Finmap fun _ : Text => IndexEntry :=
  (idx.map Index.findings).getD ∅

/-! ## One finding -/

/-- What a call makes of the entry of its finding. -/
def act (c : Call) (existing : Option IndexEntry) : IndexEntry :=
  mergeIndexEntry existing (c.stage.entry c.findingId) c.stage.mode

theorem entries_upsertIndex (runId : Text) (idx : Option Index) (c : Call) :
    entries (some (upsertIndex runId idx c)) = upsert c.findingId (act c) (entries idx) := by
  cases idx <;> rfl

theorem entries_indexAfter (runId : Text) (calls : List Call) :
    entries (indexAfter runId calls) = upserts Call.findingId act calls ∅ := by
  have hgen : ∀ idx, entries (calls.foldl (fun idx c => some (upsertIndex runId idx c)) idx) =
      upserts Call.findingId act calls (entries idx) := by
    induction calls with
    | nil =>
        intro idx
        rfl
    | cons c calls ih =>
        intro idx
        rw [List.foldl_cons, ih, entries_upsertIndex, upserts_cons]
  exact hgen none

section

variable (findingId : Text) (stages : List Stage)

def stagesOf (calls : List Call) : List Stage :=
  (calls.filter (·.findingId = findingId)).map Call.stage

def lastRefined : Option (Text × Text) := (stages.filterMap Stage.refined?).getLast?

def lastVerified : Option (VerifiedArtifact × Text) := (stages.filterMap Stage.verified?).getLast?

/-- The entry that some stages leave: the refined fields of the last refinement, the
verified fields of the last verification, and the furthest artifact. -/
def settled : IndexEntry where
  artifactPath :=
    if (lastRefined stages).isSome then runRelative findingId refinedFileName
    else if stages.any Stage.isExtract then runRelative findingId extractedFileName
    else []
  extractorVersion := extractorVersion
  orchestratorVersion := (lastRefined stages).map fun r => r.1
  refinedAt := (lastRefined stages).map fun r => r.2
  verifiedAt := (lastVerified stages).map fun v => v.2
  verified := (lastVerified stages).map fun v => v.1.verified
  stage2Path := (lastVerified stages).map fun _ => runRelative findingId verifiedFileName

variable {stages}

theorem lastRefined_concat (stage : Stage) :
    lastRefined (stages ++ [stage]) = stage.refined?.or (lastRefined stages) := by
  rw [lastRefined, List.filterMap_append]
  cases h : stage.refined? <;> simp [h, lastRefined]

theorem lastVerified_concat (stage : Stage) :
    lastVerified (stages ++ [stage]) = stage.verified?.or (lastVerified stages) := by
  rw [lastVerified, List.filterMap_append]
  cases h : stage.verified? <;> simp [h, lastVerified]

theorem merge_settled (stage : Stage) :
    mergeIndexEntry (some (settled findingId stages)) (stage.entry findingId) stage.mode =
      settled findingId (stages ++ [stage]) := by
  cases stage with
  | extract =>
      cases h : lastRefined stages <;>
        simp [Stage.mode, Stage.entry, Stage.refined?, Stage.verified?, Stage.isExtract,
          mergeIndexEntry, mergePreserveDownstream, settled, lastRefined_concat, lastVerified_concat, h]
  | refine version refinedAt =>
      simp [Stage.mode, Stage.entry, Stage.refined?, Stage.verified?, mergeIndexEntry,
        mergePreserveStage2, settled, lastRefined_concat, lastVerified_concat]
  | finalize receipt now =>
      simp [Stage.mode, Stage.entry, Stage.refined?, Stage.verified?, Stage.isExtract,
        mergeIndexEntry, mergePreserveRefinedOnly, settled, verifiedEntry, lastRefined_concat,
        lastVerified_concat]

theorem merge_first (stage : Stage) :
    mergeIndexEntry none (stage.entry findingId) stage.mode = settled findingId [stage] := by
  cases stage <;> rfl

theorem foldl_settled (stages : List Stage) (hne : stages ≠ []) :
    stages.foldl (fun e stage => some (mergeIndexEntry e (stage.entry findingId) stage.mode)) none =
      some (settled findingId stages) := by
  induction stages using List.reverseRecOn with
  | nil => exact absurd rfl hne
  | append_singleton stages stage ih =>
      rw [List.foldl_concat]
      rcases eq_or_ne stages [] with rfl | hstages
      · exact congrArg some (merge_first findingId stage)
      · rw [ih hstages, merge_settled]

theorem foldl_act (calls : List Call) (existing : Option IndexEntry)
    (h : ∀ c ∈ calls, c.findingId = findingId) :
    calls.foldl (fun e c => some (act c e)) existing = (calls.map Call.stage).foldl
      (fun e stage => some (mergeIndexEntry e (stage.entry findingId) stage.mode)) existing := by
  induction calls generalizing existing with
  | nil => rfl
  | cons c calls ih =>
      rw [List.foldl_cons, List.map_cons, List.foldl_cons, act, h c List.mem_cons_self,
        ih _ fun d hd => h d (List.mem_cons_of_mem c hd)]

/-- After any calls for any findings, a finding that had none has no entry; the entry
of another has the refined fields of its last refinement, the verified fields of its
last verification, and the refined artifact once it was refined. -/
theorem indexAfter_lookup (runId : Text) (calls : List Call) :
    (entries (indexAfter runId calls)).lookup findingId =
      if stagesOf findingId calls = [] then none
      else some
        { artifactPath :=
            if (lastRefined (stagesOf findingId calls)).isSome then
              runRelative findingId refinedFileName
            else if (stagesOf findingId calls).any Stage.isExtract then
              runRelative findingId extractedFileName
            else []
          extractorVersion := extractorVersion
          orchestratorVersion := (lastRefined (stagesOf findingId calls)).map fun r => r.1
          refinedAt := (lastRefined (stagesOf findingId calls)).map fun r => r.2
          verifiedAt := (lastVerified (stagesOf findingId calls)).map fun v => v.2
          verified := (lastVerified (stagesOf findingId calls)).map fun v => v.1.verified
          stage2Path := (lastVerified (stagesOf findingId calls)).map fun _ =>
            runRelative findingId verifiedFileName } := by
  have hown : ∀ c ∈ calls.filter (·.findingId = findingId), c.findingId = findingId :=
    fun c hc => of_decide_eq_true (List.mem_filter.mp hc).2
  rw [entries_indexAfter, lookup_upserts, Finmap.lookup_empty, foldl_act findingId _ _ hown]
  split
  case isTrue h =>
    rw [stagesOf] at h
    rw [h]
    rfl
  case isFalse h => exact foldl_settled findingId _ h

end

end FindingIndex

end CodeGraph
