import Mathlib.Data.Finmap
import CodeGraph.Text

/-!
# Verification sessions

The session of a finding, the machine that says which operation is allowed in
which state, and the four operations on it. A session lives in one file; what
`finalize_verification` leaves beside it are a receipt and an entry of the run's
index, written one after the other.

A request comes with what its run meets outside: the clock, the refined file of the
finding, and the reads and writes that fail. A failed write may as well be the end
of the process, which leaves the same files.
-/

namespace CodeGraph

/-! ## Arguments -/

/-- A JSON value, as far as the operations look into it. -/
inductive JsonArg (J : Type) where
  | null
  | str (s : Text)
  | other (value : J)
  deriving DecidableEq

/-- A reason code and a message. -/
structure StageErr where
  code : Text
  msg : Text
  deriving DecidableEq

def badRequest (msg : Text) : StageErr := ⟨"bad_request".toList, msg⟩

def ioErr (msg : Text) : StageErr := ⟨"io_error".toList, msg⟩

def unsafeIdErr (msg : Text) : StageErr := ⟨"unsafe_id".toList, msg⟩

def stage2Err (code msg : Text) : StageErr := ⟨code, msg⟩

/-- The arguments of a request, `none` when they are no object. -/
abbrev Args (J : Type) := Option (Text → Option (JsonArg J))

section Arguments

variable {J : Type}

def requireObject (spec : Text) : Args J → Except StageErr (Text → Option (JsonArg J))
  | some args => .ok args
  | none => .error (badRequest ("arguments must be an object (spec ".toList ++ spec ++ [')']))

def requireStringArg (args : Text → Option (JsonArg J)) (key : Text) : Except StageErr Text :=
  match args key with
  | some (.str s) => .ok s
  | _ =>
      .error (badRequest
        ("missing required field '".toList ++ key ++ "' (spec §9.2)".toList))

def safeIdMaxLen : Nat := 128

/-- The bytes of a text. -/
def byteLen (s : Text) : Nat := (s.map Char.utf8Size).sum

def isSafeIdChar (c : Char) : Bool :=
  (c.isAlpha || c.isDigit) || c = '.' || c = '_' || c = '-'

def unsafeId (kind why : Text) : StageErr :=
  unsafeIdErr ("unsafe ".toList ++ kind ++ " (spec §5.1.4, §9.3 Q4): ".toList ++ why)

def validateSafeId (kind id : Text) : Except StageErr Unit :=
  if id = [] then .error (unsafeId kind "must be non-empty".toList)
  else if byteLen id > safeIdMaxLen then
    .error (unsafeId kind ("length ".toList ++ Nat.toDigits 10 (byteLen id)
      ++ " exceeds max ".toList ++ Nat.toDigits 10 safeIdMaxLen))
  else if id.head? = some '.' then .error (unsafeId kind "must not start with '.'".toList)
  else if ['.', '.'] <:+: id then .error (unsafeId kind "must not contain '..'".toList)
  else if id.all isSafeIdChar then .ok ()
  else .error (unsafeId kind "must match [A-Za-z0-9._-]+".toList)

def pathComponents (path : Text) : List Text :=
  (splitOnChar '/' path).filter fun c => c ≠ [] ∧ c ≠ ['.']

/-- `debug` renders a text between quotes. -/
def requireAbsolute (debug : Text → Text) (path field : Text) : Except StageErr (List Text) :=
  if path.head? ≠ some '/' then
    .error (badRequest (field ++ " must be an absolute path (spec §3.1): got ".toList
      ++ debug path))
  else if ['.', '.'] ∈ pathComponents path then
    .error (badRequest (field ++ " must not contain '..' (spec §5.1.4): got ".toList
      ++ debug path))
  else .ok (pathComponents path)

/-- The finding an operation is on. -/
structure Address where
  outputDir : List Text
  runId : Text
  findingId : Text
  deriving DecidableEq

/-- The ids every operation takes; `spec` is the paragraph its errors cite. -/
def parseIds (debug : Text → Text) (spec : Text) (arguments : Args J) :
    Except StageErr ((Text → Option (JsonArg J)) × Address) := do
  let args ← requireObject spec arguments
  let runId ← requireStringArg args "run_id".toList
  validateSafeId "run_id".toList runId
  let findingId ← requireStringArg args "finding_id".toList
  validateSafeId "finding_id".toList findingId
  let outputDir ← requireStringArg args "output_dir".toList
  let outputDir ← requireAbsolute debug outputDir "output_dir".toList
  return (args, ⟨outputDir, runId, findingId⟩)

end Arguments

/-! ## The session and its machine -/

inductive SessionState where
  | «open»
  | waitingForUser
  | waitingForAgent
  | finalized
  | aborted
  deriving DecidableEq

inductive TurnKind where
  | agentQuestion
  | userAnswer
  deriving DecidableEq

structure SessionTurn (J : Type) where
  seq : Nat
  kind : TurnKind
  timestamp : Text
  content : Text
  «meta» : Option (JsonArg J)
  deriving DecidableEq

structure SessionFile (J : Type) where
  runId : Text
  findingId : Text
  state : SessionState
  turnCount : Nat
  startedAt : Text
  updatedAt : Text
  schemaOk : Bool
  verifierVersion : Text
  transcript : List (SessionTurn J)
  abortedAt : Option Text
  abortReason : Option Text
  deriving DecidableEq

inductive TransitionEvent where
  | start
  | agentQuestion
  | userAnswer
  | finalize
  | abort
  deriving DecidableEq

def TurnKind.event : TurnKind → TransitionEvent
  | .agentQuestion => .agentQuestion
  | .userAnswer => .userAnswer

def illegalTransition : Text := "illegal_transition".toList

/-- Legal on an aborted session only. -/
def transitionStart : SessionState → Except StageErr SessionState
  | .aborted => .ok .open
  | _ =>
      .error (stage2Err illegalTransition
        ("start_verification requires no session or an aborted session (spec §7.1, " ++
          "§12.1)").toList)

/-- Questions and answers alternate, a question first. -/
def transitionAppend : SessionState → TurnKind → Except StageErr SessionState
  | .open, .agentQuestion => .ok .waitingForUser
  | .waitingForUser, .userAnswer => .ok .waitingForAgent
  | .waitingForAgent, .agentQuestion => .ok .waitingForUser
  | _, _ =>
      .error (stage2Err "alternation_violation".toList
        ("two consecutive turns of the same kind are illegal (spec §3 alternation " ++
          "invariant, §12.2)").toList)

def transitionFinalize : SessionState → Except StageErr SessionState
  | .waitingForAgent => .ok .finalized
  | .open =>
      .error (stage2Err "no_clarification_round".toList
        ("finalize requires ≥1 agent_question AND ≥1 user_answer before it (spec " ++
          "§12.2)").toList)
  | .waitingForUser =>
      .error (stage2Err "unanswered_question".toList
        ("cannot finalize while an agent_question is awaiting a user_answer (spec §7.3, " ++
          "§12.2)").toList)
  | _ => .error (stage2Err illegalTransition "finalize rejected (spec §12.2)".toList)

def transitionAbort (_ : SessionState) : Except StageErr SessionState := .ok .aborted

def alreadyFinalized : StageErr :=
  stage2Err "already_finalized".toList
    "session is finalized; further writes are rejected (spec §8.4)".toList

def alreadyAborted : StageErr :=
  stage2Err "already_aborted".toList
    "session is aborted; only start_verification may restart it (spec §12.1)".toList

def canTransition (fromState : SessionState) (event : TransitionEvent) :
    Except StageErr SessionState :=
  if fromState = .finalized then .error alreadyFinalized
  else if fromState = .aborted ∧ event ≠ .start then .error alreadyAborted
  else
    match event with
    | .start => transitionStart fromState
    | .agentQuestion => transitionAppend fromState .agentQuestion
    | .userAnswer => transitionAppend fromState .userAnswer
    | .finalize => transitionFinalize fromState
    | .abort => transitionAbort fromState

/-! ## The files -/

structure VerifiedKind where
  schemaOk : Bool
  completenessOk : Bool
  userAcknowledged : Bool
  deriving DecidableEq

structure VerifiedArtifact where
  runId : Text
  findingId : Text
  verified : Bool
  verifiedKind : VerifiedKind
  finalizedAt : Text
  stage1RefinedPath : Text
  sessionPath : Text
  transcriptDigest : Text
  digestAlgorithm : Text
  transcriptBytesAtFinalize : Nat
  turnCount : Nat
  verifierVersion : Text
  completenessChecklist : List (Text × Bool)
  deriving DecidableEq

structure IndexEntry where
  artifactPath : Text := []
  extractorVersion : Text := []
  orchestratorVersion : Option Text := none
  refinedAt : Option Text := none
  verifiedAt : Option Text := none
  verified : Option Bool := none
  stage2Path : Option Text := none
  deriving DecidableEq

structure Index where
  runId : Text
  startedAt : Text
  lastUpdatedAt : Text
  findings : Finmap fun _ : Text => IndexEntry

/-- The files the operations keep, by the finding and by the run. -/
structure FindingStore (J : Type) where
  session : Address → Option (SessionFile J)
  receipt : Address → Option VerifiedArtifact
  index : List Text × Text → Option Index

def Address.run (a : Address) : List Text × Text := (a.outputDir, a.runId)

namespace FindingStore

variable {J : Type}

def empty : FindingStore J where
  session _ := none
  receipt _ := none
  index _ := none

def writeSession (st : FindingStore J) (a : Address) (s : SessionFile J) : FindingStore J :=
  { st with session := Function.update st.session a (some s) }

def writeReceipt (st : FindingStore J) (a : Address) (v : VerifiedArtifact) : FindingStore J :=
  { st with receipt := Function.update st.receipt a (some v) }

def writeIndex (st : FindingStore J) (run : List Text × Text) (idx : Index) : FindingStore J :=
  { st with index := Function.update st.index run (some idx) }

end FindingStore

/-! ## The operations -/

inductive RefinedFile where
  | missing
  | unreadable (err : Text)
  | corrupt (err : Text)
  | parsed
  deriving DecidableEq

/-- What a request meets outside the store. A fault is the error of the read or
the write it is named for. -/
structure Outside where
  now : Text
  refined : RefinedFile := .parsed
  readSession : Option Text := none
  mkdir : Option Text := none
  writeReceipt : Option Text := none
  writeSession : Option Text := none
  upsertIndex : Option Text := none

/-- Rendering of texts, and the digest of a transcript. -/
structure SessionHost (J : Type) where
  debug : Text → Text
  transcriptBytes : List (SessionTurn J) → Text
  sha256Hex : Text → Text

def verifierVersion : Text := "1.0.0".toList
def extractorVersion : Text := "1.0.0".toList
def digestAlgorithm : Text := "sha256".toList
def refinedFileName : Text := "stage-1.refined.json".toList
def sessionFileName : Text := "stage-2.session.json".toList
def verifiedFileName : Text := "stage-2.verified.json".toList
def runsDirName : Text := "runs".toList
def findingsDirName : Text := "findings".toList

def findingDirFor (a : Address) : Text :=
  '/' :: joinWith ['/'] (a.outputDir ++ [runsDirName, a.runId, findingsDirName, a.findingId])

def runRelative (findingId file : Text) : Text :=
  joinWith ['/'] [findingsDirName, findingId, file]

/-- What a call returns. -/
inductive SessionResponse where
  | started (state : SessionState) (runId findingId startedAt sessionPath : Text)
  | appended (state : SessionState) (seq turnCount : Nat)
  | finalized (artifact : VerifiedArtifact) (verifiedPath : Text)
  | aborted (state : SessionState) (runId findingId : Text) (turnCount : Nat) (abortedAt : Text)

section Operations

variable {J : Type} (host : SessionHost J)

/-- An outside fault as the error of the call. -/
def orFail (fault : Option Text) : Except StageErr Unit :=
  match fault with
  | some err => .error (ioErr err)
  | none => .ok ()

def requireSession (msg : Text) : Option (SessionFile J) → Except StageErr (SessionFile J)
  | some s => .ok s
  | none => .error (stage2Err "no_session".toList msg)

def readSession (out : Outside) (st : FindingStore J) (a : Address) :
    Except StageErr (Option (SessionFile J)) :=
  match st.session a with
  | none => .ok none
  | some s => (orFail out.readSession).map fun _ => some s

def checkStage1Refined (a : Address) : RefinedFile → Except StageErr Bool
  | .missing =>
      .error (stage2Err "no_extraction".toList
        ("no ".toList ++ refinedFileName ++ " at ".toList
          ++ host.debug (findingDirFor a ++ '/' :: refinedFileName)
          ++ " — call refine_finding first (spec §4 schema_ok, §7.1)".toList))
  | .unreadable err => .error (ioErr err)
  | .corrupt err => .error (stage2Err "corrupt_extraction".toList err)
  | .parsed => .ok true

def buildNewSession (a : Address) (schemaOk : Bool) (now : Text) : SessionFile J where
  runId := a.runId
  findingId := a.findingId
  state := .open
  turnCount := 0
  startedAt := now
  updatedAt := now
  schemaOk := schemaOk
  verifierVersion := verifierVersion
  transcript := []
  abortedAt := none
  abortReason := none

/-- Only an aborted session is restartable. -/
def checkRestart : Option (SessionFile J) → Except StageErr Unit
  | some existing => (canTransition existing.state .start).map fun _ => ()
  | none => .ok ()

/-- The session `start_verification` writes, once every check has passed. -/
def startSession (out : Outside) (arguments : Args J) (st : FindingStore J) :
    Except StageErr (Address × SessionFile J) := do
  let (_, a) ← parseIds host.debug "§7.1".toList arguments
  let schemaOk ← checkStage1Refined host a out.refined
  let existing ← readSession out st a
  checkRestart existing
  orFail out.mkdir
  orFail out.writeSession
  return (a, buildNewSession a schemaOk out.now)

def parseTurnKind (debug : Text → Text) (kind : Text) : Except StageErr TurnKind :=
  if kind = "agent_question".toList then .ok .agentQuestion
  else if kind = "user_answer".toList then .ok .userAnswer
  else
    .error (badRequest
      ("kind must be 'agent_question' or 'user_answer' (spec §5.2, §7.2): got ".toList
        ++ debug kind))

def requireContent (content : Text) : Except StageErr Unit :=
  if content = [] then
    .error (badRequest "content must be non-empty (spec §5.2 minLength:1)".toList)
  else .ok ()

/-- A `meta` of null is read back as none. -/
def turnMeta : Option (JsonArg J) → Option (JsonArg J)
  | some .null => none
  | m => m

def buildAppendedSession (prev : SessionFile J) (kind : TurnKind) (content : Text)
    («meta» : Option (JsonArg J)) (now : Text) : Except StageErr (SessionFile J) := do
  let state ← canTransition prev.state kind.event
  let turn : SessionTurn J := ⟨prev.transcript.length, kind, now, content, turnMeta «meta»⟩
  return { prev with
    state := state
    turnCount := (prev.transcript ++ [turn]).length
    updatedAt := now
    transcript := prev.transcript ++ [turn]
    abortedAt := none
    abortReason := none }

def appendSession (out : Outside) (arguments : Args J) (st : FindingStore J) :
    Except StageErr (Address × SessionFile J) := do
  let (args, a) ← parseIds host.debug "§7.2".toList arguments
  let kind ← requireStringArg args "kind".toList
  let kind ← parseTurnKind host.debug kind
  let content ← requireStringArg args "content".toList
  requireContent content
  let prev ← readSession out st a
  let prev ← requireSession
    "no stage-2.session.json — call start_verification first (spec §7.2)".toList prev
  let next ← buildAppendedSession prev kind content (args "meta".toList) out.now
  orFail out.writeSession
  return (a, next)

def buildAbortedSession (prev : SessionFile J) (reason : Option Text) (now : Text) :
    Except StageErr (SessionFile J) := do
  let _ ← canTransition prev.state .abort
  return { prev with
    state := .aborted
    updatedAt := now
    abortedAt := some now
    abortReason := reason }

def abortSession (out : Outside) (arguments : Args J) (st : FindingStore J) :
    Except StageErr (Address × SessionFile J) := do
  let (args, a) ← parseIds host.debug "§12.1".toList arguments
  let reason := match args "reason".toList with
    | some (.str s) => some s
    | _ => none
  let prev ← readSession out st a
  let prev ← requireSession "no stage-2.session.json to abort (spec §12.1)".toList prev
  let aborted ← buildAbortedSession prev reason out.now
  orFail out.writeSession
  return (a, aborted)

def computeCompleteness (transcript : List (SessionTurn J)) : Bool × List (Text × Bool) :=
  let hasQ := transcript.any fun t => t.kind = .agentQuestion
  let hasA := transcript.any fun t => t.kind = .userAnswer
  (hasQ && hasA,
    [("at_least_one_agent_question".toList, hasQ), ("at_least_one_user_answer".toList, hasA)])

def transcriptDigest (transcript : List (SessionTurn J)) : Text :=
  host.sha256Hex (host.transcriptBytes transcript)

def checkFinalizePreconditions (s : SessionFile J) : Except StageErr Unit :=
  if s.schemaOk = false then
    .error (stage2Err "schema_not_ok".toList
      "session.schema_ok is false; stage-1 artifact is broken (spec §7.3 (ii))".toList)
  else (canTransition s.state .finalize).map fun _ => ()

def buildVerifiedArtifact (s : SessionFile J) (a : Address) (now : Text) : VerifiedArtifact :=
  let (completenessOk, checklist) := computeCompleteness s.transcript
  { runId := s.runId
    findingId := s.findingId
    verified := s.schemaOk && completenessOk && true
    verifiedKind := ⟨s.schemaOk, completenessOk, true⟩
    finalizedAt := now
    stage1RefinedPath := runRelative a.findingId refinedFileName
    sessionPath := runRelative a.findingId sessionFileName
    transcriptDigest := transcriptDigest host s.transcript
    digestAlgorithm := digestAlgorithm
    transcriptBytesAtFinalize := (host.transcriptBytes s.transcript).length
    turnCount := s.turnCount
    verifierVersion := verifierVersion
    completenessChecklist := checklist }

/-- The session and the receipt of `finalize_verification`, once its checks have
passed. -/
def finalizeChecks (out : Outside) (arguments : Args J) (st : FindingStore J) :
    Except StageErr (Address × SessionFile J) := do
  let (_, a) ← parseIds host.debug "§7.3".toList arguments
  let s ← readSession out st a
  let s ← requireSession
    "no stage-2.session.json — call start_verification first (spec §7.3)".toList s
  checkFinalizePreconditions s
  return (a, s)

def mergePreserveRefinedOnly (existing : Option IndexEntry) (entry : IndexEntry) : IndexEntry :=
  match existing with
  | none => entry
  | some e =>
      { e with
        verifiedAt := entry.verifiedAt
        verified := entry.verified
        stage2Path := entry.stage2Path }

def verifiedEntry (findingId : Text) (v : VerifiedArtifact) (now : Text) : IndexEntry :=
  { extractorVersion := extractorVersion
    verifiedAt := some now
    verified := some v.verified
    stage2Path := some (runRelative findingId verifiedFileName) }

def upsertIndexEntry (idx : Option Index) (a : Address) (entry : IndexEntry) (now : Text) :
    Index :=
  let idx := idx.getD ⟨a.runId, now, now, ∅⟩
  { idx with
    lastUpdatedAt := now
    findings := idx.findings.insert a.findingId
      (mergePreserveRefinedOnly (idx.findings.lookup a.findingId) entry) }

def finalizedSession (s : SessionFile J) (now : Text) : SessionFile J :=
  { s with
    state := .finalized
    updatedAt := now }

/-- The receipt, then the session, then the index; each write goes through before
the next is tried. -/
def persistFinalize (out : Outside) (a : Address) (s : SessionFile J) (v : VerifiedArtifact)
    (st : FindingStore J) : Except StageErr Unit × FindingStore J :=
  match orFail out.writeReceipt with
  | .error e => (.error e, st)
  | .ok () =>
      let st := st.writeReceipt a v
      match orFail out.writeSession with
      | .error e => (.error e, st)
      | .ok () =>
          let st := st.writeSession a (finalizedSession s out.now)
          match orFail out.upsertIndex with
          | .error e => (.error e, st)
          | .ok () =>
              let idx := upsertIndexEntry (st.index a.run) a
                (verifiedEntry a.findingId v out.now) out.now
              (.ok (), st.writeIndex a.run idx)

/-- A session operation with its arguments. -/
inductive SessionOp where
  | start
  | append
  | finalize
  | abort
  deriving DecidableEq

structure SessionRequest (J : Type) where
  op : SessionOp
  arguments : Args J
  out : Outside

def sessionPathFor (a : Address) : Text := findingDirFor a ++ '/' :: sessionFileName

def doStartVerification (out : Outside) (arguments : Args J) (st : FindingStore J) :
    Except StageErr SessionResponse × FindingStore J :=
  match startSession host out arguments st with
  | .error e => (.error e, st)
  | .ok (a, s) =>
      (.ok (.started s.state s.runId s.findingId s.startedAt (sessionPathFor a)),
        st.writeSession a s)

def doAppendClarification (out : Outside) (arguments : Args J) (st : FindingStore J) :
    Except StageErr SessionResponse × FindingStore J :=
  match appendSession host out arguments st with
  | .error e => (.error e, st)
  | .ok (a, s) =>
      (.ok (.appended s.state (s.transcript.length - 1) s.turnCount), st.writeSession a s)

def doAbortVerification (out : Outside) (arguments : Args J) (st : FindingStore J) :
    Except StageErr SessionResponse × FindingStore J :=
  match abortSession host out arguments st with
  | .error e => (.error e, st)
  | .ok (a, s) =>
      (.ok (.aborted s.state s.runId s.findingId s.turnCount out.now), st.writeSession a s)

def doFinalizeVerification (out : Outside) (arguments : Args J) (st : FindingStore J) :
    Except StageErr SessionResponse × FindingStore J :=
  match finalizeChecks host out arguments st with
  | .error e => (.error e, st)
  | .ok (a, s) =>
      let v := buildVerifiedArtifact host s a out.now
      match persistFinalize out a s v st with
      | (.error e, st) => (.error e, st)
      | (.ok (), st) => (.ok (.finalized v (findingDirFor a ++ '/' :: verifiedFileName)), st)

def serve (st : FindingStore J) (r : SessionRequest J) :
    Except StageErr SessionResponse × FindingStore J :=
  match r.op with
  | .start => doStartVerification host r.out r.arguments st
  | .append => doAppendClarification host r.out r.arguments st
  | .finalize => doFinalizeVerification host r.out r.arguments st
  | .abort => doAbortVerification host r.out r.arguments st

def FindingStore.step (st : FindingStore J) (r : SessionRequest J) : FindingStore J :=
  (serve host st r).2

end Operations

end CodeGraph
