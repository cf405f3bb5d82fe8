import CodeGraph.LspFrames
import CodeGraph.Lib.Runs

/-!
# A connection to a language server

`LspClient`: one request after the other, each followed by a read for its own id. The
server, the thread that reads its output and the client move independently of each other:
frames wait in the server's output, in the hands of the thread and in a queue of bounded
length, and the client empties the queue before it writes. Beside the state of the client
stands what only an observer sees, which request each answer was sent to.
-/

namespace CodeGraph

namespace Lsp

/-! ## Answers -/

def asStr : Json → Option Text
  | .str s => some s
  | _ => none

def asU64 : Json → Option Nat
  | .num i => if 0 ≤ i ∧ i < 2 ^ 64 then some i.toNat else none
  | _ => none

def asI64 : Json → Option ℤ
  | .num i => if -2 ^ 63 ≤ i ∧ i < 2 ^ 63 then some i else none
  | _ => none

/-- A response carries no `method`; a request of the server, whatever its id, always does. -/
def isResponseTo (msg : Json) (targetId : ℤ) : Bool :=
  (msg.get "method").isNone && (msg.get "id").bind asI64 == some targetId

theorem isResponseTo_inj {msg : Json} {a b : ℤ} (ha : isResponseTo msg a) (hb : isResponseTo msg b) :
    a = b := by
  simp only [isResponseTo, Bool.and_eq_true, beq_iff_eq] at ha hb
  exact Option.some.inj (ha.2.symm.trans hb.2)

/-- The id of the request that a frame can be taken to answer. -/
def responseId (msg : Json) : Option ℤ :=
  if (msg.get "method").isNone then (msg.get "id").bind asI64 else none

theorem isResponseTo_iff {msg : Json} {id : ℤ} : isResponseTo msg id ↔ responseId msg = some id := by
  rw [isResponseTo, responseId]
  split <;> simp_all

structure DefinitionResult where
  uri : Text
  startLine : Nat
  startCol : Nat

def preferredUri (location : Json) : Option Text :=
  ((location.get "targetUri").or (location.get "uri")).bind asStr

def preferredRange (location : Json) : Option Json :=
  ((location.get "targetSelectionRange").or (location.get "targetRange")).or (location.get "range")

def parseLocation (location : Json) : Except Text (Option DefinitionResult) :=
  match preferredUri location, preferredRange location with
  | some uri, some range =>
      match range.get "start" with
      | none => .error "missing range.start".toList
      | some start =>
          .ok (some ⟨uri, ((start.get "line").bind asU64).getD 0,
            ((start.get "character").bind asU64).getD 0⟩)
  | _, _ => .ok none

def parseDefinitionResponse (resp : Json) : Except Text (Option DefinitionResult) :=
  match resp.get "error" with
  | some err => .error ("LSP error: ".toList ++ err.compact)
  | none =>
      match resp.get "result" with
      | some (.array (location :: _)) => parseLocation location
      | some (.object fields) => parseLocation (.object fields)
      | _ => .ok none

def validateProbeResponse (resp : Json) : Bool :=
  (resp.get "jsonrpc").bind asStr == some "2.0".toList &&
    ((resp.get "result").isSome || (resp.get "error").isSome)

/-! ## The read loop -/

inductive UnparseableFrame where
  | skip
  | failFast
  deriving DecidableEq

inductive ReadFailure where
  | expired
  | frame (message : Text)

/-- One turn of the loop: the deadline has passed, or there is what `next_frame` gave. -/
inductive Turn where
  | expired
  | next (frame : Frame)

/-- `none` where the loop goes on. -/
def Turn.outcome (targetId : ℤ) (policy : UnparseableFrame) : Turn → Option (Except ReadFailure Json)
  | .expired => some (.error .expired)
  | .next (.ok msg) => if isResponseTo msg targetId then some (.ok msg) else none
  | .next (.error e) =>
      if e.isSkippable ∧ policy = .skip then none else some (.error (.frame e.message))

def readResponse (targetId : ℤ) (policy : UnparseableFrame) (turns : List Turn) :
    Option (Except ReadFailure Json) :=
  turns.findSome? (Turn.outcome targetId policy)

theorem readResponse_append {targetId : ℤ} {policy : UnparseableFrame} {turns : List Turn}
    (h : readResponse targetId policy turns = none) (turn : Turn) :
    readResponse targetId policy (turns ++ [turn]) = turn.outcome targetId policy := by
  rw [readResponse, List.findSome?_append, ← readResponse, h, Option.none_or, List.findSome?_singleton]

/-! ## The parties -/

inductive Request where
  | initializeWithProbe
  | definition (fileUri : Text) (line col : Nat)
  | diagnostic (fileUri : Text)
  | shutdown
  deriving DecidableEq

/-- The probe asks whether there is a language server at all. -/
def Request.policy : Request → UnparseableFrame
  | initializeWithProbe => .failFast
  | definition .. | diagnostic _ | shutdown => .skip

inductive Notice where
  | initialized
  | didOpen (fileUri languageId text : Text)
  | exit

/-- A request of ours. `broken` says whether the output of the server had a framing failure in
it by then. -/
structure Issued where
  id : ℤ
  request : Request
  broken : Bool

/-- A frame on its way, and the request it was sent to as the answer. -/
structure Sent where
  frame : Frame
  answers : Option Nat

inductive Outgoing where
  | request (i : Nat)
  | notice (n : Notice)

inductive Phase where
  | idle
  | draining (out : Outgoing)
  | writing (out : Outgoing)
  | waiting (i : Nat) (heard : List Turn)
  | settling
  | closed

inductive Reader where
  | reading
  | holding (sent : Sent)
  | stopped

inductive Failure where
  | unsent (message : Text)
  | read (failure : ReadFailure)

/-- A request that has returned, after so many turns of its read loop. -/
structure Ended where
  index : Nat
  heard : List Turn
  result : Except Failure Json

structure Connection where
  requestId : ℤ
  phase : Phase
  queue : List Sent
  reader : Reader
  stdout : List Sent
  broken : Bool
  issued : List Issued
  answered : List (Nat × Json)
  ended : List Ended

/-- `FRAME_QUEUE_DEPTH` -/
def frameQueueDepth : Nat := 64

def Connection.start : Connection where
  requestId := 1
  phase := .idle
  queue := []
  reader := .reading
  stdout := []
  broken := false
  issued := []
  answered := []
  ended := []

namespace Connection

/-- `next_id` and the beginning of `send_request`. -/
def call (s : Connection) (r : Request) : Connection :=
  { s with
    requestId := s.requestId + 1
    issued := s.issued ++ [⟨s.requestId, r, s.broken⟩]
    phase := .draining (.request s.issued.length) }

/-- Where a request leaves the client. -/
def afterRequest (r : Request) (result : Except Failure Json) : Phase :=
  match r, result with
  | .initializeWithProbe, .ok resp =>
      if validateProbeResponse resp then .draining (.notice .initialized) else .idle
  | .shutdown, _ => .draining (.notice .exit)
  | _, _ => .idle

def finish (s : Connection) (i : Nat) (heard : List Turn) (result : Except Failure Json) :
    Connection :=
  match s.issued[i]? with
  | none => s
  | some r => { s with phase := afterRequest r.request result, ended := s.ended ++ [⟨i, heard, result⟩] }

def wrote (s : Connection) (out : Outgoing) (result : Except Text Unit) : Connection :=
  match out, result with
  | .request i, .ok _ => { s with phase := .waiting i [] }
  | .request i, .error m => s.finish i [] (.error (.unsent m))
  | .notice .initialized, .ok _ => { s with phase := .settling }
  | .notice .exit, _ => { s with phase := .closed }
  | .notice _, _ => { s with phase := .idle }

/-- A turn of the read loop. -/
def hear (s : Connection) (i : Nat) (heard : List Turn) (turn : Turn) : Connection :=
  match s.issued[i]? with
  | none => s
  | some r =>
      match turn.outcome r.id r.request.policy with
      | none => { s with phase := .waiting i (heard ++ [turn]) }
      | some result => s.finish i (heard ++ [turn]) (result.mapError .read)

def emit (s : Connection) (sent : Sent) : Connection := { s with stdout := s.stdout ++ [sent] }

/-- The bytes of a request are out once the queue has been emptied for it. -/
def Reached (s : Connection) (i : Nat) : Prop :=
  match s.phase with
  | .draining (.request j) => i ≠ j
  | _ => True

instance (s : Connection) (i : Nat) : Decidable (s.Reached i) := by
  unfold Reached
  split <;> infer_instance

end Connection

/-- What happens next, on any of the sides. -/
inductive Event where
  /-- the client sends a request, or opens a document -/
  | call (r : Request)
  | didOpen (fileUri languageId text : Text)
  /-- one turn of `drain_pending`, or the end of it -/
  | drain
  | write (result : Except Text Unit)
  /-- the budget of a read is used up, at the head of the loop or in `next_frame` -/
  | expire
  | elapse (shown : Text)
  | receive
  | settle
  /-- the thread reads a frame, or pushes the one it has -/
  | read
  | push
  /-- the server answers a request, or writes a frame that is an answer to none of ours -/
  | answer (i : Nat) (v : Json)
  | say (v : Json)
  | malformed (message : Text)
  | failFraming (message : Text)

namespace Connection

/-- `next_frame`, where it returns a frame; a channel without a sender is at its end. -/
def nextFrame (s : Connection) : Option (Frame × Connection) :=
  match s.queue, s.reader with
  | sent :: queue, _ => some (sent.frame, { s with queue })
  | [], .stopped => some (.error (.fatal
      "eof_before_header: child stdout closed without LSP framing".toList), s)
  | [], _ => none

def receive (s : Connection) : Connection :=
  match s.phase, s.nextFrame with
  | .waiting i heard, some (frame, s') => s'.hear i heard (.next frame)
  | .settling, some (frame, s') => if Stops frame then { s' with phase := .idle } else s'
  | _, _ => s

/-- The loop of `spawn_frame_reader`, in two moves. -/
def readFrame (s : Connection) : Connection :=
  match s.reader, s.stdout with
  | .reading, sent :: stdout => { s with reader := .holding sent, stdout }
  | _, _ => s

def pushFrame (s : Connection) : Connection :=
  match s.reader with
  | .holding sent =>
      if s.queue.length < frameQueueDepth then
        { s with
          queue := s.queue ++ [sent]
          reader := if Stops sent.frame then .stopped else .reading }
      else s
  | _ => s

def drain (s : Connection) : Connection :=
  match s.phase, s.queue with
  | .draining out, [] => { s with phase := .writing out }
  | .draining _, _ :: queue => { s with queue }
  | _, _ => s

/-- The server answers a request that has reached it, under the id of the request. -/
def answer (s : Connection) (i : Nat) (v : Json) : Connection :=
  match s.issued[i]? with
  | none => s
  | some r =>
      if s.Reached i ∧ isResponseTo v r.id then
        { s.emit ⟨.ok v, some i⟩ with answered := s.answered ++ [(i, v)] }
      else s

def step (s : Connection) : Event → Connection
  | .call r => match s.phase with
      | .idle => s.call r
      | _ => s
  | .didOpen fileUri languageId text => match s.phase with
      | .idle => { s with phase := .draining (.notice (.didOpen fileUri languageId text)) }
      | _ => s
  | .drain => s.drain
  | .write result => match s.phase with
      | .writing out => s.wrote out result
      | _ => s
  | .expire => match s.phase with
      | .waiting i heard => s.hear i heard .expired
      | _ => s
  | .elapse shown => match s.phase, s.queue with
      | .waiting i heard, [] => s.hear i heard (.next (.error (.timeout shown)))
      | _, _ => s
  | .receive => s.receive
  | .settle => match s.phase with
      | .settling => { s with phase := .idle }
      | _ => s
  | .read => s.readFrame
  | .push => s.pushFrame
  | .answer i v => s.answer i v
  | .say v => if (responseId v).all (· < 1) then s.emit ⟨.ok v, none⟩ else s
  | .malformed message => s.emit ⟨.error (.payload message), none⟩
  | .failFraming message => { s.emit ⟨.error (.fatal message), none⟩ with broken := true }

end Connection

/-- The returned value of `get_definition`. -/
def Ended.definition (e : Ended) (targetId : ℤ) : Except Text (Option DefinitionResult) :=
  match e.result with
  | .ok resp => parseDefinitionResponse resp
  | .error (.unsent m) => .error m
  | .error (.read .expired) =>
      .error ("lsp_timeout: waiting for response id=".toList ++ Json.digits targetId)
  | .error (.read (.frame m)) => .error m

end Lsp

end CodeGraph
