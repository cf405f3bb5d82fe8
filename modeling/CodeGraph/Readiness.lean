import CodeGraph.Lib.Spans
import CodeGraph.LspConnection

/-!
# Readiness of a language server

`lsp_client::readiness`: the wait between the handshake and the first request. The server says
itself that it is quiescent; or the progress that it reports has come to its end, with nothing
new in a quiet window; or the deadline passes. Instants are nanoseconds of a clock that is read
again and again and never goes back.
-/

namespace CodeGraph

open List

namespace Lsp

namespace Readiness

open Spans (Mark)

/-- 500 ms. -/
def progressQuietWindow : ℕ := 500 * 10 ^ 6

inductive ReadinessOutcome where
  | serverReportedQuiescent
  | noProgressReported
  | allProgressEnded
  | deadlineExpired
  deriving DecidableEq

/-! ## Messages -/

inductive ServerHealthLevel where
  | ok
  | warning
  | error
  | unknown

structure ServerStatus where
  health : ServerHealthLevel
  quiescent : Bool
  message : Option Text

def asBool : Json → Option Bool
  | .bool b => some b
  | _ => none

def hasMethod (msg : Json) (method : String) : Bool :=
  (msg.get "method").bind asStr == some method.toList

def healthLevel : Option Text → ServerHealthLevel
  | some text =>
      if text = "ok".toList then .ok
      else if text = "warning".toList then .warning
      else if text = "error".toList then .error
      else .unknown
  | none => .unknown

def parseServerStatus (msg : Json) : Option ServerStatus :=
  if hasMethod msg "experimental/serverStatus" then do
    let params ← msg.get "params"
    let quiescent ← (params.get "quiescent").bind asBool
    return ⟨healthLevel ((params.get "health").bind asStr), quiescent,
      (params.get "message").bind asStr⟩
  else none

inductive ProgressKind where
  | begins
  | reports
  | ends

def isCreate (msg : Json) : Bool := hasMethod msg "window/workDoneProgress/create"

def serverWorkdoneProgressCreate (msg : Json) : Option ℤ :=
  if isCreate msg then (msg.get "id").bind asI64 else none

def tokenText (token : Json) : Option Text := (asStr token).or ((asI64 token).map Json.digits)

def parseKind (kind : Text) : Option ProgressKind :=
  if kind = "begin".toList then some .begins
  else if kind = "report".toList then some .reports
  else if kind = "end".toList then some .ends
  else none

/-- A notification of progress, with its token as `read` takes it. -/
def progressOf {τ : Type} (read : Json → Option τ) (msg : Json) : Option (τ × ProgressKind) :=
  if hasMethod msg "$/progress" then do
    let params ← msg.get "params"
    let token ← (params.get "token").bind read
    let kind ← ((← params.get "value").get "kind").bind asStr
    return (token, ← parseKind kind)
  else none

def progressKind : Json → Option (Text × ProgressKind) := progressOf tokenText

/-! ## The state of the wait -/

structure ProgressState where
  outstanding : Finset Text
  everBegan : Bool
  idleSince : Option ℕ
  onsetDeadline : ℕ
  serverStatusSeen : Bool

def giveUp (everBegan outstandingEmpty : Bool) : ReadinessOutcome :=
  if !everBegan then .noProgressReported
  else if outstandingEmpty then .allProgressEnded
  else .deadlineExpired

namespace ProgressState

def new (now : ℕ) : ProgressState where
  outstanding := ∅
  everBegan := false
  idleSince := some now
  onsetDeadline := now + progressQuietWindow
  serverStatusSeen := false

def checkpoint (s : ProgressState) (deadline : ℕ) : ℕ :=
  if s.serverStatusSeen then deadline
  else min
    (match s.everBegan, s.idleSince with
      | false, _ => s.onsetDeadline
      | true, some idleAt => idleAt + progressQuietWindow
      | true, none => deadline)
    deadline

def giveUp (s : ProgressState) : ReadinessOutcome :=
  Readiness.giveUp s.everBegan (decide (s.outstanding = ∅))

/-- One message that is no server status, with the ids of the requests it acknowledges. -/
def apply (s : ProgressState) (msg : Json) (now : ℕ) : ProgressState × List ℤ :=
  match serverWorkdoneProgressCreate msg with
  | some id => (s, [id])
  | none =>
      match progressKind msg with
      | some (token, .begins) =>
          ({ s with
            everBegan := true
            outstanding := insert token s.outstanding
            idleSince := none }, [])
      | some (token, .ends) =>
          ({ s with
            outstanding := s.outstanding.erase token
            idleSince := if s.outstanding.erase token = ∅ then some now else s.idleSince }, [])
      | some (_, .reports) | none => (s, [])

end ProgressState

structure HealthTrack where
  level : ServerHealthLevel
  message : Option Text

structure ServerHealth where
  level : ServerHealthLevel
  message : Option Text
  readiness : ReadinessOutcome

namespace HealthTrack

def new : HealthTrack := ⟨.unknown, none⟩

def record (status : ServerStatus) : HealthTrack := ⟨status.health, status.message⟩

def finish (h : HealthTrack) (readiness : ReadinessOutcome) : ServerHealth :=
  ⟨h.level, h.message, readiness⟩

end HealthTrack

/-! ## The loop -/

/-- What the reader thread puts into the channel, with the time of each frame, and when the
thread ends. -/
structure Channel where
  frames : List (ℕ × Frame)
  closed : Option ℕ

/-- What passes in one pass through the loop before the clock is read, and before it is read
again; if what arrives just at the checkpoint is still received, and how a span is shown. -/
structure Pace where
  reads : ℕ
  handles : ℕ
  late : Bool
  shown : Text

def Pace.InTime (pace : Pace) (time checkpoint : ℕ) : Prop :=
  time < checkpoint ∨ (time = checkpoint ∧ pace.late = true)

instance (pace : Pace) (time checkpoint : ℕ) : Decidable (pace.InTime time checkpoint) :=
  inferInstanceAs (Decidable (_ ∨ _))

def eofBeforeHeader : FrameError :=
  .fatal "eof_before_header: child stdout closed without LSP framing".toList

def noFrame (shown : Text) : FrameError :=
  .timeout ("lsp_timeout: no frame within ".toList ++ shown)

/-- The next frame or why there is none, the time then, and what is left of the channel. -/
def nextFrame (channel : Channel) (pace : Pace) (now checkpoint : ℕ) : Frame × ℕ × Channel :=
  match channel.frames with
  | (time, frame) :: frames =>
      if pace.InTime time checkpoint then (frame, max now time, { channel with frames })
      else (.error (noFrame pace.shown), checkpoint, channel)
  | [] =>
      match channel.closed with
      | some time =>
          if pace.InTime time checkpoint then (.error eofBeforeHeader, max now time, channel)
          else (.error (noFrame pace.shown), checkpoint, channel)
      | none => (.error (noFrame pace.shown), checkpoint, channel)

structure Wait where
  clock : ℕ
  channel : Channel
  progress : ProgressState
  health : HealthTrack
  consumed : List Json
  acks : List ℤ

/-- What the wait gives back, with what it has consumed and acknowledged. -/
structure Answer where
  health : ServerHealth
  consumed : List Json
  acks : List ℤ

def Wait.finish (w : Wait) (readiness : ReadinessOutcome) : Answer :=
  ⟨w.health.finish readiness, w.consumed, w.acks⟩

/-- A message is consumed. -/
def Wait.take (w : Wait) (msg : Json) (handles : ℕ) : Wait ⊕ Answer :=
  let w := { w with consumed := w.consumed ++ [msg] }
  match parseServerStatus msg with
  | some status =>
      let w := { w with health := .record status }
      if status.quiescent then .inr (w.finish .serverReportedQuiescent)
      else .inl { w with progress.serverStatusSeen := true }
  | none =>
      let (progress, acked) := w.progress.apply msg (w.clock + handles)
      .inl { w with clock := w.clock + handles, progress, acks := w.acks ++ acked }

/-- One pass through the loop. -/
def Wait.pass (w : Wait) (deadline : ℕ) (pace : Pace) : Wait ⊕ Answer :=
  let now := w.clock + pace.reads
  let checkpoint := w.progress.checkpoint deadline
  if checkpoint ≤ now then .inr (w.finish w.progress.giveUp)
  else
    let (frame, clock, channel) := nextFrame w.channel pace now checkpoint
    let w := { w with clock, channel }
    match frame with
    | .ok msg => w.take msg pace.handles
    | .error (.payload _) => .inl w
    | .error (.timeout _) => .inl w
    | .error (.fatal _) => .inr (w.finish w.progress.giveUp)

/-- The loop; `none` when the fuel is used up. -/
def Wait.loop (deadline : ℕ) (paces : ℕ → Pace) : ℕ → ℕ → Wait → Option Answer
  | 0, _, _ => none
  | fuel + 1, k, w =>
      match w.pass deadline (paces k) with
      | .inl w => loop deadline paces fuel (k + 1) w
      | .inr answer => some answer

def Wait.start (now : ℕ) (channel : Channel) : Wait :=
  ⟨now, channel, .new now, .new, [], []⟩

/-- The wait from an instant on, along the channel and the readings of the clock. -/
def waitForReady (fuel now deadline : ℕ) (channel : Channel) (paces : ℕ → Pace) : Option Answer :=
  Wait.loop deadline paces fuel 0 (.start now channel)

/-! ## One pass -/

variable {w w' : Wait} {deadline : ℕ} {pace : Pace}

/-- Waiting up to the checkpoint changes nothing but the clock. -/
def Wait.Waited (w : Wait) (deadline clock : ℕ) (channel : Channel) : Prop :=
  channel = w.channel ∧ clock = w.progress.checkpoint deadline

/-- A frame is taken off the channel. -/
def Wait.Received (w : Wait) (frame : Frame) (channel : Channel) : Prop :=
  ∃ time, w.channel.frames = (time, frame) :: channel.frames

theorem Wait.pass_cases (w : Wait) (deadline : ℕ) (pace : Pace) :
    w.pass deadline pace = .inr (w.finish w.progress.giveUp) ∨
    w.clock < w.progress.checkpoint deadline ∧ ∃ clock channel,
      (w.pass deadline pace = .inl { w with clock, channel } ∧
        (w.Waited deadline clock channel ∨ ∃ e, w.Received (.error e) channel)) ∨
      ∃ msg, w.pass deadline pace = { w with clock, channel }.take msg pace.handles ∧
        w.Received (.ok msg) channel := by
  rw [Wait.pass]
  split
  · exact .inl rfl
  rename_i hnow
  have hclock : w.clock < w.progress.checkpoint deadline := by omega
  rw [nextFrame]
  cases hframes : w.channel.frames with
  | nil =>
      cases hclosed : w.channel.closed with
      | none => exact .inr ⟨hclock, _, _, .inl ⟨rfl, .inl ⟨rfl, rfl⟩⟩⟩
      | some time =>
          by_cases htime : pace.InTime time (w.progress.checkpoint deadline)
          · simp only [if_pos htime]
            exact .inl rfl
          · simp only [if_neg htime]
            exact .inr ⟨hclock, _, _, .inl ⟨rfl, .inl ⟨rfl, rfl⟩⟩⟩
  | cons arrival frames =>
      obtain ⟨time, frame⟩ := arrival
      by_cases htime : pace.InTime time (w.progress.checkpoint deadline)
      · simp only [if_pos htime]
        match frame with
        | .ok msg => exact .inr ⟨hclock, _, { w.channel with frames }, .inr ⟨msg, rfl, time, hframes⟩⟩
        | .error (.payload m) =>
            exact .inr ⟨hclock, _, { w.channel with frames }, .inl ⟨rfl, .inr ⟨_, time, hframes⟩⟩⟩
        | .error (.timeout m) =>
            exact .inr ⟨hclock, _, { w.channel with frames }, .inl ⟨rfl, .inr ⟨_, time, hframes⟩⟩⟩
        | .error (.fatal m) => exact .inl rfl
      · simp only [if_neg htime]
        exact .inr ⟨hclock, _, _, .inl ⟨rfl, .inl ⟨rfl, rfl⟩⟩⟩

theorem Wait.take_cases (w : Wait) (msg : Json) (handles : ℕ) :
    (∃ status, parseServerStatus msg = some status ∧ status.quiescent = true ∧
      w.take msg handles =
        .inr ⟨(HealthTrack.record status).finish .serverReportedQuiescent, w.consumed ++ [msg],
          w.acks⟩) ∨
    (∃ status, parseServerStatus msg = some status ∧ status.quiescent = false ∧
      w.take msg handles = .inl { w with
        consumed := w.consumed ++ [msg]
        health := .record status
        progress.serverStatusSeen := true }) ∨
    (parseServerStatus msg = none ∧ w.take msg handles = .inl { w with
        consumed := w.consumed ++ [msg]
        clock := w.clock + handles
        progress := (w.progress.apply msg (w.clock + handles)).1
        acks := w.acks ++ (w.progress.apply msg (w.clock + handles)).2 }) := by
  rw [Wait.take]
  cases hstatus : parseServerStatus msg with
  | none => exact .inr (.inr ⟨rfl, rfl⟩)
  | some status =>
      cases hquiescent : status.quiescent with
      | true => exact .inl ⟨status, rfl, hquiescent, by simp only [hquiescent]; rfl⟩
      | false => exact .inr (.inl ⟨status, rfl, hquiescent, by simp only [hquiescent]; rfl⟩)

/-! ## The loop ends -/

/-- How many more passes there can be: two for a frame, and one before the checkpoint. -/
def Wait.left (w : Wait) (deadline : ℕ) : ℕ :=
  2 * w.channel.frames.length + if w.clock < w.progress.checkpoint deadline then 1 else 0

theorem Wait.left_le (w : Wait) (deadline : ℕ) : w.left deadline ≤ 2 * w.channel.frames.length + 1 := by
  rw [Wait.left]
  split <;> omega

theorem Wait.take_channel {msg : Json} {handles : ℕ} (h : w.take msg handles = .inl w') :
    w'.channel = w.channel := by
  obtain ⟨_, -, -, h'⟩ | ⟨_, -, -, h'⟩ | ⟨-, h'⟩ := w.take_cases msg handles <;> rw [h'] at h
  · nomatch h
  · rw [← Sum.inl.inj h]
  · rw [← Sum.inl.inj h]

/-- A frame that is taken off the channel leaves fewer passes. -/
theorem Wait.left_lt_of_received (hclock : w.clock < w.progress.checkpoint deadline)
    {frame : Frame} {channel : Channel} (h : w.Received frame channel)
    (hchannel : w'.channel = channel) : w'.left deadline < w.left deadline := by
  obtain ⟨time, hframes⟩ := h
  have := w'.left_le deadline
  have hleft : w.left deadline = 2 * w.channel.frames.length + 1 := by
    rw [Wait.left, if_pos hclock]
  rw [hchannel] at this
  rw [hleft, hframes, length_cons]
  omega

theorem Wait.left_pass_lt (h : w.pass deadline pace = .inl w') :
    w'.left deadline < w.left deadline := by
  obtain h' | ⟨hclock, clock, channel, ⟨h', hnext⟩ | ⟨msg, h', hreceived⟩⟩ :=
    w.pass_cases deadline pace <;> rw [h'] at h
  · nomatch h
  · rw [← Sum.inl.inj h]
    obtain ⟨rfl, rfl⟩ | ⟨e, hreceived⟩ := hnext
    · rw [Wait.left, Wait.left, if_pos hclock, if_neg (lt_irrefl _)]
      exact Nat.lt_succ_self _
    · exact Wait.left_lt_of_received hclock hreceived rfl
  · exact Wait.left_lt_of_received hclock hreceived (Wait.take_channel h)

theorem Wait.exists_loop (deadline : ℕ) (paces : ℕ → Pace) (k : ℕ) (w : Wait) :
    ∃ fuel answer, Wait.loop deadline paces fuel k w = some answer := by
  induction h : w.left deadline using Nat.strong_induction_on generalizing k w with
  | _ n ih =>
    cases hpass : w.pass deadline (paces k) with
    | inr answer => exact ⟨1, answer, by rw [Wait.loop, hpass]⟩
    | inl w' =>
        obtain ⟨fuel, answer, hloop⟩ := ih _ (h ▸ Wait.left_pass_lt hpass) (k + 1) w' rfl
        exact ⟨fuel + 1, answer, by rw [Wait.loop, hpass]; exact hloop⟩

/-! ## What the messages show -/

def isQuiescent (msg : Json) : Bool := (parseServerStatus msg).any ServerStatus.quiescent

def ProgressKind.mark : ProgressKind → Mark
  | begins => .opens
  | reports => .keeps
  | ends => .closes

/-- The mark of a message on the span of its token. -/
def markOf {τ : Type} (read : Json → Option τ) (msg : Json) : Option (τ × Mark) :=
  (progressOf read msg).map fun (token, kind) => (token, kind.mark)

def Begins {τ : Type} (read : Json → Option τ) (msg : Json) : Prop :=
  ∃ token, markOf read msg = some (token, .opens)

theorem hasMethod_inj {msg : Json} {a b : String} (ha : hasMethod msg a = true)
    (hb : hasMethod msg b = true) : a = b := by
  rw [hasMethod, beq_iff_eq] at ha hb
  exact String.toList_inj.mp (Option.some.inj (ha.symm.trans hb))

theorem progressOf_eq_none {τ : Type} (read : Json → Option τ) {msg : Json} {method : String}
    (h : hasMethod msg method = true) (hne : method ≠ "$/progress") : progressOf read msg = none :=
  if_neg fun hprogress => hne (hasMethod_inj h hprogress)

theorem markOf_eq_none {τ : Type} (read : Json → Option τ) {msg : Json} {method : String}
    (h : hasMethod msg method = true) (hne : method ≠ "$/progress") : markOf read msg = none := by
  rw [markOf, progressOf_eq_none read h hne]
  rfl

theorem markOf_of_status {τ : Type} (read : Json → Option τ) {msg : Json} {status : ServerStatus}
    (h : parseServerStatus msg = some status) : markOf read msg = none := by
  rw [parseServerStatus] at h
  split at h
  · rename_i hmethod
    exact markOf_eq_none read hmethod (by decide)
  · nomatch h

theorem create_of_status {msg : Json} {status : ServerStatus}
    (h : parseServerStatus msg = some status) : serverWorkdoneProgressCreate msg = none := by
  rw [parseServerStatus] at h
  split at h
  · rename_i hmethod
    exact if_neg fun hcreate => absurd (hasMethod_inj hmethod hcreate) (by decide)
  · nomatch h

theorem markOf_of_create {τ : Type} (read : Json → Option τ) {msg : Json} {id : ℤ}
    (h : serverWorkdoneProgressCreate msg = some id) : markOf read msg = none := by
  rw [serverWorkdoneProgressCreate] at h
  split at h
  · rename_i hmethod
    exact markOf_eq_none read hmethod (by decide)
  · nomatch h

theorem ProgressState.apply_outstanding (s : ProgressState) (msg : Json) (now : ℕ) :
    (s.apply msg now).1.outstanding = Spans.update s.outstanding (markOf tokenText msg) := by
  rw [ProgressState.apply]
  cases hcreate : serverWorkdoneProgressCreate msg with
  | some id =>
      rw [markOf_of_create _ hcreate]
      rfl
  | none =>
      simp only [markOf, progressKind]
      match progressOf tokenText msg with
      | none => rfl
      | some (_, .begins) => rfl
      | some (_, .reports) => rfl
      | some (_, .ends) => rfl

theorem ProgressState.apply_everBegan (s : ProgressState) (msg : Json) (now : ℕ) :
    (s.apply msg now).1.everBegan = true ↔ s.everBegan = true ∨ Begins tokenText msg := by
  rw [ProgressState.apply, Begins]
  cases hcreate : serverWorkdoneProgressCreate msg with
  | some id =>
      rw [markOf_of_create _ hcreate]
      simp
  | none =>
      simp only [markOf, progressKind]
      match progressOf tokenText msg with
      | none => simp
      | some (_, .begins) => simp [ProgressKind.mark]
      | some (_, .reports) => simp [ProgressKind.mark]
      | some (_, .ends) => simp [ProgressKind.mark]

theorem ProgressState.apply_acks (s : ProgressState) {msg : Json} (now : ℕ) {id : ℤ}
    (h : serverWorkdoneProgressCreate msg = some id) : (s.apply msg now).2 = [id] := by
  rw [ProgressState.apply, h]

/-! ## The verdict -/

/-- The messages among the first frames. -/
def messages (frames : List (ℕ × Frame)) : List Json := frames.filterMap fun e => e.2.toOption

/-- The state of the wait is what its messages have made of it. -/
structure Wait.Inv (frames : List (ℕ × Frame)) (w : Wait) : Prop where
  consumed : ∃ n, w.channel.frames = frames.drop n ∧ w.consumed = messages (frames.take n)
  notQuiescent : ∀ msg ∈ w.consumed, isQuiescent msg = false
  outstanding : w.progress.outstanding = Spans.outstanding (markOf tokenText) w.consumed
  everBegan : w.progress.everBegan = true ↔ ∃ msg ∈ w.consumed, Begins tokenText msg
  acks : ∀ msg ∈ w.consumed, ∀ id, serverWorkdoneProgressCreate msg = some id → id ∈ w.acks

theorem Wait.inv_start (now : ℕ) (channel : Channel) :
    (Wait.start now channel).Inv channel.frames where
  consumed := ⟨0, rfl, rfl⟩
  notQuiescent _ h := nomatch h
  outstanding := rfl
  everBegan := by simp [Wait.start, ProgressState.new]
  acks _ h := nomatch h

variable {frames : List (ℕ × Frame)}

theorem consumed_of_received (h : w.Inv frames) {frame : Frame} {channel : Channel}
    (hreceived : w.Received frame channel) : ∃ n, channel.frames = frames.drop n ∧
      w.consumed ++ frame.toOption.toList = messages (frames.take n) := by
  obtain ⟨n, hdrop, hconsumed⟩ := h.consumed
  obtain ⟨time, hframes⟩ := hreceived
  rw [hdrop] at hframes
  refine ⟨n + 1, ?_, ?_⟩
  · rw [← tail_drop, hframes]
    rfl
  · have hget : frames[n]? = some (time, frame) := by
      rw [← head?_drop, hframes]
      rfl
    rw [take_add_one, hget, messages, filterMap_append, hconsumed]
    cases frame <;> rfl

theorem exists_mem_concat {consumed : List Json} {msg : Json} {p : Json → Prop} :
    (∃ m ∈ consumed ++ [msg], p m) ↔ (∃ m ∈ consumed, p m) ∨ p msg := by
  simp only [mem_append, mem_singleton, or_and_right, exists_or, exists_eq_left]

theorem isQuiescent_of_status {msg : Json} {status : ServerStatus}
    (h : parseServerStatus msg = some status) : isQuiescent msg = status.quiescent := by
  rw [isQuiescent, h]
  rfl

theorem isQuiescent_of_none {msg : Json} (h : parseServerStatus msg = none) :
    isQuiescent msg = false := by
  rw [isQuiescent, h]
  rfl

theorem Wait.Inv.take (h : w.Inv frames) {clock : ℕ} {channel : Channel} {msg : Json}
    (hreceived : w.Received (.ok msg) channel) {handles : ℕ}
    (htake : { w with clock, channel }.take msg handles = .inl w') : w'.Inv frames := by
  have hconsumed := consumed_of_received h hreceived
  obtain ⟨_, -, -, h'⟩ | ⟨status, hstatus, hquiescent, h'⟩ | ⟨hstatus, h'⟩ :=
    Wait.take_cases { w with clock, channel } msg handles <;> rw [h'] at htake
  · nomatch htake
  · rw [← Sum.inl.inj htake]
    have hnone := markOf_of_status tokenText hstatus
    refine ⟨hconsumed, fun m hm => ?_, ?_, ?_, fun m hm id hid => ?_⟩
    · rcases mem_append.mp hm with hm | hm
      · exact h.notQuiescent m hm
      · rw [mem_singleton.mp hm, isQuiescent_of_status hstatus, hquiescent]
    · rw [Spans.outstanding_concat, hnone]
      exact h.outstanding
    · have hbegins : ¬ Begins tokenText msg := by
        rintro ⟨token, htoken⟩
        rw [hnone] at htoken
        nomatch htoken
      rw [exists_mem_concat, or_iff_left hbegins]
      exact h.everBegan
    · rcases mem_append.mp hm with hm | hm
      · exact h.acks m hm id hid
      · rw [mem_singleton.mp hm, create_of_status hstatus] at hid
        nomatch hid
  · rw [← Sum.inl.inj htake]
    refine ⟨hconsumed, fun m hm => ?_, ?_, ?_, fun m hm id hid => ?_⟩
    · rcases mem_append.mp hm with hm | hm
      · exact h.notQuiescent m hm
      · rw [mem_singleton.mp hm, isQuiescent_of_none hstatus]
    · rw [Spans.outstanding_concat, ← h.outstanding]
      exact w.progress.apply_outstanding msg _
    · refine (w.progress.apply_everBegan msg _).trans ?_
      rw [h.everBegan, exists_mem_concat]
    · rcases mem_append.mp hm with hm | hm
      · exact mem_append_left _ (h.acks m hm id hid)
      · rw [mem_singleton.mp hm] at hid
        refine mem_append_right _ ?_
        rw [w.progress.apply_acks _ hid]
        exact mem_singleton_self id

theorem Wait.Inv.pass (h : w.Inv frames) (hpass : w.pass deadline pace = .inl w') :
    w'.Inv frames := by
  obtain h' | ⟨-, clock, channel, ⟨h', hnext⟩ | ⟨msg, h', hreceived⟩⟩ :=
    w.pass_cases deadline pace <;> rw [h'] at hpass
  · nomatch hpass
  · rw [← Sum.inl.inj hpass]
    refine { h with consumed := ?_ }
    obtain ⟨rfl, -⟩ | ⟨e, hreceived⟩ := hnext
    · exact h.consumed
    · obtain ⟨n, hdrop, hconsumed⟩ := consumed_of_received h hreceived
      exact ⟨n, hdrop, (append_nil _).symm.trans hconsumed⟩
  · exact h.take hreceived hpass

/-- The token of a begin that no end has followed. -/
def Open (consumed : List Json) (token : Text) : Prop :=
  Spans.Unended (markOf tokenText) consumed token

/-- What the wait says of the messages that it has consumed, which are those among the first
frames of the channel. -/
structure Answers (frames : List (ℕ × Frame)) (a : Answer) : Prop where
  consumed : ∃ n, a.consumed = messages (frames.take n)
  quiescent : a.health.readiness = .serverReportedQuiescent ↔
    ∃ msg ∈ a.consumed, isQuiescent msg = true
  noProgress : a.health.readiness = .noProgressReported →
    ¬ ∃ msg ∈ a.consumed, Begins tokenText msg
  allEnded : a.health.readiness = .allProgressEnded → ∀ token, ¬ Open a.consumed token
  /-- Where no server status is seen, the progress alone decides. -/
  progress : (∀ msg ∈ a.consumed, parseServerStatus msg = none) →
    (a.health.readiness = .noProgressReported ↔ ¬ ∃ msg ∈ a.consumed, Begins tokenText msg) ∧
    (a.health.readiness = .allProgressEnded ↔
      (∃ msg ∈ a.consumed, Begins tokenText msg) ∧ ∀ token, ¬ Open a.consumed token) ∧
    (a.health.readiness = .deadlineExpired ↔ ∃ token, Open a.consumed token)
  acks : ∀ msg ∈ a.consumed, ∀ id, serverWorkdoneProgressCreate msg = some id → id ∈ a.acks

theorem exists_begins_of_open {consumed : List Json} {token : Text} (h : Open consumed token) :
    ∃ msg ∈ consumed, Begins tokenText msg := by
  obtain ⟨before, msg, after, rfl, hopens, -⟩ := h
  exact ⟨msg, mem_append_right _ mem_cons_self, token, hopens⟩

theorem Wait.Inv.giveUp_cases (h : w.Inv frames) :
    (w.progress.giveUp = .noProgressReported ∧ ¬ ∃ msg ∈ w.consumed, Begins tokenText msg) ∨
    (w.progress.giveUp = .allProgressEnded ∧ (∃ msg ∈ w.consumed, Begins tokenText msg) ∧
      ∀ token, ¬ Open w.consumed token) ∨
    (w.progress.giveUp = .deadlineExpired ∧ ∃ token, Open w.consumed token) := by
  rw [← h.everBegan, ProgressState.giveUp, giveUp]
  cases hbegan : w.progress.everBegan with
  | false => exact .inl ⟨rfl, Bool.false_ne_true⟩
  | true =>
      by_cases hempty : w.progress.outstanding = ∅
      · refine .inr (.inl ⟨by simp [hempty], rfl, Spans.outstanding_eq_empty.mp ?_⟩)
        rw [← h.outstanding, hempty]
      · refine .inr (.inr ⟨by simp [hempty], ?_⟩)
        obtain ⟨token, htoken⟩ := Finset.nonempty_of_ne_empty hempty
        rw [h.outstanding] at htoken
        exact ⟨token, Spans.mem_outstanding.mp htoken⟩

theorem Wait.Inv.answers_giveUp (h : w.Inv frames) : Answers frames (w.finish w.progress.giveUp) := by
  obtain ⟨n, -, hconsumed⟩ := h.consumed
  have hnone : ¬ ∃ msg ∈ w.consumed, isQuiescent msg = true := by
    rintro ⟨msg, hmsg, hquiescent⟩
    exact Bool.false_ne_true ((h.notQuiescent msg hmsg).symm.trans hquiescent)
  have hreadiness : (w.finish w.progress.giveUp).health.readiness = w.progress.giveUp := rfl
  have hopen : (∃ token, Open w.consumed token) → ∃ msg ∈ w.consumed, Begins tokenText msg :=
    fun ⟨_, htoken⟩ => exists_begins_of_open htoken
  obtain ⟨hgive, hbegins⟩ | ⟨hgive, hbegins, hended⟩ | ⟨hgive, hunended⟩ := h.giveUp_cases
  · refine ⟨⟨n, hconsumed⟩, ?_, ?_, ?_, fun _ => ⟨?_, ?_, ?_⟩, h.acks⟩ <;>
      rw [hreadiness, hgive]
    · exact iff_of_false (fun h => nomatch h) hnone
    · exact fun _ => hbegins
    · exact fun h => nomatch h
    · exact iff_of_true rfl hbegins
    · exact iff_of_false (fun h => nomatch h) fun h => hbegins h.1
    · exact iff_of_false (fun h => nomatch h) fun h => hbegins (hopen h)
  · refine ⟨⟨n, hconsumed⟩, ?_, ?_, ?_, fun _ => ⟨?_, ?_, ?_⟩, h.acks⟩ <;>
      rw [hreadiness, hgive]
    · exact iff_of_false (fun h => nomatch h) hnone
    · exact fun h => nomatch h
    · exact fun _ => hended
    · exact iff_of_false (fun h => nomatch h) fun h => h hbegins
    · exact iff_of_true rfl ⟨hbegins, hended⟩
    · exact iff_of_false (fun h => nomatch h) fun ⟨token, htoken⟩ => hended token htoken
  · obtain ⟨token, htoken⟩ := hunended
    refine ⟨⟨n, hconsumed⟩, ?_, ?_, ?_, fun _ => ⟨?_, ?_, ?_⟩, h.acks⟩ <;>
      rw [hreadiness, hgive]
    · exact iff_of_false (fun h => nomatch h) hnone
    · exact fun h => nomatch h
    · exact fun h => nomatch h
    · exact iff_of_false (fun h => nomatch h) fun h => h (hopen ⟨token, htoken⟩)
    · exact iff_of_false (fun h => nomatch h) fun h => h.2 token htoken
    · exact iff_of_true rfl ⟨token, htoken⟩

theorem Wait.Inv.answers_take (h : w.Inv frames) {clock : ℕ} {channel : Channel} {msg : Json}
    (hreceived : w.Received (.ok msg) channel) {handles : ℕ} {a : Answer}
    (htake : { w with clock, channel }.take msg handles = .inr a) : Answers frames a := by
  obtain ⟨n, -, hconsumed⟩ := consumed_of_received h hreceived
  obtain ⟨status, hstatus, hquiescent, h'⟩ | ⟨_, -, -, h'⟩ | ⟨-, h'⟩ :=
    Wait.take_cases { w with clock, channel } msg handles <;> rw [h'] at htake
  · obtain rfl := Sum.inr.inj htake
    have hmem : msg ∈ w.consumed ++ [msg] :=
      mem_append_right _ (mem_singleton_self msg)
    refine ⟨⟨n, hconsumed⟩, iff_of_true rfl ⟨msg, hmem, ?_⟩, fun h => (nomatch h),
      fun h => (nomatch h), fun hnone => ?_, fun m hm id hid => ?_⟩
    · rw [isQuiescent_of_status hstatus, hquiescent]
    · have := hnone msg hmem
      rw [hstatus] at this
      nomatch this
    · rcases mem_append.mp hm with hm | hm
      · exact h.acks m hm id hid
      · rw [mem_singleton.mp hm, create_of_status hstatus] at hid
        nomatch hid
  · nomatch htake
  · nomatch htake

theorem Wait.Inv.answers_pass (h : w.Inv frames) {a : Answer}
    (hpass : w.pass deadline pace = .inr a) : Answers frames a := by
  obtain h' | ⟨-, clock, channel, ⟨h', -⟩ | ⟨msg, h', hreceived⟩⟩ :=
    w.pass_cases deadline pace <;> rw [h'] at hpass
  · rw [← Sum.inr.inj hpass]
    exact h.answers_giveUp
  · nomatch hpass
  · exact h.answers_take hreceived hpass

theorem Wait.Inv.answers_loop {paces : ℕ → Pace} {fuel k : ℕ} (h : w.Inv frames) {a : Answer}
    (hloop : Wait.loop deadline paces fuel k w = some a) : Answers frames a := by
  induction fuel generalizing k w with
  | zero => nomatch hloop
  | succ fuel ih =>
      rw [Wait.loop] at hloop
      cases hpass : w.pass deadline (paces k) with
      | inl w' =>
          rw [hpass] at hloop
          exact ih (h.pass hpass) hloop
      | inr answer =>
          rw [hpass] at hloop
          obtain rfl := Option.some.inj hloop
          exact h.answers_pass hpass

/-- The wait ends, whatever frames arrive and whenever, and its answer is what the messages
show: quiescence as the server reports it, and otherwise the progress, with tokens told apart
by their text. -/
theorem waitForReady_answers (now deadline : ℕ) (channel : Channel) (paces : ℕ → Pace) :
    ∃ fuel a, waitForReady fuel now deadline channel paces = some a ∧
      Answers channel.frames a := by
  obtain ⟨fuel, a, hloop⟩ := Wait.exists_loop deadline paces 0 (.start now channel)
  exact ⟨fuel, a, hloop, (Wait.inv_start now channel).answers_loop hloop⟩

/-! ## Tokens of the protocol -/

/-- A token as the protocol has it: a number or a text. -/
inductive Token where
  | num (n : ℤ)
  | str (s : Text)
  deriving DecidableEq

def protocolToken : Json → Option Token
  | .num n => some (.num n)
  | .str s => some (.str s)
  | _ => none

/-- The verdict with the tokens of the protocol, a status that is not quiescent counted as
unfinished work, and every request to create a token acknowledged. -/
structure ProtocolAnswers (a : Answer) : Prop where
  quiescent : a.health.readiness = .serverReportedQuiescent ↔
    ∃ msg ∈ a.consumed, isQuiescent msg = true
  noProgress : a.health.readiness = .noProgressReported →
    (¬ ∃ msg ∈ a.consumed, Begins protocolToken msg) ∧
    ∀ msg ∈ a.consumed, parseServerStatus msg = none
  allEnded : a.health.readiness = .allProgressEnded →
    (∀ token, ¬ Spans.Unended (markOf protocolToken) a.consumed token) ∧
    ∀ status ∈ (a.consumed.filterMap parseServerStatus).getLast?, status.quiescent = true
  acks : ∀ msg ∈ a.consumed, isCreate msg = true →
    ∃ id ∈ a.acks, msg.get "id" = some (.num id)

namespace Sample

def progress (token : Json) (kind : String) : Json :=
  .object [("method", .lit "$/progress"),
    ("params", .object [("token", token), ("value", .object [("kind", .lit kind)])])]

def numberAndText : List Json :=
  [progress (.num 1) "begin", progress (.lit "1") "begin", progress (.num 1) "end"]

def channel : Channel := ⟨numberAndText.map fun msg => (0, .ok msg), none⟩

def atOnce : Pace := ⟨0, 0, true, []⟩

end Sample

/-- The end of the token 1 is taken for that of the token "1" too. -/
theorem text_token_ended_by_number : ∃ a,
    waitForReady 8 0 (60 * 10 ^ 9) Sample.channel (fun _ => Sample.atOnce) = some a ∧
      ¬ ProtocolAnswers a := by
  refine ⟨⟨⟨.unknown, none, .allProgressEnded⟩, Sample.numberAndText, []⟩, rfl, fun h => ?_⟩
  refine (h.allEnded rfl).1 (.str "1".toList) ⟨[Sample.progress (.num 1) "begin"],
    Sample.progress (.lit "1") "begin", [Sample.progress (.num 1) "end"], rfl, by decide, ?_⟩
  intro msg hmsg
  rw [mem_singleton.mp hmsg]
  decide

end Readiness

end Lsp

end CodeGraph
