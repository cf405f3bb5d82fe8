import Mathlib.Algebra.Ring.Parity
import CodeGraph.Lib.Runs
import CodeGraph.Verification

/-!
# Runs of a verification session

What one request can do to one session (`SessionMove`), and what every run of
requests, on this session and on others, keeps: the redundant fields of the session
file agree, questions and answers alternate, and the state is told from the
transcript and from the end the session was brought to.

The transcript grows at its end until `start_verification` is called on an aborted
session, which begins it anew.
-/

namespace CodeGraph

open List

/-- How a session was ended. -/
inductive Ending where
  | finalized
  | aborted
  deriving DecidableEq

section VerificationRuns

variable {J : Type} (host : SessionHost J)

/-! ## The events of a session -/

def actsOn (result : Except StageErr (Address × SessionFile J)) (a : Address) : Bool :=
  match result with
  | .ok (b, _) => b = a
  | .error _ => false

/-- `start_verification` is carried out on the session. -/
def restarts (a : Address) (st : FindingStore J) (r : SessionRequest J) : Bool :=
  r.op = .start && actsOn (startSession host r.out r.arguments st) a

/-- The end the session has been brought to, after one more request. -/
def endingAfter (a : Address) (st : FindingStore J) (r : SessionRequest J)
    (ending : Option Ending) : Option Ending :=
  match r.op with
  | .start => if actsOn (startSession host r.out r.arguments st) a then none else ending
  | .append => ending
  | .abort => if actsOn (abortSession host r.out r.arguments st) a then some .aborted else ending
  | .finalize =>
      if actsOn (finalizeChecks host r.out r.arguments st) a
          && r.out.writeReceipt.isNone && r.out.writeSession.isNone then some .finalized
      else ending

/-! ## What each operation checks -/

variable {host}

theorem bind_eq_ok {α β : Type} {x : Except StageErr α} {f : α → Except StageErr β} {b : β}
    (h : x >>= f = .ok b) : ∃ a, x = .ok a ∧ f a = .ok b := by
  cases x with
  | error e => cases h
  | ok a => exact ⟨a, rfl, h⟩

theorem map_eq_ok {α β : Type} {x : Except StageErr α} {f : α → β} {b : β}
    (h : x.map f = .ok b) : ∃ a, x = .ok a ∧ f a = b := by
  cases x with
  | error e => cases h
  | ok a => exact ⟨a, rfl, Except.ok.inj h⟩

variable {a : Address}

theorem checkStage1Refined_ok {refined : RefinedFile} {ok : Bool}
    (h : checkStage1Refined host a refined = .ok ok) : ok = true := by
  cases refined with
  | parsed => exact (Except.ok.inj h).symm
  | missing => cases h
  | unreadable err => cases h
  | corrupt err => cases h

variable {out : Outside} {st : FindingStore J}

theorem readSession_ok
    {s : Option (SessionFile J)} (h : readSession out st a = .ok s) : s = st.session a := by
  unfold readSession at h
  cases hs : st.session a with
  | none =>
      rw [hs] at h
      exact (Except.ok.inj h).symm
  | some prev =>
      rw [hs] at h
      obtain ⟨-, -, h⟩ := map_eq_ok h
      exact h.symm

theorem requireSession_ok {msg : Text} {prev : Option (SessionFile J)} {s : SessionFile J}
    (h : requireSession msg prev = .ok s) : prev = some s := by
  cases prev with
  | none => cases h
  | some s' => exact congrArg some (Except.ok.inj h)

variable {fromState state : SessionState}

/-- An event that is let through is not on a finalized session, and on an aborted
one it is a start; it then goes to its own table. -/
theorem canTransition_ok {event : TransitionEvent} (h : canTransition fromState event = .ok state) :
    fromState ≠ .finalized ∧ (fromState = .aborted → event = .start) ∧ (match event with
        | .start => transitionStart fromState
        | .agentQuestion => transitionAppend fromState .agentQuestion
        | .userAnswer => transitionAppend fromState .userAnswer
        | .finalize => transitionFinalize fromState
        | .abort => transitionAbort fromState) = .ok state := by
  unfold canTransition at h
  split_ifs at h with hfin hab
  refine ⟨hfin, ?_, h⟩
  intro haborted
  by_contra hstart
  exact hab ⟨haborted, hstart⟩

theorem canTransition_start_ok
    (h : canTransition fromState .start = .ok state) : fromState = .aborted := by
  obtain ⟨-, -, h⟩ := canTransition_ok h
  cases fromState with
  | aborted => rfl
  | _ => cases h

theorem canTransition_abort_ok (h : canTransition fromState .abort = .ok state) :
    fromState ≠ .finalized ∧ fromState ≠ .aborted := by
  obtain ⟨hfin, hab, -⟩ := canTransition_ok h
  exact ⟨hfin, fun haborted => nomatch hab haborted⟩

theorem canTransition_finalize_ok
    (h : canTransition fromState .finalize = .ok state) : fromState = .waitingForAgent := by
  obtain ⟨-, -, h⟩ := canTransition_ok h
  cases fromState with
  | waitingForAgent => rfl
  | _ => cases h

theorem canTransition_append_ok {kind : TurnKind}
    (h : canTransition fromState kind.event = .ok state) :
    transitionAppend fromState kind = .ok state ∧ fromState ≠ .finalized
      ∧ fromState ≠ .aborted := by
  obtain ⟨hfin, hab, h⟩ := canTransition_ok h
  cases kind with
  | agentQuestion => exact ⟨h, hfin, fun haborted => nomatch hab haborted⟩
  | userAnswer => exact ⟨h, hfin, fun haborted => nomatch hab haborted⟩

variable {arguments : Args J}

theorem startSession_ok {s : SessionFile J} (h : startSession host out arguments st = .ok (a, s)) :
    s = buildNewSession a true out.now ∧ ∀ old, st.session a = some old → old.state = .aborted := by
  obtain ⟨⟨args, a'⟩, -, h⟩ := bind_eq_ok h
  obtain ⟨ok, hok, h⟩ := bind_eq_ok h
  obtain ⟨existing, hread, h⟩ := bind_eq_ok h
  obtain ⟨_, hcan, h⟩ := bind_eq_ok h
  obtain ⟨_, -, h⟩ := bind_eq_ok h
  obtain ⟨_, -, h⟩ := bind_eq_ok h
  obtain ⟨rfl, rfl⟩ := Prod.mk.inj (Except.ok.inj h)
  rw [checkStage1Refined_ok hok]
  refine ⟨rfl, ?_⟩
  intro old hold
  rw [readSession_ok hread, hold] at hcan
  obtain ⟨state, hstate, -⟩ := map_eq_ok hcan
  exact canTransition_start_ok hstate

/-- The session an accepted turn leads to. -/
def appended (prev : SessionFile J) (state : SessionState) (turn : SessionTurn J) :
    SessionFile J :=
  { prev with
    state := state
    turnCount := (prev.transcript ++ [turn]).length
    updatedAt := turn.timestamp
    transcript := prev.transcript ++ [turn]
    abortedAt := none
    abortReason := none }

theorem appendSession_ok
    {s : SessionFile J} (h : appendSession host out arguments st = .ok (a, s)) :
    ∃ prev state turn, st.session a = some prev
      ∧ transitionAppend prev.state turn.kind = .ok state
      ∧ prev.state ≠ .finalized ∧ prev.state ≠ .aborted
      ∧ turn.seq = prev.transcript.length ∧ s = appended prev state turn := by
  obtain ⟨⟨args, a'⟩, -, h⟩ := bind_eq_ok h
  obtain ⟨_, -, h⟩ := bind_eq_ok h
  obtain ⟨kind, -, h⟩ := bind_eq_ok h
  obtain ⟨content, -, h⟩ := bind_eq_ok h
  obtain ⟨_, -, h⟩ := bind_eq_ok h
  obtain ⟨found, hread, h⟩ := bind_eq_ok h
  obtain ⟨prev, hprev, h⟩ := bind_eq_ok h
  obtain ⟨next, hnext, h⟩ := bind_eq_ok h
  obtain ⟨_, -, h⟩ := bind_eq_ok h
  obtain ⟨rfl, rfl⟩ := Prod.mk.inj (Except.ok.inj h)
  obtain ⟨state, hstate, hnext⟩ := bind_eq_ok hnext
  obtain ⟨htrans, hfin, hab⟩ := canTransition_append_ok hstate
  refine ⟨prev, state, ⟨prev.transcript.length, kind, out.now, content,
    turnMeta (args "meta".toList)⟩, ?_, htrans, hfin, hab, rfl, (Except.ok.inj hnext).symm⟩
  rw [← readSession_ok hread, requireSession_ok hprev]

theorem abortSession_ok {s : SessionFile J} (h : abortSession host out arguments st = .ok (a, s)) :
    ∃ prev reason, st.session a = some prev ∧ prev.state ≠ .finalized ∧ prev.state ≠ .aborted
      ∧ s = { prev with
          state := .aborted
          updatedAt := out.now
          abortedAt := some out.now
          abortReason := reason } := by
  obtain ⟨⟨args, a'⟩, -, h⟩ := bind_eq_ok h
  obtain ⟨found, hread, h⟩ := bind_eq_ok h
  obtain ⟨prev, hprev, h⟩ := bind_eq_ok h
  obtain ⟨next, hnext, h⟩ := bind_eq_ok h
  obtain ⟨_, -, h⟩ := bind_eq_ok h
  obtain ⟨rfl, rfl⟩ := Prod.mk.inj (Except.ok.inj h)
  obtain ⟨state, hstate, hnext⟩ := bind_eq_ok hnext
  obtain ⟨hfin, hab⟩ := canTransition_abort_ok hstate
  refine ⟨prev, _, ?_, hfin, hab, (Except.ok.inj hnext).symm⟩
  rw [← readSession_ok hread, requireSession_ok hprev]

theorem finalizeChecks_ok
    {s : SessionFile J} (h : finalizeChecks host out arguments st = .ok (a, s)) :
    st.session a = some s ∧ s.schemaOk = true ∧ s.state = .waitingForAgent := by
  obtain ⟨⟨args, a'⟩, -, h⟩ := bind_eq_ok h
  obtain ⟨found, hread, h⟩ := bind_eq_ok h
  obtain ⟨prev, hprev, h⟩ := bind_eq_ok h
  obtain ⟨_, hcheck, h⟩ := bind_eq_ok h
  obtain ⟨rfl, rfl⟩ := Prod.mk.inj (Except.ok.inj h)
  rw [← readSession_ok hread, requireSession_ok hprev]
  unfold checkFinalizePreconditions at hcheck
  cases hschema : prev.schemaOk with
  | false => simp [hschema] at hcheck
  | true =>
      rw [hschema, if_neg (by simp)] at hcheck
      obtain ⟨state, hstate, -⟩ := map_eq_ok hcheck
      exact ⟨rfl, rfl, canTransition_finalize_ok hstate⟩

/-! ## One request, one session -/

/-- What a request does to a session and to its end; the last argument tells a
restart. -/
inductive SessionMove : Option (SessionFile J) → Option (SessionFile J) →
    (Option Ending → Option Ending) → Bool → Prop
  | kept (s) : SessionMove s s (fun ending => ending) false
  | started {prev} (a now) : (∀ old, prev = some old → old.state = .aborted) →
      SessionMove prev (some (buildNewSession a true now)) (fun _ => none) true
  | appended {prev state turn} :
      transitionAppend prev.state turn.kind = .ok state → prev.state ≠ .finalized →
      prev.state ≠ .aborted → turn.seq = prev.transcript.length →
      SessionMove (some prev) (some (appended prev state turn)) (fun ending => ending) false
  | aborted {prev} (now reason) : prev.state ≠ .finalized → prev.state ≠ .aborted →
      SessionMove (some prev)
        (some { prev with
          state := .aborted
          updatedAt := now
          abortedAt := some now
          abortReason := reason }) (fun _ => some .aborted) false
  | finalized {prev} (now) : prev.schemaOk = true → prev.state = .waitingForAgent →
      SessionMove (some prev) (some (finalizedSession prev now)) (fun _ => some .finalized) false

@[simp] theorem writeSession_session (st : FindingStore J) (a b : Address) (s : SessionFile J) :
    (st.writeSession a s).session b = if b = a then some s else st.session b := by
  simp [FindingStore.writeSession, Function.update_apply]

@[simp] theorem writeReceipt_session (st : FindingStore J) (a : Address) (v : VerifiedArtifact) :
    (st.writeReceipt a v).session = st.session := rfl

@[simp] theorem writeIndex_session (st : FindingStore J) (run : List Text × Text) (idx : Index) :
    (st.writeIndex run idx).session = st.session := rfl

theorem actsOn_ok {b : Address} {s : SessionFile J} : actsOn (.ok (b, s)) a = decide (b = a) := rfl

variable {e : StageErr}

theorem actsOn_error :
    actsOn (.error e : Except StageErr (Address × SessionFile J)) a = false := rfl

theorem persistFinalize_session (out : Outside) (b a : Address) (s : SessionFile J)
    (v : VerifiedArtifact) (st : FindingStore J) :
    (persistFinalize out b s v st).2.session a
      = if a = b ∧ out.writeReceipt = none ∧ out.writeSession = none then
          some (finalizedSession s out.now)
        else st.session a := by
  unfold persistFinalize orFail
  cases hr : out.writeReceipt with
  | some err => simp
  | none =>
      cases hs : out.writeSession with
      | some err => simp
      | none => cases out.upsertIndex <;> simp

theorem doFinalizeVerification_store
    {b : Address} {s : SessionFile J} (h : finalizeChecks host out arguments st = .ok (b, s)) :
    (doFinalizeVerification host out arguments st).2
      = (persistFinalize out b s (buildVerifiedArtifact host s b out.now) st).2 := by
  simp only [doFinalizeVerification, h]
  cases persistFinalize out b s (buildVerifiedArtifact host s b out.now) st with
  | mk result st' => cases result <;> rfl

variable (host) in
theorem step_move (a : Address) (st : FindingStore J) (r : SessionRequest J) :
    SessionMove (st.session a) ((st.step host r).session a) (endingAfter host a st r)
      (restarts host a st r) := by
  obtain ⟨op, arguments, out⟩ := r
  cases op with
  | start =>
      unfold FindingStore.step serve doStartVerification restarts endingAfter
      cases hs : startSession host out arguments st with
      | error e => exact .kept _
      | ok p =>
          obtain ⟨b, s⟩ := p
          obtain ⟨rfl, hold⟩ := startSession_ok hs
          by_cases hab : b = a
          · subst hab
            simpa [actsOn_ok] using SessionMove.started b out.now hold
          · simpa [actsOn_ok, hab, Ne.symm hab] using SessionMove.kept (st.session a)
  | append =>
      unfold FindingStore.step serve doAppendClarification restarts endingAfter
      cases hs : appendSession host out arguments st with
      | error e => exact .kept _
      | ok p =>
          obtain ⟨b, s⟩ := p
          obtain ⟨prev, state, turn, hprev, htrans, hfin, habo, hseq, rfl⟩ := appendSession_ok hs
          by_cases hab : b = a
          · subst hab
            simpa [hprev] using SessionMove.appended htrans hfin habo hseq
          · simpa [Ne.symm hab] using SessionMove.kept (st.session a)
  | abort =>
      unfold FindingStore.step serve doAbortVerification restarts endingAfter
      cases hs : abortSession host out arguments st with
      | error e => exact .kept _
      | ok p =>
          obtain ⟨b, s⟩ := p
          obtain ⟨prev, reason, hprev, hfin, habo, rfl⟩ := abortSession_ok hs
          by_cases hab : b = a
          · subst hab
            simpa [actsOn_ok, hprev] using SessionMove.aborted out.now reason hfin habo
          · simpa [actsOn_ok, hab, Ne.symm hab] using SessionMove.kept (st.session a)
  | finalize =>
      unfold FindingStore.step serve restarts endingAfter
      cases hs : finalizeChecks host out arguments st with
      | error e =>
          have hkept : (doFinalizeVerification host out arguments st).2 = st := by
            simp only [doFinalizeVerification, hs]
          simpa [hkept, actsOn_error] using SessionMove.kept (st.session a)
      | ok p =>
          obtain ⟨b, s⟩ := p
          obtain ⟨hprev, hschema, hstate⟩ := finalizeChecks_ok hs
          simp only [doFinalizeVerification_store hs, persistFinalize_session, actsOn_ok,
            Bool.and_eq_true, decide_eq_true_eq, Option.isNone_iff_eq_none, and_assoc]
          by_cases hdone : a = b ∧ out.writeReceipt = none ∧ out.writeSession = none
          · obtain ⟨rfl, hr, hw⟩ := hdone
            simpa [hr, hw, hprev] using SessionMove.finalized out.now hschema hstate
          · have hnot : ¬ (b = a ∧ out.writeReceipt = none ∧ out.writeSession = none) :=
              fun h => hdone ⟨h.1.symm, h.2⟩
            simpa [hdone, hnot] using SessionMove.kept (st.session a)

/-! ## The invariant of a session -/

/-- Questions at the even numbers, answers at the odd ones. -/
def turnKindAt (i : Nat) : TurnKind := if i % 2 = 0 then .agentQuestion else .userAnswer

/-- The state that the transcript and the end of a session determine. -/
def sessionState (transcript : List (SessionTurn J)) : Option Ending → SessionState
  | some .finalized => .finalized
  | some .aborted => .aborted
  | none =>
      match transcript.getLast? with
      | none => .open
      | some turn =>
          match turn.kind with
          | .agentQuestion => .waitingForUser
          | .userAnswer => .waitingForAgent

structure SessionInvariant (s : SessionFile J) (ending : Option Ending) : Prop where
  seqs : s.transcript.map SessionTurn.seq = List.range s.transcript.length
  count : s.turnCount = s.transcript.length
  alternates : s.transcript.map SessionTurn.kind
    = (List.range s.transcript.length).map turnKindAt
  state : s.state = sessionState s.transcript ending
  rounds : s.state = .finalized → s.transcript ≠ [] ∧ Even s.transcript.length
  marked : s.abortedAt.isSome = true ↔ s.state = .aborted
  schema : s.schemaOk = true

/-- The invariant of a session that may not exist. -/
def SessionHolds (s : Option (SessionFile J)) (ending : Option Ending) : Prop :=
  ∀ s', s = some s' → SessionInvariant s' ending

namespace SessionInvariant

variable {s : SessionFile J} {ending : Option Ending}

theorem ending_none (h : SessionInvariant s ending) (hfin : s.state ≠ .finalized)
    (habo : s.state ≠ .aborted) : ending = none := by
  have hstate := h.state
  match ending with
  | none => rfl
  | some .finalized => exact absurd hstate hfin
  | some .aborted => exact absurd hstate habo

theorem state_by_length (h : SessionInvariant s none) :
    s.state = if s.transcript = [] then .open
      else if s.transcript.length % 2 = 1 then .waitingForUser else .waitingForAgent := by
  rw [h.state]
  have halt := h.alternates
  rcases eq_nil_or_concat s.transcript with hnil | ⟨turns, turn, hlast⟩
  · simp [hnil, sessionState]
  · rw [hlast, concat_eq_append] at halt ⊢
    simp only [length_append, length_singleton, range_succ, map_append,
      map_cons, map_nil] at halt
    have hkind : turn.kind = turnKindAt turns.length := by
      simpa using (append_inj' halt rfl).2
    simp only [sessionState, getLast?_concat, hkind, turnKindAt, length_append,
      length_singleton, append_eq_nil_iff, cons_ne_nil, and_false, if_false]
    rcases Nat.mod_two_eq_zero_or_one turns.length with h0 | h1
    · simp [h0, Nat.add_mod]
    · simp [h1, Nat.add_mod]

theorem rounds_of_waitingForAgent (h : SessionInvariant s none)
    (hstate : s.state = .waitingForAgent) :
    s.transcript ≠ [] ∧ Even s.transcript.length := by
  have hlen := h.state_by_length
  rw [hstate] at hlen
  by_cases hnil : s.transcript = []
  · simp [hnil] at hlen
  · refine ⟨hnil, Nat.even_iff.mpr ?_⟩
    by_contra hodd
    simp [hnil, Nat.mod_two_ne_zero.mp hodd] at hlen

/-- The turn that the machine accepts is the next of the alternation, and leads to
the state of the longer transcript. -/
theorem turn_accepted (h : SessionInvariant s none) {turn : SessionTurn J}
    (htrans : transitionAppend s.state turn.kind = .ok state) :
    turn.kind = turnKindAt s.transcript.length
      ∧ state = sessionState (s.transcript ++ [turn]) none := by
  have hlen := h.state_by_length
  simp only [sessionState, getLast?_concat, turnKindAt]
  by_cases hnil : s.transcript = []
  · rw [hlen, if_pos hnil] at htrans
    cases hk : turn.kind <;> rw [hk] at htrans <;> cases htrans
    simp [hnil]
  · rw [hlen, if_neg hnil] at htrans
    rcases Nat.mod_two_eq_zero_or_one s.transcript.length with h0 | h1
    · rw [h0, if_neg (by decide)] at htrans
      cases hk : turn.kind <;> rw [hk] at htrans <;> cases htrans
      simp [h0]
    · rw [h1, if_pos rfl] at htrans
      cases hk : turn.kind <;> rw [hk] at htrans <;> cases htrans
      simp [h1]

end SessionInvariant

variable {s' : Option (SessionFile J)} {f : Option Ending → Option Ending}

theorem SessionMove.holds {s : Option (SessionFile J)}
    {restart : Bool} (hmove : SessionMove s s' f restart) {ending : Option Ending}
    (h : SessionHolds s ending) : SessionHolds s' (f ending) := by
  cases hmove with
  | kept => exact h
  | started a now hold =>
      rintro s' ⟨⟩
      exact ⟨rfl, rfl, rfl, rfl, nofun, by simp [buildNewSession], rfl⟩
  | @appended prev state turn htrans hfin habo hseq =>
      have hprev := h prev rfl
      obtain rfl := hprev.ending_none hfin habo
      obtain ⟨hkind, hstate⟩ := hprev.turn_accepted htrans
      have hopen : state ≠ .finalized ∧ state ≠ .aborted := by
        rw [hstate]
        simp only [sessionState, getLast?_concat]
        cases turn.kind <;> exact ⟨nofun, nofun⟩
      rintro s' ⟨⟩
      refine ⟨?_, rfl, ?_, hstate, fun hs => absurd hs hopen.1, ?_, hprev.schema⟩
      · simp [CodeGraph.appended, range_succ, hprev.seqs, hseq]
      · simp [CodeGraph.appended, range_succ, hprev.alternates, hkind]
      · exact iff_of_false nofun hopen.2
  | @aborted prev now reason hfin habo =>
      have hprev := h prev rfl
      rintro s' ⟨⟩
      exact ⟨hprev.seqs, hprev.count, hprev.alternates, rfl, nofun, iff_of_true rfl rfl,
        hprev.schema⟩
  | @finalized prev now hschema hstate =>
      have hprev := h prev rfl
      obtain rfl := hprev.ending_none (hstate ▸ nofun) (hstate ▸ nofun)
      have hmark : prev.abortedAt.isSome ≠ true := by
        rw [Ne, hprev.marked, hstate]
        exact nofun
      rintro s' ⟨⟩
      exact ⟨hprev.seqs, hprev.count, hprev.alternates, rfl,
        fun _ => hprev.rounds_of_waitingForAgent hstate, iff_of_false hmark nofun, hschema⟩

/-! ## Runs -/

theorem persistFinalize_error {s : SessionFile J} {v : VerifiedArtifact}
    (h : (persistFinalize out a s v st).1 = .error e) : e.code = "io_error".toList := by
  unfold persistFinalize orFail at h
  cases hr : out.writeReceipt with
  | some err =>
      obtain rfl : ioErr err = e := by simpa [hr] using h
      rfl
  | none =>
      cases hs : out.writeSession with
      | some err =>
          obtain rfl : ioErr err = e := by simpa [hr, hs] using h
          rfl
      | none =>
          cases hi : out.upsertIndex with
          | some err =>
              obtain rfl : ioErr err = e := by simpa [hr, hs, hi] using h
              rfl
          | none => simp [hr, hs, hi] at h

/-- A request that is refused changes nothing; what a finalization leaves that a
write has failed is another matter. -/
theorem step_of_refused {r : SessionRequest J} (h : (serve host st r).1 = .error e)
    (hio : r.op = .finalize → e.code ≠ "io_error".toList) : st.step host r = st := by
  obtain ⟨op, arguments, out⟩ := r
  unfold FindingStore.step
  cases op with
  | start =>
      unfold serve doStartVerification at h ⊢
      cases hs : startSession host out arguments st with
      | error err => rfl
      | ok p => simp [hs] at h
  | append =>
      unfold serve doAppendClarification at h ⊢
      cases hs : appendSession host out arguments st with
      | error err => rfl
      | ok p => simp [hs] at h
  | abort =>
      unfold serve doAbortVerification at h ⊢
      cases hs : abortSession host out arguments st with
      | error err => rfl
      | ok p => simp [hs] at h
  | finalize =>
      have h : (doFinalizeVerification host out arguments st).1 = .error e := h
      show (doFinalizeVerification host out arguments st).2 = st
      unfold doFinalizeVerification at h ⊢
      cases hs : finalizeChecks host out arguments st with
      | error err => rfl
      | ok p =>
          obtain ⟨a, s⟩ := p
          simp only [hs] at h
          have hcode : (persistFinalize out a s (buildVerifiedArtifact host s a out.now) st).1
              = .error e → e.code = "io_error".toList := persistFinalize_error
          revert h hcode
          cases persistFinalize out a s (buildVerifiedArtifact host s a out.now) st with
          | mk result st' =>
              cases result with
              | ok u => exact nofun
              | error err =>
                  intro h hcode
                  exact absurd (hcode (congrArg Except.error (Except.error.inj h))) (hio rfl)

variable (host) in
/-- The end the session has been brought to by a run. -/
def endingOf (a : Address) :
    List (SessionRequest J) → FindingStore J → Option Ending → Option Ending
  | [], _, ending => ending
  | r :: requests, st, ending =>
      endingOf a requests (st.step host r) (endingAfter host a st r ending)

theorem run_holds (a : Address) (requests : List (SessionRequest J))
    {ending : Option Ending} (h : SessionHolds (st.session a) ending) :
    SessionHolds ((Runs.run (FindingStore.step host) requests st).session a)
      (endingOf host a requests st ending) := by
  induction requests generalizing st ending with
  | nil => exact h
  | cons r requests ih => exact ih ((step_move host a st r).holds h)

variable {prev : SessionFile J}

theorem SessionMove.of_finalized {s : Option (SessionFile J)} {restart : Bool} (h : SessionMove s s' f restart) (hs : s = some prev) (hfin : prev.state = .finalized) :
    s' = some prev := by
  cases h with
  | kept => exact hs
  | started a now hold => exact absurd (hfin.symm.trans (hold prev hs)) nofun
  | appended htrans hnot => exact absurd (Option.some.inj hs ▸ hfin) hnot
  | aborted now reason hnot => exact absurd (Option.some.inj hs ▸ hfin) hnot
  | finalized now hschema hwait =>
      exact absurd ((Option.some.inj hs ▸ hfin).symm.trans hwait) nofun

theorem SessionMove.of_aborted {s : Option (SessionFile J)} (h : SessionMove s s' f false) (hs : s = some prev) (habo : prev.state = .aborted) :
    s' = some prev := by
  cases h with
  | kept => exact hs
  | appended htrans hfin hnot => exact absurd (Option.some.inj hs ▸ habo) hnot
  | aborted now reason hfin hnot => exact absurd (Option.some.inj hs ▸ habo) hnot
  | finalized now hschema hwait =>
      exact absurd ((Option.some.inj hs ▸ habo).symm.trans hwait) nofun

theorem SessionMove.transcript {s : Option (SessionFile J)} (h : SessionMove s s' f false) (hs : s = some prev) :
    ∃ next, s' = some next ∧ prev.transcript <+: next.transcript := by
  cases h with
  | kept => exact ⟨prev, hs, prefix_refl _⟩
  | appended htrans hfin hnot =>
      exact ⟨_, rfl, Option.some.inj hs ▸ prefix_append _ _⟩
  | aborted now reason hfin hnot => exact ⟨_, rfl, Option.some.inj hs ▸ prefix_refl _⟩
  | finalized now hschema hwait => exact ⟨_, rfl, Option.some.inj hs ▸ prefix_refl _⟩

variable (host) in
/-- The condition of a run without restarts of the session. -/
def NotRestarted (a : Address) (st : FindingStore J) (r : SessionRequest J) : Prop :=
  restarts host a st r = false

theorem NotRestarted.move {r : SessionRequest J} (h : NotRestarted host a st r) :
    SessionMove (st.session a) ((st.step host r).session a) (endingAfter host a st r) false :=
  h ▸ step_move host a st r

/-- The session of a finding, over all runs: its redundant fields agree and its
state is the one of the transcript and of the end it was brought to; a finalized
session stays as it is; without a restart an aborted one does too, and the
transcript grows at its end; a refused request changes nothing. -/
theorem verification_session_runs (host : SessionHost J) (a : Address)
    (requests later : List (SessionRequest J)) :
    (∀ s, (Runs.run (FindingStore.step host) requests .empty).session a = some s →
        SessionInvariant s (endingOf host a requests .empty none)
        ∧ (s.state = .finalized →
            (Runs.run (FindingStore.step host) (requests ++ later) .empty).session a = some s)
        ∧ (Runs.Along (FindingStore.step host) (NotRestarted host a) later
              (Runs.run (FindingStore.step host) requests .empty) →
            (s.state = .aborted →
              (Runs.run (FindingStore.step host) (requests ++ later) .empty).session a = some s)
            ∧ ∃ s', (Runs.run (FindingStore.step host) (requests ++ later) .empty).session a
                = some s' ∧ s.transcript <+: s'.transcript))
    ∧ ∀ r e, (serve host (Runs.run (FindingStore.step host) requests .empty) r).1 = .error e →
        (r.op = .finalize → e.code ≠ "io_error".toList) →
        (Runs.run (FindingStore.step host) requests .empty).step host r
          = Runs.run (FindingStore.step host) requests .empty := by
  refine ⟨?_, fun r e h hio => step_of_refused h hio⟩
  intro s hs
  rw [Runs.run_append]
  have hempty : SessionHolds ((FindingStore.empty : FindingStore J).session a) none := nofun
  refine ⟨run_holds a requests hempty s hs, ?_, ?_⟩
  · intro hfin
    have hstep : ∀ st, ∀ r ∈ later, st.session a = some s →
        (FindingStore.step host st r).session a = some s :=
      fun st r _ hst => (step_move host a st r).of_finalized hst hfin
    exact Runs.run_inv_of_mem hstep hs
  · intro hrun
    constructor
    · intro habo
      have hstep : ∀ st r, st.session a = some s → NotRestarted host a st r →
          (FindingStore.step host st r).session a = some s :=
        fun st r hst hr => hr.move.of_aborted hst habo
      exact Runs.run_inv hstep hs hrun
    · have hstep : ∀ st r, (∃ s', st.session a = some s' ∧ s.transcript <+: s'.transcript) →
          NotRestarted host a st r → ∃ s', (FindingStore.step host st r).session a = some s'
            ∧ s.transcript <+: s'.transcript := by
        rintro st r ⟨s', hst, hpre⟩ hr
        obtain ⟨next, hnext, hgrow⟩ := hr.move.transcript hst
        exact ⟨next, hnext, hpre.trans hgrow⟩
      exact Runs.run_inv hstep ⟨s, hs, prefix_refl _⟩ hrun

end VerificationRuns

/-! ## A restart -/

def oneFindingArgs (key : Text) : Option (JsonArg Unit) :=
  if key = "run_id".toList then some (.str ['r'])
  else if key = "finding_id".toList then some (.str ['f'])
  else if key = "output_dir".toList then some (.str ['/', 'o'])
  else if key = "kind".toList then some (.str "agent_question".toList)
  else if key = "content".toList then some (.str ['?'])
  else none

def oneFinding : Address := ⟨[['o']], ['r'], ['f']⟩

def plainHost : SessionHost Unit where
  debug := id
  transcriptBytes turns := turns.flatMap fun turn => turn.content ++ ['\n']
  sha256Hex := id

def oneRequest (op : SessionOp) : SessionRequest Unit := ⟨op, some oneFindingArgs, { now := ['t'] }⟩

/-- The aborted session of one question, and the empty one that a restart puts in
its place. -/
theorem aborted_session_restarted :
    ((Runs.run (FindingStore.step plainHost)
        [oneRequest .start, oneRequest .append, oneRequest .abort] .empty).session oneFinding).map
        (fun s => (s.state, s.transcript.length)) = some (.aborted, 1)
      ∧ ((Runs.run (FindingStore.step plainHost)
          [oneRequest .start, oneRequest .append, oneRequest .abort, oneRequest .start]
          .empty).session oneFinding).map (fun s => (s.state, s.transcript.length))
        = some (.open, 0) := by
  decide

end CodeGraph
