import CodeGraph.LspConnection
import Mathlib.Data.List.TakeWhile

/-!
# Every answer is to its own request

What is on its way to the client was sent to a request that has been made, and says so by
its id, which no other request has. Behind a framing failure nothing is read, and requests
made after it have their answers behind it.
-/

namespace CodeGraph

open List

namespace Lsp

/-- Nothing but the frame itself can end the read: there is time left, and the stream can be
read on. -/
def Turn.InTime : Turn → Prop
  | .expired => False
  | .next (.error (.timeout _)) => False
  | .next (.error (.fatal _)) => False
  | .next _ => True

/-- The request went out, and neither its budget nor the stream came to its end. -/
def Ended.InTime (e : Ended) : Prop := e.heard ≠ [] ∧ ∀ turn ∈ e.heard, turn.InTime

def Reader.held : Reader → List Sent
  | .holding sent => [sent]
  | .reading | .stopped => []

/-- The thread reads nothing more. -/
def Reader.Stopping : Reader → Prop
  | .holding sent => Stops sent.frame
  | .reading => False
  | .stopped => True

def Phase.index : Phase → Option Nat
  | .draining (.request i) | .writing (.request i) | .waiting i _ => some i
  | _ => none

variable {issued issued' : List Issued} {answered answered' : List (Nat × Json)}

/-- A frame that looks like an answer to one of our requests was sent to that request. -/
structure Genuine (issued : List Issued) (answered : List (Nat × Json)) (x : Sent) : Prop where
  other : x.answers = none → ∀ v id, x.frame = .ok v → isResponseTo v id → id < 1
  own : ∀ i, x.answers = some i →
    ∃ r v, issued[i]? = some r ∧ x.frame = .ok v ∧ isResponseTo v r.id ∧ (i, v) ∈ answered

/-- The request a frame answers was made before the output was broken. -/
def Early (issued : List Issued) (x : Sent) : Prop :=
  ∀ i r, x.answers = some i → issued[i]? = some r → r.broken = false

/-- What a request that has returned got. -/
structure Settled (issued : List Issued) (answered : List (Nat × Json)) (e : Ended) (r : Issued) :
    Prop where
  issued : issued[e.index]? = some r
  own : ∀ v, e.result = .ok v → (e.index, v) ∈ answered ∧ r.broken = false
  inTime : r.request.policy = .skip → e.InTime → ∃ v, e.result = .ok v

/-! ## What stays true as requests and answers are added -/

structure Grown (issued issued' : List Issued) (answered answered' : List (Nat × Json)) : Prop where
  issued : ∀ (i : Nat) r, issued[i]? = some r → issued'[i]? = some r
  answered : answered ⊆ answered'

theorem Genuine.grown {x : Sent} (h : Genuine issued answered x)
    (hgrown : Grown issued issued' answered answered') : Genuine issued' answered' x where
  other := h.other
  own i hi := by
    obtain ⟨r, v, hr, hv, hresponse, hanswered⟩ := h.own i hi
    exact ⟨r, v, hgrown.issued i r hr, hv, hresponse, hgrown.answered hanswered⟩

theorem Settled.grown {e : Ended} {r : Issued} (h : Settled issued answered e r)
    (hgrown : Grown issued issued' answered answered') : Settled issued' answered' e r where
  issued := hgrown.issued _ _ h.issued
  own v hv := ⟨hgrown.answered (h.own v hv).1, (h.own v hv).2⟩
  inTime := h.inTime

/-- Requests made later do not matter to a frame that is an answer to one made before. -/
theorem Genuine.early_grown {x : Sent} (h : Genuine issued answered x) (hearly : Early issued x)
    (hgrown : Grown issued issued' answered answered') : Early issued' x := by
  intro i r hi hr
  obtain ⟨r', v, hr', -⟩ := h.own i hi
  have heq : r' = r := Option.some.inj ((hgrown.issued i r' hr').symm.trans hr)
  exact heq ▸ hearly i r' hi hr'

namespace Connection

variable {s : Connection}

structure Inv (s : Connection) : Prop where
  requestId : s.requestId = s.issued.length + 1
  numbered : ∀ (i : Nat) r, s.issued[i]? = some r → r.id = i + 1
  unbroken : s.broken = false → ∀ r ∈ s.issued, r.broken = false
  index : ∀ i, s.phase.index = some i → ∃ r, s.issued[i]? = some r
  genuine : ∀ x ∈ s.queue ++ s.reader.held ++ s.stdout, Genuine s.issued s.answered x
  early : ∀ x ∈ s.queue ++ s.reader.held, Early s.issued x
  failing : ¬s.reader.Stopping → s.broken = true → ∃ x ∈ s.stdout, Stops x.frame
  readable : ¬s.reader.Stopping → ∀ x ∈ s.stdout.takeWhile (¬Stops ·.frame), Early s.issued x
  ended : ∀ e ∈ s.ended, ∃ r, Settled s.issued s.answered e r

theorem inv_start : Inv .start where
  requestId := rfl
  numbered := nofun
  unbroken := nofun
  index := nofun
  genuine := nofun
  early := nofun
  failing := nofun
  readable := nofun
  ended := nofun

/-! ## The client -/

theorem Inv.move (h : s.Inv) {p : Phase} (hp : ∀ i, p.index = some i → s.phase.index = some i) :
    Inv { s with phase := p } :=
  { h with index := fun i hi => h.index i (hp i hi) }

theorem Inv.call (h : s.Inv) (r : Request) : Inv (s.call r) := by
  have hgrown : Grown s.issued (s.call r).issued s.answered s.answered := by
    refine ⟨fun i r' hr => ?_, List.Subset.refl _⟩
    rw [Connection.call, List.getElem?_append_left (List.getElem?_eq_some_iff.mp hr).1, hr]
  have hearly : ∀ x ∈ s.queue ++ s.reader.held ++ s.stdout, Early s.issued x → Early (s.call r).issued x :=
    fun x hx hearly => (h.genuine x hx).early_grown hearly hgrown
  have hlast : (s.call r).issued[s.issued.length]? = some ⟨s.requestId, r, s.broken⟩ :=
    getElem?_concat_length
  exact
  { requestId := by
      have hlen : (s.call r).issued.length = s.issued.length + 1 := length_append
      rw [hlen, Connection.call, h.requestId]
      push_cast
      rfl
    numbered := by
      intro i r' hr
      by_cases hi : i < s.issued.length
      · exact h.numbered i r' ((List.getElem?_append_left hi).symm.trans hr)
      · have hlt : i < (s.call r).issued.length := (List.getElem?_eq_some_iff.mp hr).1
        have hi : i = s.issued.length := by
          rw [Connection.call, length_append, length_singleton] at hlt
          omega
        rw [hi, hlast] at hr
        rw [← Option.some.inj hr, hi]
        exact h.requestId
    unbroken := by
      intro hbroken r' hr
      rcases mem_append.mp hr with hr | hr
      · exact h.unbroken hbroken r' hr
      · rw [mem_singleton.mp hr]
        exact hbroken
    index := by
      rintro i ⟨⟩
      exact ⟨_, hlast⟩
    genuine := fun x hx => (h.genuine x hx).grown hgrown
    early := fun x hx => hearly x (mem_append_left _ hx) (h.early x hx)
    failing := h.failing
    readable := fun hgo x hx => hearly x
      (mem_append_right _ ((takeWhile_subset _) hx)) (h.readable hgo x hx)
    ended := fun e he => (h.ended e he).imp fun _ h => h.grown hgrown }

theorem Inv.finish (h : s.Inv) {i : Nat} {heard : List Turn} {result : Except Failure Json}
    (hsettled : ∀ r, s.issued[i]? = some r → Settled s.issued s.answered ⟨i, heard, result⟩ r) :
    Inv (s.finish i heard result) := by
  rw [Connection.finish]
  split
  · exact h
  · next r hr =>
    refine { h with index := fun j hj => ?_, ended := fun e he => ?_ }
    · -- A request that has returned leaves nothing but a notification to send.
      revert hj
      dsimp only
      unfold afterRequest
      split <;> try split
      all_goals exact nofun
    · rw [mem_append, mem_singleton] at he
      rcases he with he | rfl
      · exact h.ended e he
      · exact ⟨r, hsettled r hr⟩

theorem Inv.wrote (h : s.Inv) {out : Outgoing} (hphase : s.phase = .writing out)
    (result : Except Text Unit) : Inv (s.wrote out result) := by
  unfold Connection.wrote
  split
  · next i _ =>
    refine h.move fun j hj => ?_
    rw [hphase]
    exact hj
  · exact h.finish fun r hr => ⟨hr, nofun, fun _ hin => absurd rfl hin.1⟩
  · exact h.move nofun
  · exact h.move nofun
  · exact h.move nofun

/-- The frame a turn of the read loop is about came through the queue. -/
def From (s : Connection) (turn : Turn) : Prop :=
  ∀ v, turn = .next (.ok v) →
    ∃ x, Genuine s.issued s.answered x ∧ Early s.issued x ∧ x.frame = .ok v

theorem Inv.response_own (h : s.Inv) {turn : Turn} (hfrom : s.From turn) {i : Nat} {r : Issued}
    (hr : s.issued[i]? = some r) {policy : UnparseableFrame} {v : Json}
    (hok : turn.outcome r.id policy = some (.ok v)) : (i, v) ∈ s.answered ∧ r.broken = false := by
  unfold Turn.outcome at hok
  split at hok
  · cases hok
  · next msg =>
    split at hok
    · next hresponse =>
      cases hok
      obtain ⟨x, hgenuine, hearly, hx⟩ := hfrom v rfl
      have hid := h.numbered i r hr
      cases hanswers : x.answers with
      | none =>
        have := hgenuine.other hanswers v r.id hx hresponse
        omega
      | some j =>
        obtain ⟨r', v', hr', hx', hresponse', hanswered⟩ := hgenuine.own j hanswers
        obtain rfl : v' = v := Except.ok.inj (hx'.symm.trans hx)
        have hj := isResponseTo_inj hresponse hresponse'
        rw [hid, h.numbered j r' hr'] at hj
        obtain rfl : i = j := by omega
        obtain rfl : r' = r := Option.some.inj (hr'.symm.trans hr)
        exact ⟨hanswered, hearly i r' hanswers hr'⟩
    · cases hok
  · split at hok <;> cases hok

theorem Turn.InTime.ok_of_outcome {turn : Turn} (h : turn.InTime) {targetId : ℤ}
    {result : Except ReadFailure Json} (hout : turn.outcome targetId .skip = some result) :
    ∃ v, result = .ok v := by
  unfold Turn.outcome at hout
  split at hout
  · exact h.elim
  · next msg =>
    split at hout <;> cases hout
    exact ⟨msg, rfl⟩
  · next e =>
    cases e with
    | payload m => exact absurd ((if_pos ⟨rfl, rfl⟩).symm.trans hout) nofun
    | fatal m => exact h.elim
    | timeout m => exact h.elim

theorem Inv.hear (h : s.Inv) {i : Nat} {heard : List Turn} (hphase : s.phase = .waiting i heard)
    {turn : Turn} (hfrom : s.From turn) : Inv (s.hear i heard turn) := by
  unfold Connection.hear
  split
  · exact h
  · next r hr =>
    split
    · refine h.move fun j hj => ?_
      rw [hphase]
      exact hj
    · next result hresult =>
      refine h.finish fun r' hr' => ?_
      obtain rfl : r = r' := Option.some.inj (hr.symm.trans hr')
      refine ⟨hr, fun v hv => ?_, fun hskip hin => ?_⟩
      · cases result with
        | error e => cases hv
        | ok v' =>
          cases hv
          exact h.response_own hfrom hr hresult
      · rw [hskip] at hresult
        have hturn : turn.InTime :=
          hin.2 turn (mem_append_right _ (mem_singleton_self turn))
        obtain ⟨v, rfl⟩ := Turn.InTime.ok_of_outcome hturn hresult
        exact ⟨v, rfl⟩

theorem Inv.pop (h : s.Inv) {x : Sent} {queue : List Sent} (hqueue : s.queue = x :: queue) :
    Inv { s with queue } :=
  { h with
    genuine := fun y hy => h.genuine y (hqueue ▸ mem_cons_of_mem x hy)
    early := fun y hy => h.early y (hqueue ▸ mem_cons_of_mem x hy) }

theorem Inv.receive (h : s.Inv) : Inv s.receive := by
  unfold Connection.receive
  split
  · next i heard frame s' hphase hnext =>
    unfold nextFrame at hnext
    split at hnext
    · next x queue hqueue =>
      cases hnext
      have hx : x ∈ s.queue ++ s.reader.held := hqueue ▸ mem_cons_self
      exact (h.pop hqueue).hear hphase fun v hv =>
        ⟨x, h.genuine x (mem_append_left _ hx), h.early x hx, Turn.next.inj hv⟩
    · cases hnext
      exact h.hear hphase nofun
    · cases hnext
  · next frame s' hphase hnext =>
    have hs' : s'.Inv := by
      unfold nextFrame at hnext
      split at hnext
      · next x queue hqueue =>
        cases hnext
        exact h.pop hqueue
      · cases hnext
        exact h
      · cases hnext
    split
    · exact hs'.move nofun
    · exact hs'
  · exact h

theorem Inv.drain (h : s.Inv) : Inv s.drain := by
  unfold Connection.drain
  split
  · next out hphase _ =>
    refine h.move fun i hi => ?_
    rw [hphase]
    cases out <;> exact hi
  · next out x queue hphase hqueue => exact h.pop hqueue
  · exact h

/-! ## The reader thread -/

theorem Inv.readFrame (h : s.Inv) : Inv s.readFrame := by
  unfold Connection.readFrame
  split
  · next x stdout hreader hstdout =>
    have hgo : ¬s.reader.Stopping := by
      rw [hreader]
      exact id
    have hreadable := h.readable hgo
    have hgenuine := h.genuine
    have hearly := h.early
    rw [hreader, hstdout] at hgenuine
    rw [hreader] at hearly
    rw [hstdout] at hreadable
    refine { h with genuine := fun y hy => ?_, early := fun y hy => ?_, failing := ?_, readable := ?_ }
    · refine hgenuine y ?_
      simpa only [Reader.held, append_nil, append_assoc, singleton_append] using hy
    · rw [mem_append] at hy
      rcases hy with hy | hy
      · exact hearly y (mem_append_left _ hy)
      · obtain rfl : y = x := mem_singleton.mp hy
        by_cases hstops : Stops y.frame
        · -- A failure answers nothing.
          intro i r hi
          obtain ⟨-, v, -, hv, -⟩ := (hgenuine y (mem_append_right _ mem_cons_self)).own i hi
          rw [hv] at hstops
          exact hstops.elim
        · refine hreadable y ?_
          rw [takeWhile_cons_of_pos (by simpa using hstops)]
          exact mem_cons_self
    · intro hgo' hbroken
      obtain ⟨y, hy, hstops⟩ := h.failing hgo hbroken
      rw [hstdout, mem_cons] at hy
      rcases hy with rfl | hy
      · exact absurd hstops hgo'
      · exact ⟨y, hy, hstops⟩
    · intro hgo' y hy
      refine hreadable y ?_
      have hx : ¬Stops x.frame := hgo'
      rw [takeWhile_cons_of_pos (by simpa using hx)]
      exact mem_cons_of_mem x hy
  · exact h

theorem Inv.pushFrame (h : s.Inv) : Inv s.pushFrame := by
  unfold Connection.pushFrame
  split
  · next x hreader =>
    split
    · have hheld : s.queue ++ [x] = s.queue ++ s.reader.held := by rw [hreader, Reader.held]
      have hstopping : ¬(if Stops x.frame then Reader.stopped else .reading).Stopping →
          ¬s.reader.Stopping := by
        rw [hreader]
        intro hgo hstops
        have hx : Stops x.frame := hstops
        rw [if_pos hx] at hgo
        exact hgo trivial
      have hnone : (if Stops x.frame then Reader.stopped else .reading).held = [] := by
        split <;> rfl
      refine { h with
        genuine := fun y hy => h.genuine y ?_
        early := fun y hy => h.early y ?_
        failing := fun hgo => h.failing (hstopping hgo)
        readable := fun hgo => h.readable (hstopping hgo) }
      · rwa [hnone, append_nil, hheld] at hy
      · rwa [hnone, append_nil, hheld] at hy
    · exact h
  · exact h

/-! ## The server -/

/-- Frames go to the end of the output: what answers a request made after a failure stands
behind the failure. -/
theorem Inv.emit (h : s.Inv) {x : Sent} (hx : Genuine s.issued s.answered x)
    (hlate : s.broken = false → Early s.issued x) : Inv (s.emit x) := by
  refine { h with genuine := fun y hy => ?_, failing := fun hgo hbroken => ?_, readable := ?_ }
  · rw [Connection.emit, ← append_assoc, mem_append] at hy
    rcases hy with hy | hy
    · exact h.genuine y hy
    · exact mem_singleton.mp hy ▸ hx
  · obtain ⟨y, hy, hstops⟩ := h.failing hgo hbroken
    exact ⟨y, mem_append_left _ hy, hstops⟩
  · intro hgo y hy
    rw [Connection.emit, takeWhile_append] at hy
    split at hy
    · next hall =>
      have hall : s.stdout.takeWhile (¬Stops ·.frame) = s.stdout :=
        ( takeWhile_prefix _).eq_of_length hall
      rw [mem_append] at hy
      rcases hy with hy | hy
      · exact h.readable hgo y (hall.symm ▸ hy)
      · have hsound : s.broken = false := by
          refine Bool.eq_false_of_not_eq_true fun hbroken => ?_
          obtain ⟨z, hz, hstops⟩ := h.failing hgo hbroken
          rw [← hall] at hz
          exact absurd hstops (by simpa using mem_takeWhile_imp hz)
        obtain rfl : y = x := mem_singleton.mp ((takeWhile_subset _) hy)
        exact hlate hsound
    · exact h.readable hgo y hy

theorem Inv.answer (h : s.Inv) (i : Nat) (v : Json) : Inv (s.answer i v) := by
  unfold Connection.answer
  split
  · exact h
  · next r hr =>
    split
    · next hanswer =>
      have hgrown : Grown s.issued s.issued s.answered (s.answered ++ [(i, v)]) :=
        ⟨fun _ _ => id, subset_append_left _ _⟩
      have hgrown : Inv { s with answered := s.answered ++ [(i, v)] } :=
        { h with
          genuine := fun x hx => (h.genuine x hx).grown hgrown
          ended := fun e he => (h.ended e he).imp fun _ h => h.grown hgrown }
      refine hgrown.emit ⟨nofun, ?_⟩ ?_
      · rintro j ⟨⟩
        exact ⟨r, v, hr, rfl, hanswer.2, mem_append_right _ (mem_singleton_self _)⟩
      · rintro hbroken j r' ⟨⟩ hr'
        exact h.unbroken hbroken r' (mem_of_getElem? hr')
    · exact h

/-! ## Runs -/

theorem Inv.step (h : s.Inv) (e : Event) : Inv (s.step e) := by
  cases e with
  | call r =>
    unfold Connection.step
    dsimp only
    split
    · exact h.call r
    · exact h
  | didOpen fileUri languageId text =>
    unfold Connection.step
    dsimp only
    split
    · exact h.move nofun
    · exact h
  | drain => exact h.drain
  | write result =>
    unfold Connection.step
    dsimp only
    split
    · next out hphase => exact h.wrote hphase result
    · exact h
  | expire =>
    unfold Connection.step
    dsimp only
    split
    · next i heard hphase => exact h.hear hphase nofun
    · exact h
  | elapse shown =>
    unfold Connection.step
    dsimp only
    split
    · next i heard hphase _ => exact h.hear hphase nofun
    · exact h
  | receive => exact h.receive
  | settle =>
    unfold Connection.step
    dsimp only
    split
    · exact h.move nofun
    · exact h
  | read => exact h.readFrame
  | push => exact h.pushFrame
  | answer i v => exact h.answer i v
  | say v =>
    unfold Connection.step
    dsimp only
    split
    · next hsay =>
      refine h.emit ⟨fun _ v' id hv hresponse => ?_, nofun⟩ fun _ => nofun
      cases hv
      rw [isResponseTo_iff] at hresponse
      rw [hresponse] at hsay
      simpa using hsay
    · exact h
  | malformed message => exact h.emit ⟨fun _ => nofun, nofun⟩ fun _ => nofun
  | failFraming message =>
    have hemit : Inv (s.emit ⟨.error (.fatal message), none⟩) :=
      h.emit ⟨fun _ => nofun, nofun⟩ fun _ => nofun
    exact
    { hemit with
      unbroken := nofun
      failing := fun _ _ => ⟨_, mem_append_right _ (mem_singleton_self _), trivial⟩ }

theorem inv_run (events : List Event) : Inv (Runs.run step events .start) := by
  have hstep : ∀ s, ∀ e ∈ events, Inv s → Inv (step s e) := fun _ e _ h => h.step e
  exact Runs.run_inv_of_mem hstep inv_start

end Connection

/-- In every run a definition that has been asked for is an error or what the server answered to
that very request; a request that is not the handshake is ended by its answer unless it was not
sent, its budget ran out or the framing failed; and a request made after a failure of the framing
has no answer. -/
theorem answers_own (events : List Event) :
    ∀ e ∈ (Runs.run Connection.step events .start).ended,
      ∃ r, (Runs.run Connection.step events .start).issued[e.index]? = some r ∧
        (∀ fileUri line col, r.request = .definition fileUri line col →
          (∃ m, e.definition r.id = .error m) ∨
            ∃ v, (e.index, v) ∈ (Runs.run Connection.step events .start).answered ∧
              e.definition r.id = parseDefinitionResponse v) ∧
        (r.request ≠ .initializeWithProbe → e.InTime →
          ∃ v, (e.index, v) ∈ (Runs.run Connection.step events .start).answered ∧ e.result = .ok v) ∧
        (r.broken = true → ∃ failure, e.result = .error failure) := by
  intro e he
  obtain ⟨r, h⟩ := (Connection.inv_run events).ended e he
  refine ⟨r, h.issued, fun _ _ _ _ => ?_, fun hrequest hin => ?_, fun hbroken => ?_⟩
  · unfold Ended.definition
    split
    · next v hv => exact .inr ⟨v, (h.own v hv).1, rfl⟩
    · exact .inl ⟨_, rfl⟩
    · exact .inl ⟨_, rfl⟩
    · exact .inl ⟨_, rfl⟩
  · have hskip : r.request.policy = .skip := by
      cases hr : r.request with
      | initializeWithProbe => exact absurd hr hrequest
      | definition | diagnostic | shutdown => rfl
    obtain ⟨v, hv⟩ := h.inTime hskip hin
    exact ⟨v, (h.own v hv).1, hv⟩
  · cases hresult : e.result with
    | error failure => exact ⟨failure, rfl⟩
    | ok v => exact absurd ((h.own v hresult).2.symm.trans hbroken) nofun

/-- The answer of a server that knows no definition. -/
def definitionResponse : Json :=
  .object [("jsonrpc", .lit "2.0"), ("id", .num 1), ("result", .null)]

def answeredDefinition : List Event :=
  [.call (.definition "file:///a.rs".toList 1 4), .drain, .write (.ok ()),
    .answer 0 definitionResponse, .read, .push, .receive]

theorem answers_own_definition :
    ∃ e ∈ (Runs.run Connection.step answeredDefinition .start).ended,
      ∃ v, (e.index, v) ∈ (Runs.run Connection.step answeredDefinition .start).answered ∧
        e.result = .ok v := by
  have hended : ⟨0, [.next (.ok definitionResponse)], .ok definitionResponse⟩ ∈
      (Runs.run Connection.step answeredDefinition .start).ended := mem_singleton_self _
  obtain ⟨r, hissued, -, hanswer, -⟩ := answers_own answeredDefinition _ hended
  have hr : r = ⟨1, .definition "file:///a.rs".toList 1 4, false⟩ := (Option.some.inj hissued).symm
  refine ⟨_, hended, hanswer (hr ▸ nofun) ⟨cons_ne_nil _ _, ?_⟩⟩
  intro turn hturn
  rw [mem_singleton.mp hturn]
  trivial

/-- The answer of a server to the handshake. -/
def handshakeResponse : Json :=
  .object [("jsonrpc", .lit "2.0"), ("id", .num 1), ("result", .object [("capabilities", .object [])])]

/-- A server that writes a malformed frame and then answers the handshake. -/
def malformedHandshake : List Event :=
  [.call .initializeWithProbe, .drain, .write (.ok ()), .malformed "parse JSON body: EOF".toList,
    .answer 0 handshakeResponse, .read, .push, .read, .push, .receive]

/-- The handshake gives up at the malformed frame, its response being in the queue. -/
theorem handshake_malformed :
    validateProbeResponse handshakeResponse ∧
      (Runs.run Connection.step malformedHandshake .start).queue = [⟨.ok handshakeResponse, some 0⟩] ∧
      ∃ e ∈ (Runs.run Connection.step malformedHandshake .start).ended,
        e.InTime ∧ e.result = .error (.read (.frame "parse JSON body: EOF".toList)) := by
  refine ⟨by decide, rfl, ⟨0, [.next (.error (.payload "parse JSON body: EOF".toList))],
    .error (.read (.frame "parse JSON body: EOF".toList))⟩, ?_, ⟨cons_ne_nil _ _, ?_⟩, rfl⟩
  · exact mem_singleton_self _
  · intro turn hturn
    rw [mem_singleton.mp hturn]
    trivial

end Lsp

end CodeGraph
