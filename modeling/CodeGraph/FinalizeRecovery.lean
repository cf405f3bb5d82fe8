import CodeGraph.VerificationRuns

/-!
# Recovering a finalization

`finalize_verification` writes the receipt, the finalized session and the index
entry one after the other, and checks only the state of the session. A call that
ends after the session and before the index cannot be made good: the next one is
rejected. A call that ends after the receipt leaves a receipt of a session that
can still go on.

`Repairable` is what is asked of every request of a run, and `Undisturbed` when it
holds; the two are compared request by request, in every store a run can reach
(`Recorded`).
-/

namespace CodeGraph

section FinalizeRecovery

variable {J : Type} (host : SessionHost J)

/-- A call that nothing outside disturbs. -/
def quietly (now : Text) : Outside := { now := now }

/-- The receipt, the finalized session and the verified index entry, and what each
says of the others. -/
structure Complete (st : FindingStore J) (a : Address) : Prop where
  complete : ∃ s v idx entry, st.session a = some s ∧ st.receipt a = some v
    ∧ st.index a.run = some idx ∧ idx.findings.lookup a.findingId = some entry
    ∧ s.state = .finalized
    ∧ v.transcriptDigest = transcriptDigest host s.transcript ∧ v.turnCount = s.turnCount
    ∧ v.finalizedAt = s.updatedAt ∧ v.verified = true
    ∧ entry.verified = some true ∧ entry.verifiedAt = some v.finalizedAt
    ∧ entry.stage2Path = some (runRelative a.findingId verifiedFileName)

def ReceiptsMatch (st : FindingStore J) : Prop :=
  ∀ a v, st.receipt a = some v →
    ∃ s, st.session a = some s ∧ v.transcriptDigest = transcriptDigest host s.transcript

/-- What is asked of a request: a finalization, wherever it ends, is completed by
another call, and no receipt is left behind by its session. -/
def Repairable (st : FindingStore J) (r : SessionRequest J) : Prop :=
  (∀ a s, r.op = .finalize → finalizeChecks host r.out r.arguments st = .ok (a, s) →
      ∀ now, Complete host
        ((st.step host r).step host ⟨.finalize, r.arguments, quietly now⟩) a)
    ∧ ReceiptsMatch host (st.step host r)

/-- No finalization ends between its session and its index entry, and no turn or
restart is accepted while a receipt is there. -/
def Undisturbed (st : FindingStore J) (r : SessionRequest J) : Prop :=
  (∀ a s, r.op = .finalize → finalizeChecks host r.out r.arguments st = .ok (a, s) →
      r.out.writeReceipt = none → r.out.writeSession = none → r.out.upsertIndex = none)
    ∧ (∀ a s, r.op = .append → appendSession host r.out r.arguments st = .ok (a, s) →
        st.receipt a = none)
    ∧ ∀ a s, r.op = .start → startSession host r.out r.arguments st = .ok (a, s) →
        st.receipt a = none

/-! ## What the writes leave alone -/

variable {host}

@[simp] theorem writeReceipt_receipt (st : FindingStore J) (a b : Address)
    (v : VerifiedArtifact) :
    (st.writeReceipt a v).receipt b = if b = a then some v else st.receipt b := by
  simp [FindingStore.writeReceipt, Function.update_apply]

@[simp] theorem writeSession_receipt (st : FindingStore J) (a : Address) (s : SessionFile J) :
    (st.writeSession a s).receipt = st.receipt := rfl

@[simp] theorem writeIndex_receipt (st : FindingStore J) (run : List Text × Text) (idx : Index) :
    (st.writeIndex run idx).receipt = st.receipt := rfl

@[simp] theorem writeReceipt_index (st : FindingStore J) (a : Address) (v : VerifiedArtifact) :
    (st.writeReceipt a v).index = st.index := rfl

@[simp] theorem writeSession_index (st : FindingStore J) (a : Address) (s : SessionFile J) :
    (st.writeSession a s).index = st.index := rfl

@[simp] theorem writeIndex_index (st : FindingStore J) (run run' : List Text × Text)
    (idx : Index) :
    (st.writeIndex run idx).index run' = if run' = run then some idx else st.index run' := by
  simp [FindingStore.writeIndex, Function.update_apply]

/-- The store of a finalization that has gone through. -/
def finalizedStore (st : FindingStore J) (a : Address) (s : SessionFile J)
    (v : VerifiedArtifact) (now : Text) : FindingStore J :=
  ((st.writeReceipt a v).writeSession a (finalizedSession s now)).writeIndex a.run
    (upsertIndexEntry (st.index a.run) a (verifiedEntry a.findingId v now) now)

variable {st : FindingStore J} {arguments : Args J} {out : Outside} {a : Address}
  {s : SessionFile J}

theorem finalize_step (h : finalizeChecks host out arguments st = .ok (a, s)) :
    (out.writeReceipt ≠ none ∧ st.step host ⟨.finalize, arguments, out⟩ = st)
    ∨ (out.writeReceipt = none ∧ out.writeSession ≠ none
      ∧ st.step host ⟨.finalize, arguments, out⟩
        = st.writeReceipt a (buildVerifiedArtifact host s a out.now))
    ∨ (out.writeReceipt = none ∧ out.writeSession = none ∧ out.upsertIndex ≠ none
      ∧ st.step host ⟨.finalize, arguments, out⟩
        = (st.writeReceipt a (buildVerifiedArtifact host s a out.now)).writeSession a
            (finalizedSession s out.now))
    ∨ (out.writeReceipt = none ∧ out.writeSession = none ∧ out.upsertIndex = none
      ∧ st.step host ⟨.finalize, arguments, out⟩
        = finalizedStore st a s (buildVerifiedArtifact host s a out.now) out.now) := by
  have hstep : st.step host ⟨.finalize, arguments, out⟩
      = (persistFinalize out a s (buildVerifiedArtifact host s a out.now) st).2 :=
    doFinalizeVerification_store h
  rw [hstep]
  unfold persistFinalize orFail
  cases hr : out.writeReceipt with
  | some err => exact Or.inl ⟨nofun, rfl⟩
  | none =>
      refine Or.inr ?_
      cases hs : out.writeSession with
      | some err => exact Or.inl ⟨rfl, nofun, rfl⟩
      | none =>
          refine Or.inr ?_
          cases hi : out.upsertIndex with
          | some err => exact Or.inl ⟨rfl, rfl, nofun, rfl⟩
          | none => exact Or.inr ⟨rfl, rfl, rfl, rfl⟩

/-! ## Calling again -/

variable {st' : FindingStore J}

theorem finalizeChecks_again {s' : SessionFile J} (h : finalizeChecks host out arguments st = .ok (a, s))
    (hs' : st'.session a = some s') (now : Text) : finalizeChecks host (quietly now) arguments st'
      = (checkFinalizePreconditions s').map fun _ => (a, s') := by
  obtain ⟨⟨args, b⟩, hids, h⟩ := bind_eq_ok h
  obtain ⟨_, -, h⟩ := bind_eq_ok h
  obtain ⟨_, -, h⟩ := bind_eq_ok h
  obtain ⟨_, -, h⟩ := bind_eq_ok h
  obtain ⟨rfl, rfl⟩ := Prod.mk.inj (Except.ok.inj h)
  unfold finalizeChecks
  simp only [hids, readSession, hs', quietly, orFail, Except.map, requireSession, bind,
    Except.bind, pure, Except.pure]

theorem retry_unfinalized (h : finalizeChecks host out arguments st = .ok (a, s))
    (hs' : st'.session a = some s) (now : Text) : st'.step host ⟨.finalize, arguments, quietly now⟩
      = finalizedStore st' a s (buildVerifiedArtifact host s a now) now := by
  obtain ⟨-, hschema, hstate⟩ := finalizeChecks_ok h
  have hagain : finalizeChecks host (quietly now) arguments st' = .ok (a, s) := by
    rw [finalizeChecks_again h hs' now]
    simp [checkFinalizePreconditions, hschema, hstate, canTransition, transitionFinalize,
      Except.map]
  rcases finalize_step hagain with ⟨hbad, -⟩ | ⟨-, hbad, -⟩ | ⟨-, -, hbad, -⟩ | ⟨-, -, -, hstep⟩
  · exact absurd rfl hbad
  · exact absurd rfl hbad
  · exact absurd rfl hbad
  · exact hstep

theorem retry_finalized {s' : SessionFile J} (h : finalizeChecks host out arguments st = .ok (a, s))
    (hs' : st'.session a = some s') (hfin : s'.state = .finalized) (now : Text) :
    st'.step host ⟨.finalize, arguments, quietly now⟩ = st' := by
  have hagain := finalizeChecks_again h hs' now
  obtain ⟨e, he⟩ : ∃ e, checkFinalizePreconditions s' = .error e := by
    unfold checkFinalizePreconditions
    by_cases hschema : s'.schemaOk = false
    · exact ⟨_, if_pos hschema⟩
    · exact ⟨alreadyFinalized, by simp [hschema, hfin, canTransition, Except.map]⟩
  rw [he] at hagain
  show (doFinalizeVerification host (quietly now) arguments st').2 = st'
  simp only [doFinalizeVerification, hagain, Except.map]

/-! ## A finalization that went through -/

theorem completeness_of_rounds {ending : Option Ending}
    (h : SessionInvariant s ending) (hrounds : s.transcript ≠ [] ∧ Even s.transcript.length) :
    (computeCompleteness s.transcript).1 = true := by
  have hlen : 2 ≤ s.transcript.length := by
    obtain ⟨k, hk⟩ := hrounds.2
    have hpos := List.length_pos_iff.mpr hrounds.1
    omega
  have hasKind : ∀ i < s.transcript.length,
      (s.transcript.any fun t => decide (t.kind = turnKindAt i)) = true := by
    intro i hi
    have hmem : turnKindAt i ∈ s.transcript.map SessionTurn.kind := by
      rw [h.alternates]
      exact List.mem_map_of_mem (List.mem_range.mpr hi)
    obtain ⟨t, ht, hkind⟩ := List.mem_map.mp hmem
    exact List.any_eq_true.mpr ⟨t, ht, decide_eq_true hkind⟩
  have hq := hasKind 0 (by omega)
  have ha := hasKind 1 (by omega)
  simp only [computeCompleteness, Bool.and_eq_true]
  exact ⟨hq, ha⟩

theorem complete_finalizedStore
    (h : SessionInvariant s none) (hstate : s.state = .waitingForAgent) (now : Text) :
    Complete host (finalizedStore st a s (buildVerifiedArtifact host s a now) now) a := by
  have hverified : (buildVerifiedArtifact host s a now).verified = true := by
    simp [buildVerifiedArtifact, h.schema,
      completeness_of_rounds h (h.rounds_of_waitingForAgent hstate)]
  have hmerge : ∀ existing, (mergePreserveRefinedOnly existing
      (verifiedEntry a.findingId (buildVerifiedArtifact host s a now) now)).verified = some true
      ∧ (mergePreserveRefinedOnly existing
        (verifiedEntry a.findingId (buildVerifiedArtifact host s a now) now)).verifiedAt = some now
      ∧ (mergePreserveRefinedOnly existing
        (verifiedEntry a.findingId (buildVerifiedArtifact host s a now) now)).stage2Path
          = some (runRelative a.findingId verifiedFileName) := by
    intro existing
    cases existing <;> simp [mergePreserveRefinedOnly, verifiedEntry, hverified]
  refine ⟨finalizedSession s now, buildVerifiedArtifact host s a now,
    upsertIndexEntry (st.index a.run) a
      (verifiedEntry a.findingId (buildVerifiedArtifact host s a now) now) now, _, ?_, ?_, ?_,
    Finmap.lookup_insert _, rfl, rfl, rfl, rfl, hverified, (hmerge _).1, (hmerge _).2.1,
    (hmerge _).2.2⟩
  · simp [finalizedStore]
  · simp [finalizedStore]
  · simp [finalizedStore]

/-! ## The stores of a run -/

variable (host) in
/-- What every store of a run has, however its calls ended. -/
structure Recorded (st : FindingStore J) : Prop where
  sessions : ∀ a, ∃ ending, SessionHolds (st.session a) ending
  unindexed : ∀ a, (∀ s, st.session a = some s → s.state ≠ .finalized) →
    ∀ idx entry, st.index a.run = some idx → idx.findings.lookup a.findingId = some entry →
      entry.verifiedAt = none
  receipts : ∀ a v, st.receipt a = some v →
    ∃ transcript, transcript ≠ [] ∧ v.transcriptDigest = transcriptDigest host transcript

variable {r : SessionRequest J}

theorem step_of_not_finalize (hop : r.op ≠ .finalize) :
    (st.step host r).receipt = st.receipt ∧ (st.step host r).index = st.index := by
  obtain ⟨op, arguments, out⟩ := r
  cases op with
  | finalize => exact absurd rfl hop
  | start =>
      unfold FindingStore.step serve doStartVerification
      cases startSession host out arguments st <;> exact ⟨rfl, rfl⟩
  | append =>
      unfold FindingStore.step serve doAppendClarification
      cases appendSession host out arguments st <;> exact ⟨rfl, rfl⟩
  | abort =>
      unfold FindingStore.step serve doAbortVerification
      cases abortSession host out arguments st <;> exact ⟨rfl, rfl⟩

theorem finalize_rejected {e : StageErr} (h : finalizeChecks host out arguments st = .error e) :
    st.step host ⟨.finalize, arguments, out⟩ = st := by
  show (doFinalizeVerification host out arguments st).2 = st
  simp only [doFinalizeVerification, h]

theorem Recorded.accepted (h : Recorded host st)
    (hchecks : finalizeChecks host out arguments st = .ok (a, s)) :
    SessionInvariant s none ∧ s.state = .waitingForAgent := by
  obtain ⟨hs, -, hstate⟩ := finalizeChecks_ok hchecks
  obtain ⟨ending, hholds⟩ := h.sessions a
  have hinv := hholds s hs
  obtain rfl := hinv.ending_none (hstate ▸ nofun) (hstate ▸ nofun)
  exact ⟨hinv, hstate⟩

theorem not_finalized_of_step
    (h : ∀ s, (st.step host r).session a = some s → s.state ≠ .finalized) :
    ∀ s, st.session a = some s → s.state ≠ .finalized := by
  intro s hs hfin
  exact h s ((step_move host a st r).of_finalized hs hfin) hfin

theorem Recorded.step (h : Recorded host st) (r : SessionRequest J) :
    Recorded host (st.step host r) := by
  have hsessions : ∀ a, ∃ ending, SessionHolds ((st.step host r).session a) ending := by
    intro a
    obtain ⟨ending, hholds⟩ := h.sessions a
    exact ⟨_, (step_move host a st r).holds hholds⟩
  have hindexed : (st.step host r).index = st.index →
      (∀ a v, (st.step host r).receipt a = some v → ∃ transcript, transcript ≠ []
        ∧ v.transcriptDigest = transcriptDigest host transcript) →
      Recorded host (st.step host r) := by
    intro hindex hreceipts
    refine ⟨hsessions, ?_, hreceipts⟩
    intro a hnot
    rw [hindex]
    exact h.unindexed a (not_finalized_of_step hnot)
  have hkept : (st.step host r).receipt = st.receipt ∧ (st.step host r).index = st.index →
      Recorded host (st.step host r) := by
    rintro ⟨hreceipt, hindex⟩
    exact hindexed hindex (hreceipt ▸ h.receipts)
  by_cases hop : r.op = .finalize
  · obtain ⟨op, arguments, out⟩ := r
    obtain rfl : op = .finalize := hop
    cases hchecks : finalizeChecks host out arguments st with
    | error e => exact hkept (by rw [finalize_rejected hchecks]; exact ⟨rfl, rfl⟩)
    | ok p =>
        obtain ⟨b, s⟩ := p
        obtain ⟨hinv, hstate⟩ := h.accepted hchecks
        have hdigest : ∀ a v, (if a = b then some (buildVerifiedArtifact host s b out.now)
              else st.receipt a) = some v →
            ∃ transcript, transcript ≠ [] ∧ v.transcriptDigest
              = transcriptDigest host transcript := by
          intro a v hv
          by_cases hab : a = b
          · rw [if_pos hab] at hv
            obtain rfl := Option.some.inj hv
            exact ⟨s.transcript, (hinv.rounds_of_waitingForAgent hstate).1, rfl⟩
          · rw [if_neg hab] at hv
            exact h.receipts a v hv
        rcases finalize_step hchecks with
          ⟨-, hstep⟩ | ⟨-, -, hstep⟩ | ⟨-, -, -, hstep⟩ | ⟨-, -, -, hstep⟩
        · exact hkept (by rw [hstep]; exact ⟨rfl, rfl⟩)
        · refine hindexed (by rw [hstep]; rfl) ?_
          rw [hstep]
          simpa using hdigest
        · refine hindexed (by rw [hstep]; rfl) ?_
          rw [hstep]
          simpa using hdigest
        · refine ⟨hsessions, ?_, ?_⟩
          · intro a hnot idx entry hidx hentry
            have hab : a ≠ b := by
              rintro rfl
              refine hnot (finalizedSession s out.now) ?_ rfl
              rw [hstep]
              simp [finalizedStore]
            have hold := h.unindexed a (not_finalized_of_step hnot)
            rw [hstep] at hidx
            simp only [finalizedStore, writeIndex_index] at hidx
            by_cases hrun : a.run = b.run
            · have hid : a.findingId ≠ b.findingId := by
                intro hid
                obtain ⟨hdir, hrunId⟩ := Prod.mk.inj hrun
                exact hab (by cases a; cases b; simp_all)
              rw [if_pos hrun] at hidx
              obtain rfl := Option.some.inj hidx
              simp only [upsertIndexEntry, Finmap.lookup_insert_of_ne _ hid] at hentry
              cases hbidx : st.index b.run with
              | none => simp [hbidx] at hentry
              | some idx => exact hold idx entry (hrun ▸ hbidx) (by simpa [hbidx] using hentry)
            · rw [if_neg hrun] at hidx
              exact hold idx entry hidx hentry
          · rw [hstep]
            simpa [finalizedStore] using hdigest
  · exact hkept (step_of_not_finalize hop)

/-! ## One request -/

theorem step_start : st.step host ⟨.start, arguments, out⟩
      = match startSession host out arguments st with
        | .ok (a, s) => st.writeSession a s
        | .error _ => st := by
  show (doStartVerification host out arguments st).2 = _
  unfold doStartVerification
  cases startSession host out arguments st <;> rfl

theorem step_append : st.step host ⟨.append, arguments, out⟩
      = match appendSession host out arguments st with
        | .ok (a, s) => st.writeSession a s
        | .error _ => st := by
  show (doAppendClarification host out arguments st).2 = _
  unfold doAppendClarification
  cases appendSession host out arguments st <;> rfl

theorem step_abort : st.step host ⟨.abort, arguments, out⟩
      = match abortSession host out arguments st with
        | .ok (a, s) => st.writeSession a s
        | .error _ => st := by
  show (doAbortVerification host out arguments st).2 = _
  unfold doAbortVerification
  cases abortSession host out arguments st <;> rfl

/-- A session written where there is no receipt, or with the transcript it had,
leaves the receipts matching. -/
theorem ReceiptsMatch.writeSession (h : ReceiptsMatch host st) (hs : st.receipt a = none
      ∨ ∃ prev, st.session a = some prev ∧ s.transcript = prev.transcript) :
    ReceiptsMatch host (st.writeSession a s) := by
  intro b v hv
  rw [writeSession_receipt] at hv
  obtain ⟨old, hold, hdigest⟩ := h b v hv
  by_cases hba : b = a
  · subst hba
    refine ⟨s, by simp, ?_⟩
    rcases hs with hnone | ⟨prev, hprev, htranscript⟩
    · rw [hnone] at hv
      cases hv
    · obtain rfl := Option.some.inj (hold.symm.trans hprev)
      rw [hdigest, htranscript]
  · exact ⟨old, by simpa [hba] using hold, hdigest⟩

theorem ReceiptsMatch.writeReceipt (h : ReceiptsMatch host st) (hs : st.session a = some s) (now : Text) :
    ReceiptsMatch host (st.writeReceipt a (buildVerifiedArtifact host s a now)) := by
  intro b v hv
  rw [writeReceipt_receipt] at hv
  by_cases hba : b = a
  · subst hba
    rw [if_pos rfl] at hv
    obtain rfl := Option.some.inj hv
    exact ⟨s, hs, rfl⟩
  · rw [if_neg hba] at hv
    exact h b v hv

theorem ReceiptsMatch.finalize (h : ReceiptsMatch host st) (arguments : Args J) (out : Outside) :
    ReceiptsMatch host (st.step host ⟨.finalize, arguments, out⟩) := by
  cases hchecks : finalizeChecks host out arguments st with
  | error e => rwa [finalize_rejected hchecks]
  | ok p =>
      obtain ⟨a, s⟩ := p
      obtain ⟨hs, -, -⟩ := finalizeChecks_ok hchecks
      have hreceipt := h.writeReceipt hs out.now
      have hsession := hreceipt.writeSession (a := a) (s := finalizedSession s out.now)
        (Or.inr ⟨s, hs, rfl⟩)
      rcases finalize_step hchecks with
        ⟨-, hstep⟩ | ⟨-, -, hstep⟩ | ⟨-, -, -, hstep⟩ | ⟨-, -, -, hstep⟩
      · rwa [hstep]
      · rwa [hstep]
      · rwa [hstep]
      · rw [hstep]
        exact hsession

theorem Undisturbed.receiptsMatch (hr : Undisturbed host st r) (h : ReceiptsMatch host st) :
    ReceiptsMatch host (st.step host r) := by
  obtain ⟨op, arguments, out⟩ := r
  obtain ⟨-, happend, hstart⟩ := hr
  cases op with
  | finalize => exact h.finalize arguments out
  | start =>
      rw [step_start]
      cases hs : startSession host out arguments st with
      | error e => exact h
      | ok p => exact h.writeSession (Or.inl (hstart p.1 p.2 rfl hs))
  | append =>
      rw [step_append]
      cases hs : appendSession host out arguments st with
      | error e => exact h
      | ok p => exact h.writeSession (Or.inl (happend p.1 p.2 rfl hs))
  | abort =>
      rw [step_abort]
      cases hs : abortSession host out arguments st with
      | error e => exact h
      | ok p =>
          obtain ⟨a, s⟩ := p
          obtain ⟨prev, reason, hprev, -, -, rfl⟩ := abortSession_ok hs
          exact h.writeSession (Or.inr ⟨prev, hprev, rfl⟩)

/-- Where a finalization ends before the session or after the index, another call
completes it. -/
theorem Undisturbed.complete (hr : Undisturbed host st r) (hrec : Recorded host st)
    (hop : r.op = .finalize) (hchecks : finalizeChecks host r.out r.arguments st = .ok (a, s))
    (now : Text) :
    Complete host ((st.step host r).step host ⟨.finalize, r.arguments, quietly now⟩) a := by
  obtain ⟨op, arguments, out⟩ := r
  obtain rfl : op = .finalize := hop
  obtain ⟨hinv, hstate⟩ := hrec.accepted hchecks
  obtain ⟨hs, -, -⟩ := finalizeChecks_ok hchecks
  rcases finalize_step hchecks with
    ⟨-, hstep⟩ | ⟨-, -, hstep⟩ | ⟨hreceipt, hsession, hindex, -⟩ | ⟨-, -, -, hstep⟩
  · rw [hstep, retry_unfinalized hchecks hs now]
    exact complete_finalizedStore hinv hstate now
  · have hkept : (st.writeReceipt a (buildVerifiedArtifact host s a out.now)).session a
        = some s := hs
    rw [hstep, retry_unfinalized hchecks hkept now]
    exact complete_finalizedStore hinv hstate now
  · exact absurd (hr.1 a s rfl hchecks hreceipt hsession) hindex
  · have hfinal : (finalizedStore st a s (buildVerifiedArtifact host s a out.now)
        out.now).session a = some (finalizedSession s out.now) := by
      simp [finalizedStore]
    rw [hstep, retry_finalized hchecks hfinal rfl now]
    exact complete_finalizedStore hinv hstate out.now

variable (host) in
/-- A transcript and a longer one that begins with it have different digests. -/
def DigestTellsTurns : Prop :=
  ∀ transcript turns, turns ≠ [] →
    transcriptDigest host (transcript ++ turns) ≠ transcriptDigest host transcript

theorem repairable_iff (hdigest : DigestTellsTurns host)
    (hrec : Recorded host st) (hmatch : ReceiptsMatch host st) (r : SessionRequest J) :
    Repairable host st r ↔ Undisturbed host st r := by
  constructor
  · rintro ⟨hcomplete, hafter⟩
    obtain ⟨op, arguments, out⟩ := r
    refine ⟨?_, ?_, ?_⟩
    · intro a s hop hchecks hreceipt hsession
      obtain rfl : op = .finalize := hop
      by_contra hindex
      obtain ⟨hs, -, hstate⟩ := finalizeChecks_ok hchecks
      rcases finalize_step hchecks with ⟨hbad, -⟩ | ⟨-, hbad, -⟩ | ⟨-, -, -, hstep⟩ | ⟨-, -, hbad, -⟩
      · exact hbad hreceipt
      · exact hbad hsession
      · -- the next call is refused, and the index has no verified entry
        have hfinal : (st.step host ⟨.finalize, arguments, out⟩).session a
            = some (finalizedSession s out.now) := by
          rw [hstep]
          simp
        obtain ⟨s', v, idx, entry, -, -, hidx, hentry, -, -, -, -, -, -, hverifiedAt, -⟩ :=
          (hcomplete a s rfl hchecks out.now).complete
        rw [retry_finalized hchecks hfinal rfl out.now, hstep] at hidx
        have hnot : ∀ s', st.session a = some s' → s'.state ≠ .finalized := by
          intro s' hs'
          obtain rfl := Option.some.inj (hs.symm.trans hs')
          exact hstate ▸ nofun
        rw [hrec.unindexed a hnot idx entry hidx hentry] at hverifiedAt
        cases hverifiedAt
      · exact hindex hbad
    · intro a s hop hs
      obtain rfl : op = .append := hop
      by_contra hreceipt
      obtain ⟨v, hv⟩ := Option.ne_none_iff_exists'.mp hreceipt
      obtain ⟨prev, state, turn, hprev, -, -, -, -, rfl⟩ := appendSession_ok hs
      obtain ⟨s', hs', hold⟩ := hmatch a v hv
      obtain rfl := Option.some.inj (hprev.symm.trans hs')
      have hstep : st.step host ⟨.append, arguments, out⟩
          = st.writeSession a (appended prev state turn) := by rw [step_append, hs]
      rw [hstep] at hafter
      obtain ⟨s'', hs'', hnew⟩ := hafter a v hv
      rw [writeSession_session, if_pos rfl] at hs''
      obtain rfl := Option.some.inj hs''
      exact hdigest prev.transcript [turn] (by simp) (hnew.symm.trans hold)
    · intro a s hop hs
      obtain rfl : op = .start := hop
      by_contra hreceipt
      obtain ⟨v, hv⟩ := Option.ne_none_iff_exists'.mp hreceipt
      obtain ⟨rfl, -⟩ := startSession_ok hs
      obtain ⟨transcript, hne, hold⟩ := hrec.receipts a v hv
      have hstep : st.step host ⟨.start, arguments, out⟩
          = st.writeSession a (buildNewSession a true out.now) := by rw [step_start, hs]
      rw [hstep] at hafter
      obtain ⟨s', hs', hnew⟩ := hafter a v hv
      rw [writeSession_session, if_pos rfl] at hs'
      obtain rfl := Option.some.inj hs'
      exact hdigest [] transcript hne (hold.symm.trans hnew)
  · intro h
    exact ⟨fun a s hop hchecks now => h.complete hrec hop hchecks now, h.receiptsMatch hmatch⟩

/-! ## Runs -/

/-- A store without sessions, its index as far as `refine_finding` writes it. -/
structure Unstarted (st : FindingStore J) : Prop where
  session : ∀ a, st.session a = none
  receipt : ∀ a, st.receipt a = none
  index : ∀ run idx, st.index run = some idx →
    ∀ findingId entry, idx.findings.lookup findingId = some entry → entry.verifiedAt = none

theorem Unstarted.recorded (h : Unstarted st) : Recorded host st := by
  refine ⟨?_, ?_, ?_⟩
  · intro a
    refine ⟨none, ?_⟩
    intro s hs
    rw [h.session a] at hs
    cases hs
  · intro a _ idx entry hidx hentry
    exact h.index a.run idx hidx a.findingId entry hentry
  · intro a v hv
    rw [h.receipt a] at hv
    cases hv

theorem Unstarted.receiptsMatch (h : Unstarted st) : ReceiptsMatch host st := by
  intro a v hv
  rw [h.receipt a] at hv
  cases hv

/-- Every request of a run is repairable exactly when no finalization of it ends
between its session and its index entry and no turn or restart is accepted over a
receipt. -/
theorem finalize_recoverable_iff (host : SessionHost J) (hdigest : DigestTellsTurns host)
    {st : FindingStore J} (hst : Unstarted st) (requests : List (SessionRequest J)) :
    Runs.Along (FindingStore.step host) (Repairable host) requests st
      ↔ Runs.Along (FindingStore.step host) (Undisturbed host) requests st := by
  have hiff : ∀ st r, Recorded host st ∧ ReceiptsMatch host st →
      (Repairable host st r ↔ Undisturbed host st r) :=
    fun st r h => repairable_iff hdigest h.1 h.2 r
  have hstep : ∀ st r, Recorded host st ∧ ReceiptsMatch host st → Repairable host st r →
      Recorded host (st.step host r) ∧ ReceiptsMatch host (st.step host r) :=
    fun st r h hr => ⟨h.1.step r, hr.2⟩
  exact Runs.along_congr hiff hstep ⟨hst.recorded, hst.receiptsMatch⟩

end FinalizeRecovery

/-! ## An index write that fails -/

theorem plainHost_tellsTurns : DigestTellsTurns plainHost := by
  intro transcript turns hne heq
  have hlen := congrArg List.length heq
  cases turns with
  | nil => exact hne rfl
  | cons turn turns =>
      simp [transcriptDigest, plainHost, List.flatMap_append] at hlen

theorem empty_unstarted : Unstarted (FindingStore.empty : FindingStore Unit) :=
  ⟨fun _ => rfl, fun _ => rfl, nofun⟩

def answerArgs (key : Text) : Option (JsonArg Unit) :=
  if key = "kind".toList then some (.str "user_answer".toList) else oneFindingArgs key

/-- A session of one question and one answer, and its finalization. -/
def oneRound (out : Outside) : List (SessionRequest Unit) :=
  [oneRequest .start, oneRequest .append, ⟨.append, some answerArgs, { now := ['t'] }⟩,
    ⟨.finalize, some oneFindingArgs, out⟩]

theorem oneRound_recoverable :
    Unstarted (FindingStore.empty : FindingStore Unit)
      ∧ Runs.Along (FindingStore.step plainHost) (Repairable plainHost)
          (oneRound (quietly ['t'])) .empty := by
  refine ⟨empty_unstarted, ?_⟩
  refine (finalize_recoverable_iff plainHost plainHost_tellsTurns empty_unstarted _).mpr ?_
  have hundisturbed : ∀ (st : FindingStore Unit) (r : SessionRequest Unit),
      (∀ a, st.receipt a = none) → r.out.upsertIndex = none → Undisturbed plainHost st r :=
    fun st r hnone hindex =>
      ⟨fun _ _ _ _ _ _ => hindex, fun a _ _ _ => hnone a, fun a _ _ _ => hnone a⟩
  have hkept : ∀ (st : FindingStore Unit) (r : SessionRequest Unit),
      r.op ≠ .finalize → (∀ a, st.receipt a = none) →
      ∀ a, (st.step plainHost r).receipt a = none := by
    intro st r hop hnone a
    rw [(step_of_not_finalize hop).1, hnone a]
  have h0 : ∀ a, (FindingStore.empty : FindingStore Unit).receipt a = none := fun _ => rfl
  have h1 := hkept _ (oneRequest .start) nofun h0
  have h2 := hkept _ (oneRequest .append) nofun h1
  have h3 := hkept _ ⟨.append, some answerArgs, { now := ['t'] }⟩ nofun h2
  exact ⟨hundisturbed _ _ h0 rfl, hundisturbed _ _ h1 rfl, hundisturbed _ _ h2 rfl,
    hundisturbed _ _ h3 rfl, trivial⟩

def indexFails : Outside := { now := ['t'], upsertIndex := some "disk full".toList }

/-- The session is finalized, and the next call is refused with no index written. -/
theorem finalize_not_recovered :
    ¬ Runs.Along (FindingStore.step plainHost) (Repairable plainHost) (oneRound indexFails)
        .empty := by
  rintro ⟨-, -, -, hlast, -⟩
  obtain ⟨s, hs⟩ : ∃ s, finalizeChecks plainHost indexFails (some oneFindingArgs)
      (Runs.run (FindingStore.step plainHost) ((oneRound indexFails).take 3) .empty)
        = .ok (oneFinding, s) := ⟨_, rfl⟩
  obtain ⟨-, -, idx, -, -, -, hidx, -⟩ := (hlast.1 oneFinding s rfl hs ['u']).complete
  have hnone : (Runs.run (FindingStore.step plainHost)
      (oneRound indexFails ++ [⟨.finalize, some oneFindingArgs, quietly ['u']⟩])
        .empty).index oneFinding.run = none := rfl
  exact absurd (hnone.symm.trans hidx) nofun

end CodeGraph
