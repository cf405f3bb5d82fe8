import CodeGraph.CochangeLog
import CodeGraph.Lib.Runs

/-!
# Runs of the miner

The counts of a run are those of the commits it has read since the last full run
(`accumulate_perm`: in whatever order). They are the counts of the window as long as
the history only grows and nothing leaves the window; a rewritten commit, an aged
one and a log that fails are never made good, since the counts are only added to.

A pair is never counted more often than either of its files, whatever the runs.
-/

namespace CodeGraph

open List

namespace Cochange

open Upsert

/-! ## Pairs and files -/

/-- The number of commits counted for a file. -/
def CochangeState.changes (state : CochangeState) (f : Text) : Nat :=
  (state.fileChanges.lookup f).getD 0

/-- A pair is counted at most as often as each of its files. -/
def PairsBounded (state : CochangeState) : Prop :=
  ∀ key agg, state.pairs.lookup key = some agg →
    ∃ a b, splitKey key = some (a, b)
      ∧ agg.count ≤ min (state.changes a) (state.changes b)

/-- The files of a commit are told apart, and their pairs by the keys. -/
structure CommitFiles.WellFormed (c : CommitFiles) : Prop where
  nodup : c.files.Nodup
  unit : ∀ f ∈ c.files, '\x1f' ∉ f

theorem order_cases (a b : Text) : order a b = (a, b) ∨ order a b = (b, a) := by
  unfold order
  split
  · exact Or.inl rfl
  · exact Or.inr rfl

theorem splitKey_pairKey {a b : Text} (ha : '\x1f' ∉ a) (hb : '\x1f' ∉ b) :
    splitKey (pairKey a b) = some (a, b) := by
  rw [splitKey, pairKey, splitOnChar_append, splitOnChar_of_notMem ha, splitOnChar_of_notMem hb]
  rfl

variable {p : Text × Text}

theorem splitKey_keyOf (h₁ : '\x1f' ∉ p.1) (h₂ : '\x1f' ∉ p.2) :
    splitKey (keyOf p) = some (order p.1 p.2) := by
  unfold keyOf
  rcases order_cases p.1 p.2 with h | h
  · rw [h]
    exact splitKey_pairKey h₁ h₂
  · rw [h]
    exact splitKey_pairKey h₂ h₁

theorem mem_of_mem_pairsOf : ∀ {files : List Text}, p ∈ pairsOf files → p.1 ∈ files ∧ p.2 ∈ files
  | f :: rest, h => by
      rcases mem_append.mp h with h | h
      · obtain ⟨g, hg, rfl⟩ := mem_map.mp h
        exact ⟨mem_cons_self, mem_cons_of_mem _ hg⟩
      · obtain ⟨h₁, h₂⟩ := mem_of_mem_pairsOf h
        exact ⟨mem_cons_of_mem _ h₁, mem_cons_of_mem _ h₂⟩

theorem ends_of_keyOf_eq {q : Text × Text} (h₁ : '\x1f' ∉ p.1) (h₂ : '\x1f' ∉ p.2)
    (h₁' : '\x1f' ∉ q.1) (h₂' : '\x1f' ∉ q.2) (h : keyOf p = keyOf q) : p = q ∨ p = (q.2, q.1) := by
  have hsplit := splitKey_keyOf h₁ h₂
  rw [h, splitKey_keyOf h₁' h₂'] at hsplit
  have heq := Option.some.inj hsplit
  rcases order_cases q.1 q.2 with hq | hq <;> rcases order_cases p.1 p.2 with hp | hp <;>
    rw [hq, hp] at heq
  · exact Or.inl heq.symm
  · exact Or.inr (Prod.ext (Prod.mk.inj heq).2.symm (Prod.mk.inj heq).1.symm)
  · exact Or.inr heq.symm
  · exact Or.inl (Prod.ext (Prod.mk.inj heq).2.symm (Prod.mk.inj heq).1.symm)

theorem nodup_keys : ∀ {files : List Text}, files.Nodup → (∀ f ∈ files, '\x1f' ∉ f) →
    ((pairsOf files).map keyOf).Nodup
  | [], _, _ => nodup_nil
  | f :: rest, hnodup, hunit => by
      obtain ⟨hf, hrest⟩ := nodup_cons.mp hnodup
      have hunitRest : ∀ g ∈ rest, '\x1f' ∉ g := fun g hg => hunit g (mem_cons_of_mem _ hg)
      have hunitF := hunit f mem_cons_self
      rw [pairsOf, map_append, map_map]
      refine nodup_append'.mpr ⟨?_, nodup_keys hrest hunitRest, ?_⟩
      · refine hrest.map_on ?_
        intro g hg g' hg' h
        rcases ends_of_keyOf_eq hunitF (hunitRest g hg) hunitF (hunitRest g' hg') h with h | h
        · exact (Prod.mk.inj h).2
        · exact absurd ((Prod.mk.inj h).1 ▸ hg') hf
      · intro key hkey hkey'
        obtain ⟨g, hg, rfl⟩ := mem_map.mp hkey
        obtain ⟨q, hq, heq⟩ := mem_map.mp hkey'
        obtain ⟨hq₁, hq₂⟩ := mem_of_mem_pairsOf hq
        rcases ends_of_keyOf_eq (hunitRest _ hq₁) (hunitRest _ hq₂) hunitF (hunitRest g hg) heq
          with rfl | rfl
        · exact hf hq₁
        · exact hf hq₂

theorem changes_accumulateCommit (state : CochangeState) (c : CommitFiles) (f : Text) :
    (accumulateCommit state c).changes f = state.changes f + c.counted.count f := by
  have hbump : ∀ (_ : Text) (x : Option ℕ), id (bump x) = (x.map id).getD 0 + 1 := by
    intro _ x
    cases x <;> rfl
  have hcount := countAt_upserts id (fun _ => bump) hbump c.counted state.fileChanges f
  simp only [countAt, map_id, Option.map_id, id] at hcount
  rw [accumulateCommit_eq]
  exact hcount

theorem PairsBounded.accumulateCommit {state : CochangeState} (h : PairsBounded state)
    {c : CommitFiles} (hc : c.WellFormed) : PairsBounded (accumulateCommit state c) := by
  intro key agg hagg
  have hentries : (c.pairs.map fun p => (p, c.ts)).map (fun e => keyOf e.1)
      = c.pairs.map keyOf := by
    rw [map_map]
    rfl
  have hlookup : (upserts (fun e => keyOf e.1) (fun e => bumpPair e.2)
      (c.pairs.map fun p => (p, c.ts)) state.pairs).lookup key = some agg := by
    rw [accumulateCommit_eq] at hagg
    exact hagg
  have hcount : agg.count = countAt PairAgg.count state.pairs key
      + (c.pairs.map keyOf).count key := by
    have hat : countAt PairAgg.count _ key = agg.count := countAt_of_lookup hlookup
    rw [← hat, countAt_upserts, hentries]
    intro e x
    cases x <;> rfl
  have hpairs : ∀ p ∈ c.pairs, p ∈ pairsOf c.files ∧ c.counted = c.files := by
    intro p hp
    unfold CommitFiles.pairs at hp
    unfold CommitFiles.counted
    split at hp
    · cases hp
    · next hnoise => exact ⟨hp, if_neg hnoise⟩
  have honce : (c.pairs.map keyOf).count key ≤ 1 := by
    refine nodup_iff_count_le_one.mp ?_ key
    unfold CommitFiles.pairs
    split
    · exact nodup_nil
    · exact nodup_keys hc.nodup hc.unit
  -- the files of a pair of this commit
  have hends : ∀ p ∈ c.pairs, keyOf p = key →
      ∃ a b, splitKey key = some (a, b) ∧ 1 ≤ c.counted.count a ∧ 1 ≤ c.counted.count b := by
    intro p hp hkey
    obtain ⟨hmem, hcounted⟩ := hpairs p hp
    obtain ⟨h₁, h₂⟩ := mem_of_mem_pairsOf hmem
    have hsplit := splitKey_keyOf (hc.unit _ h₁) (hc.unit _ h₂)
    rw [hkey] at hsplit
    rw [hcounted]
    rcases order_cases p.1 p.2 with horder | horder
    · exact ⟨_, _, hsplit.trans (congrArg some horder), count_pos_iff.mpr h₁,
        count_pos_iff.mpr h₂⟩
    · exact ⟨_, _, hsplit.trans (congrArg some horder), count_pos_iff.mpr h₂,
        count_pos_iff.mpr h₁⟩
  simp only [changes_accumulateCommit]
  cases hold : state.pairs.lookup key with
  | some old =>
      obtain ⟨a, b, hsplit, hle⟩ := h key old hold
      rw [countAt_of_lookup hold] at hcount
      refine ⟨a, b, hsplit, ?_⟩
      by_cases hmem : key ∈ c.pairs.map keyOf
      · obtain ⟨p, hp, hkey⟩ := mem_map.mp hmem
        obtain ⟨a', b', hsplit', h₁, h₂⟩ := hends p hp hkey
        obtain ⟨rfl, rfl⟩ := Prod.mk.inj (Option.some.inj (hsplit.symm.trans hsplit'))
        omega
      · rw [count_eq_zero_of_not_mem hmem] at hcount
        omega
  | none =>
      have hmem : key ∈ c.pairs.map keyOf := by
        by_contra hnot
        have hnone : (upserts (fun e => keyOf e.1) (fun e => bumpPair e.2)
            (c.pairs.map fun p => (p, c.ts)) state.pairs).lookup key = none :=
          (lookup_upserts_eq_none _ _).mpr ⟨hold, hentries ▸ hnot⟩
        cases hnone.symm.trans hlookup
      have hzero : countAt PairAgg.count state.pairs key = 0 := by
        rw [countAt, hold]
        rfl
      obtain ⟨p, hp, hkey⟩ := mem_map.mp hmem
      obtain ⟨a, b, hsplit, h₁, h₂⟩ := hends p hp hkey
      exact ⟨a, b, hsplit, by omega⟩

theorem PairsBounded.accumulate {state : CochangeState} (h : PairsBounded state)
    {commits : List CommitFiles} (hc : ∀ c ∈ commits, c.WellFormed) :
    PairsBounded (accumulate state commits) := by
  unfold Cochange.accumulate
  induction commits generalizing state with
  | nil => exact h
  | cons c commits ih =>
      refine ih (h.accumulateCommit (hc c mem_cons_self)) ?_
      exact fun c' hc' => hc c' (mem_cons_of_mem _ hc')

theorem pairsBounded_new : PairsBounded .new := by
  intro key agg h
  cases h

/-! ## Runs -/

structure MineRun where
  mode : Mode
  checkout : Checkout
  sidecarReads : Bool
  writes : Writes

/-- The sidecar, with what the run that wrote it found. -/
structure Mined where
  state : CochangeState
  checkout : Checkout

section Runs

variable (cc : CharClass) (repo : GitRepo)

/-- What a run starts from: a full run from nothing, as one that cannot read the
sidecar. -/
def MineRun.prior (r : MineRun) (st : Option Mined) : Option CochangeState :=
  if r.mode = .incremental ∧ r.sidecarReads = true then loadState (st.map Mined.state) else none

/-- A run saves its state or leaves the sidecar as it is. -/
def step (st : Option Mined) (r : MineRun) : Option Mined :=
  match mine cc (r.checkout.calls cc repo) r.writes r.mode (r.prior st) with
  | .ok (some (_, state)) => some ⟨state, r.checkout⟩
  | _ => st

/-- A full run on a checkout, all of its calls and writes going through. -/
def fullMine (c : Checkout) : Except Text (Option (MineResult × CochangeState)) :=
  mine cc ({ c with logFails := false }.calls cc repo) ⟨.ok 0, .ok ()⟩ .full none

/-- From one checkout to the next nothing leaves the window and nothing old enters
it, and what is new is in it. -/
structure Continues (old new : Checkout) (last head : Text) : Prop where
  subtree : showSubtree cc (new.calls cc repo) = showSubtree cc (old.calls cc repo)
  kept : ∀ sha ∈ repo.walk last, sha ∈ repo.window last old.since ↔ sha ∈ repo.window head new.since
  covered : ∀ sha ∈ listed repo new head (.after last), sha ∈ repo.window head new.since

def MineRun.range (r : MineRun) (st : Option Mined) : LogRange :=
  (startingPoint (r.checkout.calls cc repo) r.mode (r.prior st)).2.1

/-- Where a run saves its state, its log has not failed on commits to count, and
the checkout continues the one that the counts are of. -/
def NoDrift (st : Option Mined) (r : MineRun) : Prop :=
  ∀ head, gitHead cc (r.checkout.calls cc repo) = some head →
    r.writes.rewriteEdges.isOk = true → r.writes.saveState.isOk = true →
    (r.checkout.logFails = true →
      (listed repo r.checkout head (r.range cc repo st)).filterMap
        (commitFiles cc repo (showSubtree cc (r.checkout.calls cc repo))) = [])
    ∧ ∀ last, r.range cc repo st = .after last →
      ∀ m, st = some m → Continues cc repo m.checkout r.checkout last head

variable {cc repo}

/-! ## What a run reads -/

variable {c : Checkout} {head : Text}

theorem listed_printed {range : LogRange} : ∀ sha ∈ listed repo c head range, IsPrinted sha := by
  intro sha hsha
  cases range with
  | window => exact repo.walk_printed head sha (repo.window_walk head c.since sha hsha).1
  | after last => exact repo.walk_printed head sha (mem_filter.mp hsha).1

theorem revParse_of_gitHead {git : GitCalls} (h : gitHead cc git = some head) :
    ∃ out, git.revParseHead = some out ∧ trim cc out = head := by
  obtain ⟨out, hout, h⟩ := Option.bind_eq_some_iff.mp h
  split at h
  · cases h
  · exact ⟨out, hout, Option.some.inj h⟩

theorem readCommitFiles_calls
    (h : gitHead cc (c.calls cc repo) = some head) (range : LogRange) (subtree : Text) :
    readCommitFiles cc (c.calls cc repo) range subtree
      = if c.logFails then []
        else (listed repo c head range).filterMap (commitFiles cc repo subtree) := by
  obtain ⟨out, hout, htrim⟩ := revParse_of_gitHead h
  have hrev : c.revParseHead = some out := hout
  unfold readCommitFiles Checkout.calls
  cases hfails : c.logFails with
  | true => rfl
  | false =>
      simp only [hrev, htrim, Option.map_some, if_neg Bool.false_ne_true]
      exact parse_printLog subtree listed_printed

theorem stripPrefixPath_eq {path subtree rel : Text}
    (h : Bootstrap.stripPrefixPath path subtree = some rel) : path = subtree ++ rel := by
  unfold Bootstrap.stripPrefixPath at h
  split at h
  · next hsubtree => rw [hsubtree, nil_append, Option.some.inj h]
  · exact stripPrefix_eq h

theorem wellFormed_commitFiles {subtree sha : Text} {c : CommitFiles}
    (h : commitFiles cc repo subtree sha = some c) : c.WellFormed := by
  simp only [commitFiles] at h
  split at h
  · cases h
  · obtain rfl := Option.some.inj h
    constructor
    · refine ((repo.commit sha).names_nodup.filter _).filterMap ?_
      intro p q rel hp hq
      rw [stripPrefixPath_eq hp, stripPrefixPath_eq hq]
    · intro f hf hunit
      obtain ⟨p, hp, hrel⟩ := mem_filterMap.mp hf
      have hname := (repo.commit sha).names_printed p (mem_filter.mp hp).1
      exact hname.unit (stripPrefixPath_eq hrel ▸ mem_append_right _ hunit)

theorem wellFormed_readCommitFiles
    (h : gitHead cc (c.calls cc repo) = some head) (range : LogRange) (subtree : Text) :
    ∀ files ∈ readCommitFiles cc (c.calls cc repo) range subtree, files.WellFormed := by
  intro files hfiles
  rw [readCommitFiles_calls h] at hfiles
  split at hfiles
  · cases hfiles
  · obtain ⟨sha, -, hsha⟩ := mem_filterMap.mp hfiles
    exact wellFormed_commitFiles hsha

/-! ## One run -/

def minedState (cc : CharClass) (repo : GitRepo) (st : Option Mined) (r : MineRun) (head : Text) :
    CochangeState :=
  { accumulate (startingPoint (r.checkout.calls cc repo) r.mode (r.prior st)).1
      (readCommitFiles cc (r.checkout.calls cc repo) (r.range cc repo st)
        (showSubtree cc (r.checkout.calls cc repo))) with
    lastSha := head }

theorem step_cases (st : Option Mined) (r : MineRun) :
    step cc repo st r = st
    ∨ ∃ head, gitHead cc (r.checkout.calls cc repo) = some head
        ∧ r.writes.rewriteEdges.isOk = true ∧ r.writes.saveState.isOk = true
        ∧ step cc repo st r = some ⟨minedState cc repo st r head, r.checkout⟩ := by
  unfold step mine
  cases hhead : gitHead cc (r.checkout.calls cc repo) with
  | none => exact Or.inl rfl
  | some head =>
      cases hedges : r.writes.rewriteEdges with
      | error e => exact Or.inl rfl
      | ok written =>
          cases hsave : r.writes.saveState with
          | error e => exact Or.inl rfl
          | ok u => exact Or.inr ⟨head, rfl, rfl, rfl, rfl⟩

theorem startingPoint_cases (git : GitCalls) (st : Option Mined) (r : MineRun) :
    (startingPoint git r.mode (r.prior st)).1 = .new
        ∧ (startingPoint git r.mode (r.prior st)).2.1 = .window
    ∨ ∃ m, st = some m ∧ (startingPoint git r.mode (r.prior st)).1 = m.state
        ∧ (startingPoint git r.mode (r.prior st)).2.1 = .after m.state.lastSha := by
  unfold startingPoint
  split
  · next p hmode hprior =>
    split
    · obtain ⟨m, hm, hstate⟩ : ∃ m, st = some m ∧ m.state = p := by
        unfold MineRun.prior at hprior
        split at hprior
        · exact Option.map_eq_some_iff.mp (Option.filter_eq_some_iff.mp hprior).1
        · cases hprior
      exact Or.inr ⟨m, hm, hstate.symm, by rw [hstate]⟩
    · exact Or.inl ⟨rfl, rfl⟩
  · exact Or.inl ⟨rfl, rfl⟩

theorem PairsBounded.step {st : Option Mined} (h : ∀ m, st = some m → PairsBounded m.state)
    (r : MineRun) : ∀ m, step cc repo st r = some m → PairsBounded m.state := by
  intro m hm
  rcases @step_cases cc repo st r with hkept | ⟨head, hhead, -, -, hstep⟩
  · exact h m (hkept ▸ hm)
  · obtain rfl := Option.some.inj (hstep.symm.trans hm)
    have hfiles := wellFormed_readCommitFiles hhead (r.range cc repo st)
      (showSubtree cc (r.checkout.calls cc repo))
    have hstart : PairsBounded
        (startingPoint (r.checkout.calls cc repo) r.mode (r.prior st)).1 := by
      rcases startingPoint_cases (r.checkout.calls cc repo) st r with
        ⟨hnew, -⟩ | ⟨m, hm, hstate, -⟩
      · rw [hnew]
        exact pairsBounded_new
      · rw [hstate]
        exact h m hm
    exact hstart.accumulate hfiles

/-! ## The counts of the window -/

/-- The counted commits and the new ones are those of the window, each once, exactly
when nothing of the old history leaves or enters it and all that is new is in it. -/
theorem window_perm_iff (old new : Checkout) (last head : Text) :
    (repo.window last old.since ++ listed repo new head (.after last)).Perm
        (repo.window head new.since)
      ↔ (∀ sha ∈ repo.walk last,
          sha ∈ repo.window last old.since ↔ sha ∈ repo.window head new.since)
        ∧ ∀ sha ∈ listed repo new head (.after last), sha ∈ repo.window head new.since := by
  have hnot : ∀ sha ∈ listed repo new head (.after last), sha ∉ repo.walk last := by
    intro sha hsha
    have := (mem_filter.mp hsha).2
    simp only [Bool.and_eq_true, decide_eq_true_eq] at this
    exact this.2
  have hapart : (repo.window last old.since).Disjoint (listed repo new head (.after last)) := by
    intro sha hsha hnew
    exact hnot sha hnew (repo.window_walk last old.since sha hsha).1
  have hlisted : (listed repo new head (.after last)).Nodup := (repo.walk_nodup head).filter _
  have hcounted := (repo.window_nodup last old.since).append hlisted hapart
  rw [perm_ext_iff_of_nodup hcounted (repo.window_nodup head new.since)]
  simp only [mem_append]
  constructor
  · intro hiff
    refine ⟨?_, fun sha hsha => (hiff sha).mp (Or.inr hsha)⟩
    intro sha hwalk
    refine ⟨fun hsha => (hiff sha).mp (Or.inl hsha), ?_⟩
    intro hsha
    exact ((hiff sha).mpr hsha).resolve_right fun hnew => hnot sha hnew hwalk
  · rintro ⟨hkept, hcovered⟩ sha
    constructor
    · rintro (hsha | hsha)
      · exact (hkept sha (repo.window_walk last old.since sha hsha).1).mp hsha
      · exact hcovered sha hsha
    · intro hsha
      by_cases hwalk : sha ∈ repo.walk last
      · exact Or.inl ((hkept sha hwalk).mpr hsha)
      · obtain ⟨hmem, hmerge⟩ := repo.window_walk head new.since sha hsha
        exact Or.inr (mem_filter.mpr ⟨hmem, by simp [hmerge, hwalk]⟩)

def windowState (cc : CharClass) (repo : GitRepo) (c : Checkout) (head : Text) : CochangeState :=
  { accumulate .new ((repo.window head c.since).filterMap
      (commitFiles cc repo (showSubtree cc (c.calls cc repo)))) with
    lastSha := head }

theorem mine_full {git : GitCalls} (h : gitHead cc git = some head) :
    mine cc git ⟨.ok 0, .ok ()⟩ .full none
      = .ok (some (⟨"full".toList, (readCommitFiles cc git .window (showSubtree cc git)).length, 0,
          head⟩,
        { accumulate .new (readCommitFiles cc git .window (showSubtree cc git)) with
          lastSha := head })) := by
  unfold mine
  simp only [h]
  rfl

theorem fullMine_eq (h : gitHead cc (c.calls cc repo) = some head) :
    ∃ result, fullMine cc repo c = .ok (some (result, windowState cc repo c head)) := by
  have hgit : gitHead cc ({ c with logFails := false }.calls cc repo) = some head := h
  have hread := readCommitFiles_calls hgit .window (showSubtree cc (c.calls cc repo))
  rw [if_neg Bool.false_ne_true] at hread
  have hmine := mine_full hgit
  have hsubtree : showSubtree cc ({ c with logFails := false }.calls cc repo)
      = showSubtree cc (c.calls cc repo) := rfl
  rw [hsubtree, hread] at hmine
  exact ⟨_, hmine⟩

/-- A state that is the one of a full run on its checkout. -/
def Reflects (cc : CharClass) (repo : GitRepo) (m : Mined) : Prop :=
  ∃ head, gitHead cc (m.checkout.calls cc repo) = some head
    ∧ m.state = windowState cc repo m.checkout head

theorem accumulate_withSha (state : CochangeState) (sha : Text) (commits : List CommitFiles) :
    accumulate { state with lastSha := sha } commits
      = { accumulate state commits with lastSha := sha } := by
  rw [accumulate_eq, accumulate_eq]

theorem Reflects.step {st : Option Mined} (h : ∀ m, st = some m → Reflects cc repo m)
    {r : MineRun} (hr : NoDrift cc repo st r) :
    ∀ m, step cc repo st r = some m → Reflects cc repo m := by
  intro m hm
  rcases @step_cases cc repo st r with hkept | ⟨head, hhead, hedges, hsave, hstep⟩
  · exact h m (hkept ▸ hm)
  · obtain rfl := Option.some.inj (hstep.symm.trans hm)
    obtain ⟨hfails, hcontinues⟩ := hr head hhead hedges hsave
    have hread : readCommitFiles cc (r.checkout.calls cc repo) (r.range cc repo st)
          (showSubtree cc (r.checkout.calls cc repo))
        = (listed repo r.checkout head (r.range cc repo st)).filterMap
            (commitFiles cc repo (showSubtree cc (r.checkout.calls cc repo))) := by
      rw [readCommitFiles_calls hhead]
      split
      · next hlog => exact (hfails hlog).symm
      · rfl
    refine ⟨head, hhead, ?_⟩
    show minedState cc repo st r head = windowState cc repo r.checkout head
    rw [minedState, hread, windowState]
    rcases startingPoint_cases (r.checkout.calls cc repo) st r with
      ⟨hnew, hrange⟩ | ⟨m, hm, hstate, hrange⟩
    · have hrange : r.range cc repo st = .window := hrange
      rw [hnew, hrange, listed]
    · have hrange : r.range cc repo st = .after m.state.lastSha := hrange
      have hc := hcontinues _ hrange m hm
      obtain ⟨head₀, -, hm₀⟩ := h m hm
      have hlast : m.state.lastSha = head₀ := by rw [hm₀, windowState]
      rw [hlast] at hrange hc
      have hperm := ((window_perm_iff m.checkout r.checkout head₀ head).mpr
        ⟨hc.kept, hc.covered⟩).filterMap
          (commitFiles cc repo (showSubtree cc (r.checkout.calls cc repo)))
      rw [hstate, hrange, hm₀, windowState, accumulate_withSha, accumulate_append, ← hc.subtree,
        ← filterMap_append, accumulate_perm hperm]

/-- After any runs a pair is counted at most as often as each of its files, and
after runs without drift the sidecar is the one of a single full run on the checkout
it was written on. -/
theorem cochange_runs (cc : CharClass) (repo : GitRepo) (runs : List MineRun) {m : Mined}
    (hm : Runs.run (step cc repo) runs none = some m) :
    PairsBounded m.state
      ∧ (Runs.Along (step cc repo) (NoDrift cc repo) runs none →
          ∃ result, fullMine cc repo m.checkout = .ok (some (result, m.state))) := by
  constructor
  · have hstep : ∀ st, ∀ r ∈ runs, (∀ m, st = some m → PairsBounded m.state) →
        ∀ m, step cc repo st r = some m → PairsBounded m.state :=
      fun st r _ h => PairsBounded.step h r
    have hnone : ∀ m, (none : Option Mined) = some m → PairsBounded m.state := by
      intro m h
      cases h
    exact Runs.run_inv_of_mem hstep hnone m hm
  · intro hdrift
    have hstep : ∀ st r, (∀ m, st = some m → Reflects cc repo m) → NoDrift cc repo st r →
        ∀ m, step cc repo st r = some m → Reflects cc repo m :=
      fun st r h hr => Reflects.step h hr
    have hnone : ∀ m, (none : Option Mined) = some m → Reflects cc repo m := by
      intro m h
      cases h
    obtain ⟨head, hhead, hstate⟩ := Runs.run_inv hstep hnone hdrift m hm
    rw [hstate]
    exact fullMine_eq hhead

end Runs

/-! ## A log that fails -/

def twoFiles : GitCommit where
  authoredAt := ['1']
  isMerge := false
  names := [['x'], ['y']]
  authoredAt_printed := ⟨nofun, by simp [IsLine], by simp, by simp⟩
  names_nodup := by decide
  names_printed name h := by
    rcases mem_pair.mp h with rfl | rfl <;>
      exact ⟨nofun, by simp [IsLine], by simp, by simp⟩

/-- A commit, and another one after it. -/
def twoCommits : GitRepo where
  commit _ := twoFiles
  walk head := if head = ['b'] then [['b'], ['a']] else [['a']]
  window head _ := if head = ['b'] then [['b'], ['a']] else [['a']]
  walk_nodup head := by split <;> decide
  walk_printed head sha h := by
    have hsha : sha = ['a'] ∨ sha = ['b'] := by
      split at h
      · exact (mem_pair.mp h).symm
      · exact Or.inl (mem_singleton.mp h)
    rcases hsha with rfl | rfl <;> exact ⟨nofun, by simp [IsLine], by simp, by simp⟩
  window_nodup head _ := by split <;> decide
  window_walk head _ sha h := ⟨h, rfl⟩

def runAt (mode : Mode) (head : Text) (logFails : Bool) : MineRun where
  mode := mode
  checkout := ⟨some (head ++ ['\n']), some ['\n'], fun _ => true, 0, logFails⟩
  sidecarReads := true
  writes := ⟨.ok 0, .ok ()⟩

theorem noDrift_first (head : Text) : NoDrift .ascii twoCommits none (runAt .full head false) := by
  intro _ _ _ _
  exact ⟨nofun, fun last hrange => absurd hrange nofun⟩

theorem noDrift_second {m : Mined} (hsha : m.state.lastSha = ['a'])
    (hcheckout : m.checkout = (runAt .full ['a'] false).checkout) :
    NoDrift .ascii twoCommits (some m) (runAt .incremental ['b'] false) := by
  intro head hhead _ _
  obtain rfl : ['b'] = head := Option.some.inj hhead
  refine ⟨nofun, ?_⟩
  intro last hrange m' hm'
  obtain rfl := Option.some.inj hm'
  obtain rfl : last = ['a'] := by
    rcases startingPoint_cases ((runAt .incremental ['b'] false).checkout.calls .ascii twoCommits)
      (some m) (runAt .incremental ['b'] false) with ⟨-, hwindow⟩ | ⟨m'', hm'', -, hafter⟩
    · exact absurd (hrange.symm.trans hwindow) nofun
    · obtain rfl := Option.some.inj hm''
      rw [hsha] at hafter
      exact LogRange.after.inj (hrange.symm.trans hafter)
  rw [hcheckout]
  refine ⟨rfl, ?_, ?_⟩
  · intro sha hsha
    obtain rfl := mem_singleton.mp hsha
    decide
  · intro sha hsha
    exact (mem_filter.mp hsha).1

theorem cochange_runs_extended :
    ∃ m, Runs.run (step .ascii twoCommits) [runAt .full ['a'] false, runAt .incremental ['b'] false]
        none = some m
      ∧ PairsBounded m.state
      ∧ ∃ result, fullMine .ascii twoCommits m.checkout = .ok (some (result, m.state)) := by
  obtain ⟨m, hm⟩ : ∃ m, Runs.run (step .ascii twoCommits)
      [runAt .full ['a'] false, runAt .incremental ['b'] false] none = some m := ⟨_, rfl⟩
  obtain ⟨hbounded, hfull⟩ := cochange_runs .ascii twoCommits _ hm
  refine ⟨m, hm, hbounded, hfull ⟨noDrift_first ['a'], noDrift_second ?_ ?_, trivial⟩⟩
  · rfl
  · rfl

def changesOf (mined : Except Text (Option (MineResult × CochangeState))) (f : Text) : Nat :=
  match mined with
  | .ok (some (_, state)) => state.changes f
  | _ => 0

/-- The commit of the first run is not counted, and the second run asks for what
came after it. -/
theorem cochange_commit_lost :
    ∃ m, Runs.run (step .ascii twoCommits) [runAt .full ['a'] true, runAt .incremental ['b'] false]
        none = some m
      ∧ ¬ ∃ result, fullMine .ascii twoCommits m.checkout = .ok (some (result, m.state)) := by
  obtain ⟨m, hm⟩ : ∃ m, Runs.run (step .ascii twoCommits)
      [runAt .full ['a'] true, runAt .incremental ['b'] false] none = some m := ⟨_, rfl⟩
  have hchanges : (Runs.run (step .ascii twoCommits)
      [runAt .full ['a'] true, runAt .incremental ['b'] false] none).map
        (fun m => m.state.changes ['x']) = some 1 := by decide
  have hcheckout : (Runs.run (step .ascii twoCommits)
      [runAt .full ['a'] true, runAt .incremental ['b'] false] none).map Mined.checkout
        = some (runAt .incremental ['b'] false).checkout := rfl
  rw [hm, Option.map_some] at hchanges hcheckout
  refine ⟨m, hm, ?_⟩
  rintro ⟨result, hfull⟩
  rw [Option.some.inj hcheckout] at hfull
  have htwice : changesOf (fullMine .ascii twoCommits (runAt .incremental ['b'] false).checkout) ['x']
      = 2 := by decide
  rw [hfull] at htwice
  exact absurd (htwice.symm.trans (Option.some.inj hchanges)) (by decide)

end Cochange

end CodeGraph
