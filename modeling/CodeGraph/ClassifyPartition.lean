import CodeGraph.Classify

/-!
# The change set is a partition

Every current file falls in one class of the plan, every file the prior manifest
alone knows in one of two, and the renames pair them off one to one. The first
phase filters the current files by what the prior manifest says of each; the
rename phase is followed through `Pairing`, what holds of its accumulator after
any number of candidates.
-/

namespace CodeGraph

open List

section ClassifyPartition

variable (hashFile : Text → Option Text)

/-! ## The first phase -/

/-- The manifest knows the file and finds it as it was, by its signal or by its
content. -/
def sameAsPrior (prior : FileManifest) (d : Discovered) : Bool :=
  match prior.files.lookup d.rel with
  | none => false
  | some prev =>
      decide (prev.mtimeNs = d.mtimeNs ∧ prev.size = d.size)
        || decide (hashOf hashFile d ≠ [] ∧ hashOf hashFile d = prev.contentHash)

/-- The manifest knows the file and finds it different. -/
def differsFromPrior (prior : FileManifest) (d : Discovered) : Bool :=
  (prior.files.lookup d.rel).isSome && !sameAsPrior hashFile prior d

def unknownToPrior (prior : FileManifest) (d : Discovered) : Bool :=
  (prior.files.lookup d.rel).isNone

variable {prior : FileManifest}

theorem sameAsPrior_iff {d : Discovered} : sameAsPrior hashFile prior d = true ↔
      ∃ prev, prior.files.lookup d.rel = some prev
        ∧ ((prev.mtimeNs = d.mtimeNs ∧ prev.size = d.size)
          ∨ (hashOf hashFile d ≠ [] ∧ hashOf hashFile d = prev.contentHash)) := by
  unfold sameAsPrior
  cases h : prior.files.lookup d.rel with
  | none => simp
  | some prev => simp

/-- The state the next manifest holds of a file: the prior one when its signal has
not moved, a fresh one otherwise. -/
def nextState (prior : FileManifest) (d : Discovered) : FileState :=
  match prior.files.lookup d.rel with
  | some prev =>
      if prev.mtimeNs = d.mtimeNs ∧ prev.size = d.size then prev
      else d.state (hashOf hashFile d)
  | none => d.state (hashOf hashFile d)

theorem nextState_of_lookup_none {d : Discovered} (h : prior.files.lookup d.rel = none) :
    nextState hashFile prior d = d.state (hashOf hashFile d) := by
  simp only [nextState, h]

/-- One file of the first phase: which list it joins, and whether the next
manifest gets its state. -/
theorem diffCurrentAgainstPrior_step (prior : FileManifest) (d : Discovered)
    (current : List Discovered) (acc : CurrentDiff) :
    ∃ acc', diffCurrentAgainstPrior hashFile prior (d :: current) acc
        = diffCurrentAgainstPrior hashFile prior current acc'
      ∧ (unknownToPrior prior d = true ∧ sameAsPrior hashFile prior d = false
            ∧ differsFromPrior hashFile prior d = false
            ∧ acc' = { acc with addedCandidates := acc.addedCandidates ++ [d] }
        ∨ unknownToPrior prior d = false ∧ sameAsPrior hashFile prior d = true
            ∧ differsFromPrior hashFile prior d = false
            ∧ acc' = { acc with
                unchanged := acc.unchanged ++ [d]
                next := acc.next.insert d.rel (nextState hashFile prior d) }
        ∨ unknownToPrior prior d = false ∧ sameAsPrior hashFile prior d = false
            ∧ differsFromPrior hashFile prior d = true
            ∧ acc' = { acc with
                changed := acc.changed ++ [d]
                next := acc.next.insert d.rel (nextState hashFile prior d) }) := by
  rw [diffCurrentAgainstPrior]
  refine ⟨_, rfl, ?_⟩
  unfold unknownToPrior differsFromPrior sameAsPrior nextState
  cases prior.files.lookup d.rel with
  | none => exact Or.inl ⟨rfl, rfl, rfl, rfl⟩
  | some prev =>
      refine Or.inr ?_
      by_cases hsig : prev.mtimeNs = d.mtimeNs ∧ prev.size = d.size
      · refine Or.inl ⟨rfl, by simp [hsig], by simp [hsig], ?_⟩
        simp only [if_pos hsig]
      · by_cases hhash : hashOf hashFile d ≠ [] ∧ hashOf hashFile d = prev.contentHash
        · refine Or.inl ⟨rfl, by simp [decide_eq_true hhash], by simp [decide_eq_true hhash], ?_⟩
          simp only [if_neg hsig, if_pos hhash]
        · refine Or.inr ⟨rfl, by simp [decide_eq_false hsig, decide_eq_false hhash],
            by simp [decide_eq_false hsig, decide_eq_false hhash], ?_⟩
          simp only [if_neg hsig, if_neg hhash]

theorem diffCurrentAgainstPrior_unchanged (prior : FileManifest) (current : List Discovered)
    (acc : CurrentDiff) :
    (diffCurrentAgainstPrior hashFile prior current acc).unchanged
      = acc.unchanged ++ current.filter (sameAsPrior hashFile prior) := by
  induction current generalizing acc with
  | nil => simp [diffCurrentAgainstPrior]
  | cons d current ih =>
      obtain ⟨acc', hstep, ⟨-, hs, -, rfl⟩ | ⟨-, hs, -, rfl⟩ | ⟨-, hs, -, rfl⟩⟩ :=
        diffCurrentAgainstPrior_step hashFile prior d current acc
      all_goals rw [hstep, ih, filter_cons, hs]; simp

theorem diffCurrentAgainstPrior_changed (prior : FileManifest) (current : List Discovered)
    (acc : CurrentDiff) :
    (diffCurrentAgainstPrior hashFile prior current acc).changed
      = acc.changed ++ current.filter (differsFromPrior hashFile prior) := by
  induction current generalizing acc with
  | nil => simp [diffCurrentAgainstPrior]
  | cons d current ih =>
      obtain ⟨acc', hstep, ⟨-, -, hd, rfl⟩ | ⟨-, -, hd, rfl⟩ | ⟨-, -, hd, rfl⟩⟩ :=
        diffCurrentAgainstPrior_step hashFile prior d current acc
      all_goals rw [hstep, ih, filter_cons, hd]; simp

theorem diffCurrentAgainstPrior_addedCandidates (prior : FileManifest)
    (current : List Discovered) (acc : CurrentDiff) :
    (diffCurrentAgainstPrior hashFile prior current acc).addedCandidates
      = acc.addedCandidates ++ current.filter (unknownToPrior prior) := by
  induction current generalizing acc with
  | nil => simp [diffCurrentAgainstPrior]
  | cons d current ih =>
      obtain ⟨acc', hstep, ⟨hu, -, -, rfl⟩ | ⟨hu, -, -, rfl⟩ | ⟨hu, -, -, rfl⟩⟩ :=
        diffCurrentAgainstPrior_step hashFile prior d current acc
      all_goals rw [hstep, ih, filter_cons, hu]; simp

variable {rel : Text}

theorem FileManifest.mem_insert {m : FileManifest} {rel' : Text} {state : FileState} :
    rel' ∈ (m.insert rel state).files ↔ rel' = rel ∨ rel' ∈ m.files := by
  simp [FileManifest.insert]

theorem diffCurrentAgainstPrior_next (prior : FileManifest) (current : List Discovered)
    (acc : CurrentDiff) (rel : Text) :
    rel ∈ (diffCurrentAgainstPrior hashFile prior current acc).next.files ↔
      rel ∈ acc.next.files
        ∨ ∃ d ∈ current, unknownToPrior prior d = false ∧ d.rel = rel := by
  induction current generalizing acc with
  | nil => simp [diffCurrentAgainstPrior]
  | cons d current ih =>
      obtain ⟨acc', hstep, ⟨hu, -, -, rfl⟩ | ⟨hu, -, -, rfl⟩ | ⟨hu, -, -, rfl⟩⟩ :=
        diffCurrentAgainstPrior_step hashFile prior d current acc
      · simp [hstep, ih, hu]
      all_goals
        simp only [hstep, ih, FileManifest.mem_insert, exists_mem_cons_iff, hu, true_and]
        tauto

/-- What holds of every entry of a manifest. -/
def FileManifest.All (p : Text → FileState → Prop) (m : FileManifest) : Prop :=
  ∀ rel state, m.files.lookup rel = some state → p rel state

theorem FileManifest.all_new (p : Text → FileState → Prop) : FileManifest.new.All p := by
  intro rel state h
  rw [FileManifest.new, Finmap.lookup_empty] at h
  cases h

variable {p : Text → FileState → Prop}

theorem FileManifest.All.insert {m : FileManifest} (hm : m.All p) {state : FileState} (h : p rel state) : (m.insert rel state).All p := by
  intro rel' state' hlookup
  by_cases hrel : rel' = rel
  · subst hrel
    rw [FileManifest.insert, Finmap.lookup_insert] at hlookup
    exact Option.some.inj hlookup ▸ h
  · rw [FileManifest.insert, Finmap.lookup_insert_of_ne _ hrel] at hlookup
    exact hm rel' state' hlookup

theorem diffCurrentAgainstPrior_all (prior : FileManifest)
    (current : List Discovered) (acc : CurrentDiff) (hacc : acc.next.All p)
    (h : ∀ d ∈ current, p d.rel (nextState hashFile prior d)) :
    (diffCurrentAgainstPrior hashFile prior current acc).next.All p := by
  induction current generalizing acc with
  | nil => exact hacc
  | cons d current ih =>
      have hd := h d mem_cons_self
      have hrest := fun d' hd' => h d' (mem_cons_of_mem _ hd')
      obtain ⟨acc', hstep, ⟨-, -, -, rfl⟩ | ⟨-, -, -, rfl⟩ | ⟨-, -, -, rfl⟩⟩ :=
        diffCurrentAgainstPrior_step hashFile prior d current acc
      · exact hstep ▸ ih _ hacc hrest
      · exact hstep ▸ ih _ (hacc.insert hd) hrest
      · exact hstep ▸ ih _ (hacc.insert hd) hrest

theorem firstPhase_perm (prior : FileManifest) (current : List Discovered) :
    (current.filter (differsFromPrior hashFile prior)
        ++ current.filter (unknownToPrior prior)
        ++ current.filter (sameAsPrior hashFile prior)).Perm current := by
  induction current with
  | nil => simp
  | cons d current ih =>
      obtain ⟨-, -, ⟨hu, hs, hd, -⟩ | ⟨hu, hs, hd, -⟩ | ⟨hu, hs, hd, -⟩⟩ :=
        diffCurrentAgainstPrior_step hashFile prior d current ⟨[], [], [], .new⟩
      all_goals
        rw [filter_cons, filter_cons, filter_cons, hu, hs, hd]
        refine List.Perm.trans ?_ (ih.cons d)
        simp only [Bool.false_eq_true, if_true, if_false, append_assoc, cons_append]
      · exact perm_middle
      · rw [← append_assoc, ← append_assoc]
        exact perm_middle
      · exact List.Perm.refl _

/-! ## The rename phase -/

/-- One candidate of the rename phase: the new end of a rename whose old end
nothing has taken, or an addition. -/
theorem matchRenamesAndAdds_step (byHash : Text → List Text) (d : Discovered)
    (candidates : List Discovered) (acc : Matched) :
    ∃ acc', matchRenamesAndAdds hashFile byHash (d :: candidates) acc
        = matchRenamesAndAdds hashFile byHash candidates acc'
      ∧ acc'.next = acc.next.insert d.rel (d.state (hashOf hashFile d))
      ∧ ((∃ old, hashOf hashFile d ≠ [] ∧ old ∈ byHash (hashOf hashFile d)
            ∧ old ∉ acc.consumedDeleted
            ∧ acc'.renamed = acc.renamed ++ [⟨old, d⟩] ∧ acc'.added = acc.added
            ∧ acc'.consumedDeleted = old :: acc.consumedDeleted)
        ∨ acc'.renamed = acc.renamed ∧ acc'.added = acc.added ++ [d]
            ∧ acc'.consumedDeleted = acc.consumedDeleted) := by
  rw [matchRenamesAndAdds]
  refine ⟨_, rfl, ?_⟩
  by_cases hhash : hashOf hashFile d = []
  · simp [hhash]
  simp only [if_neg hhash]
  cases hfind : (byHash (hashOf hashFile d)).find? fun old => old ∉ acc.consumedDeleted with
  | none => exact ⟨rfl, Or.inr ⟨rfl, rfl, rfl⟩⟩
  | some old =>
      have hfree : old ∉ acc.consumedDeleted := by simpa using find?_some hfind
      exact ⟨rfl, Or.inl ⟨old, hhash, mem_of_find?_eq_some hfind, hfree, rfl, rfl, rfl⟩⟩

theorem matchRenamesAndAdds_perm (byHash : Text → List Text) (candidates : List Discovered)
    (acc : Matched) :
    ((matchRenamesAndAdds hashFile byHash candidates acc).added
        ++ (matchRenamesAndAdds hashFile byHash candidates acc).renamed.map Rename.newFile).Perm
      (acc.added ++ acc.renamed.map Rename.newFile ++ candidates) := by
  induction candidates generalizing acc with
  | nil => simp [matchRenamesAndAdds]
  | cons d candidates ih =>
      obtain ⟨acc', hstep, -, ⟨old, -, -, -, hr, ha, -⟩ | ⟨hr, ha, -⟩⟩ :=
        matchRenamesAndAdds_step hashFile byHash d candidates acc
      all_goals
        rw [hstep]
        refine (ih acc').trans ?_
        rw [hr, ha]
      · simp
      · simpa using (perm_middle.symm.append_left acc.added :
          (acc.added ++ d :: (acc.renamed.map Rename.newFile ++ candidates)).Perm _)

theorem matchRenamesAndAdds_next (byHash : Text → List Text) (candidates : List Discovered)
    (acc : Matched) (rel : Text) :
    rel ∈ (matchRenamesAndAdds hashFile byHash candidates acc).next.files ↔
      rel ∈ acc.next.files ∨ rel ∈ candidates.map Discovered.rel := by
  induction candidates generalizing acc with
  | nil => simp [matchRenamesAndAdds]
  | cons d candidates ih =>
      obtain ⟨acc', hstep, hnext, -⟩ := matchRenamesAndAdds_step hashFile byHash d candidates acc
      rw [hstep, ih, hnext, FileManifest.mem_insert, map_cons, mem_cons]
      tauto

theorem matchRenamesAndAdds_all (byHash : Text → List Text)
    (candidates : List Discovered) (acc : Matched) (hacc : acc.next.All p)
    (h : ∀ d ∈ candidates, p d.rel (d.state (hashOf hashFile d))) :
    (matchRenamesAndAdds hashFile byHash candidates acc).next.All p := by
  induction candidates generalizing acc with
  | nil => exact hacc
  | cons d candidates ih =>
      obtain ⟨acc', hstep, hnext, -⟩ := matchRenamesAndAdds_step hashFile byHash d candidates acc
      rw [hstep]
      refine ih acc' ?_ (fun d' hd' => h d' (mem_cons_of_mem _ hd'))
      exact hnext ▸ hacc.insert (h d mem_cons_self)

/-- The renames found so far: their old ends are the consumed ones, each taken
once and for a file of its content. -/
structure Pairing (byHash : Text → List Text) (m : Matched) : Prop where
  consumed : m.consumedDeleted = (m.renamed.map Rename.oldRel).reverse
  once : m.consumedDeleted.Nodup
  sameContent : ∀ r ∈ m.renamed, hashOf hashFile r.newFile ≠ []
    ∧ r.oldRel ∈ byHash (hashOf hashFile r.newFile)

theorem matchRenamesAndAdds_pairing {byHash : Text → List Text}
    (candidates : List Discovered) {acc : Matched} (hacc : Pairing hashFile byHash acc) :
    Pairing hashFile byHash (matchRenamesAndAdds hashFile byHash candidates acc) := by
  induction candidates generalizing acc with
  | nil => exact hacc
  | cons d candidates ih =>
      obtain ⟨acc', hstep, -, ⟨old, hne, hold, hfree, hr, -, hc⟩ | ⟨hr, -, hc⟩⟩ :=
        matchRenamesAndAdds_step hashFile byHash d candidates acc
      · rw [hstep]
        refine ih ⟨?_, ?_, ?_⟩
        · simp [hc, hr, hacc.consumed]
        · rw [hc]
          exact nodup_cons.mpr ⟨hfree, hacc.once⟩
        · intro r hmem
          rw [hr, mem_append, mem_singleton] at hmem
          rcases hmem with hmem | rfl
          · exact hacc.sameContent r hmem
          · exact ⟨hne, hold⟩
      · rw [hstep]
        exact ih ⟨by rw [hc, hr, hacc.consumed], hc ▸ hacc.once, hr ▸ hacc.sameContent⟩

/-! ## The plan -/

theorem mem_deletedCandidates {current : List Discovered} : rel ∈ deletedCandidates prior current ↔
      rel ∈ prior.files ∧ rel ∉ current.map Discovered.rel := by
  simp [deletedCandidates, Finmap.mem_keys]

theorem nodup_deletedCandidates (prior : FileManifest) (current : List Discovered) :
    (deletedCandidates prior current).Nodup :=
  (Finset.sort_nodup _ _).filter _

theorem mem_deletedByHash {candidates : List Text} {hash : Text} :
    rel ∈ deletedByHash prior candidates hash ↔
      rel ∈ candidates ∧ ∃ state, prior.files.lookup rel = some state
        ∧ state.contentHash ≠ [] ∧ state.contentHash = hash := by
  rw [deletedByHash, mem_filter]
  cases prior.files.lookup rel with
  | none => simp
  | some state => simp

theorem classify_unchanged (prior : FileManifest) (current : List Discovered) :
    (classify hashFile prior current).unchanged
      = current.filter (sameAsPrior hashFile prior) := by
  simp [classify, diffCurrentAgainstPrior_unchanged]

theorem classify_changed (prior : FileManifest) (current : List Discovered) :
    (classify hashFile prior current).changeSet.changed
      = current.filter (differsFromPrior hashFile prior) := by
  simp [classify, diffCurrentAgainstPrior_changed]

theorem classify_addedOrRenamed (prior : FileManifest) (current : List Discovered) :
    ((classify hashFile prior current).changeSet.added
        ++ (classify hashFile prior current).changeSet.renamed.map Rename.newFile).Perm
      (current.filter (unknownToPrior prior)) := by
  refine (matchRenamesAndAdds_perm hashFile _ _ _).trans ?_
  simp [diffCurrentAgainstPrior_addedCandidates]

theorem classify_current_perm (prior : FileManifest) (current : List Discovered) :
    ((classify hashFile prior current).changeSet.changed
        ++ ((classify hashFile prior current).changeSet.added
          ++ (classify hashFile prior current).changeSet.renamed.map Rename.newFile)
        ++ (classify hashFile prior current).unchanged).Perm current := by
  rw [classify_changed, classify_unchanged]
  exact ((classify_addedOrRenamed hashFile prior current).append_left _).append_right _
    |>.trans (firstPhase_perm hashFile prior current)

theorem classify_pairing (prior : FileManifest) (current : List Discovered) :
    ∃ m : Matched, Pairing hashFile (deletedByHash prior (deletedCandidates prior current)) m
      ∧ m.renamed = (classify hashFile prior current).changeSet.renamed
      ∧ (classify hashFile prior current).changeSet.deleted
        = (deletedCandidates prior current).filter (fun rel => rel ∉ m.consumedDeleted) := by
  refine ⟨_, matchRenamesAndAdds_pairing hashFile _ ⟨rfl, nodup_nil, ?_⟩, rfl, rfl⟩
  intro r hr
  exact absurd hr not_mem_nil

theorem classify_nextManifest (prior : FileManifest) (current : List Discovered) (rel : Text) :
    rel ∈ (classify hashFile prior current).nextManifest.files ↔
      rel ∈ current.map Discovered.rel := by
  have hnew : rel ∉ FileManifest.new.files := Finmap.notMem_empty
  simp only [classify, matchRenamesAndAdds_next, diffCurrentAgainstPrior_next,
    diffCurrentAgainstPrior_addedCandidates, nil_append, hnew, false_or, mem_map,
    mem_filter]
  constructor
  · rintro (⟨d, hd, -, rfl⟩ | ⟨d, ⟨hd, -⟩, rfl⟩)
    · exact ⟨d, hd, rfl⟩
    · exact ⟨d, hd, rfl⟩
  · rintro ⟨d, hd, rfl⟩
    cases hu : unknownToPrior prior d with
    | true => exact Or.inr ⟨d, ⟨hd, hu⟩, rfl⟩
    | false => exact Or.inl ⟨d, hd, hu, rfl⟩

theorem classify_nextManifest_all {p : Text → FileState → Prop} (prior : FileManifest)
    (current : List Discovered) (h : ∀ d ∈ current, p d.rel (nextState hashFile prior d)) :
    (classify hashFile prior current).nextManifest.All p := by
  refine matchRenamesAndAdds_all hashFile _ _ _ ?_ ?_
  · exact diffCurrentAgainstPrior_all hashFile prior current _ (FileManifest.all_new p) h
  · intro d hd
    rw [diffCurrentAgainstPrior_addedCandidates, nil_append, mem_filter] at hd
    have hnone : prior.files.lookup d.rel = none := by simpa [unknownToPrior] using hd.2
    exact nextState_of_lookup_none hashFile hnone ▸ h d hd.1

/-- The classes of a plan that current files fall in. -/
inductive CurrentClass where
  | changed
  | added
  | unchanged
  | renamedNew
  deriving DecidableEq

def Plan.current (plan : Plan) : CurrentClass → List Discovered
  | .changed => plan.changeSet.changed
  | .added => plan.changeSet.added
  | .unchanged => plan.unchanged
  | .renamedNew => plan.changeSet.renamed.map Rename.newFile

/-- The classes of a plan that files known to the prior manifest alone fall in. -/
inductive PriorClass where
  | deleted
  | renamedOld
  deriving DecidableEq

def Plan.priorOnly (plan : Plan) : PriorClass → List Text
  | .deleted => plan.changeSet.deleted
  | .renamedOld => plan.changeSet.renamed.map Rename.oldRel

theorem existsUnique_of_nodup {ι α : Type} {classes : List ι} {files : ι → List α}
    (hall : ∀ c, c ∈ classes) (hnd : (classes.flatMap files).Nodup) {x : α}
    (hx : x ∈ classes.flatMap files) : ∃! c, x ∈ files c := by
  obtain ⟨c, -, hc⟩ := mem_flatMap.mp hx
  refine ⟨c, hc, ?_⟩
  intro c' hc'
  by_contra hne
  have : Std.Symm (Function.onFun List.Disjoint files) := ⟨fun _ _ h => h.symm⟩
  exact (nodup_flatMap.mp hnd).2.forall (hall c') (hall c) hne hc' hc

theorem classify_current_nodup (prior : FileManifest) {current : List Discovered}
    (hids : (current.map Discovered.rel).Nodup) :
    ([CurrentClass.changed, .added, .renamedNew, .unchanged].flatMap
      (classify hashFile prior current).current).Nodup := by
  have hperm := classify_current_perm hashFile prior current
  simpa [Plan.current] using hperm.nodup_iff.mpr (hids.of_map _)

theorem mem_classify_current {prior : FileManifest} {current : List Discovered}
    {d : Discovered} :
    d ∈ [CurrentClass.changed, .added, .renamedNew, .unchanged].flatMap
        (classify hashFile prior current).current ↔ d ∈ current := by
  rw [← (classify_current_perm hashFile prior current).mem_iff]
  simp [Plan.current]

theorem CurrentClass.mem_all (c : CurrentClass) :
    c ∈ [CurrentClass.changed, .added, .renamedNew, .unchanged] := by
  cases c <;> simp

theorem mem_of_mem_class {prior : FileManifest} {current : List Discovered} {d : Discovered}
    {c : CurrentClass} (hd : d ∈ (classify hashFile prior current).current c) : d ∈ current :=
  (mem_classify_current hashFile).mp (mem_flatMap.mpr ⟨c, c.mem_all, hd⟩)

theorem classify_priorOnly_perm (prior : FileManifest) (current : List Discovered) :
    ([PriorClass.deleted, .renamedOld].flatMap
      (classify hashFile prior current).priorOnly).Perm (deletedCandidates prior current) := by
  obtain ⟨m, hpair, hren, hdel⟩ := classify_pairing hashFile prior current
  have hsub : ∀ rel ∈ m.consumedDeleted, rel ∈ deletedCandidates prior current := by
    intro rel hrel
    rw [hpair.consumed, mem_reverse, mem_map] at hrel
    obtain ⟨r, hr, rfl⟩ := hrel
    exact (mem_deletedByHash.mp (hpair.sameContent r hr).2).1
  have hold : (m.renamed.map Rename.oldRel).Perm m.consumedDeleted := by
    rw [hpair.consumed]
    exact (reverse_perm _).symm
  have htaken : m.consumedDeleted.Perm
      ((deletedCandidates prior current).filter fun rel => rel ∈ m.consumedDeleted) := by
    refine (perm_ext_iff_of_nodup hpair.once
      ((nodup_deletedCandidates prior current).filter _)).mpr ?_
    intro rel
    simp only [mem_filter, decide_eq_true_eq]
    exact ⟨fun h => ⟨hsub rel h, h⟩, And.right⟩
  simp only [flatMap_cons, flatMap_nil, append_nil, Plan.priorOnly, ← hren, hdel]
  refine ((hold.trans htaken).append_left _).trans ?_
  simpa using filter_append_perm (fun rel => decide (rel ∉ m.consumedDeleted))
    (deletedCandidates prior current)

def Rename.ends (r : Rename) : List Text := [r.oldRel, r.newFile.rel]

theorem classify_rename {prior : FileManifest} {current : List Discovered} {r : Rename}
    (hr : r ∈ (classify hashFile prior current).changeSet.renamed) :
    r.oldRel ∉ current.map Discovered.rel ∧ r.newFile ∈ current
      ∧ ∃ prev, prior.files.lookup r.oldRel = some prev
        ∧ prev.contentHash ≠ [] ∧ hashOf hashFile r.newFile = prev.contentHash := by
  obtain ⟨m, hpair, hren, -⟩ := classify_pairing hashFile prior current
  obtain ⟨hcand, prev, hprev, hne, hhash⟩ :=
    mem_deletedByHash.mp (hpair.sameContent r (hren ▸ hr)).2
  have hnew : r.newFile ∈ (classify hashFile prior current).current .renamedNew :=
    mem_map_of_mem hr
  exact ⟨(mem_deletedCandidates.mp hcand).2, mem_of_mem_class hashFile hnew, prev, hprev, hne,
    hhash.symm⟩

theorem classify_renames_apart {prior : FileManifest} {current : List Discovered}
    (hids : (current.map Discovered.rel).Nodup) :
    (classify hashFile prior current).changeSet.renamed.Pairwise
      fun r s => r.ends.Disjoint s.ends := by
  have hold : ((classify hashFile prior current).changeSet.renamed.map Rename.oldRel).Nodup :=
    (nodup_flatMap.mp ((classify_priorOnly_perm hashFile prior current).nodup_iff.mpr
      (nodup_deletedCandidates prior current))).1 .renamedOld (by simp)
  have hnew : ((classify hashFile prior current).changeSet.renamed.map Rename.newFile).Nodup :=
    (nodup_flatMap.mp (classify_current_nodup hashFile prior hids)).1 .renamedNew (by simp)
  have hinj := inj_on_of_nodup_map hids
  have hboth := (pairwise_map.mp hold).and (pairwise_map.mp hnew)
  refine hboth.imp_of_mem ?_
  intro r s hr hs hne
  obtain ⟨hrold, hrnew, -⟩ := classify_rename hashFile hr
  obtain ⟨hsold, hsnew, -⟩ := classify_rename hashFile hs
  have hnewne : s.newFile.rel ≠ r.newFile.rel := fun h => hne.2 (hinj hrnew hsnew h.symm)
  have hrs : s.newFile.rel ≠ r.oldRel := fun h => hrold (h ▸ mem_map_of_mem hsnew)
  have hsr : s.oldRel ≠ r.newFile.rel := fun h => hsold (h ▸ mem_map_of_mem hrnew)
  simp [Rename.ends, hne.1.symm, hnewne, hrs, hsr]

theorem PriorClass.mem_all (c : PriorClass) : c ∈ [PriorClass.deleted, .renamedOld] := by
  cases c <;> simp

theorem mem_of_mem_priorOnly {current : List Discovered} {c : PriorClass} (h : rel ∈ (classify hashFile prior current).priorOnly c) :
    rel ∈ prior.files ∧ rel ∉ current.map Discovered.rel :=
  mem_deletedCandidates.mp ((classify_priorOnly_perm hashFile prior current).mem_iff.mp
    (mem_flatMap.mpr ⟨c, c.mem_all, h⟩))

/-- The plan tells the current files apart, and the files the prior manifest alone
knows: each is in one class, once, and the classes hold nothing else. -/
theorem classify_partition (prior : FileManifest) (current : List Discovered)
    (hids : (current.map Discovered.rel).Nodup) :
    (∀ d ∈ current, ∃! c, d ∈ (classify hashFile prior current).current c)
    ∧ (∀ c, ((classify hashFile prior current).current c).Nodup
        ∧ ∀ d ∈ (classify hashFile prior current).current c, d ∈ current)
    ∧ (∀ rel, rel ∈ prior.files → rel ∉ current.map Discovered.rel →
        ∃! c, rel ∈ (classify hashFile prior current).priorOnly c)
    ∧ (∀ c, ((classify hashFile prior current).priorOnly c).Nodup
        ∧ ∀ rel ∈ (classify hashFile prior current).priorOnly c,
            rel ∈ prior.files ∧ rel ∉ current.map Discovered.rel)
    ∧ (∀ r ∈ (classify hashFile prior current).changeSet.renamed,
        ∃ prev, prior.files.lookup r.oldRel = some prev
          ∧ prev.contentHash ≠ [] ∧ hashOf hashFile r.newFile = prev.contentHash)
    ∧ (classify hashFile prior current).changeSet.renamed.Pairwise
        (fun r s => r.ends.Disjoint s.ends)
    ∧ ∀ rel, rel ∈ (classify hashFile prior current).nextManifest.files ↔
        rel ∈ current.map Discovered.rel := by
  have hcur := classify_current_nodup hashFile prior hids
  have hperm := classify_priorOnly_perm hashFile prior current
  have hprior := hperm.nodup_iff.mpr (nodup_deletedCandidates prior current)
  refine ⟨?_, ?_, ?_, ?_, ?_, classify_renames_apart hashFile hids,
    classify_nextManifest hashFile prior current⟩
  · intro d hd
    exact existsUnique_of_nodup CurrentClass.mem_all hcur ((mem_classify_current hashFile).mpr hd)
  · intro c
    refine ⟨(nodup_flatMap.mp hcur).1 c c.mem_all, ?_⟩
    intro d hd
    exact mem_of_mem_class hashFile hd
  · intro rel hmem habsent
    exact existsUnique_of_nodup PriorClass.mem_all hprior
      (hperm.mem_iff.mpr (mem_deletedCandidates.mpr ⟨hmem, habsent⟩))
  · intro c
    refine ⟨(nodup_flatMap.mp hprior).1 c c.mem_all, ?_⟩
    intro rel hrel
    exact mem_of_mem_priorOnly hashFile hrel
  · intro r hr
    exact (classify_rename hashFile hr).2.2

end ClassifyPartition

/-- One file under a new name: the current file is in one class. -/
theorem classify_partition_moved :
    ∃! c, (⟨['b'], ['b'], 2, 1⟩ : Discovered) ∈
      (classify (fun _ => some ['h']) (FileManifest.new.insert ['a'] ⟨1, 1, ['h']⟩)
        [⟨['b'], ['b'], 2, 1⟩]).current c :=
  (classify_partition (fun _ => some ['h']) (FileManifest.new.insert ['a'] ⟨1, 1, ['h']⟩)
    [⟨['b'], ['b'], 2, 1⟩] (nodup_singleton _)).1 _ (mem_singleton_self _)

/-! ## Unreadable modification times -/

/-- The nanoseconds of a modification time, as the manifest keeps them: zero when
the platform reports none or one before the epoch. -/
def mtimeNs (modified : Option Int) : Int :=
  match modified with
  | some ns => if 0 ≤ ns then Int.bmod ns (2 ^ 64) else 0
  | none => 0

/-- A walked file with its change signal; a file `stat` fails on is given zeroes. -/
def discoveredOf (rel abs : Text) (stat : Option (Option Int × Nat)) : Discovered :=
  match stat with
  | some (modified, len) => ⟨rel, abs, mtimeNs modified, len⟩
  | none => ⟨rel, abs, 0, 0⟩

/-- The one state of the prior manifest an unreadable file is taken for without
being read: unreadable then too, of the same size, and of another content or of
none recorded. -/
def ZeroSignalMet (hashFile : Text → Option Text) (prior : FileManifest) (d : Discovered) :
    Prop :=
  ∃ prev, prior.files.lookup d.rel = some prev ∧ prev.mtimeNs = 0 ∧ prev.size = d.size
    ∧ (prev.contentHash = [] ∨ hashOf hashFile d ≠ prev.contentHash)

theorem mem_classify_unchanged {hashFile : Text → Option Text} {prior : FileManifest}
    {current : List Discovered} {d : Discovered} :
    d ∈ (classify hashFile prior current).unchanged ↔
      d ∈ current ∧ ∃ prev, prior.files.lookup d.rel = some prev
        ∧ ((prev.mtimeNs = d.mtimeNs ∧ prev.size = d.size)
          ∨ (hashOf hashFile d ≠ [] ∧ hashOf hashFile d = prev.contentHash)) := by
  rw [classify_unchanged, mem_filter, sameAsPrior_iff]

/-- A file without a modification time is unchanged by its content alone, unless
the prior manifest could not read its time either. -/
theorem unreadable_mtime_iff (hashFile : Text → Option Text) (prior : FileManifest)
    (current : List Discovered) (d : Discovered) (hd : d ∈ current) (h0 : d.mtimeNs = 0) :
    (d ∈ (classify hashFile prior current).unchanged →
        ∃ prev, prior.files.lookup d.rel = some prev
          ∧ prev.contentHash ≠ [] ∧ hashOf hashFile d = prev.contentHash)
      ↔ ¬ ZeroSignalMet hashFile prior d := by
  rw [mem_classify_unchanged, and_iff_right hd, h0]
  constructor
  · rintro himp ⟨prev, hprev, hm, hs, hbad⟩
    obtain ⟨prev', hprev', hne, heq⟩ := himp ⟨prev, hprev, Or.inl ⟨hm, hs⟩⟩
    obtain rfl : prev = prev' := Option.some.inj (hprev.symm.trans hprev')
    exact hbad.elim hne (fun h => h heq)
  · rintro hgood ⟨prev, hprev, ⟨hm, hs⟩ | ⟨hne, heq⟩⟩
    · refine ⟨prev, hprev, ?_, ?_⟩
      · intro hempty
        exact hgood ⟨prev, hprev, hm, hs, Or.inl hempty⟩
      · by_contra hother
        exact hgood ⟨prev, hprev, hm, hs, Or.inr hother⟩
    · exact ⟨prev, hprev, heq ▸ hne, heq⟩

/-- A file rewritten to another content of the same size. -/
theorem unreadable_mtime_rewritten :
    ¬ (⟨['a'], ['a'], 0, 1⟩ ∈
        (classify (fun _ => some ['h', '2']) (FileManifest.new.insert ['a'] ⟨0, 1, ['h', '1']⟩)
          [discoveredOf ['a'] ['a'] (some (none, 1))]).unchanged →
      ∃ prev, (FileManifest.new.insert ['a'] ⟨0, 1, ['h', '1']⟩).files.lookup ['a'] = some prev
        ∧ prev.contentHash ≠ []
        ∧ hashOf (fun _ => some ['h', '2']) ⟨['a'], ['a'], 0, 1⟩ = prev.contentHash) := by
  intro himp
  obtain ⟨prev, hprev, -, hhash⟩ := himp
    (mem_classify_unchanged.mpr ⟨mem_singleton_self _, ⟨0, 1, ['h', '1']⟩,
      Finmap.lookup_insert _, Or.inl ⟨rfl, rfl⟩⟩)
  obtain rfl : (⟨0, 1, ['h', '1']⟩ : FileState) = prev :=
    Option.some.inj ((Finmap.lookup_insert _).symm.trans hprev)
  simp [hashOf] at hhash

/-- Read for its time once and not since, the file is told by its content. -/
theorem unreadable_mtime_since :
    (⟨['a'], ['a'], 0, 1⟩ : Discovered) ∈
        (classify (fun _ => some ['h']) (FileManifest.new.insert ['a'] ⟨5, 1, ['h']⟩)
          [⟨['a'], ['a'], 0, 1⟩]).unchanged
      ∧ ∃ prev, (FileManifest.new.insert ['a'] ⟨5, 1, ['h']⟩).files.lookup ['a'] = some prev
        ∧ prev.contentHash ≠ [] ∧ hashOf (fun _ => some ['h']) ⟨['a'], ['a'], 0, 1⟩
          = prev.contentHash := by
  have hunchanged : (⟨['a'], ['a'], 0, 1⟩ : Discovered) ∈
      (classify (fun _ => some ['h']) (FileManifest.new.insert ['a'] ⟨5, 1, ['h']⟩)
        [⟨['a'], ['a'], 0, 1⟩]).unchanged :=
    mem_classify_unchanged.mpr ⟨mem_singleton_self _, ⟨5, 1, ['h']⟩,
      Finmap.lookup_insert _, Or.inr ⟨nofun, rfl⟩⟩
  refine ⟨hunchanged, ?_⟩
  refine (unreadable_mtime_iff _ _ _ _ (mem_singleton_self _) rfl).mpr ?_ hunchanged
  rintro ⟨prev, hprev, hzero, -⟩
  obtain rfl : (⟨5, 1, ['h']⟩ : FileState) = prev :=
    Option.some.inj ((Finmap.lookup_insert _).symm.trans hprev)
  simp at hzero

end CodeGraph
