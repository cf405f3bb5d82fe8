import CodeGraph.IncrementalEquals
import CodeGraph.RefreshAgain
import CodeGraph.RefreshCuts

/-!
# Refreshes that are run again

A refresh that was interrupted and runs again ends where it would have ended, unless
there was something to put back: the saved rows and the sites to restore are known
only to the run that was interrupted.
-/

namespace CodeGraph

open Multiset PropertyGraph Keyed Linked Runs LayeredStore

variable {Content : Type} {F : FrontEnd Content} {current : SourceTree Content}
  {changes : ChangeSet} {s t : LayeredStore}

/-! ## A graph that fits -/

variable {g : Graph}

theorem ChangeSet.Fits.toUnborn (h : changes.Fits F current g)
    (hunborn : changes.added = [] ∧ changes.renamed = []) : changes.Unborn F current :=
  ⟨h.classified, h.nodup, h.size, hunborn⟩

theorem exists_cleared (h : changes.Fits F current g) :
    ∃ stale rest es, Stale stale ∧ Base changes rest es ∧ Cleared changes stale rest es g := by
  have hplain : ∀ {u}, u ∈ changes.changedRels → IsFileId u := fun hu =>
    h.classified.plain (ChangeSet.mem_leaving_of_changed hu)
  have hchoose : ∀ rel, ∃ n : Node, (∃ size errors, n = fileNode rel size errors) ∧
      (rel ∈ changes.changedRels → n ∈ g.nodes) := by
    intro rel
    by_cases hrel : rel ∈ changes.changedRels
    · obtain ⟨size, errors, hn⟩ := h.files rel hrel
      exact ⟨_, ⟨size, errors, rfl⟩, fun _ => hn⟩
    · exact ⟨_, ⟨0, 0, rfl⟩, fun hmem => absurd hmem hrel⟩
  choose stale hstale hmem using hchoose
  have hkey : ∀ rel, key (stale rel) = (.file, rel) := Stale.key hstale
  have hsub : (changes.changedRels : Multiset Text).map stale ≤ (purge g changes).nodes := by
    have hnodup : ((changes.changedRels : Multiset Text).map stale).Nodup := by
      refine Multiset.Nodup.map_on (fun u _ v _ heq => ?_) (coe_nodup.mpr h.nodup)
      have hkeys := congrArg key heq
      rw [hkey, hkey] at hkeys
      exact congrArg Prod.snd hkeys
    refine (le_iff_subset hnodup).mpr fun n hn => ?_
    obtain ⟨rel, hrel, rfl⟩ := mem_map.mp hn
    rw [purge_eq_drop]
    refine mem_filter.mpr ⟨hmem rel hrel, ?_⟩
    rw [hkey]
    exact h.classified.not_purgedKey_file hrel
  obtain ⟨rest, hrest⟩ := Multiset.le_iff_exists_add.mp hsub
  have hnodes : ∀ n ∈ rest, n ∈ g.nodes ∧ ¬purgedKey changes (key n) := fun n hn => by
    have hall : n ∈ (purge g changes).nodes := hrest ▸ mem_add.mpr (Or.inr hn)
    rw [purge_eq_drop] at hall
    exact mem_filter.mp hall
  refine ⟨stale, rest, (purge g changes).edges, hstale, ⟨fun n hn rel hrel hnear => ?_,
    fun n hn => (hnodes n hn).2, fun e he => ?_⟩, PropertyGraph.ext hrest rfl⟩
  · obtain ⟨hin, hkept⟩ := hnodes n hn
    rcases h.owned (key n) (mem_keys.mpr ⟨n, hin, rfl⟩) with ⟨dir, -, hdir⟩ | ⟨u, hu, hown⟩
    · exact hnear.1 (congrArg Prod.fst hdir)
    · obtain rfl := Near.unique hu (hplain hrel) hown.near hnear
      -- all of the file's keys are purged but that of its node, which is there once
      have hfile : (key n).1 = .file := by
        by_contra hnot
        exact hkept (owned_purged h.classified hrel hown hnot)
      have heq : key n = (.file, u) := by
        generalize key n = k at hown hfile
        cases hown with
        | file => rfl
        | content => cases hfile
        | named name hscoped =>
            subst hfile
            cases hscoped
      have hrepeated : 2 ≤ (purge g changes).keys.count (.file, u) := by
        rw [PropertyGraph.keys, hrest, map_add, count_add]
        have hfirst : 0 < (((changes.changedRels : Multiset Text).map stale).map key).count
            (.file, u) := count_pos.mpr
          (hkey u ▸ mem_map_of_mem key (mem_map_of_mem stale hrel))
        have hsecond : 0 < (rest.map key).count (.file, u) := count_pos.mpr
          (heq ▸ mem_map_of_mem key hn)
        omega
      have hpurged : (purge g changes).keys ≤ g.keys := by
        rw [purge_eq_drop]
        exact map_le_map (filter_le _ _)
      have honce := h.once u hrel
      have hle := count_le_of_le (.file, u) hpurged
      omega
  · rw [purge_eq_drop] at he
    exact (mem_edges_drop.mp he).2

/-! ## The middle of a refresh -/

variable {st' : ApplyState} {stmt : Stmt}

theorem layers_middle {st : ApplyState} (hstmt : stmt ∈ ApplyState.rebuildStmts changes current)
    (htorn : (ApplyState.machine F current).torn st stmt st') :
    st'.store.layers = st.store.layers := by
  have hrebuilds := ApplyState.rebuilds hstmt
  cases htorn with
  | unbegun => rfl
  | ended hexec =>
      obtain ⟨-, rfl⟩ := ApplyState.exec?_eq_some.mp hexec
      exact ApplyState.layers_of_rebuilds hrebuilds st
  | read _ _ hlayers => exact hlayers
  | derived => rfl
  | pruned => rfl
  | _ => cases hrebuilds

theorem purge_strict (hstmt : stmt ∈ purgeStmts changes) : ¬stmt.bestEffort := by
  cases ApplyState.purges hstmt <;> exact id

theorem exec?_purge {st : ApplyState} (hstmt : stmt ∈ purgeStmts changes) :
    st.exec? F current stmt = some (st.exec F current stmt) := by
  cases ApplyState.purges hstmt <;> rfl

theorem completes_purgeStmts {st mid : ApplyState}
    (h : (ApplyState.machine F current).Completes (purgeStmts changes) st mid) :
    mid = run (ApplyState.exec F current) (purgeStmts changes) st := by
  have hrun := h.eq_run fun stmt hstmt => purge_strict hstmt
  rw [Cuttable.run?_eq fun st stmt hstmt => exec?_purge hstmt] at hrun
  exact (Option.some.inj hrun).symm

theorem MiddleDone.layers {mid : ApplyState} (h : MiddleDone F current changes s mid) :
    mid.store.layers = s.layers.drop (purgedNode changes) (purgedRows changes) := by
  obtain ⟨st, hpurge, hrest⟩ := Cuttable.completes_append.mp h
  obtain rfl := completes_purgeStmts hpurge
  refine hrest.inv (I := fun st => st.store.layers =
    s.layers.drop (purgedNode changes) (purgedRows changes)) ?_ ?_
  · exact fun stmt hstmt st st' hlayers htorn => (layers_middle hstmt htorn).trans hlayers
  · rw [run_purgeStmts]
    rfl

section Phases

variable {rest : Multiset Node} {es : Multiset Edge} {stale : Text → Node} {most : Key → Bool}
  {st mid : ApplyState}

theorem reparseStmts_eq (h : changes.Unborn F current) :
    reparseStmts changes = .existingDirectoryIds :: changes.changed.map .reparseModifiedFile := by
  rw [reparseStmts, h.unborn.1, h.unborn.2]
  exact List.append_nil _

theorem Cleared.grown (hcleared : Cleared changes stale rest es g) :
    Grown F current changes [] stale rest es (purge g changes) := by
  rw [hcleared]
  exact ⟨0, 0, (add_zero _).symm, (add_zero _).symm, fun n hn => absurd hn (notMem_zero n),
    fun e he => absurd he (notMem_zero e)⟩

theorem exec?_reparse (h : changes.Unborn F current) (hstmt : stmt ∈ reparseStmts changes) :
    ¬stmt.bestEffort ∧ ∀ st : ApplyState, st.exec? F current stmt = some (st.exec F current stmt) := by
  rw [reparseStmts_eq h] at hstmt
  rcases List.mem_cons.mp hstmt with rfl | hstmt
  · exact ⟨id, fun _ => rfl⟩
  · obtain ⟨d, -, rfl⟩ := List.mem_map.mp hstmt
    exact ⟨id, fun _ => rfl⟩

/-- Reading the modified files, as far as it came. -/
theorem middle_reparseStmts (h : changes.Unborn F current) (hbase : Base changes rest es)
    (hstale : Stale stale) (hg : Grown F current changes [] stale rest es st.store.index)
    (hstop : (ApplyState.machine F current).Stops (reparseStmts changes) st mid) :
    Middle F current changes most rest es mid.store.index := by
  rw [reparseStmts_eq h] at hstop
  rcases Cuttable.stops_cons.mp hstop with htorn | ⟨st', hgo, hstop⟩
  · rcases htorn.of_single trivial with rfl | rfl
    · exact hg.middle hstale
    · exact hg.middle hstale
  · obtain rfl := Option.some.inj (hgo.resolve_right fun hlenient => hlenient.1)
    have hg' : Grown F current changes [] stale rest es
        (st.exec F current .existingDirectoryIds).store.index := hg
    obtain ⟨done, stale', hstale', hgrown⟩ := Grown.stops_changed h hbase changes.changed
      (fun d hd => ⟨hd, List.not_mem_nil⟩) h.nodup (fun u hu => absurd hu List.not_mem_nil) hstale hg'
      hstop
    exact hgrown.middle hstale'

theorem middle_rebuild (h : changes.Unborn F current) (hbase : Base changes rest es)
    (hstale : Stale stale) (hcleared : Cleared changes stale rest es g)
    (hmost : pruneOrphanDirectories (reparse F current (purge g changes) changes) =
      (reparse F current (purge g changes) changes).detachDelete most)
    (hdir : ∀ k, most k → k.1 = .directory) (hst : st.store.index = purge g changes)
    (hrun : (ApplyState.machine F current).Reaches (ApplyState.rebuildStmts changes current) st mid) :
    Middle F current changes most rest es mid.store.index := by
  have hg : Grown F current changes [] stale rest es st.store.index := hst ▸ hcleared.grown
  rcases Cuttable.reaches_append.mp hrun with hstop | ⟨st', hread, hrun⟩
  · exact middle_reparseStmts h hbase hstale hg hstop
  · have hexec := hread.eq_run fun stmt hstmt => (exec?_reparse h hstmt).1
    rw [Cuttable.run?_eq fun st stmt hstmt => (exec?_reparse h hstmt).2 st] at hexec
    obtain rfl := Option.some.inj hexec
    have hindex : (run (ApplyState.exec F current) (reparseStmts changes) st).store.index =
        CodeGraph.reparse F current st.store.index changes := index_reparseStmts st
    rw [hst] at hindex
    refine middle_passStmts h ?_ hdir ?_ hrun
    · rw [hindex, hmost]
    · rw [hindex]
      exact grown_reparsed h hstale hbase hcleared

theorem middle_done (h : changes.Unborn F current) (hbase : Base changes rest es)
    (hstale : Stale stale) (hcleared : Cleared changes stale rest es s.index)
    (hmost : pruneOrphanDirectories (reparse F current (purge s.index changes) changes) =
      (reparse F current (purge s.index changes) changes).detachDelete most)
    (hdir : ∀ k, most k → k.1 = .directory) (hmid : MiddleDone F current changes s mid) :
    Middle F current changes most rest es mid.store.index := by
  obtain ⟨st, hpurge, hrest⟩ := Cuttable.completes_append.mp hmid
  obtain rfl := completes_purgeStmts hpurge
  refine middle_rebuild h hbase hstale hcleared hmost hdir ?_ (Or.inr hrest)
  rw [run_purgeStmts]
  rfl

/-- What a further purge leaves is what the first did, but for some of the directories
that are pruned. -/
theorem middle_cut (h : changes.Unborn F current) (hbase : Base changes rest es)
    (hstale : Stale stale) (hcleared : Cleared changes stale rest es s.index)
    (hmost : pruneOrphanDirectories (reparse F current (purge s.index changes) changes) =
      (reparse F current (purge s.index changes) changes).detachDelete most)
    (hdir : ∀ k, most k → k.1 = .directory) (hmid : MiddleCut F current changes s mid) :
    ∃ stale' D, Stale stale' ∧ Pruned changes most D ∧
      Cleared changes stale' (nodesBut D rest) (edgesBut D es) mid.store.index := by
  rcases Cuttable.stops_append.mp hmid with hpurge | ⟨st, hpurge, hrest⟩
  · have hstep : ∀ stmt ∈ purgeStmts changes, ∀ st st' : ApplyState,
        purge st.store.index changes = purge s.index changes →
        (ApplyState.machine F current).torn st stmt st' →
        purge st'.store.index changes = purge s.index changes := by
      intro stmt hstmt st st' hsame htorn
      obtain ⟨p, q, hp, hq, hindex⟩ := index_torn_purge hstmt htorn
      rw [hindex, purge_drop hp hq, hsame]
    have hsame := hpurge.inv (I := fun st => purge st.store.index changes = purge s.index changes)
      hstep rfl
    refine ⟨stale, fun _ => false, hstale, .nothing most, ?_⟩
    rw [nodesBut_nothing, edgesBut_nothing, Cleared, hsame]
    exact hcleared
  · obtain rfl := completes_purgeStmts hpurge
    obtain ⟨done, stale', D, hstale', hD, hg⟩ := middle_rebuild h hbase hstale hcleared hmost hdir
      (by rw [run_purgeStmts]; rfl) (Or.inl hrest)
    exact ⟨stale', D, hstale', hD, hg.cleared h.classified hstale' (hbase.but D)⟩

end Phases

/-! ## Nothing to put back -/

section Nothing

variable {rest : Multiset Node} {es : Multiset Edge} {stale : Text → Node} {most : Key → Bool}
  {mid : ApplyState}

theorem Middle.mem_keys (hmiddle : Middle F current changes most rest es g)
    (hstale : Stale stale) (hcleared : Cleared changes stale rest es s.index) {k : Key}
    (hk : k ∈ g.keys) : k ∈ s.index.keys ∧ ¬purgedKey changes k ∨
      purgedKey changes k ∧ Redeclared F current changes k := by
  obtain ⟨done, stale', D, hstale', -, hg⟩ := hmiddle
  refine (hg.mem_keys hk).imp_left fun hleft => ?_
  have hpurged : k ∈ (purge s.index changes).keys := by
    rw [hcleared, PropertyGraph.keys, map_add]
    rw [map_add] at hleft
    rcases mem_add.mp hleft with hfile | hrest
    · obtain ⟨n, hn, rfl⟩ := mem_map.mp hfile
      obtain ⟨rel, hrel, rfl⟩ := mem_map.mp hn
      rw [hstale'.key, ← hstale.key]
      exact mem_add.mpr (Or.inl (mem_map_of_mem key
        (mem_map_of_mem stale hrel)))
    · obtain ⟨n, hn, rfl⟩ := mem_map.mp hrest
      exact mem_add.mpr (Or.inr (mem_map_of_mem key (mem_filter.mp hn).1))
  rw [purge_eq_drop] at hpurged
  exact mem_keys_drop.mp hpurged

theorem Redeclared.owner (h : changes.Classified current) {k : Key}
    (hk : Redeclared F current changes k) : owningFile k.2 ∈ changes.reparsedSet := by
  obtain ⟨rel, hrel, howned, -⟩ := hk.owned
  rw [(h.plain (ChangeSet.mem_leaving.mpr (Or.inl hrel))).owningFile howned]
  exact hrel

theorem not_lands_saved (h : changes.Unborn F current) (hstale : Stale stale)
    (hcleared : Cleared changes stale rest es s.index)
    (hnone : s.NothingToPutBack F current changes)
    (hmiddle : Middle F current changes most rest es g) {e : Edge}
    (he : e ∈ snapshotInboundEdges s.index changes) : ¬Lands g.keys e := by
  intro hlands
  have hsaved : Saved changes e := (mem_filter.mp he).2
  have hdst : purgedKey changes e.dst := by
    rw [purgedKey_eq]
    exact purgedNode_of_isInner (inner_of_saved hsaved)
  have hagain := (hmiddle.mem_keys hstale hcleared hlands.2).resolve_left fun hk => hk.2 hdst
  refine hnone.edges e he (fun hsrc => ?_) hagain.2
  have hwritten := (hmiddle.mem_keys hstale hcleared hlands.1).resolve_left fun hk => hk.2 hsrc
  exact hsaved.2.2.2.2 (hwritten.2.owner h.classified)

variable {m : LayeredStore}

theorem not_lands_savedRow (h : changes.Unborn F current) (hstale : Stale stale)
    (hcleared : Cleared changes stale rest es s.index)
    (hnone : s.NothingToPutBack F current changes)
    (hmiddle : Middle F current changes most rest es m.index)
    (hlayers : m.layers = s.layers.drop (purgedNode changes) (purgedRows changes)) {r : StoredRow}
    (hr : r ∈ s.savedRows changes) : ¬Lands m.keys r := by
  intro hlands
  have hsaved : isSaved changes r := (mem_filter.mp hr).2
  have hdst : purgedNode changes (dst r) := purgedNode_of_isInner (inner_of_isSaved hsaved)
  have howner : owningFile r.source ∉ changes.reparsedSet := by
    simp only [isSaved, Bool.and_eq_true, decide_eq_true_eq] at hsaved
    exact hsaved.2
  have hin : ∀ {k : StoredKey}, k ∈ m.keys →
      (k ∈ s.keys ∧ ¬purgedNode changes k) ∨ ∃ k', Redeclared F current changes k' ∧ k'.stored = k := by
    intro k hk
    rcases mem_add.mp hk with hk | hk
    · obtain ⟨k', hk', rfl⟩ := mem_map.mp hk
      rcases hmiddle.mem_keys hstale hcleared hk' with ⟨hkey, hkept⟩ | ⟨-, hagain⟩
      · rw [purgedKey_eq] at hkept
        exact Or.inl ⟨mem_add.mpr (Or.inl (mem_map_of_mem _ hkey)), hkept⟩
      · exact Or.inr ⟨k', hagain, rfl⟩
    · rw [hlayers] at hk
      obtain ⟨hkey, hkept⟩ := mem_keys_drop.mp hk
      exact Or.inl ⟨mem_add.mpr (Or.inr hkey), hkept⟩
  obtain ⟨k, hagain, heq⟩ := (hin hlands.2).resolve_left fun hk => hk.2 hdst
  rcases hin hlands.1 with ⟨hsrc, hkept⟩ | ⟨k', hagain', heq'⟩
  · exact hnone.rows r hr hsrc hkept k hagain heq
  · refine howner ?_
    have hid : k'.2 = r.source := congrArg (fun k : StoredKey => k.2) heq'
    exact hid ▸ hagain'.owner h.classified

theorem rowsOf_purged (h : changes.Classified current) (hnone : s.NothingToPutBack F current changes) (hlayers : m.layers = s.layers.drop (purgedNode changes) (purgedRows changes))
    {id : Text} (hid : id ∈ s.reopened changes) : m.rowsOf id = 0 := by
  by_contra hheld
  obtain ⟨r, hr⟩ := rowsOf_ne_zero.mp hheld
  obtain ⟨hr, htable⟩ := mem_rowsOf.mp hr
  rw [hlayers] at hr
  obtain ⟨hr, hkept⟩ := mem_edges_drop.mp hr
  have hrow : r ∈ s.rowsOf id := mem_rowsOf.mpr ⟨hr, htable⟩
  obtain ⟨-, -, -, howner⟩ := mem_reopened.mp hid
  exact hkept (Or.inr (Or.inl ((purged_rowsOf h howner hrow).2.1.mpr (hnone.sites id hid r hrow))))

/-- The last statements change nothing. -/
theorem putBack_eq (h : changes.Unborn F current) (hstale : Stale stale)
    (hcleared : Cleared changes stale rest es s.index)
    (hnone : s.NothingToPutBack F current changes) {ids : Finset Text}
    (hmiddle : Middle F current changes most rest es m.index)
    (hlayers : m.layers = s.layers.drop (purgedNode changes) (purgedRows changes))
    (hput : PutBack changes s m t ids) : t = m := by
  obtain ⟨edges, hedges, hindex⟩ := hput.index
  obtain ⟨rows, hrows, hrelinked⟩ := hput.layers
  have hnoEdges : (edges.map relinked).filter (Lands m.index.keys) = 0 := by
    refine filter_eq_nil.mpr fun e he hlands => ?_
    obtain ⟨saved, hsaved, rfl⟩ := mem_map.mp he
    exact not_lands_saved h hstale hcleared hnone hmiddle (mem_of_le hedges hsaved) hlands
  have hnoRows : (rows.map relinkedRow).filter (Lands m.keys) = 0 := by
    refine filter_eq_nil.mpr fun r hr hlands => ?_
    obtain ⟨saved, hsaved, rfl⟩ := mem_map.mp hr
    exact not_lands_savedRow h hstale hcleared hnone hmiddle hlayers (mem_of_le hrows hsaved)
      hlands
  have hsameLayers : t.layers = m.layers := by
    rw [hrelinked, hnoRows, add_zero]
  refine LayeredStore.ext ?_ hsameLayers (funext fun id => ?_) hput.reason
  · rw [hindex]
    show PropertyGraph.mk _ (_ + Multiset.filter _ _) = _
    rw [hnoEdges, add_zero]
  · rw [hput.resolved]
    refine Bool.eq_iff_iff.mpr (Bool.or_eq_true_iff.trans (or_iff_right fun hrestored => ?_))
    obtain ⟨hmem, hedge⟩ := of_decide_eq_true hrestored
    refine mem_sitesWithEdge.mp hedge ?_
    rw [rowsOf, hsameLayers]
    exact rowsOf_purged h.classified hnone hlayers (hput.sub hmem)

end Nothing

/-! ## Where a refresh ends -/

/-- Whatever comes behind the reopening of the sites starts from the store with them open. -/
theorem refresh?_eq (s : LayeredStore) : s.refresh? F current changes =
    ((ApplyState.machine F current).run? (middleStmts current changes ++ s.relinkStmts changes)
      (reopenedState changes s)).map (·.store) := by
  rw [refresh?, refreshStmts_eq, Cuttable.run?_append]
  rfl

/-- Stopped before the purge, a refresh that runs again ends as it would have. -/
theorem refresh?_of_marked (h : Marked changes s t) :
    t.refresh? F current changes = s.refresh? F current changes := by
  have hopen : t.reopened changes = s.reopened changes := by rw [reopened, h.layers, reopened]
  have hstate : reopenedState changes t = reopenedState changes s := by
    refine ApplyState.ext (LayeredStore.ext h.index h.layers (funext fun id => ?_)
      (funext fun id => ?_)) rfl
    · show (if id ∈ t.reopened changes then _ else _) = if _ then _ else _
      rw [hopen]
      split
      · rfl
      next hid => exact (h.sites id hid).1
    · show (if id ∈ t.reopened changes then _ else _) = if _ then _ else _
      rw [hopen]
      split
      · rfl
      next hid => exact (h.sites id hid).2
  have hrelink : t.relinkStmts changes = s.relinkStmts changes := by
    rw [relinkStmts, relinkStmts, hopen, savedRows, savedRows, h.index, h.layers]
  rw [refresh?_eq, refresh?_eq, hstate, hrelink]

theorem exec?_eq (h : ∀ d, stmt ≠ .reparseNewFile d) (st : ApplyState) :
    st.exec? F current stmt = some (st.exec F current stmt) := by
  cases stmt with
  | reparseNewFile d => exact absurd rfl (h d)
  | _ => rfl

theorem not_new (h : changes.Unborn F current)
    (hstmt : stmt ∈ s.refreshStmts changes current) (d : Discovered) : stmt ≠ .reparseNewFile d := by
  rintro rfl
  rw [refreshStmts_eq] at hstmt
  rcases List.mem_append.mp hstmt with hstmt | hstmt
  · simp [reopenSites] at hstmt
  rcases List.mem_append.mp hstmt with hstmt | hstmt
  · rcases List.mem_append.mp hstmt with hstmt | hstmt
    · cases ApplyState.purges hstmt
    · cases ApplyState.rebuilds hstmt with
      | new hd =>
          rw [h.unborn.1, h.unborn.2] at hd
          cases hd
  · simp [relinkStmts] at hstmt

/-- Without new files nothing fails. -/
theorem refresh?_unborn (h : changes.Unborn F current) (s : LayeredStore) :
    s.refresh? F current changes = some (s.applyChanges changes F current) := by
  rw [refresh?, Cuttable.run?_eq fun st stmt hstmt => exec?_eq (not_new h hstmt) st]
  rfl

theorem run_middle (s : LayeredStore) :
    run (ApplyState.exec F current) (middleStmts current changes) (reopenedState changes s) =
      rebuilt F current s changes := by
  rw [middleStmts, run_append, rebuilt, purged, run_append]
  rfl

theorem middleDone_rebuilt (h : changes.Unborn F current) (s : LayeredStore) :
    MiddleDone F current changes s (rebuilt F current s changes) := by
  have hexec : ∀ st : ApplyState, ∀ stmt ∈ middleStmts current changes,
      st.exec? F current stmt = some (st.exec F current stmt) := by
    intro st stmt hstmt
    refine exec?_eq (not_new (s := s) h ?_) st
    rw [refreshStmts_eq]
    exact List.mem_append.mpr (Or.inr (List.mem_append.mpr (Or.inl hstmt)))
  refine Cuttable.completes_of_run ?_
  rw [← run_middle]
  exact Cuttable.run?_eq hexec

theorem putBack_applyChanges (s : LayeredStore) :
    PutBack changes s (rebuilt F current s changes).store (s.applyChanges changes F current)
      (s.reopened changes) := by
  rw [applyChanges_eq_relinked]
  have hrelink : (ApplyState.machine F current).torn (rebuilt F current s changes)
      (.relinkInboundEdges (snapshotInboundEdges s.index changes) (s.savedRows changes))
      ((rebuilt F current s changes).exec F current (.relinkInboundEdges
        (snapshotInboundEdges s.index changes) (s.savedRows changes))) := .ended rfl
  exact (PutBack.torn hrelink).restored F current subset_rfl

theorem sites_rebuilt (h : changes.Unborn F current) (s : LayeredStore) (id : Text) :
    (rebuilt F current s changes).store.isResolved id =
        (if Resolver.Store.inFiles changes.changedRels id then false
          else (reopenedState changes s).store.isResolved id) ∧
      (rebuilt F current s changes).store.reason id =
        if Resolver.Store.inFiles changes.changedRels id then Resolver.noReason
          else (reopenedState changes s).store.reason id := by
  have hread : ∀ (ds : List Discovered) (st : ApplyState),
      (run (ApplyState.exec F current) (ds.map .reparseModifiedFile) st).store.isResolved id =
          (if Resolver.Store.inFiles (ds.map Discovered.rel) id then false
            else st.store.isResolved id) ∧
        (run (ApplyState.exec F current) (ds.map .reparseModifiedFile) st).store.reason id =
          if Resolver.Store.inFiles (ds.map Discovered.rel) id then Resolver.noReason
            else st.store.reason id := by
    intro ds
    induction ds with
    | nil => exact fun st => ⟨rfl, rfl⟩
    | cons d ds ih =>
        intro st
        obtain ⟨hresolved, hreason⟩ := ih (st.exec F current (.reparseModifiedFile d))
        rw [List.map_cons, run_cons, hresolved, hreason]
        have hcons : Resolver.Store.inFiles ((d :: ds).map Discovered.rel) id ↔
            inFile d.rel [] <+: id ∨ Resolver.Store.inFiles (ds.map Discovered.rel) id := by
          simp [Resolver.Store.inFiles]
        have hown : (st.exec F current (.reparseModifiedFile d)).store.isResolved id =
              (if inFile d.rel [] <+: id then false else st.store.isResolved id) ∧
            (st.exec F current (.reparseModifiedFile d)).store.reason id =
              if inFile d.rel [] <+: id then Resolver.noReason else st.store.reason id := ⟨rfl, rfl⟩
        rw [hown.1, hown.2]
        simp only [hcons, ite_or]
        split <;> split <;> exact ⟨rfl, rfl⟩
  have hpasses : ∀ st : ApplyState,
      (run (ApplyState.exec F current) (passStmts changes current) st).store.isResolved =
          st.store.isResolved ∧
        (run (ApplyState.exec F current) (passStmts changes current) st).store.reason =
          st.store.reason := by
    intro st
    rw [passStmts, run_append]
    split <;> split <;> exact ⟨rfl, rfl⟩
  rw [rebuilt, ApplyState.rebuildStmts, run_append, (hpasses _).1, (hpasses _).2, reparseStmts_eq h,
    run_cons, (hread _ _).1, (hread _ _).2, purged, run_append, run_purgeStmts]
  exact ⟨rfl, rfl⟩

/-! ## The second run -/

/-- The pruning of a graph, with an end of it in sight. -/
structure PrunedBy (g : Graph) (most : Key → Bool) : Prop where
  eq : pruneOrphanDirectories g = g.detachDelete most
  dirs : ∀ k, most k → k.1 = .directory
  done : (g.detachDelete most).orphans (fun k => decide (k.1 = .directory)) = 0

theorem exists_prunedBy (h : changes.Fits F current g) :
    ∃ most, PrunedBy (reparse F current (purge g changes) changes) most := by
  obtain ⟨most, heq, hdir⟩ := exists_prune_eq (fun k : Key => decide (k.1 = .directory)) maxDepth
    (reparse F current (purge g changes) changes)
  refine ⟨most, heq, fun k hk => of_decide_eq_true (hdir k hk), ?_⟩
  rw [← heq]
  exact h.shallow

section Again

variable {rest : Multiset Node} {es : Multiset Edge} {stale stale' : Text → Node}
  {most D : Key → Bool}

theorem passes_detachDelete (h : changes.Unborn F current) (hmost : PrunedBy g most)
    (hD : Pruned changes most D) :
    passes F current changes (g.detachDelete D) = passes F current changes g := by
  have hpruned : (if changes.deleted ≠ [] ∨ changes.renamed ≠ [] then
        pruneOrphanDirectories (g.detachDelete D) else g.detachDelete D) =
      if changes.deleted ≠ [] ∨ changes.renamed ≠ [] then pruneOrphanDirectories g else g := by
    rw [h.unborn.2]
    split
    case isTrue =>
      have hfull : (g.detachDelete fun _ => false).prune (fun k : Key => decide (k.1 = .directory))
          maxDepth = g.detachDelete most := by
        rw [PropertyGraph.detachDelete, drop_nothing]
        exact hmost.eq
      rw [hmost.eq]
      exact prune_detachDelete hmost.done maxDepth (fun k hk => absurd hk Bool.false_ne_true) hD.sub
        hfull
    case isFalse hnot =>
      have hdel : changes.deleted = [] := by
        by_contra hdel
        exact hnot (Or.inl hdel)
      refine Eq.trans (congrArg g.detachDelete (funext fun k => ?_)) (drop_nothing g)
      exact Bool.eq_false_iff.mpr (hD.none hdel k)
  rw [passes, passes, hpruned]

theorem reparse_again (h : changes.Unborn F current) (hstale : Stale stale)
    (hbase : Base changes rest es) (hcleared : Cleared changes stale rest es s.index)
    (hstale' : Stale stale') (hD : ∀ k, D k → k.1 = .directory)
    (hcleared' : Cleared changes stale' (nodesBut D rest) (edgesBut D es) t.index) :
    reparse F current (purge t.index changes) changes =
      (reparse F current (purge s.index changes) changes).detachDelete D := by
  have hnodes : nodesBut D ((changes.changedRels : Multiset Text).bind fun rel =>
      baseNodes F rel (current.content rel)) = (changes.changedRels : Multiset Text).bind fun rel =>
        baseNodes F rel (current.content rel) := by
    refine filter_eq_self.mpr fun n hn hdir => ?_
    obtain ⟨rel, -, hn⟩ := mem_bind.mp hn
    exact (baseNodes_owned hn).near.1 (hD _ hdir)
  have hedges : edgesBut D ((changes.changedRels : Multiset Text).bind fun rel =>
      ownEdges F rel (current.content rel)) = (changes.changedRels : Multiset Text).bind fun rel =>
        ownEdges F rel (current.content rel) := by
    refine filter_eq_self.mpr fun e he hdir => ?_
    obtain ⟨rel, -, he⟩ := mem_bind.mp he
    have hinner := ownEdges_inner he
    exact hdir.elim (fun hsrc => hinner.src.near.1 (hD _ hsrc)) fun hdst =>
      hinner.dst.near.1 (hD _ hdst)
  rw [reparse_cleared h hstale' (hbase.but D) hcleared', reparse_cleared h hstale hbase hcleared]
  ext1
  · show _ = nodesBut D (_ + rest)
    rw [nodesBut_add, hnodes]
  · have hboth : ∀ es' : Multiset Edge, (es'.filter fun e => ¬(D (src e) ∨ D (dst e) ∨ false)) =
        edgesBut D es' := fun es' => filter_congr fun e _ => by simp
    show _ = Multiset.filter _ (es + _)
    rw [filter_add, hboth, hboth, hedges]

theorem rebuilt_again (h : changes.Unborn F current) (hstale : Stale stale)
    (hbase : Base changes rest es) (hcleared : Cleared changes stale rest es s.index)
    (hmost : PrunedBy (reparse F current (purge s.index changes) changes) most)
    (hkept : Kept changes s t) (hstale' : Stale stale') (hD : Pruned changes most D)
    (hcleared' : Cleared changes stale' (nodesBut D rest) (edgesBut D es) t.index) :
    (rebuilt F current t changes).store = (rebuilt F current s changes).store := by
  have hsites : ∀ id, ¬Resolver.Store.inFiles changes.changedRels id →
      (reopenedState changes t).store.isResolved id = (reopenedState changes s).store.isResolved id ∧
        (reopenedState changes t).store.reason id = (reopenedState changes s).store.reason id := by
    intro id hid
    have hsite := (hkept.sites id).resolve_left (h.reparsedSet_eq ▸ hid)
    have hsub : id ∈ t.reopened changes → id ∈ s.reopened changes := by
      intro hmem
      obtain ⟨r, hr, htarget, howner⟩ := mem_reopened.mp hmem
      obtain ⟨p, q, -, -, hlayers⟩ := hkept.layers
      obtain ⟨hr, htable⟩ := mem_rowsOf.mp hr
      rw [hlayers] at hr
      exact mem_reopened.mpr ⟨r, mem_rowsOf.mpr ⟨(mem_edges_drop.mp hr).1, htable⟩, htarget, howner⟩
    have hopen : (reopenedState changes t).store.isResolved id =
          (if id ∈ t.reopened changes then false else t.isResolved id) ∧
        (reopenedState changes t).store.reason id =
          if id ∈ t.reopened changes then Resolver.noReason else t.reason id := ⟨rfl, rfl⟩
    rw [hopen.1, hopen.2, hsite.1, hsite.2]
    by_cases hmem : id ∈ t.reopened changes
    · rw [if_pos hmem, if_pos hmem]
      exact ⟨(if_pos (hsub hmem)).symm, (if_pos (hsub hmem)).symm⟩
    · rw [if_neg hmem, if_neg hmem]
      exact ⟨rfl, rfl⟩
  refine LayeredStore.ext ?_ ?_ (funext fun id => ?_) (funext fun id => ?_)
  · rw [index_rebuilt, index_rebuilt, reparse_again h hstale hbase hcleared hstale'
      (fun k hk => hmost.dirs k (hD.sub k hk)) hcleared', passes_detachDelete h hmost hD]
  · rw [(middleDone_rebuilt h t).layers, (middleDone_rebuilt h s).layers]
    obtain ⟨p, q, hp, hq, hlayers⟩ := hkept.layers
    rw [hlayers, drop_drop]
    refine drop_congr (fun k => ?_) fun r => ?_
    · exact Bool.eq_iff_iff.mpr (Bool.or_eq_true_iff.trans (or_iff_right_of_imp (hp k)))
    · exact Bool.eq_iff_iff.mpr (Bool.or_eq_true_iff.trans (or_iff_right_of_imp (hq r)))
  · rw [(sites_rebuilt h t id).1, (sites_rebuilt h s id).1]
    split
    · rfl
    next hid => exact (hsites id hid).1
  · rw [(sites_rebuilt h t id).2, (sites_rebuilt h s id).2]
    split
    · rfl
    next hid => exact (hsites id hid).2

/-- What is of no file read again was there before. -/
structure Inherits (changes : ChangeSet) (g g' : Graph) : Prop where
  keys : ∀ k ∈ g'.keys, owningFile k.2 ∉ changes.reparsedSet → k ∈ g.keys
  edges : ∀ e ∈ g'.edges, owningFile e.src.2 ∉ changes.reparsedSet → e ∈ g.edges

theorem Inherits.drop {g' : Graph} (h : Inherits changes g g') (p : Key → Bool) (q : Edge → Bool) :
    Inherits changes g (g'.drop p q) :=
  ⟨fun k hk => h.keys k (mem_keys_drop.mp hk).1, fun e he => h.edges e (mem_edges_drop.mp he).1⟩

theorem Inherits.torn {st : ApplyState}
    (hstmt : stmt ∈ purgeStmts changes) (h : Inherits changes g st.store.index)
    (htorn : (ApplyState.machine F current).torn st stmt st') : Inherits changes g st'.store.index := by
  obtain ⟨p, q, -, -, hindex⟩ := index_torn_purge hstmt htorn
  rw [hindex]
  exact h.drop p q

theorem Middle.inherits (h : changes.Classified current) {g' : Graph}
    (hmiddle : Middle F current changes most rest es g') (hstale : Stale stale)
    (hcleared : Cleared changes stale rest es g) : Inherits changes g g' := by
  constructor
  · intro k hk howner
    rcases hmiddle.mem_keys (s := ⟨g, ⟨0, 0⟩, fun _ => false, fun _ => Resolver.noReason⟩) hstale
      hcleared hk with ⟨hkey, -⟩ | ⟨-, hagain⟩
    · exact hkey
    · exact absurd (hagain.owner h) howner
  · intro e he howner
    obtain ⟨done, stale', D, -, -, extra, extraEdges, -, hedges, -, hextra⟩ := hmiddle
    rw [hedges] at he
    rcases mem_add.mp he with he | he
    · have hin : e ∈ (purge g changes).edges := by
        rw [hcleared]
        exact (mem_filter.mp he).1
      rw [purge_eq_drop] at hin
      exact (mem_edges_drop.mp hin).1
    · exact absurd (hextra e he).owner howner

theorem nothing_again (hnone : s.NothingToPutBack F current changes) (hkept : Kept changes s t)
    (hin : Inherits changes s.index t.index) : t.NothingToPutBack F current changes := by
  obtain ⟨p, q, -, -, hlayers⟩ := hkept.layers
  have hrow : ∀ {r}, r ∈ t.layers.edges → r ∈ s.layers.edges := fun hr => by
    rw [hlayers] at hr
    exact (mem_edges_drop.mp hr).1
  have hrows : ∀ {id r}, r ∈ t.rowsOf id → r ∈ s.rowsOf id := fun hr =>
    mem_rowsOf.mpr ⟨hrow (mem_rowsOf.mp hr).1, (mem_rowsOf.mp hr).2⟩
  refine ⟨hnone.unborn, fun e he => ?_, fun r hr hsrc => ?_, fun id hid r hr => ?_⟩
  · obtain ⟨he, hsaved⟩ := mem_filter.mp he
    exact hnone.edges e (mem_filter.mpr ⟨hin.edges e he hsaved.2.2.2.2, hsaved⟩)
  · obtain ⟨hr, hsaved⟩ := mem_filter.mp hr
    refine hnone.rows r (mem_filter.mpr ⟨hrow hr, hsaved⟩) ?_
    have howner : owningFile r.source ∉ changes.reparsedSet := by
      simp only [isSaved, Bool.and_eq_true, decide_eq_true_eq] at hsaved
      exact hsaved.2
    rcases mem_add.mp hsrc with hsrc | hsrc
    · obtain ⟨k, hk, heq⟩ := mem_map.mp hsrc
      have hid : k.2 = r.source := congrArg (fun k : StoredKey => k.2) heq
      refine mem_add.mpr (Or.inl (heq ▸ mem_map_of_mem _ (hin.keys k hk ?_)))
      rwa [hid]
    · rw [hlayers] at hsrc
      exact mem_add.mpr (Or.inr (mem_keys_drop.mp hsrc).1)
  · obtain ⟨r', hr', htarget, howner⟩ := mem_reopened.mp hid
    exact hnone.sites id (mem_reopened.mpr ⟨r', hrows hr', htarget, howner⟩) r (hrows hr)

theorem applyChanges_eq_rebuilt (h : changes.Unborn F current) (hstale : Stale stale)
    (hbase : Base changes rest es) (hcleared : Cleared changes stale rest es s.index)
    (hnone : s.NothingToPutBack F current changes) :
    s.applyChanges changes F current = (rebuilt F current s changes).store := by
  obtain ⟨most, heq, hdir⟩ := exists_prune_eq (fun k : Key => decide (k.1 = .directory)) maxDepth
    (reparse F current (purge s.index changes) changes)
  have hdone := middleDone_rebuilt (F := F) h s
  have hmiddle := middle_done h hbase hstale hcleared heq (fun k hk => of_decide_eq_true (hdir k hk))
    hdone
  exact putBack_eq h hstale hcleared hnone hmiddle hdone.layers (putBack_applyChanges s)

end Again

/-! ## Exactly when a refresh recovers -/

/-- Where a refresh stops, if there is nothing to put back: before the purge, or with the
graph cleared by a further purge. -/
theorem stops_of_nothing (h : changes.Fits F current s.index)
    (hnone : s.NothingToPutBack F current changes) (hstop : s.StopsAt F current changes t) :
    Marked changes s t ∨ Kept changes s t ∧
      t.applyChanges changes F current = s.applyChanges changes F current := by
  have hunborn := h.toUnborn hnone.unborn
  obtain ⟨stale, rest, es, hstale, hbase, hcleared⟩ := exists_cleared h
  obtain ⟨most, hmost⟩ := exists_prunedBy h
  have hends : ∀ {u : LayeredStore} {stale' D}, Kept changes s u → Stale stale' →
      Pruned changes most D → Cleared changes stale' (nodesBut D rest) (edgesBut D es) u.index →
      Inherits changes s.index u.index →
      u.applyChanges changes F current = s.applyChanges changes F current := by
    intro u stale' D hkept hstale' hD hcleared' hin
    rw [applyChanges_eq_rebuilt hunborn hstale hbase hcleared hnone,
      applyChanges_eq_rebuilt hunborn hstale' (hbase.but D) hcleared' (nothing_again hnone hkept hin)]
    exact rebuilt_again hunborn hstale hbase hcleared hmost hkept hstale' hD hcleared'
  rcases StopsAt.cases hstop with hmarked | ⟨mid, hcut, rfl⟩ | ⟨mid, ids, hdone, hput⟩
  · exact Or.inl hmarked
  · obtain ⟨stale', D, hstale', hD, hcleared'⟩ := middle_cut hunborn hbase hstale hcleared hmost.eq
      hmost.dirs hcut
    refine Or.inr ⟨hcut.kept, hends hcut.kept hstale' hD hcleared' ?_⟩
    rcases Cuttable.stops_append.mp hcut with hpurge | ⟨st, hpurge, hrest⟩
    · exact hpurge.inv (I := fun st => Inherits changes s.index st.store.index)
        (fun stmt hstmt st st' hin htorn => hin.torn hstmt htorn)
        ⟨fun k hk _ => hk, fun e he _ => he⟩
    · obtain rfl := completes_purgeStmts hpurge
      exact (middle_rebuild hunborn hbase hstale hcleared hmost.eq hmost.dirs
        (by rw [run_purgeStmts]; rfl) (Or.inl hrest)).inherits h.classified hstale hcleared
  · have hmiddle := middle_done hunborn hbase hstale hcleared hmost.eq hmost.dirs hdone
    rw [putBack_eq hunborn hstale hcleared hnone hmiddle hdone.layers hput]
    have hin := hmiddle.inherits h.classified hstale hcleared
    obtain ⟨done, stale', D, hstale', hD, hg⟩ := hmiddle
    exact Or.inr ⟨hdone.kept, hends hdone.kept hstale' hD
      (hg.cleared h.classified hstale' (hbase.but D)) hin⟩

theorem completesAt_applyChanges (h : changes.Unborn F current) (s : LayeredStore) :
    s.CompletesAt F current changes (s.applyChanges changes F current) := by
  obtain ⟨st, hrun, hst⟩ := Option.map_eq_some_iff.mp (refresh?_unborn h s)
  exact ⟨st, Cuttable.completes_of_run hrun, hst⟩

theorem recoverable_of_nothing (h : changes.Fits F current s.index)
    (hnone : s.NothingToPutBack F current changes) : s.Recoverable F current changes := by
  have hunborn := h.toUnborn hnone.unborn
  refine ⟨fun t hstop id hid hresolved r hr => Or.inl ?_, fun t hstop => ?_, fun t hend id hid => ?_⟩
  · rcases stops_of_nothing h hnone hstop with hmarked | ⟨hkept, -⟩
    · rwa [rowsOf, hmarked.layers]
    · have hopen : id ∉ s.reopened changes := fun hopen => by
        rw [(hkept.site h.classified hid).1, if_pos hopen] at hresolved
        cases hresolved
      exact hkept.mem_rowsOf hr (kept_rowsOf h.classified hid hopen hr)
  · refine ⟨_, refresh?_unborn hunborn s, ?_⟩
    rcases stops_of_nothing h hnone hstop with hmarked | ⟨-, hsame⟩
    · rw [refresh?_of_marked hmarked, refresh?_unborn hunborn]
    · rw [refresh?_unborn hunborn, hsame]
  · obtain ⟨mid, hdone, hput⟩ := CompletesAt.putBack hend
    obtain ⟨stale, rest, es, hstale, hbase, hcleared⟩ := exists_cleared h
    obtain ⟨most, hmost⟩ := exists_prunedBy h
    have hmiddle := middle_done hunborn hbase hstale hcleared hmost.eq hmost.dirs hdone
    rw [putBack_eq hunborn hstale hcleared hnone hmiddle hdone.layers hput]
    obtain ⟨-, -, -, howner⟩ := mem_reopened.mp hid
    have hopen := (hdone.kept.site h.classified howner).1
    rw [if_pos hid] at hopen
    rw [hopen, rowsOf_purged h.classified hnone hdone.layers hid]
    refine iff_of_false Bool.false_ne_true ?_
    rintro ⟨r, -, -, hr⟩
    exact notMem_zero _ hr

/-! ## What a second run cannot put back -/

theorem stopsAt_self (s : LayeredStore) : s.StopsAt F current changes s :=
  ⟨{ store := s }, .here (.unbegun _), rfl⟩

theorem stopsAt_purged (hunborn : changes.Unborn F current) :
    s.StopsAt F current changes (purged F current s changes).store := by
  refine ⟨purged F current s changes, ?_, rfl⟩
  have hsplit : s.refreshStmts changes current = (s.reopenSites changes ++ purgeStmts changes) ++
      (ApplyState.rebuildStmts changes current ++ s.relinkStmts changes) := by
    rw [refreshStmts_eq, middleStmts]
    simp only [List.append_assoc]
  rw [hsplit]
  refine Cuttable.stops_append.mpr (Or.inr ⟨purged F current s changes,
    Cuttable.completes_of_run (Cuttable.run?_eq fun st stmt hstmt => ?_), ?_⟩)
  · refine exec?_eq (not_new (s := s) hunborn ?_) st
    rw [hsplit]
    exact List.mem_append.mpr (Or.inl hstmt)
  · rw [ApplyState.rebuildStmts, reparseStmts_eq hunborn]
    exact .here (.unbegun _)

variable {r : StoredRow}

/-- What it leaves then has no row into a modified file, nor a site to reopen. -/
theorem purged_rows (hr : r ∈ (purged F current s changes).store.layers.edges) :
    ¬purgedNode changes (dst r) := by
  rw [layers_purged] at hr
  exact fun hdst => (mem_edges_drop.mp hr).2 (Or.inr (Or.inl hdst))

theorem same_of_recovers (hunborn : changes.Unborn F current)
    (hrec : ∀ t, s.StopsAt F current changes t → s.Recovers F current changes t) :
    (purged F current s changes).store.applyChanges changes F current =
      s.applyChanges changes F current := by
  obtain ⟨final, hfirst, hsecond⟩ := hrec _ (stopsAt_purged hunborn)
  rw [refresh?_unborn hunborn] at hfirst hsecond
  exact (Option.some.inj hsecond).trans (Option.some.inj hfirst).symm

section Lost

variable (h : changes.Fits F current s.index)
include h

theorem file_kept {u : Text} (hu : IsFileId u) (hgone : u ∉ changes.goneRels) {r : LayeredStore} (hstmt : stmt ∈ r.refreshStmts changes current) {st : ApplyState}
    (hexec : st.exec? F current stmt = some st') (hk : (.file, u) ∈ st.store.index.keys) :
    (.file, u) ∈ st'.store.index.keys := by
  have hkept : ¬purgedKey changes (.file, u) := by
    rw [h.classified.purgedKey_iff hu .file]
    rintro (⟨-, hfile⟩ | hmem)
    · exact hfile rfl
    · exact hgone hmem
  have hst' : st' = st.exec F current stmt := (ApplyState.exec?_eq_some.mp hexec).2.symm
  have hne : ((.file, u) : Key).1 ≠ .directory := nofun
  rw [refreshStmts_eq] at hstmt
  rcases List.mem_append.mp hstmt with hstmt | hstmt
  · simp only [reopenSites, List.mem_cons, List.not_mem_nil, or_false] at hstmt
    rcases hstmt with rfl | rfl <;> exact hst' ▸ hk
  rcases List.mem_append.mp hstmt with hstmt | hstmt
  · rcases List.mem_append.mp hstmt with hstmt | hstmt
    · have htorn : (ApplyState.machine F current).torn st stmt st' := .ended hexec
      obtain ⟨p, q, hp, -, hindex⟩ := index_torn_purge hstmt htorn
      rw [hindex]
      exact mem_keys_drop.mpr ⟨hk, fun hpk => hkept (hp _ hpk)⟩
    · rw [hst']
      cases ApplyState.rebuilds hstmt with
      | dirs => exact hk
      | changed =>
          show _ ∈ (CodeGraph.reparseModifiedFile F current st.store.index _).keys
          rw [keys_reparseModifiedFile]
          exact mem_add.mpr (Or.inl hk)
      | new => exact (mem_keys_reparseNewFile hne).mpr (Or.inl hk)
      | prune => exact (mem_keys_pruneOrphanDirectories hne).mpr hk
      | links => exact hk
      | iac =>
          refine (mem_keys_runIacPassFor ?_).mpr (Or.inl hk)
          exact fun rel hrel => (ApplyState.mem_sources.mp hrel).1
  · simp only [relinkStmts, List.mem_cons, List.not_mem_nil, or_false] at hstmt
    rcases hstmt with rfl | rfl <;> exact hst' ▸ hk

theorem unborn_of_recovers (hrec : ∀ t, s.StopsAt F current changes t → s.Recovers F current changes t) :
    changes.added ++ changes.renamed.map Rename.newFile = [] := by
  rw [List.eq_nil_iff_forall_not_mem]
  intro d hd
  have hread := ApplyState.read_of_new hd
  have hu : IsFileId d.rel := h.classified.plain (ChangeSet.mem_leaving.mpr (Or.inl hread))
  have hgone : d.rel ∉ changes.goneRels := fun hmem =>
    (h.classified.gone _ hmem).2 (h.classified.reparsed _ hread)
  have hmem : ∀ r : LayeredStore, .reparseNewFile d ∈ r.refreshStmts changes current := fun r => by
    rw [refreshStmts_eq]
    refine List.mem_append.mpr (Or.inr (List.mem_append.mpr (Or.inl (List.mem_append.mpr (Or.inr ?_)))))
    refine List.mem_append.mpr (Or.inl (List.mem_append.mpr (Or.inr ?_)))
    exact List.mem_map_of_mem hd
  obtain ⟨final, hfirst, -⟩ := hrec s (stopsAt_self s)
  obtain ⟨st, hrun, rfl⟩ := Option.map_eq_some_iff.mp hfirst
  have hstop : s.StopsAt F current changes st.store :=
    ⟨st, (Cuttable.completes_of_run hrun).stops (List.ne_nil_of_mem (hmem s)), rfl⟩
  -- the first run leaves the node of the file
  have hleft : (.file, d.rel) ∈ st.store.index.keys := by
    obtain ⟨before, after, mid, mid', hsplit, -, hexec, hafter⟩ := Cuttable.run?_mem hrun (hmem s)
    refine Cuttable.run?_inv (I := fun st => (Label.file, d.rel) ∈ st.store.index.keys) ?_ hafter ?_
    · intro stmt hstmt st st' hk hexec
      refine file_kept h hu hgone (r := s) ?_ hexec hk
      rw [hsplit]
      exact List.mem_append.mpr (Or.inr (List.mem_cons_of_mem _ hstmt))
    · obtain ⟨-, rfl⟩ := ApplyState.exec?_eq_some.mp hexec
      have hne : ((.file, d.rel) : Key).1 ≠ .directory := nofun
      exact (mem_keys_reparseNewFile hne).mpr (Or.inr (Or.inl rfl))
  obtain ⟨_, -, hsecond⟩ := hrec st.store hstop
  obtain ⟨st', hrun', -⟩ := Option.map_eq_some_iff.mp hsecond
  obtain ⟨before, after, mid, mid', hsplit, hbefore, hexec, -⟩ :=
    Cuttable.run?_mem hrun' (hmem st.store)
  have hthere : (.file, d.rel) ∈ mid.store.index.keys := by
    refine Cuttable.run?_inv (I := fun st => (Label.file, d.rel) ∈ st.store.index.keys) ?_ hbefore hleft
    intro stmt hstmt st₁ st₂ hk hexec
    refine file_kept h hu hgone (r := st.store) ?_ hexec hk
    rw [hsplit]
    exact List.mem_append.mpr (Or.inl hstmt)
  exact (ApplyState.exec?_eq_some.mp hexec).1 (decide_eq_true hthere)

theorem no_edges_of_recovers (hunborn : changes.Unborn F current)
    (hrec : ∀ t, s.StopsAt F current changes t → s.Recovers F current changes t) {e : Edge}
    (he : e ∈ snapshotInboundEdges s.index changes) (hsrc : ¬purgedKey changes e.src) :
    ¬Redeclared F current changes e.dst := by
  intro hagain
  obtain ⟨he, hsaved⟩ := mem_filter.mp he
  have hinner := inner_of_saved hsaved
  have hout : changes.outside e.src.stored := by
    have hsrcIn := (h.closed e he).1
    rcases h.owned _ hsrcIn with ⟨dir, -, hdir⟩ | ⟨u, hu, howned⟩
    · have hkind := h.contains e he (congrArg Prod.fst hdir)
      have hresolution := hsaved.1
      rw [hkind] at hresolution
      cases hresolution
    · refine ChangeSet.outside_iff.mpr ⟨fun hdir => ?_, ?_⟩
      · have hstored := indexLabel_stored e.src.1
        rw [show e.src.1.stored = .directory from hdir] at hstored
        exact howned.near.1 (Option.some.inj hstored).symm
      · show owningFile e.src.2 ∉ _
        have hown : owningFile e.src.2 = u := hu.owningFile howned
        have howner := hsaved.2.2.2.2
        rw [hown] at howner ⊢
        rw [ChangeSet.mem_leaving]
        rintro (hread | hgone)
        · exact howner hread
        · exact hsrc ((h.classified.purgedKey_iff hu howned).mpr (Or.inr hgone))
  have hlead : leadsIn changes e.src.stored e.dst.stored := leadsIn_iff.mpr ⟨hout, hinner⟩
  -- the first run puts the edge back
  have hback : relinked e ∈ (s.applyChanges changes F current).index.edges := by
    rw [index_relinked]
    refine mem_add.mpr (Or.inr (mem_filter.mpr ⟨?_, ?_, ?_⟩))
    · exact mem_map_of_mem _ (mem_filter.mpr ⟨he, hsaved⟩)
    · refine mem_map_stored.mp ((mem_keys_outside h.classified hout).1.mpr ?_)
      exact mem_map_stored.mpr (h.closed e he).1
    · exact (mem_index_rebuilt h.classified s hinner).mpr hagain
  rw [← same_of_recovers hunborn hrec, index_relinked] at hback
  have hnone : (purged F current s changes).store.index.edges.filter (Saved changes) = 0 := by
    refine filter_eq_nil.mpr fun e' he' hsaved' => ?_
    rw [index_purged, purge_eq_drop] at he'
    refine (mem_edges_drop.mp he').2 (Or.inr (Or.inl ?_))
    rw [linked_dst, purgedKey_eq]
    exact purgedNode_of_isInner (inner_of_saved hsaved')
  rw [hnone] at hback
  have hin : relinked e ∈ (rebuilt F current (purged F current s changes).store
      changes).store.index.edges.filter fun e => leadsIn changes e.src.stored e.dst.stored :=
    mem_filter.mpr ⟨(mem_add.mp hback).resolve_right (notMem_zero _), hlead⟩
  rw [(rebuilt_leadsIn h.classified _).1] at hin
  exact notMem_zero _ hin

omit h in
/-- What the purge leaves is there when the saved rows are put back. -/
theorem mem_keys_rebuilt (hc : changes.Classified current) (hunborn : changes.Unborn F current)
    {k : StoredKey} (hdir : k.1 ≠ .directory) (hk : k ∈ s.keys) (hkept : ¬purgedNode changes k) :
    k ∈ (rebuilt F current s changes).store.keys := by
  rcases mem_add.mp hk with hk | hk
  · obtain ⟨k', hk', rfl⟩ := mem_map.mp hk
    have hdir' := ne_directory_of_stored hdir
    refine mem_add.mpr (Or.inl (mem_map_of_mem _ ?_))
    rw [index_rebuilt, mem_passes hc hdir', mem_reparse hdir', purge_eq_drop, mem_keys_drop,
      purgedKey_eq]
    exact Or.inl (Or.inl ⟨hk', hkept⟩)
  · refine mem_add.mpr (Or.inr ?_)
    rw [(middleDone_rebuilt hunborn s).layers]
    exact mem_keys_drop.mpr ⟨hk, hkept⟩

theorem no_rows_of_recovers (hunborn : changes.Unborn F current)
    (hrec : ∀ t, s.StopsAt F current changes t → s.Recovers F current changes t)
    (hr : r ∈ s.savedRows changes) (hsrc : src r ∈ s.keys) (hkept : ¬purgedNode changes (src r))
    {k : Key} (hagain : Redeclared F current changes k) : k.stored ≠ dst r := by
  intro hdst
  have hsaved : isSaved changes r := (mem_filter.mp hr).2
  have hinner := inner_of_isSaved hsaved
  have hback : relinkedRow r ∈ (s.applyChanges changes F current).layers.edges := by
    rw [layers_relinked]
    refine mem_add.mpr (Or.inr (mem_filter.mpr ⟨?_, ?_, ?_⟩))
    · exact mem_map_of_mem _ hr
    · exact mem_keys_rebuilt h.classified hunborn r.layered hsrc hkept
    · rw [← hdst] at hinner
      refine mem_add.mpr (Or.inl ?_)
      show dst r ∈ _
      rw [← hdst]
      exact mem_map_stored.mpr ((mem_index_rebuilt h.classified s hinner).mpr hagain)
  rw [← same_of_recovers hunborn hrec, layers_relinked] at hback
  have hnone : (purged F current s changes).store.layers.edges.filter (isSaved changes ·) = 0 :=
    filter_eq_nil.mpr fun r' hr' hsaved' =>
      purged_rows hr' (purgedNode_of_isInner (inner_of_isSaved hsaved'))
  rw [hnone] at hback
  have hin := (mem_add.mp hback).resolve_right (notMem_zero _)
  rw [(middleDone_rebuilt hunborn _).layers] at hin
  exact purged_rows (mem_edges_drop.mp hin).1 (purgedNode_of_isInner hinner)

theorem no_sites_of_recovers (hunborn : changes.Unborn F current)
    (hrec : ∀ t, s.StopsAt F current changes t → s.Recovers F current changes t) {id : Text}
    (hid : id ∈ s.reopened changes) (hr : r ∈ s.rowsOf id) :
    Resolver.Store.inFiles changes.purgedRels r.target := by
  by_contra hstays
  obtain ⟨-, -, -, howner⟩ := mem_reopened.mp hid
  obtain ⟨hsrc, hdst, hrow⟩ := purged_rowsOf h.classified howner hr
  -- the first run restores the site
  have hrestored : (s.applyChanges changes F current).isResolved id := by
    refine (restores_of_completes h.classified (completesAt_applyChanges hunborn s) id hid).mpr ?_
    refine rowsOf_ne_zero.mpr ⟨r, mem_rowsOf.mpr ⟨?_, (mem_rowsOf.mp hr).2⟩⟩
    rw [layers_relinked, (middleDone_rebuilt hunborn s).layers]
    refine mem_add.mpr (Or.inl (mem_edges_drop.mpr ⟨(mem_rowsOf.mp hr).1, ?_⟩))
    rintro (hpurged | hpurged | hpurged)
    · exact hsrc hpurged
    · exact hstays (hdst.mp hpurged)
    · exact hrow hpurged
  have hopen : id ∉ (purged F current s changes).store.reopened changes := fun hmem => by
    obtain ⟨r', hr', htarget, -⟩ := mem_reopened.mp hmem
    exact purged_rows (mem_rowsOf.mp hr').1 (purgedNode_iff.mpr (Or.inl htarget))
  rw [← same_of_recovers hunborn hrec, (sites_relinked h.classified howner hopen).1] at hrestored
  have hflag : (purged F current s changes).store.isResolved id =
      if id ∈ s.reopened changes then false else s.isResolved id := by
    rw [purged, run_append, run_purgeStmts]
    rfl
  rw [hflag, if_pos hid] at hrestored
  cases hrestored

theorem nothing_of_recovers
    (hrec : ∀ t, s.StopsAt F current changes t → s.Recovers F current changes t) :
    s.NothingToPutBack F current changes := by
  have hnew := List.append_eq_nil_iff.mp (unborn_of_recovers h hrec)
  have hno : changes.added = [] ∧ changes.renamed = [] := ⟨hnew.1, List.map_eq_nil_iff.mp hnew.2⟩
  have hunborn := h.toUnborn hno
  exact ⟨hno, fun e he hsrc => no_edges_of_recovers h hunborn hrec he hsrc,
    fun r hr hsrc hkept k hagain => no_rows_of_recovers h hunborn hrec hr hsrc hkept hagain,
    fun id hid r hr => no_sites_of_recovers h hunborn hrec hid hr⟩

end Lost

/-- Wherever a refresh stops, no site of another file is left resolved without a row, and
one that completes restores the sites that hold one; but it recovers from every stop just
when it has nothing to put back. -/
theorem refresh_recoverable_iff (h : changes.Fits F current s.index) :
    ((∀ t, s.StopsAt F current changes t → s.Honest changes t) ∧
      ∀ t, s.CompletesAt F current changes t → s.RestoresSites changes t) ∧
    (s.Recoverable F current changes ↔ s.NothingToPutBack F current changes) :=
  ⟨⟨fun _ hstop => honest_of_stops h.classified hstop,
      fun _ hend => restores_of_completes h.classified hend⟩,
    fun hrec => nothing_of_recovers h hrec.recovers, recoverable_of_nothing h⟩

/-! ## A call that was resolved -/

open Resolver

theorem touchHelper_correct : touchHelper.Correct helperReader oneHelper oneHelper where
  nodup := by decide
  changed rel hrel := by
    obtain rfl := List.mem_singleton.mp hrel
    exact ⟨Finset.mem_insert_self _ _, Finset.mem_insert_self _ _⟩
  fresh _ := iff_of_false List.not_mem_nil fun hrel => hrel.2 hrel.1
  gone _ := iff_of_false List.not_mem_nil fun hrel => hrel.2 hrel.1
  same _ _ _ _ := rfl
  size d hd := by
    obtain rfl := List.mem_singleton.mp hd
    rfl

/-- The call in `f` is of the `helper` of `a.rs`. -/
def resolvedCall : StoredRow where
  table := ⟨"Calls_CallSite_Function", .callSite, .function⟩
  source := helperSite.id
  target := "a.rs::helper".toList
  confidence := "0.95".toList
  resolutionMethod := "unique-match".toList
  declared := by decide
  layered := nofun

/-- The graph of the two files, behind their resolution or before it. -/
noncomputable def helperStore (rows : Multiset StoredRow) : LayeredStore where
  index := indexCodebase helperReader oneHelper
  layers := ⟨0, rows⟩
  isResolved id := decide (id = helperSite.id) && decide (rows ≠ 0)
  reason _ := noReason

/-- When the refresh stops behind the purge, the row of the call is gone, and what was to
be put back with it. -/
theorem resolvedCall_lost :
    ¬(helperStore {resolvedCall}).Recoverable helperReader oneHelper touchHelper := by
  intro hrec
  have hfits : touchHelper.Fits helperReader oneHelper (helperStore {resolvedCall}).index :=
    fits_indexCodebase touchHelper_correct
  have hends : (.symbol .callSite, helperSite.id) ∈ treeKeys helperReader oneHelper ∧
      ¬purgedNode touchHelper (src resolvedCall) ∧ isSaved touchHelper resolvedCall ∧
        Redeclared helperReader oneHelper touchHelper (.symbol .function, "a.rs::helper".toList) := by
    decide +kernel
  obtain ⟨hsite, hkept, hsaved, hagain⟩ := hends
  have hsource : src resolvedCall ∈ (helperStore {resolvedCall}).keys := by
    have hin : (.symbol .callSite, helperSite.id) ∈ (helperStore {resolvedCall}).index.keys := by
      rw [helperStore, indexCodebase_eq]
      exact hsite
    exact mem_add.mpr (Or.inl (mem_map_of_mem Key.stored hin))
  have hrow : resolvedCall ∈ (helperStore {resolvedCall}).savedRows touchHelper :=
    mem_filter.mpr ⟨mem_singleton_self _, hsaved⟩
  exact (nothing_of_recovers hfits hrec.recovers).rows resolvedCall hrow hsource hkept _ hagain rfl

/-- Before the resolution there is nothing to lose. -/
theorem helperStore_recoverable :
    (helperStore 0).Recoverable helperReader oneHelper touchHelper := by
  have hfits : touchHelper.Fits helperReader oneHelper (helperStore 0).index :=
    fits_indexCodebase touchHelper_correct
  refine (refresh_recoverable_iff hfits).2.mpr ⟨⟨rfl, rfl⟩, ?_, ?_, ?_⟩
  · intro e he
    obtain ⟨he, -⟩ := mem_filter.mp he
    rw [show (helperStore 0).index.edges = 0 from edges_oneHelper] at he
    exact absurd he (notMem_zero e)
  · intro r hr
    exact absurd (mem_filter.mp hr).1 (notMem_zero r)
  · intro id _ r hr
    exact absurd (mem_rowsOf.mp hr).1 (notMem_zero r)

end CodeGraph
