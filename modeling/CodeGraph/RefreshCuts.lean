import CodeGraph.IncrementalDirs
import CodeGraph.Lib.Runs
import CodeGraph.RefreshRun
import Mathlib.Algebra.BigOperators.Group.Finset.Piecewise

/-!
# Refreshes that are cut short

A refresh is no transaction: its statements are separate, some of them many queries
long, and it can fail or be killed between any two. `Torn` says what is left of a
statement by then. The light links, the pass over the infrastructure files and the
rows to be put back are best effort: an error in them is passed over.
-/

namespace CodeGraph

open PropertyGraph Keyed Linked

/-! ## Statements -/

/-- The graph but for the columns of a file's node. -/
def blanked (rel : Text) (g : Graph) : Graph := g.update (resetFile rel 0)

def Stmt.reads (d : Discovered) : Stmt → Prop
  | .reparseModifiedFile d' => d' = d
  | .reparseNewFile d' => d' = d
  | _ => False

/-- The statement derives something from the text of the files. -/
def Stmt.derives : Stmt → Prop
  | .linkFileImportsFor _ => True
  | .runIacPassFor _ => True
  | _ => False

/-- The statement is one query. -/
def Stmt.single : Stmt → Prop
  | .purgeFileSymbols _ => True
  | .purgeFileNode _ => True
  | .purgeFileContent _ => True
  | .existingDirectoryIds => True
  | _ => False

/-- An error of the statement is logged, and the refresh goes on. -/
def Stmt.bestEffort : Stmt → Prop
  | .linkFileImportsFor _ => True
  | .runIacPassFor _ => True
  | .relinkInboundEdges _ _ => True
  | _ => False

namespace ApplyState

variable {Content : Type} (F : FrontEnd Content) (current : SourceTree Content)

/-- The statement creates a file node whose key is taken. -/
def violates (st : ApplyState) : Stmt → Bool
  | .reparseNewFile d => (.file, d.rel) ∈ st.store.index.keys
  | _ => false

/-- A statement that meets no error but that of a key which is taken. -/
def exec? (st : ApplyState) (stmt : Stmt) : Option ApplyState :=
  if st.violates stmt then none else some (st.exec F current stmt)

variable {F current} in
theorem exec?_eq_some {st st' : ApplyState} {stmt : Stmt} :
    st.exec? F current stmt = some st' ↔ ¬st.violates stmt ∧ st.exec F current stmt = st' := by
  rw [exec?]
  split
  next h => exact iff_of_false nofun fun hno => hno.1 h
  next h => exact Option.some_inj.trans (and_iff_right h).symm

/-- Between the two queries that delete the links out of a file. -/
def purgeOutboundImports (st : ApplyState) (rel : Text) : ApplyState :=
  st.onStore fun s =>
    { s with
      index := s.index.deleteEdges fun e =>
        (isLightLink e && e.kind = .imports) && decide (e.src = (.file, rel))
      layers := s.layers.deleteEdges fun r =>
        r.table.name = "Imports_File_File" ∧ r.source = rel }

/-- Some of the directories the pruning removes are gone, each with its edges. -/
def prunePartly (st : ApplyState) (sel : Key → Bool) : ApplyState :=
  st.onStore fun s =>
    { s with
      index := s.index.detachDelete fun k =>
        sel k && k ∈ s.index.keys && k ∉ (CodeGraph.pruneOrphanDirectories s.index).keys }

/-- What a statement can leave by the time it is through, fails or is killed. -/
inductive Torn (st : ApplyState) : Stmt → ApplyState → Prop
  | unbegun (stmt : Stmt) : Torn st stmt st
  | ended {stmt : Stmt} {st' : ApplyState} (h : st.exec? F current stmt = some st') : Torn st stmt st'
  | marked {ids ids' : Finset Text} (h : ids' ⊆ ids) :
      Torn st (.markUnresolved ids) (st.exec F current (.markUnresolved ids'))
  | cleared {ids ids' : Finset Text} (h : ids' ⊆ ids) :
      Torn st (.clearReasons ids) (st.exec F current (.clearReasons ids'))
  | unlinked (rel : Text) : Torn st (.purgeOutboundLightLinks rel) (st.purgeOutboundImports rel)
  | read {stmt : Stmt} {d : Discovered} {st' : ApplyState} (h : stmt.reads d)
      (hindex : (blanked d.rel st.store.index).Between
        (blanked d.rel (st.exec F current stmt).store.index) (blanked d.rel st'.store.index))
      (hlayers : st'.store.layers = st.store.layers)
      (hresolved : ∀ id, st'.store.isResolved id = st.store.isResolved id ∨
        st'.store.isResolved id = (st.exec F current stmt).store.isResolved id)
      (hreason : ∀ id, st'.store.reason id = st.store.reason id ∨
        st'.store.reason id = (st.exec F current stmt).store.reason id) : Torn st stmt st'
  | pruned (sel : Key → Bool) : Torn st .pruneOrphanDirectories (st.prunePartly sel)
  | derived {stmt : Stmt} {index : Graph} (h : stmt.derives)
      (hindex : st.store.index.Between (st.exec F current stmt).store.index index) :
      Torn st stmt (st.onStore fun s => { s with index })
  | relinked {edges edges' : Multiset Edge} {rows rows' : Multiset StoredRow} (hedges : edges' ≤ edges)
      (hrows : rows' ≤ rows) :
      Torn st (.relinkInboundEdges edges rows) (st.exec F current (.relinkInboundEdges edges' rows'))
  | restored {ids ids' : Finset Text} (h : ids' ⊆ ids) :
      Torn st (.restoreSites ids) (st.exec F current (.restoreSites ids'))

variable {F current} in
/-- One query is not done or done. -/
theorem Torn.of_single {st st' : ApplyState} {stmt : Stmt} (h : st.Torn F current stmt st')
    (hsingle : stmt.single) : st' = st ∨ st' = st.exec F current stmt := by
  cases h with
  | unbegun => exact Or.inl rfl
  | ended hexec => exact Or.inr (exec?_eq_some.mp hexec).2.symm
  | read hreads => cases stmt <;> first | exact absurd hreads id | exact absurd hsingle id
  | derived hderives => cases stmt <;> first | exact absurd hderives id | exact absurd hsingle id
  | _ => exact absurd hsingle id

/-- The statements of a refresh as steps that can be cut short. -/
def machine : Runs.Cuttable ApplyState Stmt where
  exec st stmt := st.exec? F current stmt
  torn st stmt st' := st.Torn F current stmt st'
  lenient := Stmt.bestEffort
  torn_of_exec := .ended

end ApplyState

/-! ## Refreshes -/

namespace LayeredStore

variable {Content : Type} (F : FrontEnd Content) (current : SourceTree Content)
  (changes : ChangeSet) (s : LayeredStore)

/-- A refresh that no error but a key that is taken stops. -/
def refresh? : Option LayeredStore :=
  ((ApplyState.machine F current).run? (s.refreshStmts changes current) { store := s }).map (·.store)

def StopsAt (t : LayeredStore) : Prop :=
  ∃ st, (ApplyState.machine F current).Stops (s.refreshStmts changes current) { store := s } st ∧
    st.store = t

/-- A refresh can come to its end there, errors being passed over. -/
def CompletesAt (t : LayeredStore) : Prop :=
  ∃ st, (ApplyState.machine F current).Completes (s.refreshStmts changes current) { store := s } st ∧
    st.store = t

def rowsOf (id : Text) : Multiset StoredRow :=
  s.layers.edges.filter fun r => isCallSiteTable r.table ∧ r.source = id

/-- No site of the other files is resolved that held a row of its own and holds none. -/
def Honest (t : LayeredStore) : Prop :=
  ∀ id, owningFile id ∉ changes.leaving → t.isResolved id → s.rowsOf id ≠ 0 → t.rowsOf id ≠ 0

/-- Of the sites reopened those are resolved that hold a row of their own again. -/
def RestoresSites (t : LayeredStore) : Prop :=
  ∀ id ∈ s.reopened changes, t.isResolved id ↔ t.rowsOf id ≠ 0

/-- The refresh run again ends where it would have ended uninterrupted. -/
def Recovers (t : LayeredStore) : Prop :=
  ∃ final, s.refresh? F current changes = some final ∧ t.refresh? F current changes = some final

/-- What an interrupted refresh owes the sites and rows of the other files. Row by row: a
site that is resolved has each of its rows, or the one put back for it. -/
structure Recoverable : Prop where
  honest : ∀ t, s.StopsAt F current changes t → ∀ id, owningFile id ∉ changes.leaving →
    t.isResolved id → ∀ r ∈ s.rowsOf id, r ∈ t.rowsOf id ∨ relinkedRow r ∈ t.rowsOf id
  recovers : ∀ t, s.StopsAt F current changes t → s.Recovers F current changes t
  restores : ∀ t, s.CompletesAt F current changes t → ∀ id ∈ s.reopened changes,
    (t.isResolved id ↔ ∃ r ∈ s.savedRows changes, r ∈ s.rowsOf id ∧ relinkedRow r ∈ t.rowsOf id)

/-- The refresh creates no file, and has nothing to put back: no saved edge or row has its
end declared again, and no site that is reopened holds a row into a file that stays. -/
structure NothingToPutBack : Prop where
  unborn : changes.added = [] ∧ changes.renamed = []
  edges : ∀ e ∈ snapshotInboundEdges s.index changes, ¬purgedKey changes e.src →
    ¬Redeclared F current changes e.dst
  rows : ∀ r ∈ s.savedRows changes, src r ∈ s.keys → ¬purgedNode changes (src r) →
    ∀ k, Redeclared F current changes k → k.stored ≠ dst r
  sites : ∀ id ∈ s.reopened changes, ∀ r ∈ s.rowsOf id,
    Resolver.Store.inFiles changes.purgedRels r.target

end LayeredStore

/-- What the callers of a refresh promise of the graph: it is one that indexing built, with
the files that are modified in it, and its directories nest no deeper than the pruning
goes. -/
structure ChangeSet.Fits {Content : Type} (changes : ChangeSet) (F : FrontEnd Content)
    (current : SourceTree Content) (g : Graph) : Prop where
  classified : changes.Classified current
  nodup : changes.changedRels.Nodup
  size : ∀ d ∈ changes.changed, d.size = F.size (current.content d.rel)
  closed : g.Closed
  once : ∀ rel ∈ changes.changedRels, g.keys.count (.file, rel) ≤ 1
  owned : ∀ k ∈ g.keys, (∃ dir, IsDir dir ∧ k = (.directory, dirId dir)) ∨
    ∃ rel, IsFileId rel ∧ Owned rel k
  contains : ∀ e ∈ g.edges, e.src.1 = .directory → e.kind = .contains
  files : ∀ rel ∈ changes.changedRels, ∃ size errors, fileNode rel size errors ∈ g.nodes
  shallow : (CodeGraph.pruneOrphanDirectories
    (CodeGraph.reparse F current (CodeGraph.purge g changes) changes)).orphans
      (fun k => decide (k.1 = .directory)) = 0

end CodeGraph

/-!
## Graphs that a refresh fits

The graph that a full index left fits every change set that is right about the tree it
was built from and the current one.
-/

namespace CodeGraph

open PropertyGraph Keyed

variable {Content : Type} {F : FrontEnd Content} {changes : ChangeSet}
  {before after tree : SourceTree Content} {rel : Text}

/-! ## What the index is made of -/

theorem fileNode_mem_indexCodebase (hrel : rel ∈ tree.rels) :
    fileNode rel (F.size (tree.content rel)) (fileErrors F rel (tree.content rel)) ∈
      (indexCodebase F tree).nodes := by
  rw [indexCodebase_eq]
  refine Multiset.mem_add.mpr (Or.inl (Multiset.mem_bind.mpr ⟨rel, hrel, ?_⟩))
  exact Multiset.mem_add.mpr (Or.inl (Multiset.mem_cons_self _ _))

theorem count_file_fileNodes (u : Text) (content : Content) :
    ((fileNodes F u content).map key).count (.file, rel) = if rel = u then 1 else 0 := by
  have hown : ((ownNodes F u content).map key).count (.file, rel) = 0 := by
    refine Multiset.count_eq_zero_of_notMem fun hmem => ?_
    obtain ⟨n, hn, hkey⟩ := Multiset.mem_map.mp hmem
    exact (ownNodes_owned hn).2 (congrArg Prod.fst hkey)
  have hfacts : ((Iac.factNodes F u content : Multiset Node).map key).count (.file, rel) = 0 := by
    refine Multiset.count_eq_zero_of_notMem fun hmem => ?_
    exact (factKeys_owned (List.mem_map.mpr (Multiset.mem_map.mp hmem))).2 rfl
  rw [fileNodes, baseNodes, Multiset.map_add, Multiset.map_cons, Multiset.count_add,
    Multiset.count_cons, hown, hfacts, zero_add, add_zero]
  refine if_congr ⟨fun heq => congrArg Prod.snd heq, fun heq => ?_⟩ rfl rfl
  rw [heq]
  rfl

theorem count_file_indexCodebase : (indexCodebase F tree).keys.count (.file, rel) ≤ 1 := by
  have hdirs : (((dirsOf tree.rels).val.map dirNode).map key).count (.file, rel) = 0 := by
    refine Multiset.count_eq_zero_of_notMem fun hmem => ?_
    obtain ⟨n, hn, hkey⟩ := Multiset.mem_map.mp hmem
    obtain ⟨dir, -, rfl⟩ := Multiset.mem_map.mp hn
    cases congrArg Prod.fst hkey
  rw [indexCodebase_eq]
  show ((treeNodes F tree).map key).count (.file, rel) ≤ 1
  rw [treeNodes, Multiset.map_add, Multiset.count_add, hdirs, Multiset.map_bind,
    Multiset.count_bind]
  simp only [count_file_fileNodes]
  show (tree.rels.sum fun u => if rel = u then 1 else 0) + 0 ≤ 1
  rw [Finset.sum_ite_eq, add_zero]
  split <;> omega

theorem indexCodebase_owned {k : Key} (hk : k ∈ (indexCodebase F tree).keys) :
    (∃ dir, IsDir dir ∧ k = (.directory, dirId dir)) ∨ ∃ rel, IsFileId rel ∧ Owned rel k := by
  rw [indexCodebase_eq] at hk
  rcases mem_treeKeys.mp hk with ⟨u, hu, hmem⟩ | ⟨dir, hdir, rfl⟩
  · obtain ⟨n, hn, rfl⟩ := Multiset.mem_map.mp hmem
    exact Or.inr ⟨u, tree.plain u hu, fileNodes_owned hn⟩
  · obtain ⟨rel, hrel, hdir⟩ := mem_dirsOf.mp hdir
    exact Or.inl ⟨dir, (tree.plain rel hrel).isDir hdir, rfl⟩

theorem indexCodebase_contains {e : Edge} (he : e ∈ (indexCodebase F tree).edges)
    (hsrc : e.src.1 = .directory) : e.kind = .contains := by
  rw [indexCodebase_eq] at he
  rcases Multiset.mem_add.mp he with he | he
  · rcases Multiset.mem_add.mp he with he | he
    · obtain ⟨u, -, he⟩ := Multiset.mem_bind.mp he
      rw [fileEdges_eq] at he
      rcases Multiset.mem_add.mp he with he | he
      · exact (mem_dirFileEdges he).1
      · exact absurd hsrc (innerEdges_inner he).src.near.1
    · obtain ⟨dir, -, he⟩ := Multiset.mem_bind.mp he
      exact (mem_dirEdges he).1
  · obtain ⟨u, hu, he⟩ := Multiset.mem_bind.mp he
    exact absurd hsrc (linksOut_outward hu he).src.near.1

/-! ## The change set and the graph -/

theorem ChangeSet.Correct.classified (h : changes.Correct F before after) :
    changes.Classified after where
  reparsed _ hrel := h.reparsed_mem hrel
  gone rel hrel := by
    obtain ⟨hbefore, hafter⟩ := (h.gone rel).mp hrel
    exact ⟨before.plain rel hbefore, hafter⟩

/-- A directory that is left holds a file of the current tree. -/
theorem orphans_prunedGraph (h : changes.Correct F before after) :
    (prunedGraph F changes before after).orphans (fun k => decide (k.1 = .directory)) = 0 := by
  refine Multiset.filter_eq_nil.mpr ?_
  rintro k hk ⟨hdir, hnone⟩
  rw [← detachDelete_reparsedGraph h] at hk hnone
  obtain ⟨hkey, hkept⟩ := mem_keys_drop.mp hk
  have hneeded : neededDir after k := by
    by_contra hnot
    exact hkept (Bool.and_eq_true_iff.mpr ⟨hdir, by rw [Bool.eq_false_of_not_eq_true hnot]; rfl⟩)
  obtain ⟨e, he, hsrc, hdst⟩ := (prunable_reparsedGraph h).supported k hkey hdir hneeded
  refine hnone e (mem_edges_drop.mpr ⟨he, ?_⟩) hsrc
  rw [hsrc]
  rintro (horphan | horphan | hfalse)
  · exact hkept horphan
  · obtain ⟨hp, hnot⟩ := Bool.and_eq_true_iff.mp horphan
    rw [hdst hp] at hnot
    cases hnot
  · cases hfalse

theorem fits_indexCodebase (h : changes.Correct F before after) :
    changes.Fits F after (indexCodebase F before) where
  classified := h.classified
  nodup := h.changed_nodup
  size := h.size
  closed := closed_indexCodebase before
  once _ _ := count_file_indexCodebase
  owned _ hk := indexCodebase_owned hk
  contains _ he hsrc := indexCodebase_contains he hsrc
  files rel hrel := ⟨_, _, fileNode_mem_indexCodebase (h.changed rel hrel).1⟩
  shallow := by
    rw [reparse_eq h]
    exact (congrArg _ (prune_reparsedGraph h)).trans (orphans_prunedGraph h)

end CodeGraph
