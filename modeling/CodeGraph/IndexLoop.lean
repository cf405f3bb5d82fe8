import Mathlib.Data.Finset.Union
import CodeGraph.IndexParts

/-!
# The index loop

The loop adds the parts of its files and the directories they lie in, whatever
the batch holds when it is flushed.
-/

namespace CodeGraph

open List PropertyGraph Unmet Keyed

/-- The keys of some directories and files. -/
def Placed (files : Set Text) (dirs : Finset (List Text)) (k : Key) : Prop :=
  (∃ dir ∈ dirs, k = (.directory, dirId dir)) ∨ ∃ u ∈ files, Near u k

theorem Placed.mono {files files' : Set Text} {dirs dirs' : Finset (List Text)} {k : Key}
    (h : Placed files dirs k) (hfiles : files ⊆ files') (hdirs : dirs ⊆ dirs') :
    Placed files' dirs' k := by
  rcases h with ⟨dir, hdir, rfl⟩ | ⟨u, hu, hk⟩
  · exact Or.inl ⟨dir, hdirs hdir, rfl⟩
  · exact Or.inr ⟨u, hfiles hu, hk⟩

/-- What the loop holds is of the files it has been through. -/
structure Tidy (files : Set Text) (st : IndexState) : Prop where
  plain : ∀ u ∈ files, IsFileId u
  nodes : ∀ n ∈ st.settled.nodes, Placed files st.dirNodesInserted (key n)
  dirs : ∀ dir ∈ st.dirNodesInserted, (.directory, dirId dir) ∈ st.settled.keys
  edges : ∀ e ∈ st.batch.edges,
    Placed files st.dirNodesInserted e.src ∧ Placed files st.dirNodesInserted e.dst
  labels : ∀ k ∈ st.labelByQn, Placed files st.dirNodesInserted k
  seen : ∀ k ∈ st.seenNodeIds, Placed files st.dirNodesInserted k

theorem Placed.not_near {files : Set Text} {dirs : Finset (List Text)} {k : Key} {rel : Text}
    (h : Placed files dirs k) (hplain : ∀ u ∈ files, IsFileId u) (hrel : IsFileId rel)
    (hnew : rel ∉ files) : ¬Near rel k := by
  intro hk
  rcases h with ⟨dir, -, rfl⟩ | ⟨u, hu, huk⟩
  · exact hk.1 rfl
  · exact hnew (hk.unique hrel (hplain u hu) huk ▸ hu)

/-! ## One step -/

/-- The directories a file adds to `dirs`. -/
def newDirs (rel : Text) (dirs : Finset (List Text)) : List (List Text) :=
  (ancestors rel).filter (· ∉ dirs)

theorem mem_newDirs {rel : Text} {dirs : Finset (List Text)} {dir : List Text} :
    dir ∈ newDirs rel dirs ↔ dir ∈ ancestors rel ∧ dir ∉ dirs := by
  rw [newDirs, mem_filter, decide_eq_true_eq]

theorem insertAncestorDirs_eq (st : IndexState) (rel : Text) :
    insertAncestorDirs st rel =
      { st with
        store := st.store.insertNodes ((newDirs rel st.dirNodesInserted).map dirNode : List Node)
        batch := { st.batch with
          edges := ((newDirs rel st.dirNodesInserted).flatMap dirEdges : List Edge) +
            st.batch.edges }
        dirNodesInserted := st.dirNodesInserted ∪ (ancestors rel).toFinset
        labelByQn := st.labelByQn ∪
          keysOf (fun dir => (.directory, dirId dir)) (newDirs rel st.dirNodesInserted) } := by
  have hnodup : ((ancestors rel).map id).Nodup := by
    rw [map_id]
    exact nodup_dirsBelow _ _
  have hnew : unmet id (ancestors rel) st.dirNodesInserted = newDirs rel st.dirNodesInserted :=
    unmet_eq_filter hnodup _
  have hkeys : keysOf id (ancestors rel) = (ancestors rel).toFinset := by
    rw [keysOf, map_id]
  rw [insertAncestorDirs, insertDirsFrom_eq]
  show (let fresh := unmet id (ancestors rel) st.dirNodesInserted; _) = _
  rw [← hkeys, ← hnew]
  rfl

section Step

variable {Content : Type} {F : FrontEnd Content} {files : Set Text} {st : IndexState} {rel : Text}
  {content : Content}

/-- The state in which the symbols of a file are read. -/
def opened (F : FrontEnd Content) (rel : Text) (content : Content) (st : IndexState) : IndexState :=
  ((insertFileNode F (insertAncestorDirs st rel) rel content).recordLabel (.file, rel)).pushEdges
    (dirFileEdges rel)

theorem parent_mem_ancestors (h : LightLink.parent rel ≠ []) :
    (splitOnChar '/' rel).dropLast ∈ ancestors rel := by
  refine mem_ancestors.mpr ⟨fun hnil => h ?_, prefix_rfl⟩
  rw [LightLink.parent, hnil]
  rfl

theorem dirsBelow_dropLast {current components dir : List Text} (h : dir ∈ dirsBelow current components)
    (hne : dir.dropLast ≠ current) : dir.dropLast ∈ dirsBelow current components := by
  obtain ⟨hpre, hdir, hlast⟩ := mem_dirsBelow.mp h
  refine mem_dirsBelow.mpr ⟨?_, Ne.symm hne, ( dropLast_prefix dir).trans hlast⟩
  obtain ⟨rest, rfl⟩ := hpre
  have hrest : rest ≠ [] := by
    rintro rfl
    exact hdir (append_nil current).symm
  rw [dropLast_append_of_ne_nil hrest]
  exact prefix_append _ _

theorem settled_edges (st : IndexState) :
    st.settled.edges = st.store.edges + st.batch.edges.filter (Lands st.settled.keys) := rfl

theorem mem_keys_opened {k : Key} : k ∈ (opened F rel content st).settled.keys ↔
    k ∈ st.settled.keys ∨ (∃ dir ∈ newDirs rel st.dirNodesInserted, k = (.directory, dirId dir)) ∨
      k = (.file, rel) := by
  rw [opened, insertAncestorDirs_eq]
  simp only [IndexState.settled, SymbolBatch.flush, insertFileNode, IndexState.recordLabel,
    IndexState.pushEdges, PropertyGraph.keys, insertEdges, insertNodes, Multiset.map_add,
    Multiset.mem_add, Multiset.map_singleton, Multiset.mem_singleton, Multiset.map_coe, Multiset.mem_coe,
    mem_map, exists_exists_and_eq_and]
  have hdir : ∀ dir, key (dirNode dir) = k ↔ k = (.directory, dirId dir) := fun dir => eq_comm
  have hfile : k = key (fileNode rel (F.size content) 0) ↔ k = (.file, rel) := Iff.rfl
  simp only [hdir, hfile, or_assoc, or_left_comm, or_comm]

theorem containment_ends {dirs : Finset (List Text)} {e : Edge}
    (he : e ∈ (newDirs rel dirs).flatMap dirEdges ++ dirFileEdges rel) :
    (∃ dir ∈ ancestors rel, e.src = (.directory, dirId dir)) ∧
      ((∃ dir ∈ ancestors rel, e.dst = (.directory, dirId dir)) ∨ e.dst = (.file, rel)) := by
  rcases mem_append.mp he with he | he
  · obtain ⟨dir, hnew, he⟩ := mem_flatMap.mp he
    have hmem : dir ∈ ancestors rel := (mem_newDirs.mp hnew).1
    rw [dirEdges] at he
    split at he
    · cases he
    next hparent =>
      obtain rfl := mem_singleton.mp he
      exact ⟨⟨_, dirsBelow_dropLast hmem hparent, rfl⟩, Or.inl ⟨dir, hmem, rfl⟩⟩
  · rw [dirFileEdges] at he
    split at he
    · cases he
    next hparent =>
      obtain rfl := mem_singleton.mp he
      exact ⟨⟨_, parent_mem_ancestors hparent, rfl⟩, Or.inr rfl⟩

theorem opened_edges_land (h : Tidy files st) {e : Edge}
    (he : e ∈ (newDirs rel st.dirNodesInserted).flatMap dirEdges ++ dirFileEdges rel) :
    Lands (opened F rel content st).settled.keys e := by
  -- a directory the file lies in is there, be it new or met before
  have hdir : ∀ dir ∈ ancestors rel,
      ((.directory, dirId dir) : Key) ∈ (opened F rel content st).settled.keys := by
    intro dir hdir
    rw [mem_keys_opened]
    by_cases hold : dir ∈ st.dirNodesInserted
    · exact Or.inl (h.dirs dir hold)
    · exact Or.inr (Or.inl ⟨dir, mem_newDirs.mpr ⟨hdir, hold⟩, rfl⟩)
  obtain ⟨⟨dir, hsrc, hsrc'⟩, hdst⟩ := containment_ends he
  rw [Lands, linked_src, linked_dst]
  refine ⟨hsrc' ▸ hdir dir hsrc, ?_⟩
  rcases hdst with ⟨dir, hdst, hdst'⟩ | hdst
  · exact hdst' ▸ hdir dir hdst
  · exact hdst ▸ mem_keys_opened.mpr (Or.inr (Or.inr rfl))

theorem opened_batch_edges : (opened F rel content st).batch.edges =
    (((newDirs rel st.dirNodesInserted).flatMap dirEdges ++ dirFileEdges rel : List Edge) :
      Multiset Edge) + st.batch.edges := by
  rw [opened, insertAncestorDirs_eq]
  show (dirFileEdges rel : Multiset Edge) + (_ + st.batch.edges) = _
  rw [← Multiset.coe_add]
  abel

theorem settled_opened (h : Tidy files st) (hrel : IsFileId rel) (hnew : rel ∉ files) :
    (opened F rel content st).settled =
      ⟨fileNode rel (F.size content) 0 ::ₘ (st.store.nodes +
          ((newDirs rel st.dirNodesInserted).map dirNode : List Node) + st.batch.nodes),
        st.settled.edges + ((newDirs rel st.dirNodesInserted).flatMap dirEdges : List Edge) +
          (dirFileEdges rel : Multiset Edge)⟩ := by
  -- an edge batched before lands as it did
  have hbatch : st.batch.edges.filter (Lands (opened F rel content st).settled.keys) =
      st.batch.edges.filter (Lands st.settled.keys) :=
    filter_lands_congr (fun k (hk : Placed files st.dirNodesInserted k) => by
      rw [mem_keys_opened]
      refine or_iff_left_of_imp ?_
      rintro (⟨dir, -, rfl⟩ | rfl)
      · rcases hk with ⟨dir', hdir', heq⟩ | ⟨u, -, hu⟩
        · exact heq ▸ h.dirs dir' hdir'
        · exact absurd rfl hu.1
      · exact absurd Owned.file.near (hk.not_near h.plain hrel hnew)) h.edges
  have hland : ((((newDirs rel st.dirNodesInserted).flatMap dirEdges ++ dirFileEdges rel :
        List Edge)) : Multiset Edge).filter (Lands (opened F rel content st).settled.keys) =
      ((newDirs rel st.dirNodesInserted).flatMap dirEdges : List Edge) +
        (dirFileEdges rel : Multiset Edge) :=
    Multiset.filter_eq_self.mpr fun e he => opened_edges_land h he
  ext1
  · rw [opened, insertAncestorDirs_eq]
    simp only [IndexState.settled, SymbolBatch.flush, insertFileNode, IndexState.recordLabel,
      IndexState.pushEdges, insertEdges, insertNodes, ← Multiset.singleton_add]
    abel
  · have hstore : (opened F rel content st).store.edges = st.store.edges := by
      rw [opened, insertAncestorDirs_eq]
      rfl
    rw [settled_edges, settled_edges, opened_batch_edges, hstore, Multiset.filter_add, hbatch, hland]
    ac_rfl

theorem foreign_opened (h : Tidy files st) (hrel : IsFileId rel) (hnew : rel ∉ files) :
    Foreign rel (opened F rel content st)
      (st.store.nodes + ((newDirs rel st.dirNodesInserted).map dirNode : List Node)) := by
  have hplaced : ∀ {k : Key}, Placed files st.dirNodesInserted k → ¬Near rel k := fun hk =>
    hk.not_near h.plain hrel hnew
  have hdir : ∀ {id : Text}, ¬Near rel (.directory, id) := fun hk => hk.1 rfl
  refine ⟨fun n hn => ?_, fun e he => ?_, fun k hk => ?_, fun k hk => ?_⟩
  · rw [opened, insertAncestorDirs_eq] at hn
    rw [add_right_comm] at hn
    rcases Multiset.mem_add.mp hn with hn | hn
    · exact hplaced (h.nodes n hn)
    · obtain ⟨dir, -, rfl⟩ := mem_map.mp hn
      exact hdir
  · rw [opened_batch_edges] at he
    rcases Multiset.mem_add.mp he with he | he
    · obtain ⟨⟨dir, -, hsrc⟩, ⟨dir', -, hdst⟩ | hdst⟩ := containment_ends he
      · exact ⟨fun h => absurd (hsrc ▸ h) hdir, fun h => absurd (hdst ▸ h) hdir⟩
      · exact ⟨fun h => absurd (hsrc ▸ h) hdir, fun _ => hdst⟩
    · have hends := h.edges e he
      exact ⟨fun h => absurd h (hplaced hends.1), fun h => absurd h (hplaced hends.2)⟩
  · rw [opened, insertAncestorDirs_eq] at hk
    exact hplaced (h.seen k hk)
  · rw [opened, insertAncestorDirs_eq]
    show k ∈ insert (Label.file, rel) (_ ∪ _) ↔ _
    rw [Finset.mem_insert, Finset.mem_union]
    refine or_iff_left ?_
    rintro (hlabel | hlabel)
    · exact hplaced (h.labels k hlabel) hk
    · obtain ⟨dir, -, rfl⟩ := mem_keysOf.mp hlabel
      exact hdir hk

theorem settled_indexFile (h : Tidy files st) (hrel : IsFileId rel) (hnew : rel ∉ files) :
    (indexFile F rel content st).settled =
      ⟨st.settled.nodes + ((newDirs rel st.dirNodesInserted).map dirNode : List Node) +
          baseNodes F rel content,
        st.settled.edges + ((newDirs rel st.dirNodesInserted).flatMap dirEdges : List Edge) +
          baseEdges F rel content⟩ := by
  have hst : (opened F rel content st).store.nodes = fileNode rel (F.size content) 0 ::ₘ
      (st.store.nodes + ((newDirs rel st.dirNodesInserted).map dirNode : List Node)) := by
    rw [opened, insertAncestorDirs_eq, ← Multiset.singleton_add, add_comm {_}]
    rfl
  have hbatch : (opened F rel content st).batch.nodes = st.batch.nodes := by
    rw [opened, insertAncestorDirs_eq]
    rfl
  show (indexSingleFile F rel content (opened F rel content st)).settled = _
  rw [settled_indexSingleFile hst (foreign_opened h hrel hnew), settled_opened h hrel hnew, hbatch]
  ext1
  · show baseNodes F rel content + (st.store.nodes + _ + _) = st.store.nodes + _ + _ + _
    ac_rfl
  · show _ + _ + _ + _ = _ + _ + (_ + _)
    ac_rfl

theorem dirs_indexFile : (indexFile F rel content st).dirNodesInserted =
    st.dirNodesInserted ∪ (ancestors rel).toFinset := by
  show (indexSingleFile F rel content (opened F rel content st)).dirNodesInserted = _
  rw [(carried_indexSingleFile F rel content _).dirs, opened, insertAncestorDirs_eq]
  rfl

theorem Tidy.indexFile (h : Tidy files st) (hrel : IsFileId rel) (hnew : rel ∉ files) :
    Tidy (insert rel files) (indexFile F rel content st) := by
  have hold : ∀ {k : Key}, Placed files st.dirNodesInserted k →
      Placed (insert rel files) (CodeGraph.indexFile F rel content st).dirNodesInserted k :=
    fun hk => hk.mono (Set.subset_insert rel files) (dirs_indexFile ▸ Finset.subset_union_left)
  have hdir : ∀ {dir : List Text}, dir ∈ ancestors rel →
      Placed (insert rel files) (CodeGraph.indexFile F rel content st).dirNodesInserted
        (.directory, dirId dir) := fun hdir =>
    Or.inl ⟨_, dirs_indexFile ▸ Finset.mem_union_right _ (mem_toFinset.mpr hdir), rfl⟩
  have hown : ∀ {k : Key}, Near rel k →
      Placed (insert rel files) (CodeGraph.indexFile F rel content st).dirNodesInserted k :=
    fun hk => Or.inr ⟨rel, Set.mem_insert rel files, hk⟩
  have hcarried := carried_indexSingleFile F rel content (opened F rel content st)
  have hlabels : ∀ k ∈ (opened F rel content st).labelByQn,
      Placed (insert rel files) (CodeGraph.indexFile F rel content st).dirNodesInserted k := by
    intro k hk
    rw [opened, insertAncestorDirs_eq] at hk
    rcases Finset.mem_insert.mp hk with rfl | hk
    · exact hown Owned.file.near
    rcases Finset.mem_union.mp hk with hk | hk
    · exact hold (h.labels k hk)
    · obtain ⟨dir, hnewDir, rfl⟩ := mem_keysOf.mp hk
      exact hdir (mem_newDirs.mp hnewDir).1
  have hseen : ∀ k ∈ (opened F rel content st).seenNodeIds,
      Placed (insert rel files) (CodeGraph.indexFile F rel content st).dirNodesInserted k := by
    intro k hk
    rw [opened, insertAncestorDirs_eq] at hk
    exact hold (h.seen k hk)
  refine ⟨?_, fun n hn => ?_, fun dir hdir => ?_, fun e he => ?_, fun k hk => ?_, fun k hk => ?_⟩
  · rintro u (rfl | hu)
    · exact hrel
    · exact h.plain u hu
  · rw [settled_indexFile h hrel hnew] at hn
    rcases Multiset.mem_add.mp hn with hn | hn
    · rcases Multiset.mem_add.mp hn with hn | hn
      · exact hold (h.nodes n hn)
      · obtain ⟨dir, hnewDir, rfl⟩ := mem_map.mp hn
        exact hdir (mem_newDirs.mp hnewDir).1
    · exact hown (baseNodes_owned hn).near
  · rw [settled_indexFile h hrel hnew]
    rw [dirs_indexFile, Finset.mem_union] at hdir
    by_cases hmet : dir ∈ st.dirNodesInserted
    · obtain ⟨n, hn, hkey⟩ := mem_keys.mp (h.dirs dir hmet)
      exact mem_keys.mpr ⟨n, Multiset.mem_add.mpr (Or.inl (Multiset.mem_add.mpr (Or.inl hn))), hkey⟩
    · have hnewDir : dir ∈ newDirs rel st.dirNodesInserted :=
        mem_newDirs.mpr ⟨mem_toFinset.mp (hdir.resolve_left hmet), hmet⟩
      have hn : dirNode dir ∈ (((newDirs rel st.dirNodesInserted).map dirNode : List Node) :
          Multiset Node) := mem_map_of_mem hnewDir
      exact mem_keys.mpr
        ⟨_, Multiset.mem_add.mpr (Or.inl (Multiset.mem_add.mpr (Or.inr hn))), rfl⟩
  · rcases hcarried.edges e he with he | he
    · rw [opened_batch_edges] at he
      rcases Multiset.mem_add.mp he with he | he
      · obtain ⟨⟨dir, hsrc, hsrc'⟩, hdst⟩ := containment_ends he
        refine ⟨hsrc' ▸ hdir hsrc, ?_⟩
        rcases hdst with ⟨dir, hdst, hdst'⟩ | hdst
        · exact hdst' ▸ hdir hdst
        · exact hdst ▸ hown Owned.file.near
      · exact ⟨hold (h.edges e he).1, hold (h.edges e he).2⟩
    · exact ⟨hown he.1, hown he.2⟩
  · exact (hcarried.labels k hk).elim (hlabels k) hown
  · exact (hcarried.seen k hk).elim (hseen k) hown

theorem settled_flush (st : IndexState) : st.flush.settled = st.settled := by
  ext1
  · exact add_zero _
  · show st.settled.edges + Multiset.filter _ 0 = _
    rw [Multiset.filter_zero, add_zero]

theorem Tidy.flush (h : Tidy files st) : Tidy files st.flush := by
  refine ⟨h.plain, ?_, ?_, fun e he => absurd he (Multiset.notMem_zero e), h.labels, h.seen⟩
  · rw [settled_flush]
    exact h.nodes
  · rw [settled_flush]
    exact h.dirs

end Step

/-! ## The run -/

/-- The directories some files lie in. -/
def dirsOf (rels : Finset Text) : Finset (List Text) :=
  rels.biUnion fun rel => (ancestors rel).toFinset

/-- The loop has been through `files` and holds `ns` and `es` besides the
directories and their containments. -/
structure Holds (files : Set Text) (ns : Multiset Node) (es : Multiset Edge)
    (st : IndexState) : Prop extends Tidy files st where
  nodes_eq : st.settled.nodes = ns + st.dirNodesInserted.val.map dirNode
  edges_eq : st.settled.edges = es + st.dirNodesInserted.val.bind fun dir => dirEdges dir

theorem union_ancestors_val (dirs : Finset (List Text)) (rel : Text) :
    (dirs ∪ (ancestors rel).toFinset).val = dirs.val + (newDirs rel dirs : Multiset (List Text)) := by
  have hnodup : (newDirs rel dirs).Nodup := (nodup_dirsBelow _ _).filter _
  have hdisjoint : Disjoint dirs.val (newDirs rel dirs : Multiset (List Text)) :=
    Multiset.disjoint_left.mpr fun hdir hnew => (mem_newDirs.mp hnew).2 hdir
  refine (Multiset.Nodup.ext (Finset.nodup _)
    (Multiset.nodup_add.mpr ⟨dirs.nodup, Multiset.coe_nodup.mpr hnodup, hdisjoint⟩)).mpr fun dir => ?_
  rw [Finset.mem_val, Finset.mem_union, mem_toFinset, Multiset.mem_add, Multiset.mem_coe,
    mem_newDirs, Finset.mem_val]
  tauto

section Run

variable {Content : Type} {F : FrontEnd Content} {files : Set Text} {ns : Multiset Node}
  {es : Multiset Edge} {st : IndexState}

theorem Holds.indexFile {rel : Text} {content : Content} (h : Holds files ns es st)
    (hrel : IsFileId rel) (hnew : rel ∉ files) :
    Holds (insert rel files) (ns + baseNodes F rel content) (es + baseEdges F rel content)
      (indexFile F rel content st) := by
  refine ⟨h.toTidy.indexFile hrel hnew, ?_, ?_⟩
  · rw [settled_indexFile h.toTidy hrel hnew, dirs_indexFile, union_ancestors_val, h.nodes_eq,
      Multiset.map_add, Multiset.map_coe]
    ac_rfl
  · rw [settled_indexFile h.toTidy hrel hnew, dirs_indexFile, union_ancestors_val, h.edges_eq,
      Multiset.add_bind, Multiset.coe_bind]
    ac_rfl

theorem Holds.flushLarge (h : Holds files ns es st) : Holds files ns es (flushLarge st) := by
  rw [CodeGraph.flushLarge]
  split
  · refine ⟨h.toTidy.flush, ?_, ?_⟩
    · rw [settled_flush]
      exact h.nodes_eq
    · rw [settled_flush]
      exact h.edges_eq
  · exact h

theorem holds_indexFiles (tree : SourceTree Content) {rels : List Text} (h : Holds files ns es st)
    (hnodup : rels.Nodup) (hrels : ∀ rel ∈ rels, rel ∈ tree.rels ∧ rel ∉ files) :
    Holds (files ∪ {rel | rel ∈ rels})
      (ns + (rels : Multiset Text).bind fun rel => baseNodes F rel (tree.content rel))
      (es + (rels : Multiset Text).bind fun rel => baseEdges F rel (tree.content rel))
      (indexFiles F tree st rels) := by
  induction rels generalizing files ns es st with
  | nil => simpa [indexFiles] using h
  | cons rel rels ih =>
      rw [nodup_cons] at hnodup
      have hrel := hrels rel mem_cons_self
      have hfile : Holds (insert rel files) (ns + baseNodes F rel (tree.content rel))
          (es + baseEdges F rel (tree.content rel)) (indexFile F rel (tree.content rel) st) :=
        h.indexFile (tree.plain rel hrel.1) hrel.2
      have hstep := hfile.flushLarge
      have hrun := ih hstep hnodup.2 fun u hu =>
        ⟨(hrels u (mem_cons_of_mem rel hu)).1, by
          rintro (rfl | hmem)
          · exact hnodup.1 hu
          · exact (hrels u (mem_cons_of_mem rel hu)).2 hmem⟩
      have hfiles : insert rel files ∪ {u | u ∈ rels} = files ∪ {u | u ∈ rel :: rels} := by
        ext u
        simp only [Set.mem_union, Set.mem_insert_iff, Set.mem_ofPred_eq, mem_cons]
        tauto
      rw [← hfiles, ← Multiset.cons_coe, Multiset.cons_bind, Multiset.cons_bind, ← add_assoc,
        ← add_assoc]
      exact hrun

theorem dirs_indexFiles (tree : SourceTree Content) (st : IndexState) (rels : List Text) :
    (indexFiles F tree st rels).dirNodesInserted = st.dirNodesInserted ∪ dirsOf rels.toFinset := by
  induction rels generalizing st with
  | nil => simp [indexFiles, dirsOf]
  | cons rel rels ih =>
      have hstep : (flushLarge (indexFile F rel (tree.content rel) st)).dirNodesInserted =
          st.dirNodesInserted ∪ (ancestors rel).toFinset := by
        have hdirs : (indexFile F rel (tree.content rel) st).dirNodesInserted =
            st.dirNodesInserted ∪ (ancestors rel).toFinset := dirs_indexFile
        rw [← hdirs, flushLarge]
        split <;> rfl
      show (indexFiles F tree (flushLarge _) rels).dirNodesInserted = _
      rw [ih, hstep, dirsOf, dirsOf, toFinset_cons, Finset.biUnion_insert, Finset.union_assoc]

end Run

end CodeGraph
