import CodeGraph.IncrementalSteps

/-!
# Files read again

A changed file keeps its node, which is reset, and gets the rest of its parts
back; a new file is indexed as the full index does. After both the graph holds
the parts of every file of the current tree, and the directories of the two
trees.
-/

namespace CodeGraph

open List PropertyGraph Keyed

variable {Content : Type} {F : FrontEnd Content} {changes : ChangeSet}
  {before after : SourceTree Content}

/-! ## Changed files -/

theorem resetFile_of_not_near {rel : Text} {size : Nat} {n : Node} (h : ¬Near rel (key n)) :
    resetFile rel size n = n := by
  obtain ⟨id, row⟩ := n
  cases row with
  | file name ext oldSize errors =>
      rw [resetFile]
      exact if_neg fun hid => h ⟨nofun, Or.inl hid⟩
  | _ => rfl

theorem resetFile_fileNode (rel : Text) (size oldSize errors : Nat) :
    resetFile rel size (fileNode rel oldSize errors) = fileNode rel size 0 :=
  if_pos rfl

theorem reparseModifiedFile_eq {g : Graph} {d : Discovered} {size errors : Nat}
    {others : Multiset Node} (hg : g.nodes = fileNode d.rel size errors ::ₘ others)
    (hothers : ∀ n ∈ others, ¬Near d.rel (key n)) (hsize : d.size = F.size (after.content d.rel)) :
    reparseModifiedFile F after g d =
      ⟨baseNodes F d.rel (after.content d.rel) + others,
        g.edges + ownEdges F d.rel (after.content d.rel)⟩ := by
  have hreset : (g.update (resetFile d.rel d.size)).nodes =
      fileNode d.rel (F.size (after.content d.rel)) 0 ::ₘ others := by
    have hmap : others.map (resetFile d.rel d.size) = others :=
      (Multiset.map_congr rfl fun n hn => resetFile_of_not_near (hothers n hn)).trans
        (Multiset.map_id others)
    show g.nodes.map (resetFile d.rel d.size) = _
    rw [hg, Multiset.map_cons, hmap, resetFile_fileNode, hsize]
  have hforeign : Foreign d.rel
      { store := g.update (resetFile d.rel d.size), labelByQn := {(.file, d.rel)} } others := by
    refine ⟨fun n hn => hothers n ?_, fun e he => absurd he (Multiset.notMem_zero e),
      fun k hk => absurd hk (Finset.notMem_empty k), fun k _ => Finset.mem_singleton⟩
    rwa [show others + (0 : Multiset Node) = others from add_zero others] at hn
  rw [reparseModifiedFile, settled_indexSingleFile hreset hforeign]
  ext1
  · show _ + (others + 0) = _
    rw [add_zero]
  · show g.edges + Multiset.filter _ 0 + _ = _
    rw [Multiset.filter_zero, add_zero]

theorem reparseModifiedFile_run {stale : Text → Node}
    (hstale : ∀ rel, ∃ size errors, stale rel = fileNode rel size errors) :
    ∀ (ds : List Discovered) {g : Graph} {rest : Multiset Node},
    (ds.map Discovered.rel).Nodup → (∀ d ∈ ds, IsFileId d.rel) →
    (∀ d ∈ ds, d.size = F.size (after.content d.rel)) →
    (∀ n ∈ rest, ∀ d ∈ ds, ¬Near d.rel (key n)) →
    g.nodes = (ds.map Discovered.rel : Multiset Text).map stale + rest →
    ds.foldl (reparseModifiedFile F after) g =
      ⟨((ds.map Discovered.rel : Multiset Text).bind fun rel =>
          baseNodes F rel (after.content rel)) + rest,
        g.edges + (ds.map Discovered.rel : Multiset Text).bind fun rel =>
          ownEdges F rel (after.content rel)⟩
  | [], g, rest, _, _, _, _, hg => by
      ext1
      · exact hg
      · exact (add_zero g.edges).symm
  | d :: ds, g, rest, hnodup, hplain, hsize, hrest, hg => by
      rw [map_cons, nodup_cons] at hnodup
      have hd := hplain d mem_cons_self
      have hds : ∀ {d'}, d' ∈ ds → d' ∈ d :: ds := fun h => mem_cons_of_mem d h
      -- no other file of the run shares a key with this one
      have hother : ∀ {d' k}, d' ∈ ds → Near d.rel k → ¬Near d'.rel k := by
        intro d' k hd' hk hk'
        have heq := hk.unique hd (hplain d' (hds hd')) hk'
        exact hnodup.1 (heq ▸ mem_map_of_mem hd')
      obtain ⟨size, errors, hnode⟩ := hstale d.rel
      have hg' : g.nodes = fileNode d.rel size errors ::ₘ
          ((ds.map Discovered.rel : Multiset Text).map stale + rest) := by
        rw [hg, map_cons, ← Multiset.cons_coe, Multiset.map_cons, Multiset.cons_add, hnode]
      have hothers : ∀ n ∈ (ds.map Discovered.rel : Multiset Text).map stale + rest,
          ¬Near d.rel (key n) := by
        intro n hn
        rcases Multiset.mem_add.mp hn with hn | hn
        · obtain ⟨rel, hrel, rfl⟩ := Multiset.mem_map.mp hn
          obtain ⟨d', hd', rfl⟩ := mem_map.mp hrel
          obtain ⟨size, errors, hnode⟩ := hstale d'.rel
          rw [hnode]
          exact fun hk => hother hd' hk Owned.file.near
        · exact hrest n hn d mem_cons_self
      have hrest' : ∀ n ∈ baseNodes F d.rel (after.content d.rel) + rest, ∀ d' ∈ ds,
          ¬Near d'.rel (key n) := by
        intro n hn d' hd'
        rcases Multiset.mem_add.mp hn with hn | hn
        · exact hother hd' (baseNodes_owned hn).near
        · exact hrest n hn d' (hds hd')
      have hnodes : (reparseModifiedFile F after g d).nodes =
          (ds.map Discovered.rel : Multiset Text).map stale +
            (baseNodes F d.rel (after.content d.rel) + rest) := by
        rw [reparseModifiedFile_eq hg' hothers (hsize d mem_cons_self)]
        show _ + (_ + rest) = _ + (_ + rest)
        ac_rfl
      rw [foldl_cons, reparseModifiedFile_run hstale ds hnodup.2 (fun d' hd' => hplain d' (hds hd'))
        (fun d' hd' => hsize d' (hds hd')) hrest' hnodes,
        reparseModifiedFile_eq hg' hothers (hsize d mem_cons_self)]
      simp only [map_cons, ← Multiset.cons_coe, Multiset.cons_bind]
      ext1 <;> ac_rfl

/-! ## New files -/

/-- The state a new file is indexed in: nothing is remembered but the directories. -/
def resumed (acc : Graph × Finset (List Text)) : IndexState :=
  { store := acc.1, dirNodesInserted := acc.2 }

theorem settled_resumed (acc : Graph × Finset (List Text)) : (resumed acc).settled = acc.1 := by
  ext1
  · exact add_zero acc.1.nodes
  · show acc.1.edges + Multiset.filter _ 0 = _
    rw [Multiset.filter_zero, add_zero]

theorem Holds.resumed {files : Set Text} {ns : Multiset Node} {es : Multiset Edge}
    {st : IndexState} (h : Holds files ns es st) :
    Holds files ns es (resumed (st.settled, st.dirNodesInserted)) := by
  refine ⟨⟨h.plain, ?_, ?_, fun e he => absurd he (Multiset.notMem_zero e),
    fun k hk => absurd hk (Finset.notMem_empty k),
    fun k hk => absurd hk (Finset.notMem_empty k)⟩, ?_, ?_⟩
  · rw [settled_resumed]
    exact h.nodes
  · rw [settled_resumed]
    exact h.dirs
  · rw [settled_resumed]
    exact h.nodes_eq
  · rw [settled_resumed]
    exact h.edges_eq

variable (F after) in
theorem reparseNewFile_run : ∀ (ds : List Discovered) {acc : Graph × Finset (List Text)}
    {files : Set Text} {ns : Multiset Node} {es : Multiset Edge},
    Holds files ns es (resumed acc) → (ds.map Discovered.rel).Nodup →
    (∀ d ∈ ds, IsFileId d.rel ∧ d.rel ∉ files) →
    Holds (files ∪ {rel | rel ∈ ds.map Discovered.rel})
        (ns + (ds.map Discovered.rel : Multiset Text).bind fun rel =>
          baseNodes F rel (after.content rel))
        (es + (ds.map Discovered.rel : Multiset Text).bind fun rel =>
          baseEdges F rel (after.content rel))
        (resumed (ds.foldl (reparseNewFile F after) acc)) ∧
      (ds.foldl (reparseNewFile F after) acc).2 =
        acc.2 ∪ dirsOf (ds.map Discovered.rel).toFinset
  | [], acc, files, ns, es, h, _, _ => by
      simpa [dirsOf] using h
  | d :: ds, acc, files, ns, es, h, hnodup, hds => by
      rw [map_cons, nodup_cons] at hnodup
      obtain ⟨hplain, hnew⟩ := hds d mem_cons_self
      have hstep : Holds (insert d.rel files) (ns + baseNodes F d.rel (after.content d.rel))
          (es + baseEdges F d.rel (after.content d.rel))
          (resumed (reparseNewFile F after acc d)) := (h.indexFile hplain hnew).resumed
      obtain ⟨hrun, hdirs⟩ := reparseNewFile_run ds hstep hnodup.2 fun d' hd' =>
        ⟨(hds d' (mem_cons_of_mem d hd')).1, by
          rintro (heq | hmem)
          · exact hnodup.1 (heq ▸ mem_map_of_mem hd')
          · exact (hds d' (mem_cons_of_mem d hd')).2 hmem⟩
      have hfiles : insert d.rel files ∪ {rel | rel ∈ ds.map Discovered.rel} =
          files ∪ {rel | rel ∈ (d :: ds).map Discovered.rel} := by
        ext u
        simp only [Set.mem_union, Set.mem_insert_iff, Set.mem_ofPred_eq, map_cons,
          mem_cons]
        tauto
      refine ⟨?_, ?_⟩
      · rw [← hfiles, map_cons, ← Multiset.cons_coe, Multiset.cons_bind, Multiset.cons_bind,
          ← add_assoc, ← add_assoc]
        exact hrun
      · have hdir : (reparseNewFile F after acc d).2 = acc.2 ∪ (ancestors d.rel).toFinset :=
          dirs_indexFile
        rw [foldl_cons]
        refine hdirs.trans ?_
        rw [hdir, dirsOf, dirsOf, map_cons, toFinset_cons, Finset.biUnion_insert,
          Finset.union_assoc]

/-! ## Both runs -/

theorem existingDirectoryIds_eq {g : Graph} {ns : Multiset Node} {dirs : Finset (List Text)}
    (hg : g.nodes = ns + dirs.val.map dirNode) (hns : ∀ n ∈ ns, (key n).1 ≠ .directory)
    (hdirs : ∀ dir ∈ dirs, IsDir dir) : existingDirectoryIds g = dirs := by
  have hdirectory : g.nodes.filter (fun n => n.row.label = .directory) = dirs.val.map dirNode := by
    have hnone : ns.filter (fun n => n.row.label = .directory) = 0 := Multiset.filter_eq_nil.mpr hns
    rw [hg, Multiset.filter_add, hnone, zero_add]
    refine Multiset.filter_eq_self.mpr ?_
    intro n hn
    obtain ⟨dir, -, rfl⟩ := Multiset.mem_map.mp hn
    rfl
  rw [existingDirectoryIds, hdirectory, Multiset.map_map]
  have hsplit : dirs.val.map ((fun n : Node => splitOnChar '/' n.id) ∘ dirNode) = dirs.val :=
    (Multiset.map_congr rfl fun dir hdir => (hdirs dir hdir).split).trans (Multiset.map_id _)
  rw [hsplit, Finset.val_toFinset]

section Reparse

variable (F changes before after)

/-- The nodes of the files once those read again are back, without what the later
passes add. -/
def reparsedNodes : Multiset Node :=
  uneditedNodes F changes after + (changes.reparsedSet : Multiset Text).bind fun rel =>
    baseNodes F rel (after.content rel)

def reparsedEdges : Multiset Edge :=
  uneditedEdges F changes after +
    ((changes.reparsedSet : Multiset Text).bind fun rel => baseEdges F rel (after.content rel)) +
    uneditedLinks F changes before after

/-- The directories of both trees. -/
def bothDirs : Finset (List Text) := dirsOf (before.rels ∪ after.rels)

variable {F changes before after}

theorem uneditedNodes_owned {n : Node} (h : n ∈ uneditedNodes F changes after) :
    ∃ rel ∈ changes.kept after, Owned rel (key n) := by
  obtain ⟨rel, hrel, hn⟩ := Multiset.mem_bind.mp h
  exact ⟨rel, hrel, fileNodes_owned hn⟩

theorem freshRels_eq : (changes.added ++ changes.renamed.map Rename.newFile).map Discovered.rel =
    changes.added.map Discovered.rel ++ changes.newRels := by
  rw [map_append, map_map]
  rfl

theorem reparsed_bind {α : Type} (part : Text → Multiset α) :
    (changes.reparsedSet : Multiset Text).bind part =
      (changes.changedRels : Multiset Text).bind part +
        ((changes.added ++ changes.renamed.map Rename.newFile).map Discovered.rel :
          Multiset Text).bind part := by
  rw [ChangeSet.reparsedSet, append_assoc, ← Multiset.coe_add, Multiset.add_bind, freshRels_eq]

theorem bothDirs_eq (h : changes.Correct F before after) : dirsOf before.rels ∪
    dirsOf ((changes.added ++ changes.renamed.map Rename.newFile).map Discovered.rel).toFinset =
      bothDirs before after := by
  have hfresh : ∀ rel, rel ∈ (changes.added ++ changes.renamed.map Rename.newFile).map
      Discovered.rel ↔ rel ∈ after.rels ∧ rel ∉ before.rels := by
    intro rel
    rw [← h.fresh, freshRels_eq]
  ext dir
  simp only [bothDirs, Finset.mem_union, mem_dirsOf, mem_toFinset, hfresh]
  constructor
  · rintro (⟨rel, hrel, hdir⟩ | ⟨rel, hrel, hdir⟩)
    · exact ⟨rel, Or.inl hrel, hdir⟩
    · exact ⟨rel, Or.inr hrel.1, hdir⟩
  · rintro ⟨rel, hrel, hdir⟩
    by_cases hbefore : rel ∈ before.rels
    · exact Or.inl ⟨rel, hbefore, hdir⟩
    · exact Or.inr ⟨rel, ⟨hrel.resolve_left hbefore, hbefore⟩, hdir⟩

theorem existingDirectoryIds_purge (h : changes.Correct F before after) :
    existingDirectoryIds (purge (indexCodebase F before) changes) = dirsOf before.rels := by
  refine existingDirectoryIds_eq (congrArg PropertyGraph.nodes (purge_indexCodebase h))
    (fun n hn => ?_) fun dir hdir => before.isDir hdir
  rcases Multiset.mem_add.mp hn with hn | hn
  · obtain ⟨rel, -, hown⟩ := uneditedNodes_owned hn
    exact hown.near.1
  · obtain ⟨rel, -, rfl⟩ := Multiset.mem_map.mp hn
    exact nofun

theorem mem_changedRels {d : Discovered} (hd : d ∈ changes.changed) :
    d.rel ∈ changes.changedRels :=
  mem_map_of_mem hd

theorem changed_run (h : changes.Correct F before after) :
    changes.changed.foldl (reparseModifiedFile F after)
        (purge (indexCodebase F before) changes) =
      ⟨((changes.changedRels : Multiset Text).bind fun rel =>
          baseNodes F rel (after.content rel)) +
          (uneditedNodes F changes after + (dirsOf before.rels).val.map dirNode),
        (purge (indexCodebase F before) changes).edges +
          (changes.changedRels : Multiset Text).bind fun rel =>
            ownEdges F rel (after.content rel)⟩ := by
  have hrest : ∀ n ∈ uneditedNodes F changes after + (dirsOf before.rels).val.map dirNode,
      ∀ d ∈ changes.changed, ¬Near d.rel (key n) := by
    intro n hn d hd hnear
    rcases Multiset.mem_add.mp hn with hn | hn
    · obtain ⟨rel, hrel, hown⟩ := uneditedNodes_owned hn
      obtain ⟨hplain, hchanged, -⟩ := h.kept_cases hrel
      have heq := hown.near.unique hplain (h.plain_changed (mem_changedRels hd)) hnear
      exact hchanged (heq ▸ mem_changedRels hd)
    · obtain ⟨dir, -, rfl⟩ := Multiset.mem_map.mp hn
      exact hnear.1 rfl
  have hnodes : (purge (indexCodebase F before) changes).nodes =
      (changes.changed.map Discovered.rel : Multiset Text).map (staleNode F before) +
        (uneditedNodes F changes after + (dirsOf before.rels).val.map dirNode) := by
    rw [purge_indexCodebase h]
    show _ + Multiset.map (staleNode F before) _ + _ = _
    rw [ChangeSet.changedRels]
    ac_rfl
  exact reparseModifiedFile_run (fun rel => ⟨_, _, rfl⟩) changes.changed h.changed_nodup
    (fun d hd => h.plain_changed (mem_changedRels hd)) h.size hrest hnodes

def knownNodes (F : FrontEnd Content) (changes : ChangeSet) (after : SourceTree Content) :
    Multiset Node :=
  uneditedNodes F changes after + (changes.changedRels : Multiset Text).bind fun rel =>
    baseNodes F rel (after.content rel)

def knownEdges (F : FrontEnd Content) (changes : ChangeSet) (before after : SourceTree Content) :
    Multiset Edge :=
  uneditedEdges F changes after + ((changes.changedRels : Multiset Text).bind fun rel =>
    baseEdges F rel (after.content rel)) + uneditedLinks F changes before after

theorem changed_nodes (h : changes.Correct F before after) :
    (changes.changed.foldl (reparseModifiedFile F after)
        (purge (indexCodebase F before) changes)).nodes =
      knownNodes F changes after + (dirsOf before.rels).val.map dirNode := by
  rw [changed_run h, knownNodes]
  show Multiset.bind (changes.changedRels : Multiset Text) _ + (_ + _) = _
  ac_rfl

theorem changed_edges (h : changes.Correct F before after) :
    (changes.changed.foldl (reparseModifiedFile F after)
        (purge (indexCodebase F before) changes)).edges =
      knownEdges F changes before after +
        (dirsOf before.rels).val.bind fun dir => (dirEdges dir : Multiset Edge) := by
  have hsplit : ((changes.changedRels : Multiset Text).bind fun rel =>
        baseEdges F rel (after.content rel)) =
      ((changes.changedRels : Multiset Text).bind fun rel => (dirFileEdges rel : Multiset Edge)) +
        (changes.changedRels : Multiset Text).bind fun rel => ownEdges F rel (after.content rel) :=
    Multiset.bind_add _ _ _
  rw [changed_run h, purge_indexCodebase h, knownEdges, hsplit]
  show _ + _ + _ + _ + Multiset.bind (changes.changedRels : Multiset Text) _ = _
  ac_rfl

/-- The files of the graph before the new ones are read. -/
def knownFiles (changes : ChangeSet) (after : SourceTree Content) : Set Text :=
  {rel | rel ∈ changes.kept after ∨ rel ∈ changes.changedRels}

theorem knownFiles_plain (h : changes.Correct F before after) {rel : Text}
    (hrel : rel ∈ knownFiles changes after) : IsFileId rel := by
  rcases hrel with hrel | hrel
  · exact (h.kept_cases hrel).1
  · exact h.plain_changed hrel

theorem knownFiles_before (h : changes.Correct F before after) {rel : Text}
    (hrel : rel ∈ knownFiles changes after) : rel ∈ before.rels := by
  rcases hrel with hrel | hrel
  · exact h.kept_mem_before hrel
  · exact (h.changed rel hrel).1

theorem knownNodes_placed {dirs : Finset (List Text)} {n : Node}
    (hn : n ∈ knownNodes F changes after) : Placed (knownFiles changes after) dirs (key n) := by
  rcases Multiset.mem_add.mp hn with hn | hn
  · obtain ⟨rel, hrel, hown⟩ := uneditedNodes_owned hn
    exact Or.inr ⟨rel, Or.inl hrel, hown.near⟩
  · obtain ⟨rel, hrel, hn⟩ := Multiset.mem_bind.mp hn
    exact Or.inr ⟨rel, Or.inr hrel, (baseNodes_owned hn).near⟩

/-- The state in which the new files are read: the unedited and the changed files
are in the graph. -/
theorem holds_changed (h : changes.Correct F before after) :
    Holds (knownFiles changes after) (knownNodes F changes after)
      (knownEdges F changes before after)
      (resumed (changes.changed.foldl (reparseModifiedFile F after)
        (purge (indexCodebase F before) changes), dirsOf before.rels)) := by
  refine ⟨⟨fun rel => knownFiles_plain h, ?_, ?_, fun e he => absurd he (Multiset.notMem_zero e),
    fun k hk => absurd hk (Finset.notMem_empty k),
    fun k hk => absurd hk (Finset.notMem_empty k)⟩, ?_, ?_⟩
  · rw [settled_resumed, changed_nodes h]
    intro n hn
    rcases Multiset.mem_add.mp hn with hn | hn
    · exact knownNodes_placed hn
    · obtain ⟨dir, hdir, rfl⟩ := Multiset.mem_map.mp hn
      exact Or.inl ⟨dir, hdir, rfl⟩
  · rw [settled_resumed]
    intro dir hdir
    refine mem_keys.mpr ⟨dirNode dir, ?_, rfl⟩
    refine changed_nodes h ▸ ?_
    exact Multiset.mem_add.mpr (Or.inr (Multiset.mem_map_of_mem dirNode hdir))
  · rw [settled_resumed]
    exact changed_nodes h
  · rw [settled_resumed]
    exact changed_edges h

/-- After the files are read again the graph holds the parts of the current files
and the directories of both trees. -/
theorem reparse_eq (h : changes.Correct F before after) :
    reparse F after (purge (indexCodebase F before) changes) changes =
      ⟨reparsedNodes F changes after + (bothDirs before after).val.map dirNode,
        reparsedEdges F changes before after +
          (bothDirs before after).val.bind fun dir => (dirEdges dir : Multiset Edge)⟩ := by
  have hnew : ∀ d ∈ changes.added ++ changes.renamed.map Rename.newFile,
      d.rel ∈ after.rels ∧ d.rel ∉ before.rels := by
    intro d hd
    rw [← h.fresh, ← freshRels_eq]
    exact mem_map_of_mem hd
  have hnodup : ((changes.added ++ changes.renamed.map Rename.newFile).map
      Discovered.rel).Nodup := by
    have hall := h.nodup
    rw [ChangeSet.reparsedSet, append_assoc] at hall
    rw [freshRels_eq]
    exact (nodup_append.mp hall).2.1
  have hfresh : ∀ d ∈ changes.added ++ changes.renamed.map Rename.newFile, IsFileId d.rel ∧
      d.rel ∉ knownFiles changes after := by
    intro d hd
    exact ⟨after.plain d.rel (hnew d hd).1, fun hknown => (hnew d hd).2 (knownFiles_before h hknown)⟩
  obtain ⟨hholds, hdirs⟩ := reparseNewFile_run F after _ (holds_changed h) hnodup hfresh
  rw [bothDirs_eq h] at hdirs
  have hnodes := hholds.nodes_eq
  have hedges := hholds.edges_eq
  rw [settled_resumed, resumed, hdirs] at hnodes hedges
  rw [reparse, ← foldl_append, existingDirectoryIds_purge h, reparsedNodes, reparsedEdges,
    reparsed_bind, reparsed_bind]
  ext1
  · rw [hnodes, knownNodes]
    show _ + _ + Multiset.bind _ _ + _ = _ + (_ + Multiset.bind _ _) + _
    ac_rfl
  · rw [hedges, knownEdges]
    show _ + _ + _ + Multiset.bind _ _ + _ = _ + (_ + Multiset.bind _ _) + _ + _
    ac_rfl

end Reparse

end CodeGraph
