import CodeGraph.IncrementalDirs

/-!
# The links of an incremental index

Behind the files read again the two passes draw the links out of those files as
a full index draws them, and the saved edges into changed files come back. A
link out of an unedited file is none of these passes' business: it stays as the
earlier tree resolved it, if both its ends are left.
-/

namespace CodeGraph

open Multiset List PropertyGraph Keyed

variable {Content : Type} {F : FrontEnd Content} {changes : ChangeSet}
  {before after : SourceTree Content}

/-! ## Files read again -/

theorem fileNode_mem_fileNodes (rel : Text) (content : Content) :
    ((.file, rel) : Key) ∈ (fileNodes F rel content).map key :=
  mem_map_of_mem key (mem_add.mpr (Or.inl (mem_cons_self _ _)))

theorem file_mem_reparsed (h : changes.Correct F before after) {rel : Text} (hrel : rel ∈ after.rels)
    (ns : Multiset Node) : ((.file, rel) : Key) ∈ (reparsedNodes F changes after + ns).map key := by
  have hmem : rel ∈ (changes.kept after).val + (changes.reparsedSet : Multiset Text) := by
    rw [← h.after_val]
    exact hrel
  rw [reparsedNodes, uneditedNodes, map_add, map_add, map_bind,
    map_bind]
  refine mem_add.mpr (Or.inl (mem_add.mpr ?_))
  rcases mem_add.mp hmem with hkept | hread
  · exact Or.inl (mem_bind.mpr ⟨rel, hkept, fileNode_mem_fileNodes rel _⟩)
  · refine Or.inr (mem_bind.mpr ⟨rel, hread, ?_⟩)
    exact mem_map_of_mem key (mem_cons_self _ _)

/-- The files the passes run over, in the order of the tree. -/
def linkSources (changes : ChangeSet) (after : SourceTree Content) : List Text :=
  (after.rels.sort (· ≤ ·)).filter (· ∈ changes.reparsedSet)

theorem linkSources_nodup : (linkSources changes after).Nodup :=
  (after.rels.sort_nodup (· ≤ ·)).filter _

theorem linkSources_mem {rel : Text} (hrel : rel ∈ linkSources changes after) : rel ∈ after.rels :=
  (Finset.mem_sort _).mp (mem_filter.mp hrel).1

theorem linkSources_coe (h : changes.Correct F before after) :
    (linkSources changes after : Multiset Text) = (changes.reparsedSet : Multiset Text) := by
  refine (Multiset.Nodup.ext (coe_nodup.mpr linkSources_nodup)
    (coe_nodup.mpr h.nodup)).mpr fun rel => ?_
  rw [mem_coe, mem_coe, linkSources, mem_filter, Finset.mem_sort,
    decide_eq_true_eq]
  exact and_iff_right_of_imp h.reparsed_mem

theorem reparsed_treeNodes (h : changes.Correct F before after) :
    reparsedNodes F changes after + (dirsOf after.rels).val.map dirNode +
        ((changes.reparsedSet : Multiset Text).bind fun rel =>
          (Iac.factNodes F rel (after.content rel) : Multiset Node)) = treeNodes F after := by
  have hread : ((changes.reparsedSet : Multiset Text).bind fun rel =>
      fileNodes F rel (after.content rel)) = _ := bind_add _ _ _
  rw [treeNodes, h.after_val, add_bind, hread, reparsedNodes, uneditedNodes]
  ac_rfl

theorem reparsed_treeEdges (h : changes.Correct F before after) :
    reparsedEdges F changes before after +
        ((dirsOf after.rels).val.bind fun dir => (dirEdges dir : Multiset Edge)) +
        ((changes.reparsedSet : Multiset Text).bind fun rel =>
          (Iac.factEdges F rel (after.content rel) : Multiset Edge)) =
      treeEdges F after + uneditedLinks F changes before after := by
  have hread : ((changes.reparsedSet : Multiset Text).bind fun rel =>
      fileEdges F rel (after.content rel)) = _ := bind_add _ _ _
  rw [treeEdges, h.after_val, add_bind, hread, reparsedEdges, uneditedEdges]
  ac_rfl

/-- The graph once the links out of the files read again are drawn. -/
def linkedGraph (F : FrontEnd Content) (changes : ChangeSet) (before after : SourceTree Content) :
    Graph :=
  ⟨treeNodes F after, treeEdges F after + uneditedLinks F changes before after +
    (changes.reparsedSet : Multiset Text).bind (linksOut F after)⟩

theorem file_mem_pruned (h : changes.Correct F before after) (es : Multiset Edge) {rel : Text}
    (hrel : rel ∈ after.rels) :
    ((.file, rel) : Key) ∈ (⟨(prunedGraph F changes before after).nodes, es⟩ : Graph).keys :=
  file_mem_reparsed h hrel _

theorem passes_eq (h : changes.Correct F before after) :
    Iac.runIacPassFor F (LightLink.linkFileImportsFor F (prunedGraph F changes before after) after
      (linkSources changes after)) after (linkSources changes after) =
        linkedGraph F changes before after := by
  rw [LightLink.linkFileImportsFor_eq linkSources_nodup (fun _ => linkSources_mem)
      fun _ => file_mem_pruned h _,
    Iac.runIacPassFor_eq linkSources_nodup (fun _ => linkSources_mem) fun _ => file_mem_pruned h _,
    linkSources_coe h]
  have hlinks : (changes.reparsedSet : Multiset Text).bind (linksOut F after) = _ :=
    bind_add _ _ _
  dsimp only [prunedGraph]
  rw [reparsed_treeNodes h, linkedGraph, hlinks, ← reparsed_treeEdges h]
  ext1
  · rfl
  · show _ + _ + _ + _ + _ = _ + _ + _ + (_ + _)
    rw [treeIndexes, treeKeys]
    ac_rfl

/-- Without a file read again there is nothing to draw. -/
theorem passes_nil (h : changes.Correct F before after) :
    Iac.runIacPassFor F (LightLink.linkFileImportsFor F (prunedGraph F changes before after) after
      []) after [] = prunedGraph F changes before after := by
  rw [LightLink.linkFileImportsFor_eq nodup_nil (fun _ => nofun) fun _ => file_mem_pruned h _,
    Iac.runIacPassFor_eq nodup_nil (fun _ => nofun) fun _ => file_mem_pruned h _]
  ext1
  · exact add_zero (prunedGraph F changes before after).nodes
  · show (prunedGraph F changes before after).edges + 0 + 0 + 0 = _
    rw [add_zero, add_zero, add_zero]

theorem passes_ite (h : changes.Correct F before after) :
    (let g := prunedGraph F changes before after
      let sources := linkSources changes after
      let g := if sources ≠ [] then LightLink.linkFileImportsFor F g after sources else g
      if sources ≠ [] then Iac.runIacPassFor F g after sources else g) =
        linkedGraph F changes before after := by
  rw [← passes_eq h]
  by_cases hsources : linkSources changes after = []
  · dsimp only
    rw [hsources, passes_nil h]
    rfl
  · dsimp only
    rw [if_pos hsources, if_pos hsources]

theorem closed_linkedGraph (h : changes.Correct F before after) :
    (linkedGraph F changes before after).Closed := by
  rw [← passes_eq h]
  exact closed_runIacPassFor _ _ (closed_linkFileImportsFor _ _ (closed_prunedGraph h))

/-! ## Saved edges -/

theorem IsFileId.owningFile {rel : Text} (hrel : IsFileId rel) {k : Key} (hk : Owned rel k) :
    owningFile k.2 = rel := by
  have hself : CodeGraph.owningFile rel = rel := by
    have hnone : breakOn "::".toList rel = none := breakOn_eq_none fun hin =>
      hrel.unscoped (hin.trans (prefix_append rel [':']).isInfix)
    rw [CodeGraph.owningFile, hnone]
  cases hk with
  | file => exact hself
  | content => exact hself
  | named name h => rw [CodeGraph.owningFile, breakOn_scope hrel.unscoped]

/-- The edges the snapshot saves. -/
def Saved (changes : ChangeSet) (e : Edge) : Prop :=
  isResolutionKind e.kind ∧ e.dst.1 ≠ .file ∧ e.dst.1 ≠ .directory ∧
    (changes.changedRels.any (inScope · e.dst)) ∧ owningFile e.src.2 ∉ changes.reparsedSet

instance (changes : ChangeSet) (e : Edge) : Decidable (Saved changes e) :=
  inferInstanceAs (Decidable (_ ∧ _))

theorem snapshotInboundEdges_eq (g : Graph) :
    snapshotInboundEdges g changes = g.edges.filter (Saved changes) := rfl

section Saved

variable {rel : Text} {e : Edge}

theorem any_inScope_iff (h : changes.Correct F before after) {u : Text} (hu : IsFileId u) {k : Key}
    (hk : Owned u k) : (changes.changedRels.any (inScope · k)) ↔
      u ∈ changes.changedRels ∧ k.1.isScoped := by
  rw [any_eq_true]
  constructor
  · rintro ⟨rel, hrel, hscope⟩
    obtain ⟨rfl, hlabel⟩ := (inScope_iff (h.plain_changed hrel) hu hk).mp hscope
    exact ⟨hrel, hlabel⟩
  · rintro ⟨hmem, hlabel⟩
    exact ⟨u, hmem, (inScope_iff hu hu hk).mpr ⟨rfl, hlabel⟩⟩

theorem not_saved_of_inner (h : changes.Correct F before after) (hrel : IsFileId rel)
    (he : Inner rel e) : ¬Saved changes e := by
  rintro ⟨-, -, -, hscope, howner⟩
  rw [hrel.owningFile he.src] at howner
  exact howner (ChangeSet.mem_reparsedSet.mpr (Or.inl ((any_inScope_iff h hrel he.dst).mp hscope).1))

theorem not_saved_of_containment (he : e ∈ dirFileEdges rel) : ¬Saved changes e := by
  rintro ⟨-, hfile, -⟩
  rw [(mem_dirFileEdges he).2.2] at hfile
  exact hfile rfl

theorem not_saved_of_dirEdges {dir : List Text} (he : e ∈ dirEdges dir) : ¬Saved changes e := by
  rintro ⟨-, -, hdir, -⟩
  rw [(mem_dirEdges he).2.2.2] at hdir
  exact hdir rfl

theorem treeEdges_saved (h : changes.Correct F before after) :
    (treeEdges F before).filter (Saved changes) = 0 := by
  refine filter_eq_nil.mpr ?_
  intro e he
  rcases mem_add.mp he with he | he
  · obtain ⟨rel, hrel, he⟩ := mem_bind.mp he
    rw [fileEdges_eq] at he
    rcases mem_add.mp he with he | he
    · exact not_saved_of_containment he
    · exact not_saved_of_inner h (before.plain rel hrel) (innerEdges_inner he)
  · obtain ⟨dir, -, he⟩ := mem_bind.mp he
    exact not_saved_of_dirEdges he

theorem saved_outward (h : changes.Correct F before after) (hrel : rel ∈ before.rels) {u : Text}
    (he : Outward F before rel e) (hu : u ∈ before.rels) (hdst : Owned u e.dst) :
    Saved changes e ↔
      e.dst.1 ≠ .file ∧ u ∈ changes.changedRels ∧ rel ∉ changes.reparsedSet := by
  have hlabel : e.dst.1 ≠ .file → e.dst.1.isScoped := by
    intro hfile
    rw [he.label.resolve_left hfile]
    rfl
  rw [Saved, any_inScope_iff h (before.plain u hu) hdst, (before.plain rel hrel).owningFile he.src]
  have hkind := he.kind
  have hdir := hdst.near.1
  tauto

end Saved

/-! ## Saved edges come back unchanged -/

/-- An edge with a provenance whose confidence is not blank. -/
def Stated (e : Edge) : Prop :=
  ∃ confidence method, e.props = .provenance confidence method ∧
    ¬confidence.all Char.isWhitespace

theorem Stated.relinked {e : Edge} (h : Stated e) : relinked e = e := by
  obtain ⟨confidence, method, hprops, hblank⟩ := h
  obtain ⟨kind, src, dst, props⟩ := e
  dsimp only at hprops
  subst hprops
  show Edge.mk kind src dst (.provenance (if _ then _ else confidence) method) = _
  rw [if_neg hblank]

theorem references_stated {idx : Iac.ResolutionIndexes} {rel : Text} {facts : Iac.IacFacts}
    {e : Edge} (h : e ∈ Iac.references idx rel facts) : Stated e := by
  cases facts with
  | dockerfile info =>
      obtain ⟨src, -, hsrc⟩ := mem_filterMap.mp h
      obtain ⟨target, -, rfl⟩ := Option.map_eq_some_iff.mp hsrc
      exact ⟨"0.9".toList, _, rfl, by decide⟩
  | manifest docs =>
      obtain ⟨staged, hdoc, h⟩ := mem_flatten.mp h
      obtain ⟨docIdx, hdocIdx, rfl⟩ := mem_mapIdx.mp hdoc
      rcases mem_append.mp h with h | h
      · obtain ⟨image, -, himage⟩ := mem_filterMap.mp h
        obtain ⟨target, -, rfl⟩ := Option.map_eq_some_iff.mp himage
        exact ⟨"0.6".toList, _, rfl, by decide⟩
      · obtain ⟨cref, -, hcref⟩ := mem_filterMap.mp h
        obtain ⟨target, -, rfl⟩ := Option.map_eq_some_iff.mp hcref
        exact ⟨"0.7".toList, _, rfl, by decide⟩
  | kustomization kust =>
      obtain ⟨spec, -, hspec⟩ := mem_filterMap.mp h
      obtain ⟨target, -, rfl⟩ := Option.map_eq_some_iff.mp hspec
      split
      · exact ⟨"0.95".toList, _, rfl, by decide⟩
      · exact ⟨"0.95".toList, _, rfl, by decide⟩

theorem links_stated {fileIds : Finset Text} {rel : Text} {content : Content} {e : Edge}
    (h : e ∈ LightLink.links F fileIds rel content) : Stated e := by
  have hcandidate := Unmet.unmet_subset _ _ h
  rw [LightLink.candidates] at hcandidate
  split at hcandidate
  · cases hcandidate
  · obtain ⟨spec, -, hspec⟩ := mem_filterMap.mp hcandidate
    obtain ⟨target, -, rfl⟩ := Option.map_eq_some_iff.mp hspec
    exact ⟨"1.0".toList, _, rfl, by decide⟩

theorem linksOut_stated {tree : SourceTree Content} {rel : Text} {e : Edge}
    (h : e ∈ linksOut F tree rel) : Stated e := by
  rcases mem_add.mp h with h | h
  · exact links_stated h
  · obtain ⟨facts, -, href⟩ := Iac.mem_parsed.mp (Multiset.mem_filter.mp h).1
    exact references_stated (Unmet.unmet_subset _ _ href)

/-- What is saved of the earlier graph comes back as it was. -/
theorem snapshot_relinked (h : changes.Correct F before after) :
    (snapshotInboundEdges (indexCodebase F before) changes).map relinked =
      before.rels.val.bind fun rel => (linksOut F before rel).filter (Saved changes) := by
  have hsaved : snapshotInboundEdges (indexCodebase F before) changes =
      before.rels.val.bind fun rel => (linksOut F before rel).filter (Saved changes) := by
    rw [snapshotInboundEdges_eq, indexCodebase_eq]
    show (treeEdges F before + before.rels.val.bind (linksOut F before)).filter (Saved changes) = _
    rw [filter_add, treeEdges_saved h, zero_add, filter_bind]
  rw [hsaved]
  refine (map_congr rfl fun e he => ?_).trans (map_id _)
  obtain ⟨rel, -, he⟩ := Multiset.mem_bind.mp he
  exact (linksOut_stated (Multiset.mem_filter.mp he).1).relinked

end CodeGraph
