import CodeGraph.IncrementalReparse
import CodeGraph.IndexNoDangling

/-!
# Directories left empty

A directory of the earlier tree that no current file lies in has nothing but such
directories below it. The pruning removes them from the deepest up, and a path
has no more components than the pruning has rounds.
-/

namespace CodeGraph

open List PropertyGraph Keyed Linked

variable {Content : Type} {F : FrontEnd Content} {changes : ChangeSet}
  {before after : SourceTree Content}

/-! ## Edges out of directories -/

theorem dirFileEdges_eq {rel : Text} (hrel : IsFileId rel)
    (hne : (splitOnChar '/' rel).dropLast ≠ []) :
    dirFileEdges rel =
      [⟨.contains, (.directory, dirId (splitOnChar '/' rel).dropLast), (.file, rel), .none⟩] := by
  refine if_neg ?_
  intro hnil
  obtain ⟨segment, rest, hdir⟩ := exists_cons_of_ne_nil hne
  have hsegment : segment ∈ splitOnChar '/' rel := by
    refine ( dropLast_prefix _).subset ?_
    rw [hdir]
    exact mem_cons_self
  have hpre : segment <+: LightLink.parent rel := by
    rw [LightLink.parent, hdir]
    cases rest with
    | nil => exact prefix_rfl
    | cons next rest =>
        rw [joinWith_cons (cons_ne_nil next rest), append_assoc]
        exact prefix_append _ _
  exact (hrel.segments segment hsegment).2.1 (prefix_nil.mp (hnil ▸ hpre))

variable {dir : List Text}

theorem IsDir.dropLast_length (h : IsDir dir) : dir.dropLast.length < dir.length := by
  have := length_pos_of_ne_nil h.ne_nil
  rw [length_dropLast]
  omega

theorem reparsedNodes_owned {n : Node} (h : changes.Correct F before after)
    (hn : n ∈ reparsedNodes F changes after) : ∃ rel ∈ after.rels, Owned rel (key n) := by
  rcases Multiset.mem_add.mp hn with hn | hn
  · obtain ⟨rel, hrel, hown⟩ := uneditedNodes_owned hn
    exact ⟨rel, (ChangeSet.mem_kept.mp hrel).1, hown⟩
  · obtain ⟨rel, hrel, hn⟩ := Multiset.mem_bind.mp hn
    exact ⟨rel, h.reparsed_mem hrel, baseNodes_owned hn⟩

variable {e : Edge}

theorem reparsedEdges_cases (h : changes.Correct F before after)
    (he : e ∈ reparsedEdges F changes before after) : e.dst.1 ≠ .directory ∧
      (e.src.1 ≠ .directory ∨ ∃ rel ∈ after.rels, e ∈ dirFileEdges rel) := by
  have hfile : ∀ {rel}, rel ∈ after.rels → e ∈ dirFileEdges rel → e.dst.1 ≠ .directory ∧
      (e.src.1 ≠ .directory ∨ ∃ rel ∈ after.rels, e ∈ dirFileEdges rel) := by
    intro rel hrel he
    obtain ⟨-, -, hdst⟩ := mem_dirFileEdges he
    rw [hdst]
    exact ⟨nofun, Or.inr ⟨rel, hrel, he⟩⟩
  rcases Multiset.mem_add.mp he with he | he
  rcases Multiset.mem_add.mp he with he | he
  · obtain ⟨rel, hrel, he⟩ := Multiset.mem_bind.mp he
    rw [fileEdges_eq] at he
    rcases Multiset.mem_add.mp he with he | he
    · exact hfile (ChangeSet.mem_kept.mp hrel).1 he
    · have hinner := innerEdges_inner he
      exact ⟨hinner.dst.near.1, Or.inl hinner.src.near.1⟩
  · obtain ⟨rel, hrel, he⟩ := Multiset.mem_bind.mp he
    rcases Multiset.mem_add.mp he with he | he
    · exact hfile (h.reparsed_mem hrel) he
    · have hinner := ownEdges_inner he
      exact ⟨hinner.dst.near.1, Or.inl hinner.src.near.1⟩
  · obtain ⟨rel, hrel, he⟩ := Multiset.mem_bind.mp he
    have hout := linksOut_outward (h.kept_mem_before hrel) (Multiset.mem_filter.mp he).1
    obtain ⟨u, -, hown⟩ := hout.dst
    exact ⟨hown.near.1, Or.inl hout.src.near.1⟩

theorem dirFileEdges_mem (h : changes.Correct F before after) {rel : Text} (hrel : rel ∈ after.rels) (he : e ∈ dirFileEdges rel) : e ∈ reparsedEdges F changes before after := by
  refine Multiset.mem_add.mpr (Or.inl (Multiset.mem_add.mpr ?_))
  have hmem : rel ∈ (changes.kept after).val + (changes.reparsedSet : Multiset Text) := by
    rw [← h.after_val]
    exact hrel
  rcases Multiset.mem_add.mp hmem with hkept | hread
  · refine Or.inl (Multiset.mem_bind.mpr ⟨rel, hkept, ?_⟩)
    rw [fileEdges_eq]
    exact Multiset.mem_add.mpr (Or.inl he)
  · exact Or.inr (Multiset.mem_bind.mpr ⟨rel, hread, Multiset.mem_add.mpr (Or.inl he)⟩)

/-! ## The directories of both trees -/

theorem bothDirs_isDir (h : dir ∈ bothDirs before after) : IsDir dir := by
  obtain ⟨rel, hrel, hdir⟩ := mem_dirsOf.mp h
  rcases Finset.mem_union.mp hrel with hrel | hrel
  · exact (before.plain rel hrel).isDir hdir
  · exact (after.plain rel hrel).isDir hdir

theorem bothDirs_shallow (h : dir ∈ bothDirs before after) : dir.length ≤ maxDepth := by
  obtain ⟨rel, hrel, hdir⟩ := mem_dirsOf.mp h
  have hshallow : (splitOnChar '/' rel).dropLast.length ≤ maxDepth := by
    rcases Finset.mem_union.mp hrel with hrel | hrel
    · exact before.shallow rel hrel
    · exact after.shallow rel hrel
  exact (mem_ancestors.mp hdir).2.length_le.trans hshallow

theorem dirsOf_subset_bothDirs : dirsOf after.rels ⊆ bothDirs before after := by
  intro dir hdir
  obtain ⟨rel, hrel, hdir⟩ := mem_dirsOf.mp hdir
  exact mem_dirsOf.mpr ⟨rel, Finset.mem_union_right _ hrel, hdir⟩

theorem bothDirs_of_none_gone (h : changes.Correct F before after) (hgone : changes.goneRels = []) :
    bothDirs before after = dirsOf after.rels := by
  have hsub : before.rels ⊆ after.rels := by
    intro rel hrel
    by_contra hafter
    have hmem := (h.gone rel).mpr ⟨hrel, hafter⟩
    rw [hgone] at hmem
    cases hmem
  rw [bothDirs, Finset.union_eq_right.mpr hsub]

/-! ## The pruning -/

/-- A directory the current tree still has. -/
def neededDir (after : SourceTree Content) (k : Key) : Bool :=
  decide (splitOnChar '/' k.2 ∈ dirsOf after.rels)

theorem neededDir_iff (hdir : IsDir dir) :
    neededDir after (.directory, dirId dir) ↔ dir ∈ dirsOf after.rels := by
  show decide (splitOnChar '/' (dirId dir) ∈ dirsOf after.rels) = true ↔ _
  rw [decide_eq_true_eq, hdir.split]

/-- What a needed directory contains: the file it is needed for or the next
directory down to it. -/
theorem dir_supported (h : dir ∈ dirsOf after.rels) :
    (∃ rel ∈ after.rels, ∃ e ∈ dirFileEdges rel, e.src = (.directory, dirId dir)) ∨
      ∃ child ∈ dirsOf after.rels, ∃ e ∈ dirEdges child, e.src = (.directory, dirId dir) := by
  obtain ⟨rel, hrel, hdir⟩ := mem_dirsOf.mp h
  obtain ⟨hne, rest, hrest⟩ := mem_ancestors.mp hdir
  cases rest with
  | nil =>
      obtain rfl : dir = (splitOnChar '/' rel).dropLast := by rwa [append_nil] at hrest
      refine Or.inl ⟨rel, hrel, ⟨.contains, (.directory, dirId (splitOnChar '/' rel).dropLast),
        (.file, rel), .none⟩, ?_, rfl⟩
      rw [dirFileEdges_eq (after.plain rel hrel) hne]
      exact mem_singleton_self _
  | cons component rest =>
      refine Or.inr ⟨dir ++ [component], mem_dirsOf.mpr ⟨rel, hrel, mem_ancestors.mpr ⟨by simp, ?_⟩⟩,
        ⟨.contains, (.directory, dirId dir), (.directory, dirId (dir ++ [component])), .none⟩, ?_, rfl⟩
      · rw [← hrest, prefix_append_right_inj]
        exact prefix_append [component] rest
      · rw [dirEdges, dropLast_concat, if_neg hne]
        exact mem_singleton_self _

def reparsedGraph (F : FrontEnd Content) (changes : ChangeSet) (before after : SourceTree Content) :
    Graph :=
  ⟨reparsedNodes F changes after + (bothDirs before after).val.map dirNode,
    reparsedEdges F changes before after +
      (bothDirs before after).val.bind fun dir => (dirEdges dir : Multiset Edge)⟩

theorem closed_reparsedGraph (h : changes.Correct F before after) :
    (reparsedGraph F changes before after).Closed := by
  have hclosed := closed_reparse (F := F) after changes
    (closed_purge changes (closed_indexCodebase (F := F) before))
  rwa [reparse_eq h] at hclosed

theorem reparsedGraph_dir (h : changes.Correct F before after) {k : Key}
    (hk : k ∈ (reparsedGraph F changes before after).keys) (hdir : k.1 = .directory) :
    ∃ dir ∈ bothDirs before after, k = (.directory, dirId dir) := by
  obtain ⟨n, hn, rfl⟩ := mem_keys.mp hk
  rcases Multiset.mem_add.mp hn with hn | hn
  · obtain ⟨rel, -, hown⟩ := reparsedNodes_owned h hn
    exact absurd hdir hown.near.1
  · obtain ⟨dir, hmem, rfl⟩ := Multiset.mem_map.mp hn
    exact ⟨dir, hmem, rfl⟩

theorem prunable_reparsedGraph (h : changes.Correct F before after) :
    Prunable (fun k : Key => decide (k.1 = .directory)) (neededDir after)
      (fun k => (splitOnChar '/' k.2).length) (reparsedGraph F changes before after) := by
  refine ⟨fun k hk hp hneeded => ?_, fun e he hp hneeded => ?_⟩
  · obtain ⟨dir, hdir, rfl⟩ := reparsedGraph_dir h hk (of_decide_eq_true hp)
    have hmem := (neededDir_iff (bothDirs_isDir hdir)).mp hneeded
    rcases dir_supported hmem with ⟨rel, hrel, e, he, hsrc⟩ | ⟨child, hchild, e, he, hsrc⟩
    · refine ⟨e, Multiset.mem_add.mpr (Or.inl (dirFileEdges_mem h hrel he)), hsrc, fun hdst => ?_⟩
      rw [linked_dst, (mem_dirFileEdges he).2.2] at hdst
      cases hdst
    · have hboth : child ∈ bothDirs before after := dirsOf_subset_bothDirs hchild
      refine ⟨e, Multiset.mem_add.mpr (Or.inr (Multiset.mem_bind.mpr ⟨child, hboth, he⟩)), hsrc,
        fun _ => ?_⟩
      rw [linked_dst, (mem_dirEdges he).2.2.2]
      exact (neededDir_iff (bothDirs_isDir hboth)).mpr hchild
  · rcases Multiset.mem_add.mp he with he | he
    · rcases (reparsedEdges_cases h he).2 with hsrc | ⟨rel, hrel, he⟩
      · exact absurd (of_decide_eq_true hp) hsrc
      · obtain ⟨-, ⟨dir, hdir, hsrc⟩, -⟩ := mem_dirFileEdges he
        refine absurd ?_ hneeded
        rw [linked_src, hsrc]
        exact (neededDir_iff ((after.plain rel hrel).isDir hdir)).mpr (mem_dirsOf.mpr ⟨rel, hrel, hdir⟩)
    · obtain ⟨dir, hdir, he⟩ := Multiset.mem_bind.mp he
      obtain ⟨-, hne, hsrc, hdst⟩ := mem_dirEdges he
      have hparent : IsDir dir.dropLast := bothDirs_isDir (dropLast_mem_dirsOf hdir hne)
      have hisDir := bothDirs_isDir hdir
      rw [linked_src, hsrc, neededDir_iff hparent] at hneeded
      rw [linked_src, linked_dst, hsrc, hdst, neededDir_iff hisDir]
      refine ⟨rfl, fun hmem => hneeded (dropLast_mem_dirsOf hmem hne), ?_⟩
      show (splitOnChar '/' (dirId dir.dropLast)).length < (splitOnChar '/' (dirId dir)).length
      rw [hparent.split, hisDir.split]
      exact hisDir.dropLast_length

/-- A directory no current file lies in. -/
def orphanDir (after : SourceTree Content) (k : Key) : Bool :=
  decide (k.1 = .directory) && !neededDir after k

theorem not_orphanDir {k : Key} (hk : k.1 ≠ .directory) : ¬orphanDir after k := by
  rw [orphanDir, Bool.and_eq_true, decide_eq_true_eq]
  intro h
  exact hk h.1

theorem orphanDir_iff (hdir : IsDir dir) :
    orphanDir after (.directory, dirId dir) ↔ dir ∉ dirsOf after.rels := by
  rw [orphanDir, Bool.and_eq_true, Bool.not_eq_true', ← Bool.not_eq_true, neededDir_iff hdir]
  exact and_iff_right rfl

theorem bothDirs_filter : (bothDirs before after).val.filter (· ∈ dirsOf after.rels) =
    (dirsOf after.rels).val := by
  have hinter : (bothDirs before after).filter (· ∈ dirsOf after.rels) = dirsOf after.rels := by
    rw [Finset.filter_mem_eq_inter]
    exact Finset.inter_eq_right.mpr dirsOf_subset_bothDirs
  exact congrArg Finset.val hinter

theorem reparsedNodes_filter (h : changes.Correct F before after) :
    (reparsedNodes F changes after).filter (fun n => ¬orphanDir after (key n)) =
      reparsedNodes F changes after := by
  refine Multiset.filter_eq_self.mpr ?_
  intro n hn
  obtain ⟨rel, -, hown⟩ := reparsedNodes_owned h hn
  exact not_orphanDir hown.near.1

theorem dirNodes_filter :
    ((bothDirs before after).val.map dirNode).filter (fun n => ¬orphanDir after (key n)) =
      (dirsOf after.rels).val.map dirNode := by
  have hdirs : (bothDirs before after).val.filter (fun dir => ¬orphanDir after (key (dirNode dir))) =
      (bothDirs before after).val.filter (· ∈ dirsOf after.rels) := by
    refine Multiset.filter_congr ?_
    intro dir hdir
    show ¬orphanDir after (.directory, dirId dir) ↔ _
    rw [orphanDir_iff (bothDirs_isDir hdir), not_not]
  rw [Multiset.filter_map]
  exact congrArg (Multiset.map dirNode) (hdirs.trans bothDirs_filter)

/-- No end of the edge goes with the orphans. -/
def Unorphaned (after : SourceTree Content) (e : Edge) : Prop :=
  ¬(orphanDir after e.src ∨ orphanDir after e.dst ∨ false = true)

instance (after : SourceTree Content) (e : Edge) : Decidable (Unorphaned after e) :=
  inferInstanceAs (Decidable ¬_)

theorem unorphaned_iff : Unorphaned after e ↔ ¬orphanDir after e.src ∧ ¬orphanDir after e.dst := by
  rw [Unorphaned, not_or, not_or, and_iff_left Bool.false_ne_true]

theorem reparsedEdges_filter (h : changes.Correct F before after) :
    (reparsedEdges F changes before after).filter (Unorphaned after) =
      reparsedEdges F changes before after := by
  refine Multiset.filter_eq_self.mpr ?_
  intro e he
  obtain ⟨hdst, hsrc⟩ := reparsedEdges_cases h he
  refine unorphaned_iff.mpr ⟨?_, not_orphanDir hdst⟩
  rcases hsrc with hsrc | ⟨rel, hrel, he⟩
  · exact not_orphanDir hsrc
  · obtain ⟨-, ⟨dir, hdir, hsrc⟩, -⟩ := mem_dirFileEdges he
    rw [hsrc, orphanDir_iff ((after.plain rel hrel).isDir hdir), not_not]
    exact mem_dirsOf.mpr ⟨rel, hrel, hdir⟩

theorem dirEdges_needed (hmem : dir ∈ dirsOf after.rels) :
    (dirEdges dir : Multiset Edge).filter (Unorphaned after) = (dirEdges dir : Multiset Edge) := by
  refine Multiset.filter_eq_self.mpr ?_
  intro e he
  obtain ⟨-, hne, hsrc, hdst⟩ := mem_dirEdges he
  have hparent := dropLast_mem_dirsOf hmem hne
  rw [unorphaned_iff, hsrc, hdst, orphanDir_iff (after.isDir hparent),
    orphanDir_iff (after.isDir hmem)]
  exact ⟨not_not.mpr hparent, not_not.mpr hmem⟩

theorem dirEdges_orphaned (hdir : IsDir dir) (hmem : dir ∉ dirsOf after.rels) :
    (dirEdges dir : Multiset Edge).filter (Unorphaned after) = 0 := by
  refine Multiset.filter_eq_nil.mpr ?_
  intro e he hkept
  refine (unorphaned_iff.mp hkept).2 ?_
  rw [(mem_dirEdges he).2.2.2]
  exact (orphanDir_iff hdir).mpr hmem

theorem dirEdges_filter :
    ((bothDirs before after).val.bind fun dir => (dirEdges dir : Multiset Edge)).filter
        (Unorphaned after) =
      (dirsOf after.rels).val.bind fun dir => (dirEdges dir : Multiset Edge) := by
  have hneeded : ∀ dir ∈ (bothDirs before after).val.filter (· ∈ dirsOf after.rels),
      (dirEdges dir : Multiset Edge).filter (Unorphaned after) = (dirEdges dir : Multiset Edge) := by
    intro dir hdir
    exact dirEdges_needed (Multiset.mem_filter.mp hdir).2
  have horphan : ∀ dir ∈ (bothDirs before after).val.filter (· ∉ dirsOf after.rels),
      (dirEdges dir : Multiset Edge).filter (Unorphaned after) = 0 := by
    intro dir hdir
    obtain ⟨hboth, hmem⟩ := Multiset.mem_filter.mp hdir
    exact dirEdges_orphaned (bothDirs_isDir hboth) hmem
  rw [Multiset.filter_bind,
    ← Multiset.filter_add_not (· ∈ dirsOf after.rels) (bothDirs before after).val,
    Multiset.add_bind, Multiset.bind_congr hneeded, Multiset.bind_congr horphan,
    Multiset.bind_zero, add_zero, bothDirs_filter]

def prunedGraph (F : FrontEnd Content) (changes : ChangeSet) (before after : SourceTree Content) :
    Graph :=
  ⟨reparsedNodes F changes after + (dirsOf after.rels).val.map dirNode,
    reparsedEdges F changes before after +
      (dirsOf after.rels).val.bind fun dir => (dirEdges dir : Multiset Edge)⟩

theorem detachDelete_reparsedGraph (h : changes.Correct F before after) :
    (reparsedGraph F changes before after).detachDelete (orphanDir after) =
      prunedGraph F changes before after := by
  ext1
  · show (reparsedNodes F changes after + (bothDirs before after).val.map dirNode).filter
      (fun n => ¬orphanDir after (key n)) = _
    rw [Multiset.filter_add, reparsedNodes_filter h, dirNodes_filter]
    rfl
  · show (reparsedEdges F changes before after + (bothDirs before after).val.bind fun dir =>
      (dirEdges dir : Multiset Edge)).filter (Unorphaned after) = _
    rw [Multiset.filter_add, reparsedEdges_filter h, dirEdges_filter]
    rfl

theorem closed_prunedGraph (h : changes.Correct F before after) :
    (prunedGraph F changes before after).Closed := by
  rw [← detachDelete_reparsedGraph h]
  exact (closed_reparsedGraph h).detachDelete _

theorem prune_reparsedGraph (h : changes.Correct F before after) :
    pruneOrphanDirectories (reparsedGraph F changes before after) =
      prunedGraph F changes before after := by
  have hranks : ∀ k ∈ (reparsedGraph F changes before after).keys,
      decide (k.1 = .directory) = true → ¬neededDir after k →
        0 < (splitOnChar '/' k.2).length ∧ (splitOnChar '/' k.2).length ≤ maxDepth := by
    intro k hk hp _
    obtain ⟨dir, hdir, rfl⟩ := reparsedGraph_dir h hk (of_decide_eq_true hp)
    show 0 < (splitOnChar '/' (dirId dir)).length ∧ (splitOnChar '/' (dirId dir)).length ≤ maxDepth
    rw [(bothDirs_isDir hdir).split]
    exact ⟨length_pos_of_ne_nil (bothDirs_isDir hdir).ne_nil, bothDirs_shallow hdir⟩
  rw [pruneOrphanDirectories, prune_eq_drop maxDepth (closed_reparsedGraph h)
    (prunable_reparsedGraph h) hranks]
  exact detachDelete_reparsedGraph h

/-- Before the links are drawn anew, pruned or with nothing to prune, the graph
has the directories of the current tree. -/
theorem pruned_eq (h : changes.Correct F before after) :
    (let g := reparse F after (purge (indexCodebase F before) changes) changes
      if changes.deleted ≠ [] ∨ changes.renamed ≠ [] then pruneOrphanDirectories g else g) =
      prunedGraph F changes before after := by
  rw [reparse_eq h]
  by_cases hgone : changes.deleted ≠ [] ∨ changes.renamed ≠ []
  · exact (if_pos hgone).trans (prune_reparsedGraph h)
  · refine (if_neg hgone).trans ?_
    rw [not_or, not_not, not_not] at hgone
    have hnone : changes.goneRels = [] := by
      rw [ChangeSet.goneRels, ChangeSet.oldRels, hgone.1, hgone.2]
      rfl
    rw [bothDirs_of_none_gone h hnone]
    rfl

end CodeGraph
