import CodeGraph.ApplyChanges
import CodeGraph.IndexClosed

/-!
# The steps of an incremental index

What each step leaves of the graph of an earlier tree, under a change set that
tells the two trees apart: the purge keeps the unedited files and the nodes of
the changed ones, the files read again come back with their parts, and the
directories end as those of the current tree.
-/

namespace CodeGraph

open Multiset PropertyGraph Keyed

variable {Content : Type}

/-- The change set between two trees. What is neither changed, new nor gone has
the content it had. -/
structure ChangeSet.Correct (changes : ChangeSet) (F : FrontEnd Content)
    (before after : SourceTree Content) : Prop where
  nodup : changes.reparsedSet.Nodup
  changed : ∀ rel ∈ changes.changedRels, rel ∈ before.rels ∧ rel ∈ after.rels
  fresh : ∀ rel, rel ∈ changes.added.map Discovered.rel ++ changes.newRels ↔
    rel ∈ after.rels ∧ rel ∉ before.rels
  gone : ∀ rel, rel ∈ changes.goneRels ↔ rel ∈ before.rels ∧ rel ∉ after.rels
  same : ∀ rel ∈ before.rels, rel ∈ after.rels → rel ∉ changes.changedRels →
    after.content rel = before.content rel
  size : ∀ d ∈ changes.changed, d.size = F.size (after.content d.rel)

/-- The unedited files. -/
def ChangeSet.kept (changes : ChangeSet) (after : SourceTree Content) : Finset Text :=
  after.rels.filter (· ∉ changes.reparsedSet)

section Correct

variable {F : FrontEnd Content} {before after : SourceTree Content} {changes : ChangeSet}

theorem ChangeSet.mem_reparsedSet {rel : Text} : rel ∈ changes.reparsedSet ↔
    rel ∈ changes.changedRels ∨ rel ∈ changes.added.map Discovered.rel ++ changes.newRels := by
  rw [reparsedSet, List.append_assoc, List.mem_append]

theorem ChangeSet.mem_kept {rel : Text} :
    rel ∈ changes.kept after ↔ rel ∈ after.rels ∧ rel ∉ changes.reparsedSet :=
  Finset.mem_filter

namespace ChangeSet.Correct

theorem reparsed_mem (h : changes.Correct F before after) {rel : Text}
    (hrel : rel ∈ changes.reparsedSet) : rel ∈ after.rels := by
  rcases mem_reparsedSet.mp hrel with hrel | hrel
  · exact (h.changed rel hrel).2
  · exact ((h.fresh rel).mp hrel).1

theorem kept_mem_before (h : changes.Correct F before after) {rel : Text}
    (hrel : rel ∈ changes.kept after) : rel ∈ before.rels := by
  obtain ⟨hafter, hnot⟩ := mem_kept.mp hrel
  by_contra hbefore
  exact hnot (mem_reparsedSet.mpr (Or.inr ((h.fresh rel).mpr ⟨hafter, hbefore⟩)))

theorem kept_content (h : changes.Correct F before after) {rel : Text}
    (hrel : rel ∈ changes.kept after) : after.content rel = before.content rel := by
  obtain ⟨hafter, hnot⟩ := mem_kept.mp hrel
  exact h.same rel (h.kept_mem_before hrel) hafter fun hc =>
    hnot (mem_reparsedSet.mpr (Or.inl hc))

/-- The files of the current tree: the unedited ones and those read again. -/
theorem after_val (h : changes.Correct F before after) :
    after.rels.val = (changes.kept after).val + (changes.reparsedSet : Multiset Text) := by
  refine (Multiset.Nodup.ext after.rels.nodup (nodup_add.mpr
    ⟨(changes.kept after).nodup, coe_nodup.mpr h.nodup, ?_⟩)).mpr fun rel => ?_
  · exact disjoint_left.mpr fun hk hr => (mem_kept.mp hk).2 hr
  · rw [mem_add, Finset.mem_val, Finset.mem_val, mem_kept, mem_coe]
    have hread : rel ∈ changes.reparsedSet → rel ∈ after.rels := h.reparsed_mem
    tauto

theorem changed_nodup (h : changes.Correct F before after) : changes.changedRels.Nodup := by
  have := h.nodup
  rw [reparsedSet, List.append_assoc] at this
  exact (List.nodup_append.mp this).1

theorem before_val (h : changes.Correct F before after) :
    before.rels.val = (changes.kept after).val + (changes.changedRels : Multiset Text) +
      (before.rels.filter (· ∈ changes.goneRels)).val := by
  have hchanged : ∀ {rel}, rel ∈ changes.changedRels → rel ∈ changes.reparsedSet := fun hc =>
    mem_reparsedSet.mpr (Or.inl hc)
  refine (Multiset.Nodup.ext before.rels.nodup (nodup_add.mpr ⟨nodup_add.mpr
    ⟨(changes.kept after).nodup, coe_nodup.mpr h.changed_nodup, ?_⟩,
      (before.rels.filter _).nodup, ?_⟩)).mpr fun rel => ?_
  · exact disjoint_left.mpr fun hk hc => (mem_kept.mp hk).2 (hchanged hc)
  · refine disjoint_left.mpr fun {rel} hk hg => ?_
    have hafter := ((h.gone rel).mp (Finset.mem_filter.mp hg).2).2
    rcases mem_add.mp hk with hk | hc
    · exact hafter (mem_kept.mp hk).1
    · exact hafter (h.changed rel hc).2
  · rw [mem_add, mem_add, Finset.mem_val, Finset.mem_val, mem_coe,
      Finset.mem_val, Finset.mem_filter, h.gone, mem_kept, mem_reparsedSet, h.fresh]
    have := h.changed rel
    tauto

end ChangeSet.Correct

theorem ChangeSet.Correct.plain_changed (h : changes.Correct F before after) {rel : Text}
    (hrel : rel ∈ changes.changedRels) : IsFileId rel :=
  before.plain rel (h.changed rel hrel).1

theorem ChangeSet.Correct.plain_gone (h : changes.Correct F before after) {rel : Text}
    (hrel : rel ∈ changes.goneRels) : IsFileId rel :=
  before.plain rel ((h.gone rel).mp hrel).1

end Correct

/-! ## The purge -/

section Purge

variable (changes : ChangeSet)

/-- The nodes the purge of a changed file deletes. -/
def purgedOfChanged (rel : Text) (k : Key) : Bool :=
  inScope rel k || decide (k = (.fileContent, rel))

/-- The nodes the purge of a file that is gone deletes. -/
def purgedOfGone (rel : Text) (k : Key) : Bool :=
  inScope rel k || (decide (k = (.file, rel)) || decide (k = (.fileContent, rel)))

def purgedKey (k : Key) : Bool :=
  (changes.changedRels.any fun rel => purgedOfChanged rel k) ||
    changes.goneRels.any fun rel => purgedOfGone rel k

/-- The links the purge deletes by themselves. -/
def purgedLink (e : Edge) : Bool :=
  changes.changedRels.any fun rel => isLightLink e && decide (e.src = (.file, rel))

theorem purge_eq_drop (g : Graph) :
    purge g changes = g.drop (purgedKey changes) (purgedLink changes) := by
  have hmodified : ∀ (g : Graph) rel, purgeModified g rel =
      g.drop (purgedOfChanged rel) fun e => isLightLink e && decide (e.src = (.file, rel)) := by
    intro g rel
    rw [purgeModified, purgeFileContent, purgeOutboundLightLinks, purgeFileSymbols, detachDelete,
      deleteEdges, detachDelete, drop_drop, drop_drop]
    refine drop_congr (fun k => ?_) fun e => ?_
    · rw [purgedOfChanged, Bool.false_or]
    · rw [Bool.false_or, Bool.or_false]
  have hgone : ∀ (g : Graph) rel, purgeGone g rel = g.drop (purgedOfGone rel) fun _ => false := by
    intro g rel
    rw [purgeGone, purgeFileContent, purgeFileNode, purgeFileSymbols, detachDelete, detachDelete,
      detachDelete, drop_drop, drop_drop]
    exact drop_congr (fun _ => rfl) fun _ => rfl
  rw [purge, show purgeModified = _ from funext₂ hmodified, show purgeGone = _ from funext₂ hgone,
    foldl_drop, foldl_drop, drop_drop]
  refine drop_congr (fun _ => rfl) ?_
  intro e
  rw [purgedLink]
  simp

variable {changes}

theorem inScope_iff {rel u : Text} {k : Key} (hrel : IsFileId rel) (hu : IsFileId u)
    (hk : Owned u k) : inScope rel k ↔ rel = u ∧ k.1.isScoped := by
  rw [inScope, decide_eq_true_eq]
  cases hk with
  | file => exact iff_of_false hu.not_inFile_isPrefix fun h => nomatch h.2
  | content => exact iff_of_false hu.not_inFile_isPrefix fun h => nomatch h.2
  | named name h => rw [inFile_prefix_iff hrel hu, and_iff_left h]

theorem purgedOfChanged_iff {rel u : Text} {k : Key} (hrel : IsFileId rel) (hu : IsFileId u)
    (hk : Owned u k) : purgedOfChanged rel k ↔ rel = u ∧ k.1 ≠ .file := by
  rw [purgedOfChanged, Bool.or_eq_true, inScope_iff hrel hu hk, decide_eq_true_eq]
  cases hk with
  | file => simp [Label.isScoped]
  | content => simp [Label.isScoped, eq_comm]
  | named name h =>
      have hfile : ∀ {l : Label}, l.isScoped → l ≠ .file ∧ l ≠ .fileContent := by
        rintro l hl
        refine ⟨?_, ?_⟩
        · rintro rfl
          cases hl
        · rintro rfl
          cases hl
      simp [h, (hfile h).1, (hfile h).2]

theorem purgedOfGone_iff {rel u : Text} {k : Key} (hrel : IsFileId rel) (hu : IsFileId u)
    (hk : Owned u k) : purgedOfGone rel k ↔ rel = u := by
  rw [purgedOfGone, Bool.or_eq_true, Bool.or_eq_true, inScope_iff hrel hu hk, decide_eq_true_eq,
    decide_eq_true_eq]
  cases hk with
  | file => simp [Label.isScoped, eq_comm]
  | content => simp [Label.isScoped, eq_comm]
  | named name h =>
      refine ⟨?_, fun hrel => Or.inl ⟨hrel, h⟩⟩
      rintro (h | h | h)
      · exact h.1
      · exact absurd (congrArg Prod.snd h).symm hrel.ne_inFile
      · exact absurd (congrArg Prod.snd h).symm hrel.ne_inFile

theorem purgedKey_iff {u : Text} {k : Key} (hu : IsFileId u) (hk : Owned u k)
    (hchanged : ∀ rel ∈ changes.changedRels, IsFileId rel)
    (hgone : ∀ rel ∈ changes.goneRels, IsFileId rel) : purgedKey changes k ↔
      u ∈ changes.changedRels ∧ k.1 ≠ .file ∨ u ∈ changes.goneRels := by
  rw [purgedKey, Bool.or_eq_true, List.any_eq_true, List.any_eq_true]
  refine or_congr ⟨?_, ?_⟩ ⟨?_, ?_⟩
  · rintro ⟨rel, hrel, h⟩
    obtain ⟨rfl, hfile⟩ := (purgedOfChanged_iff (hchanged rel hrel) hu hk).mp h
    exact ⟨hrel, hfile⟩
  · rintro ⟨hmem, hfile⟩
    exact ⟨u, hmem, (purgedOfChanged_iff hu hu hk).mpr ⟨rfl, hfile⟩⟩
  · rintro ⟨rel, hrel, h⟩
    obtain rfl := (purgedOfGone_iff (hgone rel hrel) hu hk).mp h
    exact hrel
  · intro hmem
    exact ⟨u, hmem, (purgedOfGone_iff hu hu hk).mpr rfl⟩

theorem not_inScope_dir {rel : Text} {dir : List Text} (hdir : IsDir dir) :
    ¬inScope rel (.directory, dirId dir) := by
  rw [inScope, decide_eq_true_eq]
  intro h
  exact hdir.unscoped ((scope_infix_inFile rel []).trans h.isInfix)

theorem purgedKey_dir {dir : List Text} (hdir : IsDir dir) :
    ¬purgedKey changes (.directory, dirId dir) := by
  rw [purgedKey, Bool.or_eq_true, List.any_eq_true, List.any_eq_true]
  rintro (⟨rel, -, h⟩ | ⟨rel, -, h⟩)
  · simp [purgedOfChanged, not_inScope_dir hdir] at h
  · simp [purgedOfGone, not_inScope_dir hdir] at h

theorem purgedLink_iff {e : Edge} : purgedLink changes e ↔
    isLightLink e ∧ ∃ rel ∈ changes.changedRels, e.src = (.file, rel) := by
  rw [purgedLink, List.any_eq_true]
  constructor
  · rintro ⟨rel, hrel, h⟩
    rw [Bool.and_eq_true, decide_eq_true_eq] at h
    exact ⟨h.1, rel, hrel, h.2⟩
  · rintro ⟨hlink, rel, hrel, hsrc⟩
    exact ⟨rel, hrel, by rw [Bool.and_eq_true, decide_eq_true_eq]; exact ⟨hlink, hsrc⟩⟩

theorem not_purgedLink_of_dst {e : Edge} (h : e.dst.1 ≠ .file) : ¬purgedLink changes e := by
  rw [purgedLink_iff, isLightLink, Bool.and_eq_true, decide_eq_true_eq]
  intro hlink
  exact h hlink.1.2.2

end Purge

/-! ## What the purge leaves of a file -/

/-- An edge between two nodes of a file, the second of them in the file. -/
structure Inner (rel : Text) (e : Edge) : Prop where
  src : Owned rel e.src
  dst : Owned rel e.dst
  named : e.dst.1 ≠ .file

theorem ne_file_of_isScoped {label : Label} (h : label.isScoped) : label ≠ .file := by
  rintro rfl
  cases h

section Inner

variable {F : FrontEnd Content} {rel : Text} {content : Content} {e : Edge}

theorem ownKeys_owned {k : Key} (h : k ∈ ownKeys F rel content) : Owned rel k := by
  rcases mem_cons.mp h with rfl | h
  · exact .file
  · obtain ⟨n, hn, rfl⟩ := mem_map.mp h
    exact (ownNodes_owned hn).1

theorem ownEdges_inner (h : e ∈ ownEdges F rel content) : Inner rel e := by
  rw [ownEdges] at h
  split at h
  · exact absurd h (notMem_zero e)
  · obtain ⟨he, hlands⟩ := mem_filter.mp h
    refine ⟨ownKeys_owned hlands.1, ownKeys_owned hlands.2, ?_⟩
    rcases mem_add.mp he with he | he
    · obtain ⟨r, -, hr⟩ := List.mem_filterMap.mp he
      exact ne_file_of_isScoped (refEdge_ends hr).2.2
    · obtain ⟨-, name, hdst⟩ := astEdges_ends he
      rw [hdst]
      rintro ⟨⟩

theorem factKeys_owned {k : Key} (h : k ∈ (Iac.factNodes F rel content).map key) :
    Owned rel k ∧ k.1 ≠ .file := by
  obtain ⟨n, hn, rfl⟩ := List.mem_map.mp h
  exact Iac.factNodes_owned hn

theorem factEdges_inner (h : e ∈ Iac.factEdges F rel content) : Inner rel e := by
  obtain ⟨hsrc, hdst⟩ := Iac.factEdges_ends h
  refine ⟨?_, (factKeys_owned hdst).1, (factKeys_owned hdst).2⟩
  rcases hsrc with hsrc | hsrc
  · rw [hsrc]
    exact .file
  · exact (factKeys_owned hsrc).1

theorem mem_dirFileEdges (h : e ∈ dirFileEdges rel) : e.kind = .contains ∧
    (∃ dir ∈ ancestors rel, e.src = (.directory, dirId dir)) ∧ e.dst = (.file, rel) := by
  rw [dirFileEdges] at h
  split at h
  · cases h
  next hparent =>
    obtain rfl := List.mem_singleton.mp h
    exact ⟨rfl, ⟨_, parent_mem_ancestors hparent, rfl⟩, rfl⟩

/-- The edges of a file that its purge takes. -/
def innerEdges (F : FrontEnd Content) (rel : Text) (content : Content) : Multiset Edge :=
  ownEdges F rel content + (Iac.factEdges F rel content : Multiset Edge)

theorem fileEdges_eq : fileEdges F rel content =
    (dirFileEdges rel : Multiset Edge) + innerEdges F rel content := by
  rw [fileEdges, baseEdges, innerEdges, add_assoc]

theorem innerEdges_inner (h : e ∈ innerEdges F rel content) : Inner rel e := by
  rcases mem_add.mp h with h | h
  · exact ownEdges_inner h
  · exact factEdges_inner h

end Inner

/-- What the purge does to an edge. -/
def Stays (changes : ChangeSet) (e : Edge) : Prop :=
  ¬(purgedKey changes e.src ∨ purgedKey changes e.dst ∨ purgedLink changes e)

instance (changes : ChangeSet) (e : Edge) : Decidable (Stays changes e) :=
  inferInstanceAs (Decidable ¬_)

section Left

variable {F : FrontEnd Content} {before after : SourceTree Content} {changes : ChangeSet}
  {rel : Text} {content : Content}

theorem ChangeSet.Correct.purgedKey_iff (h : changes.Correct F before after) (hrel : IsFileId rel)
    {k : Key} (hk : Owned rel k) : purgedKey changes k ↔
      rel ∈ changes.changedRels ∧ k.1 ≠ .file ∨ rel ∈ changes.goneRels :=
  CodeGraph.purgedKey_iff hrel hk (fun _ => h.plain_changed) fun _ => h.plain_gone

theorem ChangeSet.Correct.kept_cases (h : changes.Correct F before after)
    (hrel : rel ∈ changes.kept after) :
    IsFileId rel ∧ rel ∉ changes.changedRels ∧ rel ∉ changes.goneRels := by
  obtain ⟨hafter, hnot⟩ := mem_kept.mp hrel
  refine ⟨after.plain rel hafter, fun hc => hnot (mem_reparsedSet.mpr (Or.inl hc)), fun hg => ?_⟩
  exact ((h.gone rel).mp hg).2 hafter

theorem nodes_of_kept (h : changes.Correct F before after) (hrel : rel ∈ changes.kept after) :
    (fileNodes F rel content).filter (fun n => ¬purgedKey changes (key n)) =
      fileNodes F rel content := by
  obtain ⟨hplain, hchanged, hgone⟩ := h.kept_cases hrel
  refine filter_eq_self.mpr ?_
  intro n hn
  rw [h.purgedKey_iff hplain (fileNodes_owned hn)]
  tauto

theorem nodes_of_changed (h : changes.Correct F before after) (hrel : rel ∈ changes.changedRels) :
    (fileNodes F rel content).filter (fun n => ¬purgedKey changes (key n)) =
      {fileNode rel (F.size content) (fileErrors F rel content)} := by
  have hplain := h.plain_changed hrel
  have hgone : rel ∉ changes.goneRels := fun hg =>
    ((h.gone rel).mp hg).2 (h.changed rel hrel).2
  have hfile : ¬purgedKey changes (.file, rel) := by
    rw [h.purgedKey_iff hplain Owned.file]
    rintro (⟨-, hne⟩ | hg)
    · exact hne rfl
    · exact hgone hg
  have hrest : ∀ n ∈ ownNodes F rel content + (Iac.factNodes F rel content : Multiset Node),
      ¬¬purgedKey changes (key n) := by
    intro n hn
    rw [not_not]
    rcases mem_add.mp hn with hn | hn
    · exact (h.purgedKey_iff hplain (ownNodes_owned hn).1).mpr (Or.inl ⟨hrel, (ownNodes_owned hn).2⟩)
    · exact (h.purgedKey_iff hplain (Iac.factNodes_owned hn).1).mpr
        (Or.inl ⟨hrel, (Iac.factNodes_owned hn).2⟩)
  rw [fileNodes, baseNodes, cons_add,
    filter_cons_of_pos (p := fun n => ¬purgedKey changes (key n)) _ hfile,
    filter_eq_nil.mpr hrest]
  rfl

theorem nodes_of_gone (h : changes.Correct F before after) (hrel : rel ∈ changes.goneRels) :
    (fileNodes F rel content).filter (fun n => ¬purgedKey changes (key n)) = 0 := by
  refine filter_eq_nil.mpr ?_
  intro n hn
  rw [not_not, h.purgedKey_iff (h.plain_gone hrel) (fileNodes_owned hn)]
  exact Or.inr hrel

theorem stays_containment (h : changes.Correct F before after) (hrel : IsFileId rel) {e : Edge}
    (he : e ∈ dirFileEdges rel) : Stays changes e ↔ rel ∉ changes.goneRels := by
  obtain ⟨-, ⟨dir, hdir, hsrc⟩, hdst⟩ := mem_dirFileEdges he
  have hlink : ¬purgedLink changes e := by
    rw [purgedLink_iff, hsrc]
    rintro ⟨-, u, -, heq⟩
    cases heq
  have hsrc' : ¬purgedKey changes e.src := hsrc ▸ purgedKey_dir (hrel.isDir hdir)
  rw [Stays, hdst, h.purgedKey_iff hrel Owned.file]
  simp only [hsrc', hlink, ne_eq, not_true_eq_false, and_false, false_or, or_false,
    Bool.false_eq_true]

theorem stays_inner (h : changes.Correct F before after) (hrel : IsFileId rel) {e : Edge}
    (he : Inner rel e) : Stays changes e ↔ rel ∉ changes.changedRels ∧ rel ∉ changes.goneRels := by
  have hlink : ¬purgedLink changes e := not_purgedLink_of_dst he.named
  have hnamed := he.named
  rw [Stays, h.purgedKey_iff hrel he.src, h.purgedKey_iff hrel he.dst]
  tauto

theorem edges_of_kept (h : changes.Correct F before after) (hrel : rel ∈ changes.kept after) :
    (fileEdges F rel content).filter (Stays changes) = fileEdges F rel content := by
  obtain ⟨hplain, hchanged, hgone⟩ := h.kept_cases hrel
  refine filter_eq_self.mpr ?_
  intro e he
  rw [fileEdges_eq] at he
  rcases mem_add.mp he with he | he
  · exact (stays_containment h hplain he).mpr hgone
  · exact (stays_inner h hplain (innerEdges_inner he)).mpr ⟨hchanged, hgone⟩

theorem edges_of_changed (h : changes.Correct F before after) (hrel : rel ∈ changes.changedRels) :
    (fileEdges F rel content).filter (Stays changes) = (dirFileEdges rel : Multiset Edge) := by
  have hplain := h.plain_changed hrel
  have hgone : rel ∉ changes.goneRels := fun hg =>
    ((h.gone rel).mp hg).2 (h.changed rel hrel).2
  rw [fileEdges_eq, filter_add,
    filter_eq_self.mpr fun e he => (stays_containment h hplain he).mpr hgone,
    filter_eq_nil.mpr fun e he hstays =>
      ((stays_inner h hplain (innerEdges_inner he)).mp hstays).1 hrel,
    add_zero]

theorem edges_of_gone (h : changes.Correct F before after) (hrel : rel ∈ changes.goneRels) :
    (fileEdges F rel content).filter (Stays changes) = 0 := by
  have hplain := h.plain_gone hrel
  refine filter_eq_nil.mpr ?_
  intro e he hstays
  rw [fileEdges_eq] at he
  rcases mem_add.mp he with he | he
  · exact (stays_containment h hplain he).mp hstays hrel
  · exact ((stays_inner h hplain (innerEdges_inner he)).mp hstays).2 hrel

theorem mem_dirEdges {dir : List Text} {e : Edge} (h : e ∈ dirEdges dir) : e.kind = .contains ∧
    dir.dropLast ≠ [] ∧ e.src = (.directory, dirId dir.dropLast) ∧
      e.dst = (.directory, dirId dir) := by
  rw [dirEdges] at h
  split at h
  · cases h
  next hparent =>
    obtain rfl := List.mem_singleton.mp h
    exact ⟨rfl, hparent, rfl, rfl⟩

theorem dropLast_mem_ancestors {dir : List Text} (h : dir ∈ ancestors rel)
    (hne : dir.dropLast ≠ []) : dir.dropLast ∈ ancestors rel :=
  dirsBelow_dropLast h hne

theorem mem_dirsOf {rels : Finset Text} {dir : List Text} :
    dir ∈ dirsOf rels ↔ ∃ rel ∈ rels, dir ∈ ancestors rel := by
  simp only [dirsOf, Finset.mem_biUnion, List.mem_toFinset]

theorem SourceTree.isDir (tree : SourceTree Content) {dir : List Text}
    (h : dir ∈ dirsOf tree.rels) : IsDir dir := by
  obtain ⟨rel, hrel, hdir⟩ := mem_dirsOf.mp h
  exact (tree.plain rel hrel).isDir hdir

theorem dropLast_mem_dirsOf {rels : Finset Text} {dir : List Text} (h : dir ∈ dirsOf rels)
    (hne : dir.dropLast ≠ []) : dir.dropLast ∈ dirsOf rels := by
  obtain ⟨rel, hrel, hdir⟩ := mem_dirsOf.mp h
  exact mem_dirsOf.mpr ⟨rel, hrel, dropLast_mem_ancestors hdir hne⟩

theorem dirEdges_stay {dir : List Text} (h : dir ∈ dirsOf before.rels) :
    (dirEdges dir : Multiset Edge).filter (Stays changes) = (dirEdges dir : Multiset Edge) := by
  refine filter_eq_self.mpr ?_
  intro e he
  obtain ⟨-, hne, hsrc, hdst⟩ := mem_dirEdges he
  have hlink : ¬purgedLink changes e := not_purgedLink_of_dst (by rw [hdst]; exact nofun)
  rw [Stays, hsrc, hdst, not_or, not_or]
  exact ⟨purgedKey_dir (before.isDir (dropLast_mem_dirsOf h hne)),
    purgedKey_dir (before.isDir h), hlink⟩

end Left

/-! ## The links of a tree -/

section Links

variable {F : FrontEnd Content} {tree : SourceTree Content} {rel : Text}

theorem mem_treeKeys {k : Key} : k ∈ treeKeys F tree ↔
    (∃ u ∈ tree.rels, k ∈ (fileNodes F u (tree.content u)).map key) ∨
      ∃ dir ∈ dirsOf tree.rels, k = (.directory, dirId dir) := by
  rw [treeKeys, treeNodes, map_add, mem_add, map_bind,
    mem_bind, map_map, mem_map]
  refine or_congr Iff.rfl ⟨?_, ?_⟩
  · rintro ⟨dir, hdir, rfl⟩
    exact ⟨dir, hdir, rfl⟩
  · rintro ⟨dir, hdir, rfl⟩
    exact ⟨dir, hdir, rfl⟩

theorem mem_treeKeys_of_owned (hrel : IsFileId rel) {k : Key} (hk : Owned rel k) :
    k ∈ treeKeys F tree ↔
      rel ∈ tree.rels ∧ k ∈ (fileNodes F rel (tree.content rel)).map key := by
  rw [mem_treeKeys]
  constructor
  · rintro (⟨u, hu, hmem⟩ | ⟨dir, -, rfl⟩)
    · obtain ⟨n, hn, hkey⟩ := mem_map.mp hmem
      have hown : Owned u k := hkey ▸ fileNodes_owned hn
      obtain rfl := hk.near.unique hrel (tree.plain u hu) hown.near
      exact ⟨hu, hmem⟩
    · exact absurd rfl hk.near.1
  · intro h
    exact Or.inl ⟨rel, h.1, h.2⟩

/-- An edge out of a file into a file of the tree, or into its overlay. -/
structure Outward (F : FrontEnd Content) (tree : SourceTree Content) (rel : Text) (e : Edge) :
    Prop where
  kind : isResolutionKind e.kind
  src : Owned rel e.src
  light : ¬e.src.1.isScoped → isLightLink e ∧ e.src = (.file, rel)
  label : e.dst.1 = .file ∨ e.dst.1 = .iacModule
  dst : ∃ u ∈ tree.rels, Owned u e.dst

theorem linksOut_outward (hrel : rel ∈ tree.rels) {e : Edge} (h : e ∈ linksOut F tree rel) :
    Outward F tree rel e := by
  rcases mem_add.mp h with h | h
  · obtain ⟨hsrc, ⟨target, htarget, hdst⟩, hkind⟩ := LightLink.mem_links h
    rw [(tree.plain rel hrel).relId] at hsrc
    have hkind : isResolutionKind e.kind = true := by
      rcases hkind with hkind | hkind <;> rw [hkind] <;> rfl
    refine ⟨hkind, hsrc ▸ .file, fun _ => ⟨?_, hsrc⟩, Or.inl (hdst ▸ rfl),
      ⟨target, htarget, hdst ▸ .file⟩⟩
    rw [isLightLink, hkind, hsrc, hdst]
    rfl
  · obtain ⟨h, -, hdst⟩ := mem_filter.mp h
    obtain ⟨hkind, ⟨label, name, hlabel, hsrc⟩, htarget⟩ := Iac.refs_ends h
    rw [linked_dst] at hdst
    have hlabel' : e.dst.1 = .file ∨ e.dst.1 = .iacModule := by
      rcases htarget with ⟨target, htarget⟩ | ⟨target, htarget⟩
      · exact Or.inl (htarget ▸ rfl)
      · exact Or.inr (htarget ▸ rfl)
    refine ⟨by rw [hkind]; rfl, hsrc ▸ .named name hlabel, fun hnot => ?_, hlabel', ?_⟩
    · rw [hsrc] at hnot
      exact absurd hlabel hnot
    · rcases mem_treeKeys.mp hdst with ⟨u, hu, hmem⟩ | ⟨dir, -, hdir⟩
      · obtain ⟨n, hn, hkey⟩ := mem_map.mp hmem
        exact ⟨u, hu, hkey ▸ fileNodes_owned hn⟩
      · rcases hlabel' with hfile | hmodule
        · rw [hdir] at hfile
          cases hfile
        · rw [hdir] at hmodule
          cases hmodule

variable {before after : SourceTree Content} {changes : ChangeSet}

theorem stays_outward (h : changes.Correct F before after) (hrel : rel ∈ before.rels) {e : Edge}
    (he : Outward F before rel e) : Stays changes e ↔
      rel ∉ changes.changedRels ∧ rel ∉ changes.goneRels ∧ ¬purgedKey changes e.dst := by
  have hsrc := h.purgedKey_iff (before.plain rel hrel) he.src
  by_cases hscoped : e.src.1.isScoped
  · have hfile := ne_file_of_isScoped hscoped
    have hlink : ¬purgedLink changes e := by
      rw [purgedLink_iff]
      rintro ⟨-, u, -, heq⟩
      exact hfile (heq ▸ rfl)
    rw [Stays, hsrc]
    tauto
  · obtain ⟨hlight, hfile⟩ := he.light hscoped
    have hlink : purgedLink changes e ↔ rel ∈ changes.changedRels := by
      rw [purgedLink_iff, hfile]
      constructor
      · rintro ⟨-, u, hu, heq⟩
        obtain rfl : rel = u := congrArg Prod.snd heq
        exact hu
      · intro hmem
        exact ⟨hlight, rel, hmem, rfl⟩
    have hne : e.src.1 = .file := by rw [hfile]
    rw [Stays, hsrc, hlink]
    tauto

theorem links_of_kept (h : changes.Correct F before after) (hrel : rel ∈ changes.kept after) :
    (linksOut F before rel).filter (Stays changes) =
      (linksOut F before rel).filter fun e => ¬purgedKey changes e.dst := by
  obtain ⟨-, hchanged, hgone⟩ := h.kept_cases hrel
  have hmem := h.kept_mem_before hrel
  refine filter_congr ?_
  intro e he
  rw [stays_outward h hmem (linksOut_outward hmem he)]
  tauto

theorem links_of_purged (h : changes.Correct F before after)
    (hrel : rel ∈ changes.changedRels ∨ rel ∈ changes.goneRels) :
    (linksOut F before rel).filter (Stays changes) = 0 := by
  have hmem : rel ∈ before.rels := by
    rcases hrel with hrel | hrel
    · exact (h.changed rel hrel).1
    · exact ((h.gone rel).mp hrel).1
  refine filter_eq_nil.mpr ?_
  intro e he
  rw [stays_outward h hmem (linksOut_outward hmem he)]
  tauto

end Links

/-! ## The graph after the purge -/

section Purged

variable (F : FrontEnd Content) (changes : ChangeSet) (before after : SourceTree Content)

def uneditedNodes : Multiset Node :=
  (changes.kept after).val.bind fun rel => fileNodes F rel (after.content rel)

def uneditedEdges : Multiset Edge :=
  (changes.kept after).val.bind fun rel => fileEdges F rel (after.content rel)

def uneditedLinks : Multiset Edge :=
  (changes.kept after).val.bind fun rel =>
    (linksOut F before rel).filter fun e => ¬purgedKey changes e.dst

/-- A node of a changed file as it stood. -/
def staleNode (rel : Text) : Node :=
  fileNode rel (F.size (before.content rel)) (fileErrors F rel (before.content rel))

variable {F changes before after}

/-- A filtered sum over the files of the earlier tree, by what became of them. -/
theorem before_bind (h : changes.Correct F before after) {α : Type} {p : α → Prop}
    [DecidablePred p] {part kept changed : Text → Multiset α}
    (hkept : ∀ rel ∈ changes.kept after, (part rel).filter p = kept rel)
    (hchanged : ∀ rel ∈ changes.changedRels, (part rel).filter p = changed rel)
    (hgone : ∀ rel ∈ changes.goneRels, (part rel).filter p = 0) :
    (before.rels.val.bind part).filter p =
      (changes.kept after).val.bind kept + (changes.changedRels : Multiset Text).bind changed := by
  have hzero : ((before.rels.filter (· ∈ changes.goneRels)).val.bind fun rel =>
      (part rel).filter p) = 0 := by
    rw [bind_congr fun rel hrel => hgone rel (Finset.mem_filter.mp hrel).2]
    exact bind_zero _
  have hkept' : ((changes.kept after).val.bind fun rel => (part rel).filter p) =
      (changes.kept after).val.bind kept := bind_congr hkept
  have hchanged' : ((changes.changedRels : Multiset Text).bind fun rel => (part rel).filter p) =
      (changes.changedRels : Multiset Text).bind changed := bind_congr hchanged
  rw [filter_bind, h.before_val, add_bind, add_bind, hzero, add_zero,
    hkept', hchanged']

theorem purge_indexCodebase (h : changes.Correct F before after) :
    purge (indexCodebase F before) changes =
      ⟨uneditedNodes F changes after + (changes.changedRels : Multiset Text).map (staleNode F before) +
          (dirsOf before.rels).val.map dirNode,
        uneditedEdges F changes after +
          ((changes.changedRels : Multiset Text).bind fun rel => (dirFileEdges rel : Multiset Edge)) +
          ((dirsOf before.rels).val.bind fun dir => (dirEdges dir : Multiset Edge)) +
          uneditedLinks F changes before after⟩ := by
  rw [purge_eq_drop, indexCodebase_eq]
  ext1
  · show (treeNodes F before).filter (fun n => ¬purgedKey changes (key n)) = _
    have hdirs : ((dirsOf before.rels).val.map dirNode).filter
        (fun n => ¬purgedKey changes (key n)) = (dirsOf before.rels).val.map dirNode := by
      refine filter_eq_self.mpr ?_
      intro n hn
      obtain ⟨dir, hdir, rfl⟩ := mem_map.mp hn
      exact purgedKey_dir (before.isDir hdir)
    rw [treeNodes, filter_add, hdirs,
      before_bind h (fun rel hrel => (nodes_of_kept h hrel).trans
        (congrArg (fileNodes F rel) (h.kept_content hrel).symm))
        (fun rel hrel => nodes_of_changed h hrel) fun rel hrel => nodes_of_gone h hrel,
      bind_singleton]
    rfl
  · show (treeEdges F before + before.rels.val.bind (linksOut F before)).filter (Stays changes) = _
    have hdirs : ((dirsOf before.rels).val.bind fun dir => (dirEdges dir : Multiset Edge)).filter
        (Stays changes) = (dirsOf before.rels).val.bind fun dir => (dirEdges dir : Multiset Edge) := by
      rw [filter_bind]
      exact bind_congr fun dir hdir => dirEdges_stay hdir
    have hlinks : (before.rels.val.bind (linksOut F before)).filter (Stays changes) =
        uneditedLinks F changes before after := by
      rw [before_bind h (fun rel hrel => links_of_kept h hrel)
        (fun rel hrel => links_of_purged h (Or.inl hrel)) fun rel hrel =>
          links_of_purged h (Or.inr hrel), bind_zero, add_zero]
      rfl
    rw [treeEdges, filter_add, filter_add, hdirs, hlinks,
      before_bind h (fun rel hrel => (edges_of_kept h hrel).trans
        (congrArg (fileEdges F rel) (h.kept_content hrel).symm))
        (fun rel hrel => edges_of_changed h hrel) fun rel hrel => edges_of_gone h hrel]
    rfl

end Purged

end CodeGraph
