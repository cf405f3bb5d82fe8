import CodeGraph.RefreshHonest

/-!
# What a refresh that runs again finds

A refresh without new files writes nothing that its own purge would not delete again.
`Grown` is the form the graph has from the purge on: what the purge left, the nodes of
the modified files with some columns, and what is read or derived from their text. So a
second run clears the graph to the same state, but for directories that the pruning
has removed already, and pruning that goes on ends where it would have.
-/

namespace CodeGraph

open Multiset PropertyGraph Keyed Linked Runs LayeredStore

variable {Content : Type} {F : FrontEnd Content} {current : SourceTree Content}
  {changes : ChangeSet} {s t : LayeredStore}

/-! ## Edges and nodes a purge deletes -/

/-- The purge deletes the edge, by itself or with an end. -/
def purgedEdge (changes : ChangeSet) (e : Edge) : Prop :=
  purgedKey changes e.src ∨ purgedKey changes e.dst ∨ purgedLink changes e

/-- A node that is written from the text of a modified file. -/
def Written (F : FrontEnd Content) (current : SourceTree Content) (changes : ChangeSet) (n : Node) :
    Prop := purgedKey changes (key n) ∧ Redeclared F current changes (key n)

structure WrittenEdge (changes : ChangeSet) (e : Edge) : Prop where
  purged : purgedEdge changes e
  owner : owningFile e.src.2 ∈ changes.reparsedSet
  ends : e.src.1 ≠ .directory ∧ e.dst.1 ≠ .directory

variable {rel : Text} {k : Key}

theorem ChangeSet.Classified.purgedKey_iff (h : changes.Classified current)
    (hrel : IsFileId rel) (hk : Owned rel k) :
    purgedKey changes k ↔ rel ∈ changes.changedRels ∧ k.1 ≠ .file ∨ rel ∈ changes.goneRels :=
  CodeGraph.purgedKey_iff hrel hk
    (fun _ hrel => h.plain (ChangeSet.mem_leaving_of_changed hrel)) fun _ hrel => (h.gone _ hrel).1

/-- The nodes of the modified files stay. -/
theorem ChangeSet.Classified.not_purgedKey_file (h : changes.Classified current)
    (hrel : rel ∈ changes.changedRels) : ¬purgedKey changes (.file, rel) := by
  rw [h.purgedKey_iff (h.plain (ChangeSet.mem_leaving_of_changed hrel)) .file]
  rintro (⟨-, hfile⟩ | hgone)
  · exact hfile rfl
  · exact (h.gone rel hgone).2 (h.reparsed rel (ChangeSet.mem_reparsedSet.mpr (Or.inl hrel)))

theorem owned_purged (h : changes.Classified current)
    (hrel : rel ∈ changes.changedRels) (hk : Owned rel k) (hfile : k.1 ≠ .file) :
    purgedKey changes k :=
  (h.purgedKey_iff (h.plain (ChangeSet.mem_leaving_of_changed hrel)) hk).mpr (Or.inl ⟨hrel, hfile⟩)

theorem changed_read (hrel : rel ∈ changes.changedRels) : rel ∈ changes.reparsedSet :=
  ChangeSet.mem_reparsedSet.mpr (Or.inl hrel)

variable {n : Node}

theorem written_ownNodes (h : changes.Classified current)
    (hrel : rel ∈ changes.changedRels) (hn : n ∈ ownNodes F rel (current.content rel)) :
    Written F current changes n := by
  obtain ⟨howned, hfile⟩ := ownNodes_owned hn
  exact ⟨owned_purged h hrel howned hfile,
    rel, changed_read hrel, Or.inl (mem_map_of_mem key hn)⟩

theorem written_factNodes (h : changes.Classified current)
    (hrel : rel ∈ changes.changedRels) (hn : n ∈ Iac.factNodes F rel (current.content rel)) :
    Written F current changes n := by
  obtain ⟨howned, hfile⟩ := Iac.factNodes_owned hn
  exact ⟨owned_purged h hrel howned hfile, rel, changed_read hrel, Or.inr (List.mem_map_of_mem hn)⟩

theorem owner_of_owned (h : changes.Classified current)
    (hrel : rel ∈ changes.changedRels) (hk : Owned rel k) : owningFile k.2 ∈ changes.reparsedSet := by
  rw [(h.plain (ChangeSet.mem_leaving_of_changed hrel)).owningFile hk]
  exact changed_read hrel

theorem writtenEdge_inner (h : changes.Classified current)
    (hrel : rel ∈ changes.changedRels) {e : Edge} (he : Inner rel e) : WrittenEdge changes e :=
  ⟨Or.inr (Or.inl (owned_purged h hrel he.dst he.named)), owner_of_owned h hrel he.src,
    he.src.near.1, he.dst.near.1⟩

/-! ## What the purge left -/

/-- Nodes and edges that no purge deletes, none of them of a modified file. -/
structure Base (changes : ChangeSet) (rest : Multiset Node) (es : Multiset Edge) : Prop where
  apart : ∀ n ∈ rest, ∀ rel ∈ changes.changedRels, ¬Near rel (key n)
  nodes : ∀ n ∈ rest, ¬purgedKey changes (key n)
  edges : ∀ e ∈ es, ¬purgedEdge changes e

/-- The nodes of the modified files, with columns of an earlier text. -/
def Stale (stale : Text → Node) : Prop := ∀ rel, ∃ size errors, stale rel = fileNode rel size errors

/-- The purge leaves `rest`, the nodes of the modified files and the edges `es`. -/
def Cleared (changes : ChangeSet) (stale : Text → Node) (rest : Multiset Node) (es : Multiset Edge)
    (g : Graph) : Prop :=
  purge g changes = ⟨(changes.changedRels : Multiset Text).map stale + rest, es⟩

/-- Beside that there is what was written from some of the modified files. -/
def Grown (F : FrontEnd Content) (current : SourceTree Content) (changes : ChangeSet)
    (done : List Text) (stale : Text → Node) (rest : Multiset Node) (es : Multiset Edge) (g : Graph) :
    Prop :=
  ∃ extra extraEdges, g.nodes = (changes.changedRels : Multiset Text).map stale + rest + extra ∧
    g.edges = es + extraEdges ∧
    (∀ n ∈ extra, Written F current changes n ∧ ∃ rel ∈ done, Near rel (key n)) ∧
    ∀ e ∈ extraEdges, WrittenEdge changes e

theorem Stale.key {stale : Text → Node} (h : Stale stale) (rel : Text) :
    key (stale rel) = (.file, rel) := by
  obtain ⟨size, errors, heq⟩ := h rel
  rw [heq]
  rfl

variable {done : List Text} {g : Graph}

/-- A further purge comes back to the same. -/
theorem Grown.cleared {stale : Text → Node} {rest : Multiset Node}
    {es : Multiset Edge} (hg : Grown F current changes done stale rest es g) (h : changes.Classified current)
    (hstale : Stale stale) (hbase : Base changes rest es) : Cleared changes stale rest es g := by
  obtain ⟨extra, extraEdges, hnodes, hedges, hextra, hextraEdges⟩ := hg
  rw [Cleared, purge_eq_drop]
  ext1
  · have hkept : ∀ n ∈ (changes.changedRels : Multiset Text).map stale + rest,
        ¬purgedKey changes (key n) := by
      intro n hn
      rcases mem_add.mp hn with hn | hn
      · obtain ⟨rel, hrel, rfl⟩ := mem_map.mp hn
        rw [hstale.key]
        exact h.not_purgedKey_file hrel
      · exact hbase.nodes n hn
    have hgone : extra.filter (fun n => ¬purgedKey changes (key n)) = 0 :=
      filter_eq_nil.mpr fun n hn hnot => hnot (hextra n hn).1.1
    show g.nodes.filter _ = _
    rw [hnodes, filter_add, hgone, add_zero]
    exact filter_eq_self.mpr hkept
  · have hgone : extraEdges.filter (fun e => ¬(purgedKey changes (src e) ∨ purgedKey changes (dst e) ∨
        purgedLink changes e)) = 0 :=
      filter_eq_nil.mpr fun e he hnot => hnot (hextraEdges e he).purged
    show g.edges.filter _ = _
    rw [hedges, filter_add, hgone, add_zero]
    exact filter_eq_self.mpr hbase.edges

/-- What is in the graph beside what was written was there before. -/
theorem Grown.mem_keys {stale : Text → Node} {rest : Multiset Node}
    {es : Multiset Edge} (hg : Grown F current changes done stale rest es g) (hk : k ∈ g.keys) :
    k ∈ ((changes.changedRels : Multiset Text).map stale + rest).map key ∨
      purgedKey changes k ∧ Redeclared F current changes k := by
  obtain ⟨extra, extraEdges, hnodes, -, hextra, -⟩ := hg
  rw [PropertyGraph.keys, hnodes, map_add] at hk
  rcases mem_add.mp hk with hk | hk
  · exact Or.inl hk
  · obtain ⟨n, hn, rfl⟩ := mem_map.mp hk
    exact Or.inr (hextra n hn).1

/-! ## A file that is read, as far as it came -/

theorem exists_add_of_between {α : Type*} {a b c : Multiset α} (h : a ≤ b) (h' : b ≤ a + c) :
    ∃ c' ≤ c, b = a + c' := by
  obtain ⟨c', rfl⟩ := Multiset.le_iff_exists_add.mp h
  exact ⟨c', (Multiset.add_le_add_iff_left).mp h', rfl⟩

theorem resetFile_eq_fileNode (h : resetFile rel 0 n = fileNode rel 0 0) :
    ∃ size errors, n = fileNode rel size errors := by
  obtain ⟨id, row⟩ := n
  cases row with
  | file name ext size errors =>
      by_cases hid : id = rel
      · rw [show resetFile rel 0 ⟨id, .file name ext size errors⟩ = ⟨id, .file name ext 0 0⟩ from
          if_pos hid] at h
        cases h
        exact ⟨size, errors, rfl⟩
      · rw [show resetFile rel 0 ⟨id, .file name ext size errors⟩ = ⟨id, .file name ext size errors⟩
          from if_neg hid] at h
        cases h
        exact absurd rfl hid
  | _ => cases h

variable {g' : Graph}

theorem nodes_of_between {size errors : Nat} {h : Graph}
    {others : Multiset Node} {content : Content} (hg : g.nodes = fileNode rel size errors ::ₘ others)
    (hothers : ∀ n ∈ others, ¬Near rel (key n)) (hh : h.nodes = baseNodes F rel content + others)
    (hbetween : (blanked rel g).Between (blanked rel h) (blanked rel g')) :
    ∃ size' errors', ∃ new ≤ ownNodes F rel content,
      g'.nodes = fileNode rel size' errors' ::ₘ (others + new) := by
  have hreset : ∀ {ns : Multiset Node}, (∀ n ∈ ns, key n ≠ (.file, rel)) →
      ns.map (resetFile rel 0) = ns := by
    intro ns hns
    refine (map_congr rfl fun n hn => ?_).trans (map_id ns)
    obtain ⟨id, row⟩ := n
    cases row with
    | file name ext size errors => exact if_neg fun hid => hns _ hn (congrArg (Label.file, ·) hid)
    | _ => rfl
  have hfar : ∀ n ∈ others, key n ≠ (.file, rel) := fun n hn hkey =>
    hothers n hn (hkey ▸ Owned.file.near)
  have hown : ∀ n ∈ ownNodes F rel content, key n ≠ (.file, rel) := fun n hn hkey =>
    (ownNodes_owned hn).2 (congrArg Prod.fst hkey)
  have hfile : ∀ size errors, resetFile rel 0 (fileNode rel size errors) = fileNode rel 0 0 :=
    fun size errors => resetFile_fileNode rel 0 size errors
  have hlow : (blanked rel g).nodes = fileNode rel 0 0 ::ₘ others := by
    show g.nodes.map _ = _
    rw [hg, map_cons, hfile, hreset hfar]
  have hhigh : (blanked rel h).nodes = fileNode rel 0 0 ::ₘ others + ownNodes F rel content := by
    show h.nodes.map _ = _
    rw [hh, baseNodes, map_add, map_cons, hfile, hreset hfar, hreset hown,
      cons_add, cons_add, add_comm]
  obtain ⟨new, hnew, hmap⟩ := exists_add_of_between (hlow ▸ hbetween.nodes.1) (by
    rw [← hhigh]
    exact hbetween.nodes.2)
  rw [cons_add] at hmap
  obtain ⟨n, hn, hreset_n, hrest⟩ := (map_eq_cons _ _ _ _).mpr hmap
  obtain ⟨size', errors', rfl⟩ := resetFile_eq_fileNode hreset_n
  refine ⟨size', errors', new, hnew, ?_⟩
  rw [← cons_erase hn, ← hrest, hreset]
  intro m hm hkey
  -- the node of the file is none of the others, nor one of its own
  have hmem : key (resetFile rel 0 m) ∈ (others + new).map key := by
    rw [← hrest]
    exact mem_map_of_mem key (mem_map_of_mem _ hm)
  rw [key_resetFile, hkey] at hmem
  obtain ⟨m', hm', hkey'⟩ := mem_map.mp hmem
  rcases mem_add.mp hm' with hm' | hm'
  · exact hfar m' hm' hkey'
  · exact hown m' (mem_of_le hnew hm') hkey'

theorem Grown.read {stale : Text → Node} {rest : Multiset Node}
    {es : Multiset Edge} (hg : Grown F current changes done stale rest es g)
    (h : changes.Classified current) (hnodup : changes.changedRels.Nodup) (hstale : Stale stale)
    (hbase : Base changes rest es) (hdone : ∀ u ∈ done, u ∈ changes.changedRels) {d : Discovered}
    (hd : d ∈ changes.changed) (hnew : d.rel ∉ done) (hsize : d.size = F.size (current.content d.rel))
    (hcut : g' = reparseModifiedFile F current g d ∨
      (blanked d.rel g).Between (blanked d.rel (reparseModifiedFile F current g d)) (blanked d.rel g')) :
    ∃ stale', Stale stale' ∧ Grown F current changes (d.rel :: done) stale' rest es g' := by
  have hplain : ∀ {u}, u ∈ changes.changedRels → IsFileId u := fun hu =>
    h.plain (ChangeSet.mem_leaving_of_changed hu)
  have hrel : d.rel ∈ changes.changedRels := mem_changedRels hd
  obtain ⟨extra, extraEdges, hnodes, hedges, hextra, hextraEdges⟩ := hg
  obtain ⟨size, errors, hnode⟩ := hstale d.rel
  have hsplit : ∀ stale : Text → Node, (changes.changedRels : Multiset Text).map stale =
      stale d.rel ::ₘ ((changes.changedRels : Multiset Text).erase d.rel).map stale := fun stale => by
    rw [← map_cons, cons_erase hrel]
  have hg : g.nodes = fileNode d.rel size errors ::ₘ
      (((changes.changedRels : Multiset Text).erase d.rel).map stale + rest + extra) := by
    rw [hnodes, hsplit, hnode, cons_add, cons_add]
  have hmem : ∀ u ∈ (changes.changedRels : Multiset Text).erase d.rel,
      u ∈ changes.changedRels ∧ u ≠ d.rel := fun u hu => by
    have := (Multiset.Nodup.mem_erase_iff (coe_nodup.mpr hnodup)).mp hu
    exact ⟨this.2, this.1⟩
  have hothers : ∀ n ∈ ((changes.changedRels : Multiset Text).erase d.rel).map stale + rest + extra,
      ¬Near d.rel (key n) := by
    intro n hn hnear
    rcases mem_add.mp hn with hn | hn
    rcases mem_add.mp hn with hn | hn
    · obtain ⟨u, hu, rfl⟩ := mem_map.mp hn
      rw [hstale.key] at hnear
      obtain ⟨hu, hne⟩ := hmem u hu
      exact hne (Near.unique (hplain hu) (hplain hrel) Owned.file.near hnear)
    · exact hbase.apart n hn d.rel hrel hnear
    · obtain ⟨u, hu, hnear'⟩ := (hextra n hn).2
      exact hnew (Near.unique (hplain (hdone u hu)) (hplain hrel) hnear' hnear ▸ hu)
  have hread := reparseModifiedFile_eq hg hothers hsize
  obtain ⟨size', errors', new, hnewNodes, hg'⟩ : ∃ size' errors',
      ∃ new ≤ ownNodes F d.rel (current.content d.rel), g'.nodes = fileNode d.rel size' errors' ::ₘ
        (((changes.changedRels : Multiset Text).erase d.rel).map stale + rest + extra + new) := by
    rcases hcut with rfl | hbetween
    · refine ⟨F.size (current.content d.rel), fileErrors F d.rel (current.content d.rel), _, le_rfl, ?_⟩
      rw [hread, baseNodes]
      show _ ::ₘ _ + _ = _
      rw [cons_add, add_comm (ownNodes F d.rel _)]
    · exact nodes_of_between hg hothers (congrArg PropertyGraph.nodes hread) hbetween
  obtain ⟨newEdges, hnewEdges, hedges'⟩ : ∃ newEdges ≤ ownEdges F d.rel (current.content d.rel),
      g'.edges = g.edges + newEdges := by
    rcases hcut with rfl | hbetween
    · exact ⟨_, le_rfl, congrArg PropertyGraph.edges hread⟩
    · refine exists_add_of_between hbetween.edges.1 ?_
      have hle := hbetween.edges.2
      rwa [hread] at hle
  refine ⟨Function.update stale d.rel (fileNode d.rel size' errors'), fun u => ?_, extra + new,
    extraEdges + newEdges, ?_, ?_, ?_, ?_⟩
  · by_cases hu : u = d.rel
    · rw [hu, Function.update_self]
      exact ⟨size', errors', rfl⟩
    · rw [Function.update_of_ne hu]
      exact hstale u
  · have hsame : ((changes.changedRels : Multiset Text).erase d.rel).map
        (Function.update stale d.rel (fileNode d.rel size' errors')) =
          ((changes.changedRels : Multiset Text).erase d.rel).map stale :=
      map_congr rfl fun u hu => Function.update_of_ne (hmem u hu).2 _ _
    rw [hg', hsplit, Function.update_self, hsame]
    simp only [cons_add, add_assoc]
  · rw [hedges', hedges, add_assoc]
  · intro n hn
    rcases mem_add.mp hn with hn | hn
    · obtain ⟨hwritten, u, hu, hnear⟩ := hextra n hn
      exact ⟨hwritten, u, List.mem_cons_of_mem _ hu, hnear⟩
    · have hown := mem_of_le hnewNodes hn
      exact ⟨written_ownNodes h hrel hown, d.rel, List.mem_cons_self, (ownNodes_owned hown).1.near⟩
  · intro e he
    rcases mem_add.mp he with he | he
    · exact hextraEdges e he
    · exact writtenEdge_inner h hrel (ownEdges_inner (mem_of_le hnewEdges he))

/-! ## What is derived from the files, as far as it came -/

theorem Grown.add {stale : Text → Node} {rest : Multiset Node} {es : Multiset Edge} (hg : Grown F current changes done stale rest es g) {ns : Multiset Node}
    {news : Multiset Edge} (hnodes : g.nodes ≤ g'.nodes ∧ g'.nodes ≤ g.nodes + ns)
    (hedges : g.edges ≤ g'.edges ∧ g'.edges ≤ g.edges + news)
    (hns : ∀ n ∈ ns, Written F current changes n ∧ ∃ rel ∈ done, Near rel (key n))
    (hnews : ∀ e ∈ news, WrittenEdge changes e) : Grown F current changes done stale rest es g' := by
  obtain ⟨extra, extraEdges, hg, hge, hextra, hextraEdges⟩ := hg
  obtain ⟨new, hnew, hg'⟩ := exists_add_of_between hnodes.1 hnodes.2
  obtain ⟨newEdges, hnewEdges, hge'⟩ := exists_add_of_between hedges.1 hedges.2
  refine ⟨extra + new, extraEdges + newEdges, ?_, ?_, fun n hn => ?_, fun e he => ?_⟩
  · rw [hg', hg, add_assoc]
  · rw [hge', hge, add_assoc]
  · exact (mem_add.mp hn).elim (hextra n) fun hn => hns n (mem_of_le hnew hn)
  · exact (mem_add.mp he).elim (hextraEdges e) fun he =>
      hnews e (mem_of_le hnewEdges he)

section Passes

variable {sources : List Text}

theorem writtenEdge_link (h : changes.Classified current)
    (hrel : rel ∈ changes.changedRels) {fileIds : Finset Text} {content : Content} {e : Edge}
    (he : e ∈ LightLink.candidates F fileIds rel content) : WrittenEdge changes e := by
  have hplain := h.plain (ChangeSet.mem_leaving_of_changed hrel)
  obtain ⟨hsrc, ⟨target, -, hdst⟩, hkind⟩ := LightLink.mem_candidates he
  rw [hplain.relId] at hsrc
  refine ⟨Or.inr (Or.inr (purgedLink_iff.mpr ⟨?_, rel, hrel, hsrc⟩)), ?_, ?_⟩
  · rw [isLightLink, hsrc, hdst]
    rcases hkind with hkind | hkind <;> rw [hkind] <;> rfl
  · rw [hsrc]
    exact owner_of_owned h hrel .file
  · rw [hsrc, hdst]
    exact ⟨by simp, by simp⟩

theorem Grown.links {stale : Text → Node} {rest : Multiset Node}
    {es : Multiset Edge} (hg : Grown F current changes done stale rest es g)
    (h : changes.Classified current) (hsources : ∀ rel ∈ sources, rel ∈ changes.changedRels)
    (hbetween : g.Between (LightLink.linkFileImportsFor F g current sources) g') :
    Grown F current changes done stale rest es g' := by
  have hnone : g'.nodes ≤ g.nodes + 0 := hbetween.nodes.2.trans_eq (add_zero g.nodes).symm
  refine hg.add ⟨hbetween.nodes.1, hnone⟩ ⟨hbetween.edges.1, hbetween.edges.2⟩
    (fun n hn => absurd hn (notMem_zero n)) fun e he => ?_
  · have hstage := (mem_filter.mp he).1
    rw [LightLink.stageSources_eq] at hstage
    obtain ⟨rel, hrel, hcand⟩ := List.mem_flatMap.mp (Unmet.unmet_subset _ _ hstage)
    exact writtenEdge_link h (hsources rel hrel) hcand

/-- The pass over the infrastructure files, as far as it came. -/
theorem Grown.iac {stale : Text → Node} {rest : Multiset Node} {es : Multiset Edge} (hg : Grown F current changes done stale rest es g) (h : changes.Classified current)
    (hsources : ∀ rel ∈ sources, rel ∈ changes.changedRels ∧ rel ∈ done)
    (hbetween : g.Between (Iac.runIacPassFor F g current sources) g') :
    Grown F current changes done stale rest es g' := by
  have hsub : ∀ rel ∈ sources, rel ∈ current.rels := fun rel hrel =>
    h.reparsed rel (changed_read (hsources rel hrel).1)
  obtain ⟨ns, news, heq, hns, hnews⟩ : ∃ ns news,
      Iac.runIacPassFor F g current sources = ⟨g.nodes + ns, g.edges + news⟩ ∧
        (∀ n ∈ ns, Written F current changes n ∧ ∃ rel ∈ done, Near rel (key n)) ∧
          ∀ e ∈ news, WrittenEdge changes e := by
    refine ⟨_, _, PropertyGraph.ext rfl (add_assoc g.edges _ _), fun n hn => ?_, fun e he => ?_⟩
    · obtain ⟨⟨rel, facts⟩, hparsed, hn⟩ := List.mem_flatMap.mp hn
      obtain ⟨hrel, hfacts⟩ := mem_parsed hsub hparsed
      have hfact := Iac.mem_parsed.mpr ⟨facts, hfacts, hn⟩
      exact ⟨written_factNodes h (hsources rel hrel).1 hfact, rel, (hsources rel hrel).2,
        (Iac.factNodes_owned hfact).1.near⟩
    · rcases mem_add.mp he with he | he
      · obtain ⟨⟨rel, facts⟩, hparsed, he⟩ := List.mem_flatMap.mp (mem_filter.mp he).1
        obtain ⟨hrel, hfacts⟩ := mem_parsed hsub hparsed
        exact writtenEdge_inner h (hsources rel hrel).1
          (factEdges_inner (Iac.mem_parsed.mpr ⟨facts, hfacts, he⟩))
      · have hstage := (mem_filter.mp he).1
        rw [Iac.stage_eq] at hstage
        obtain ⟨⟨rel, facts⟩, hparsed, he⟩ := List.mem_flatMap.mp (Unmet.unmet_subset _ _ hstage)
        obtain ⟨hrel, -⟩ := mem_parsed hsub hparsed
        obtain ⟨-, ⟨label, name, hlabel, hsrc⟩, hdst⟩ := Iac.references_ends he
        have howned : Owned rel e.src := hsrc ▸ .named name hlabel
        refine ⟨Or.inl (owned_purged h (hsources rel hrel).1 howned ?_),
          owner_of_owned h (hsources rel hrel).1 howned, howned.near.1, ?_⟩
        · rw [hsrc]
          exact ne_file_of_isScoped hlabel
        · rcases hdst with ⟨target, hdst⟩ | ⟨target, hdst⟩ <;> rw [hdst] <;> exact nofun
  rw [heq] at hbetween
  exact hg.add hbetween.nodes hbetween.edges hns hnews

end Passes

/-! ## The purge, as far as it came -/

theorem purge_drop {p : Key → Bool} {q : Edge → Bool}
    (hp : ∀ k, p k → purgedKey changes k) (hq : ∀ e, q e → purgedLink changes e) :
    purge (g.drop p q) changes = purge g changes := by
  rw [purge_eq_drop, purge_eq_drop, drop_drop]
  refine drop_congr (fun k => ?_) fun e => ?_
  · exact Bool.eq_iff_iff.mpr (Bool.or_eq_true_iff.trans (or_iff_right_of_imp (hp k)))
  · exact Bool.eq_iff_iff.mpr (Bool.or_eq_true_iff.trans (or_iff_right_of_imp (hq e)))

theorem index_torn_purge {st st' : ApplyState} {stmt : Stmt} (hstmt : stmt ∈ purgeStmts changes)
    (htorn : (ApplyState.machine F current).torn st stmt st') :
    ∃ p q, (∀ k, p k → purgedKey changes k) ∧ (∀ e, q e → purgedLink changes e) ∧
      st'.store.index = st.store.index.drop p q := by
  have hno : ∀ e : Edge, (fun _ => false) e → purgedLink changes e := fun _ he =>
    absurd he Bool.false_ne_true
  have hno' : ∀ k : Key, (fun _ => false) k → purgedKey changes k := fun _ hk =>
    absurd hk Bool.false_ne_true
  have hunbegun : ∃ p q, (∀ k, p k → purgedKey changes k) ∧ (∀ e, q e → purgedLink changes e) ∧
      st.store.index = st.store.index.drop p q := ⟨_, _, hno', hno, (drop_nothing _).symm⟩
  cases ApplyState.purges hstmt with
  | @symbols rel hrel =>
      rcases htorn.of_single trivial with rfl | rfl
      · exact hunbegun
      · refine ⟨fun k => inFile rel [] <+: k.stored.2, _, fun k hk => ?_, hno, rfl⟩
        rw [purgedKey_eq]
        exact purgedNode_iff.mpr (Or.inl (inFiles_of_read hrel (of_decide_eq_true hk)))
  | @content rel hrel =>
      rcases htorn.of_single trivial with rfl | rfl
      · exact hunbegun
      · refine ⟨fun k => k.stored = (.fileContent, rel), _, fun k hk => ?_, hno, rfl⟩
        rw [purgedKey_eq, of_decide_eq_true hk]
        exact purgedNode_iff.mpr (Or.inr (Or.inl ⟨rfl, hrel⟩))
  | @node rel hrel =>
      rcases htorn.of_single trivial with rfl | rfl
      · exact hunbegun
      · refine ⟨fun k => k.stored = (.file, rel), _, fun k hk => ?_, hno, rfl⟩
        rw [purgedKey_eq, of_decide_eq_true hk]
        exact purgedNode_iff.mpr (Or.inr (Or.inr ⟨rfl, hrel⟩))
  | @links rel hrel =>
      cases htorn with
      | unbegun => exact hunbegun
      | ended hexec =>
          obtain rfl := Option.some.inj hexec
          exact ⟨_, fun e => isLightLink e && decide (e.src = (.file, rel)), hno',
            fun e he => List.any_eq_true.mpr ⟨rel, hrel, he⟩, rfl⟩
      | unlinked =>
          refine ⟨_, fun e => (isLightLink e && e.kind = .imports) && decide (e.src = (.file, rel)), hno',
            fun e he => List.any_eq_true.mpr ⟨rel, hrel, ?_⟩, rfl⟩
          obtain ⟨hlink, hsrc⟩ := Bool.and_eq_true_iff.mp he
          exact Bool.and_eq_true_iff.mpr ⟨(Bool.and_eq_true_iff.mp hlink).1, hsrc⟩
      | read hreads => exact absurd hreads id
      | derived hderives => exact absurd hderives id

/-! ## The pruning, as far as it came -/

/-- What is left when directories are deleted. -/
def nodesBut (D : Key → Bool) (ns : Multiset Node) : Multiset Node := ns.filter fun n => ¬D (key n)

def edgesBut (D : Key → Bool) (es : Multiset Edge) : Multiset Edge :=
  es.filter fun e => ¬(D e.src ∨ D e.dst)

theorem nodesBut_add (D : Key → Bool) (ns ms : Multiset Node) :
    nodesBut D (ns + ms) = nodesBut D ns + nodesBut D ms := filter_add _ _ _

theorem edgesBut_add (D : Key → Bool) (es ds : Multiset Edge) :
    edgesBut D (es + ds) = edgesBut D es + edgesBut D ds := filter_add _ _ _

theorem Base.but {rest : Multiset Node} {es : Multiset Edge} (h : Base changes rest es)
    (D : Key → Bool) : Base changes (nodesBut D rest) (edgesBut D es) :=
  ⟨fun n hn => h.apart n (mem_filter.mp hn).1,
    fun n hn => h.nodes n (mem_filter.mp hn).1,
    fun e he => h.edges e (mem_filter.mp he).1⟩

variable {D : Key → Bool}

theorem Grown.detachDelete {stale : Text → Node} {rest : Multiset Node}
    {es : Multiset Edge} (hg : Grown F current changes done stale rest es g)
    (hstale : Stale stale) (hD : ∀ k, D k → k.1 = .directory) :
    Grown F current changes done stale (nodesBut D rest) (edgesBut D es) (g.detachDelete D) := by
  obtain ⟨extra, extraEdges, hnodes, hedges, hextra, hextraEdges⟩ := hg
  refine ⟨extra, extraEdges, ?_, ?_, hextra, hextraEdges⟩
  · have hfiles : nodesBut D ((changes.changedRels : Multiset Text).map stale) =
        (changes.changedRels : Multiset Text).map stale := by
      refine filter_eq_self.mpr fun n hn hdir => ?_
      obtain ⟨rel, -, rfl⟩ := mem_map.mp hn
      have hlabel := hD _ hdir
      rw [hstale.key] at hlabel
      cases hlabel
    have hown : nodesBut D extra = extra := filter_eq_self.mpr fun n hn hdir => by
      obtain ⟨-, rel, -, hnear⟩ := hextra n hn
      exact hnear.1 (hD _ hdir)
    show nodesBut D g.nodes = _
    rw [hnodes, nodesBut_add, nodesBut_add, hfiles, hown]
  · have hown : edgesBut D extraEdges = extraEdges := filter_eq_self.mpr fun e he hdir => by
      have hends := (hextraEdges e he).ends
      exact hdir.elim (fun hsrc => hends.1 (hD _ hsrc)) fun hdst => hends.2 (hD _ hdst)
    have hboth : (g.detachDelete D).edges = edgesBut D g.edges :=
      filter_congr fun e _ => by simp
    rw [hboth, hedges, edgesBut_add, hown]

/-! ## The middle of a refresh without new files -/

/-- The classification a refresh without new files is given. -/
structure ChangeSet.Unborn (changes : ChangeSet) (F : FrontEnd Content) (current : SourceTree Content) :
    Prop where
  classified : changes.Classified current
  nodup : changes.changedRels.Nodup
  size : ∀ d ∈ changes.changed, d.size = F.size (current.content d.rel)
  unborn : changes.added = [] ∧ changes.renamed = []

section Middle

variable {rest : Multiset Node} {es : Multiset Edge} {stale : Text → Node}

theorem ChangeSet.Unborn.reparsedSet_eq (h : changes.Unborn F current) :
    changes.reparsedSet = changes.changedRels := by
  rw [ChangeSet.reparsedSet, ChangeSet.newRels, h.unborn.1, h.unborn.2]
  simp

theorem ChangeSet.Unborn.reparse_eq (h : changes.Unborn F current) (g : Graph) :
    reparse F current g changes = changes.changed.foldl (reparseModifiedFile F current) g := by
  rw [reparse, h.unborn.1, h.unborn.2]
  rfl

/-- Reading the modified files ends in the same for any columns they had before. -/
theorem reparse_cleared (h : changes.Unborn F current) (hstale : Stale stale)
    (hbase : Base changes rest es) (hg : Cleared changes stale rest es g) :
    reparse F current (purge g changes) changes =
      ⟨((changes.changedRels : Multiset Text).bind fun rel =>
          baseNodes F rel (current.content rel)) + rest,
        es + (changes.changedRels : Multiset Text).bind fun rel =>
          ownEdges F rel (current.content rel)⟩ := by
  have hedges : es = (purge g changes).edges := by rw [hg]
  rw [h.reparse_eq, hedges]
  refine reparseModifiedFile_run hstale changes.changed h.nodup (fun d hd => ?_) h.size
    (fun n hn d hd => hbase.apart n hn d.rel (mem_changedRels hd)) (congrArg PropertyGraph.nodes hg)
  exact h.classified.plain (ChangeSet.mem_leaving_of_changed (mem_changedRels hd))

def readNode (F : FrontEnd Content) (current : SourceTree Content) (rel : Text) : Node :=
  fileNode rel (F.size (current.content rel)) (fileErrors F rel (current.content rel))

theorem stale_readNode : Stale (readNode F current) := fun _ => ⟨_, _, rfl⟩

theorem grown_reparsed (h : changes.Unborn F current) (hstale : Stale stale)
    (hbase : Base changes rest es) (hg : Cleared changes stale rest es g) :
    Grown F current changes changes.changedRels (readNode F current) rest es
      (reparse F current (purge g changes) changes) := by
  rw [reparse_cleared h hstale hbase hg]
  refine ⟨(changes.changedRels : Multiset Text).bind fun rel => ownNodes F rel (current.content rel),
    _, ?_, rfl, fun n hn => ?_, fun e he => ?_⟩
  · have hsplit : ((changes.changedRels : Multiset Text).bind fun rel =>
          baseNodes F rel (current.content rel)) =
        (changes.changedRels : Multiset Text).map (readNode F current) +
          (changes.changedRels : Multiset Text).bind fun rel =>
            ownNodes F rel (current.content rel) := by
      rw [← bind_singleton, ← bind_add]
      rfl
    show _ + rest = _
    rw [hsplit, add_right_comm]
  · obtain ⟨rel, hrel, hn⟩ := mem_bind.mp hn
    exact ⟨written_ownNodes h.classified hrel hn, rel, hrel, (ownNodes_owned hn).1.near⟩
  · obtain ⟨rel, hrel, he⟩ := mem_bind.mp he
    exact writtenEdge_inner h.classified hrel (ownEdges_inner he)

theorem Grown.stops_changed (h : changes.Unborn F current) (hbase : Base changes rest es) :
    ∀ (ds : List Discovered) {done : List Text} {stale : Text → Node} {st st' : ApplyState},
    (∀ d ∈ ds, d ∈ changes.changed ∧ d.rel ∉ done) → (ds.map Discovered.rel).Nodup →
    (∀ u ∈ done, u ∈ changes.changedRels) → Stale stale →
    Grown F current changes done stale rest es st.store.index →
    (ApplyState.machine F current).Stops (ds.map .reparseModifiedFile) st st' →
    ∃ done' stale', Stale stale' ∧ Grown F current changes done' stale' rest es st'.store.index
  | [], _, _, _, _, _, _, _, _, _, hstop => absurd hstop Cuttable.not_stops_nil
  | d :: ds, done, stale, st, st', hds, hnodup, hdone, hstale, hg, hstop => by
      obtain ⟨hd, hnew⟩ := hds d List.mem_cons_self
      have hread : ∀ {g'}, (g' = reparseModifiedFile F current st.store.index d ∨
          (blanked d.rel st.store.index).Between
            (blanked d.rel (reparseModifiedFile F current st.store.index d)) (blanked d.rel g')) →
          ∃ stale', Stale stale' ∧ Grown F current changes (d.rel :: done) stale' rest es g' :=
        fun hcut => hg.read h.classified h.nodup hstale hbase hdone hd hnew (h.size d hd) hcut
      rcases Cuttable.stops_cons.mp hstop with htorn | ⟨mid, hgo, hstop⟩
      · cases htorn with
        | unbegun => exact ⟨done, stale, hstale, hg⟩
        | ended hexec =>
            obtain rfl := Option.some.inj hexec
            exact ⟨_, hread (Or.inl rfl)⟩
        | read hreads hbetween =>
            obtain rfl := hreads
            exact ⟨_, hread (Or.inr hbetween)⟩
        | derived hderives => exact absurd hderives id
      · obtain rfl := Option.some.inj (hgo.resolve_right fun hlenient => hlenient.1)
        obtain ⟨stale', hstale', hg'⟩ := hread (Or.inl rfl)
        rw [List.map_cons, List.nodup_cons] at hnodup
        refine Grown.stops_changed h hbase ds (fun d' hd' => ?_) hnodup.2 (fun u hu => ?_) hstale' hg' hstop
        · refine ⟨(hds d' (List.mem_cons_of_mem d hd')).1, fun hmem => ?_⟩
          rcases List.mem_cons.mp hmem with heq | hmem
          · exact hnodup.1 (heq ▸ List.mem_map_of_mem hd')
          · exact (hds d' (List.mem_cons_of_mem d hd')).2 hmem
        · rcases List.mem_cons.mp hu with rfl | hu
          · exact mem_changedRels hd
          · exact hdone u hu

/-- The passes out of the modified files, as far as they came. -/
theorem Grown.torn_derived (h : changes.Unborn F current) {st st' : ApplyState} {stmt : Stmt}
    (hstmt : stmt ∈ [Stmt.linkFileImportsFor (ApplyState.sources changes current),
      .runIacPassFor (ApplyState.sources changes current)])
    (hg : Grown F current changes changes.changedRels stale rest es st.store.index)
    (htorn : (ApplyState.machine F current).torn st stmt st') :
    Grown F current changes changes.changedRels stale rest es st'.store.index := by
  have hsources : ∀ rel ∈ ApplyState.sources changes current, rel ∈ changes.changedRels :=
    fun rel hrel => h.reparsedSet_eq ▸ (ApplyState.mem_sources.mp hrel).2
  simp only [List.mem_cons, List.not_mem_nil, or_false] at hstmt
  rcases hstmt with rfl | rfl
  · cases htorn with
    | unbegun => exact hg
    | ended hexec =>
        obtain rfl := Option.some.inj hexec
        refine hg.links h.classified hsources ⟨⟨le_rfl, le_rfl⟩, le_add_right _ _, le_rfl⟩
    | read hreads => exact absurd hreads id
    | derived _ hbetween => exact hg.links h.classified hsources hbetween
  · have hboth : ∀ rel ∈ ApplyState.sources changes current,
        rel ∈ changes.changedRels ∧ rel ∈ changes.changedRels := fun rel hrel =>
      ⟨hsources rel hrel, hsources rel hrel⟩
    cases htorn with
    | unbegun => exact hg
    | ended hexec =>
        obtain rfl := Option.some.inj hexec
        refine hg.iac h.classified hboth ⟨⟨le_add_right _ _, le_rfl⟩, ?_, le_rfl⟩
        exact (le_add_right _ _).trans (le_add_right _ _)
    | read hreads => exact absurd hreads id
    | derived _ hbetween => exact hg.iac h.classified hboth hbetween

/-- Some of the directories that the pruning deletes, if there is one. -/
structure Pruned (changes : ChangeSet) (most D : Key → Bool) : Prop where
  sub : ∀ k, D k → most k
  none : changes.deleted = [] → ∀ k, ¬D k

theorem Pruned.nothing (most : Key → Bool) : Pruned changes most fun _ => false :=
  ⟨fun _ hk => absurd hk Bool.false_ne_true, fun _ _ => Bool.false_ne_true⟩

theorem nodesBut_nothing : nodesBut (fun _ => false) rest = rest :=
  filter_eq_self.mpr fun _ _ => Bool.false_ne_true

theorem edgesBut_nothing : edgesBut (fun _ => false) es = es :=
  filter_eq_self.mpr fun _ _ => by simp

/-- Behind the purge: what was written, and perhaps fewer directories. -/
def Middle (F : FrontEnd Content) (current : SourceTree Content) (changes : ChangeSet)
    (most : Key → Bool) (rest : Multiset Node) (es : Multiset Edge) (g : Graph) : Prop :=
  ∃ done stale D, Stale stale ∧ Pruned changes most D ∧
    Grown F current changes done stale (nodesBut D rest) (edgesBut D es) g

theorem Grown.middle {most : Key → Bool}
    (hg : Grown F current changes done stale rest es g) (hstale : Stale stale) :
    Middle F current changes most rest es g := by
  refine ⟨done, stale, fun _ => false, hstale, .nothing most, ?_⟩
  rwa [nodesBut_nothing, edgesBut_nothing]

theorem sources_def : (current.rels.sort (· ≤ ·)).filter (· ∈ changes.reparsedSet) =
    ApplyState.sources changes current := rfl

/-- The files are read and derived from, but for the directories under `D`. -/
def ReadBut (F : FrontEnd Content) (current : SourceTree Content) (changes : ChangeSet)
    (rest : Multiset Node) (es : Multiset Edge) (D : Key → Bool) (g : Graph) : Prop :=
  Grown F current changes changes.changedRels (readNode F current) (nodesBut D rest) (edgesBut D es) g

theorem ReadBut.middle {most : Key → Bool}
    (hg : ReadBut F current changes rest es D g) (hD : Pruned changes most D) :
    Middle F current changes most rest es g := ⟨_, _, D, stale_readNode, hD, hg⟩

section Phases

variable {most : Key → Bool} {st mid : ApplyState}

/-- The statements behind the pruning. -/
def derivingStmts (current : SourceTree Content) (changes : ChangeSet) : List Stmt :=
  if ApplyState.sources changes current ≠ [] then
    [.linkFileImportsFor (ApplyState.sources changes current),
      .runIacPassFor (ApplyState.sources changes current)]
  else []

theorem passStmts_eq (h : changes.Unborn F current) : passStmts changes current =
    (if changes.deleted ≠ [] then [.pruneOrphanDirectories] else []) ++
      derivingStmts current changes := by
  rw [passStmts, sources_def, h.unborn.2, derivingStmts]
  simp

/-- The passes, as far as they came. -/
theorem ReadBut.reaches_deriving (h : changes.Unborn F current)
    (hg : ReadBut F current changes rest es D st.store.index)
    (hrun : (ApplyState.machine F current).Reaches (derivingStmts current changes) st mid) :
    ReadBut F current changes rest es D mid.store.index := by
  have hstep : ∀ stmt ∈ derivingStmts current changes, ∀ st st' : ApplyState,
      ReadBut F current changes rest es D st.store.index →
      (ApplyState.machine F current).torn st stmt st' →
      ReadBut F current changes rest es D st'.store.index := by
    intro stmt hstmt st st' hg htorn
    rw [derivingStmts] at hstmt
    split at hstmt
    · exact Grown.torn_derived h hstmt hg htorn
    · cases hstmt
  exact hrun.inv (I := fun st => ReadBut F current changes rest es D st.store.index) hstep hg

/-- Some of the directories are deleted. -/
theorem ReadBut.pruned (hdir : ∀ k, most k → k.1 = .directory)
    (hg : Grown F current changes changes.changedRels (readNode F current) rest es g) (hD : ∀ k, D k → most k) :
    ReadBut F current changes rest es D (g.detachDelete D) :=
  Grown.detachDelete hg stale_readNode fun k hk => hdir k (hD k hk)

theorem middle_torn_prune (hdel : changes.deleted ≠ [])
    (hmost : pruneOrphanDirectories st.store.index = st.store.index.detachDelete most)
    (hdir : ∀ k, most k → k.1 = .directory)
    (hg : Grown F current changes changes.changedRels (readNode F current) rest es st.store.index)
    (htorn : (ApplyState.machine F current).torn st .pruneOrphanDirectories mid) :
    Middle F current changes most rest es mid.store.index := by
  have hpart : ∀ {D : Key → Bool}, (∀ k, D k → most k) →
      Middle F current changes most rest es (st.store.index.detachDelete D) := fun hD =>
    (ReadBut.pruned hdir hg hD).middle ⟨hD, fun hnil => absurd hnil hdel⟩
  cases htorn with
  | unbegun => exact hg.middle stale_readNode
  | ended hexec =>
      obtain rfl := Option.some.inj hexec
      have hall := hpart fun _ hk => hk
      rwa [← hmost] at hall
  | pruned sel =>
      refine hpart fun k hk => ?_
      simp only [Bool.and_eq_true, decide_eq_true_eq] at hk
      by_contra hnot
      refine hk.2 ?_
      rw [hmost]
      exact mem_keys_drop.mpr ⟨hk.1.2, hnot⟩
  | read hreads => exact absurd hreads id
  | derived hderives => exact absurd hderives id

/-- The pruning and the passes, as far as they came. -/
theorem middle_passStmts (h : changes.Unborn F current)
    (hmost : pruneOrphanDirectories st.store.index = st.store.index.detachDelete most)
    (hdir : ∀ k, most k → k.1 = .directory)
    (hg : Grown F current changes changes.changedRels (readNode F current) rest es st.store.index)
    (hrun : (ApplyState.machine F current).Reaches (passStmts changes current) st mid) :
    Middle F current changes most rest es mid.store.index := by
  rw [passStmts_eq h, Cuttable.reaches_append] at hrun
  have hnothing : ReadBut F current changes rest es (fun _ => false) st.store.index := by
    rwa [ReadBut, nodesBut_nothing, edgesBut_nothing]
  by_cases hdel : changes.deleted = []
  · rw [if_neg (not_not.mpr hdel)] at hrun
    rcases hrun with hstop | ⟨st', hst', hrun⟩
    · exact absurd hstop Cuttable.not_stops_nil
    · obtain rfl := Cuttable.completes_nil.mp hst'
      exact (hnothing.reaches_deriving h hrun).middle (.nothing most)
  · rw [if_pos hdel] at hrun
    rcases hrun with hstop | ⟨st', hst', hrun⟩
    · rcases Cuttable.stops_cons.mp hstop with htorn | ⟨_, _, hstop⟩
      · exact middle_torn_prune hdel hmost hdir hg htorn
      · exact absurd hstop Cuttable.not_stops_nil
    · have hexec := hst'.eq_run fun stmt hstmt => by
        obtain rfl := List.mem_singleton.mp hstmt
        exact id
      obtain rfl := Option.some.inj hexec
      have hall : ReadBut F current changes rest es most (pruneOrphanDirectories st.store.index) := by
        rw [hmost]
        exact ReadBut.pruned hdir hg fun _ hk => hk
      refine (hall.reaches_deriving h hrun).middle ⟨fun _ hk => hk, fun hnil => absurd hnil hdel⟩

end Phases

end Middle

end CodeGraph
