import CodeGraph.IndexLinks

/-!
# The graph of a tree

What the full index leaves is a sum: the nodes and the edges of each file, the
directories the files lie in, and the links out of each file. Only the links
look at other files.
-/

namespace CodeGraph

open PropertyGraph Keyed

section Closed

variable {Content : Type} (F : FrontEnd Content) (tree : SourceTree Content)

def fileNodes (rel : Text) (content : Content) : Multiset Node :=
  baseNodes F rel content + (Iac.factNodes F rel content : Multiset Node)

def fileEdges (rel : Text) (content : Content) : Multiset Edge :=
  baseEdges F rel content + (Iac.factEdges F rel content : Multiset Edge)

def treeNodes : Multiset Node :=
  (tree.rels.val.bind fun rel => fileNodes F rel (tree.content rel)) +
    (dirsOf tree.rels).val.map dirNode

def treeEdges : Multiset Edge :=
  (tree.rels.val.bind fun rel => fileEdges F rel (tree.content rel)) +
    (dirsOf tree.rels).val.bind fun dir => (dirEdges dir : Multiset Edge)

def treeKeys : Multiset Key := (treeNodes F tree).map key

def treeIndexes : Iac.ResolutionIndexes := .build F (treeNodes F tree) tree.rels

/-- The edges out of a file into files of the tree, as a pass over the whole tree
resolves them. -/
def linksOut (rel : Text) : Multiset Edge :=
  (LightLink.links F tree.rels rel (tree.content rel) : Multiset Edge) +
    (Iac.refs F rel (tree.content rel) (treeIndexes F tree) : Multiset Edge).filter
      (Lands (treeKeys F tree))

variable {F tree}

theorem fileNodes_owned {rel : Text} {content : Content} {n : Node}
    (h : n ∈ fileNodes F rel content) : Owned rel (key n) := by
  rcases Multiset.mem_add.mp h with h | h
  · exact baseNodes_owned h
  · exact (Iac.factNodes_owned h).1

theorem indexFiles_eq :
    (indexFiles F tree { store := .empty } (tree.rels.sort (· ≤ ·))).settled =
      ⟨(tree.rels.val.bind fun rel => baseNodes F rel (tree.content rel)) +
          (dirsOf tree.rels).val.map dirNode,
        (tree.rels.val.bind fun rel => baseEdges F rel (tree.content rel)) +
          (dirsOf tree.rels).val.bind fun dir => (dirEdges dir : Multiset Edge)⟩ := by
  have hempty : Holds ∅ 0 0 { store := .empty } :=
    ⟨⟨fun _ => nofun, fun n hn => absurd hn (Multiset.notMem_zero n),
      fun dir hdir => absurd hdir (Finset.notMem_empty dir),
      fun e he => absurd he (Multiset.notMem_zero e), fun k hk => absurd hk (Finset.notMem_empty k),
      fun k hk => absurd hk (Finset.notMem_empty k)⟩, rfl, rfl⟩
  have hrun := holds_indexFiles (F := F) tree hempty (tree.rels.sort_nodup (· ≤ ·)) fun rel hrel =>
    ⟨(Finset.mem_sort _).mp hrel, Set.notMem_empty rel⟩
  have hdirs := dirs_indexFiles (F := F) tree { store := .empty } (tree.rels.sort (· ≤ ·))
  rw [Finset.sort_toFinset, Finset.empty_union] at hdirs
  ext1
  · rw [hrun.nodes_eq, hdirs, Finset.sort_eq, zero_add]
  · rw [hrun.edges_eq, hdirs, Finset.sort_eq, zero_add]

theorem file_mem_keys {ns : Multiset Node} {rel : Text} (h : rel ∈ tree.rels) :
    ((.file, rel) : Key) ∈ ((tree.rels.val.bind fun rel => baseNodes F rel (tree.content rel)) +
      ns).map key := by
  rw [Multiset.map_add, Multiset.map_bind]
  refine Multiset.mem_add.mpr (Or.inl (Multiset.mem_bind.mpr ⟨rel, h, ?_⟩))
  exact Multiset.mem_map_of_mem key (Multiset.mem_cons_self _ _)

theorem indexCodebase_eq : indexCodebase F tree =
    ⟨treeNodes F tree, treeEdges F tree + tree.rels.val.bind (linksOut F tree)⟩ := by
  have hnodup : (tree.rels.sort (· ≤ ·)).Nodup := tree.rels.sort_nodup (· ≤ ·)
  have hsub : ∀ rel ∈ tree.rels.sort (· ≤ ·), rel ∈ tree.rels := fun rel hrel =>
    (Finset.mem_sort _).mp hrel
  have hfiles : ∀ es : Multiset Edge, ∀ rel ∈ tree.rels, ((.file, rel) : Key) ∈
      (⟨(tree.rels.val.bind fun rel => baseNodes F rel (tree.content rel)) +
        (dirsOf tree.rels).val.map dirNode, es⟩ : Graph).keys := fun _ _ hrel => file_mem_keys hrel
  rw [indexCodebase, indexFiles_eq, LightLink.linkFileImportsFor_eq hnodup hsub (hfiles _),
    Iac.runIacPassFor_eq hnodup hsub (hfiles _), Finset.sort_eq]
  have hnodes : (tree.rels.val.bind fun rel => baseNodes F rel (tree.content rel)) +
      (dirsOf tree.rels).val.map dirNode + (tree.rels.val.bind fun rel =>
        (Iac.factNodes F rel (tree.content rel) : Multiset Node)) = treeNodes F tree := by
    rw [treeNodes, show (tree.rels.val.bind fun rel => fileNodes F rel (tree.content rel)) = _ from
      Multiset.bind_add _ _ _]
    ac_rfl
  have hlinks : tree.rels.val.bind (linksOut F tree) =
      (tree.rels.val.bind fun rel =>
        (LightLink.links F tree.rels rel (tree.content rel) : Multiset Edge)) +
      tree.rels.val.bind fun rel =>
        (Iac.refs F rel (tree.content rel) (treeIndexes F tree) : Multiset Edge).filter
          (Lands (treeKeys F tree)) :=
    Multiset.bind_add _ _ _
  have hedges : treeEdges F tree = (tree.rels.val.bind fun rel =>
      baseEdges F rel (tree.content rel)) + (tree.rels.val.bind fun rel =>
        (Iac.factEdges F rel (tree.content rel) : Multiset Edge)) +
      (dirsOf tree.rels).val.bind fun dir => (dirEdges dir : Multiset Edge) := by
    rw [treeEdges, ← Multiset.bind_add]
    rfl
  dsimp only
  rw [hnodes, hlinks, hedges]
  ext1
  · rfl
  · show _ + _ + _ + _ + _ = _ + _ + _ + (_ + _)
    rw [treeIndexes, treeKeys]
    ac_rfl

end Closed

end CodeGraph
