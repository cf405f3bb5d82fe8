import CodeGraph.IndexLoop

/-!
# The links out of a file

The two passes behind the loop draw the edges out of each source on its own: the
light links, resolved against the file ids, and the references of an
infrastructure file, resolved against the ids and the infrastructure nodes.
-/

namespace CodeGraph

open Option List PropertyGraph Unmet Keyed

theorem IsFileId.relId {rel : Text} (h : IsFileId rel) : relId rel = rel := by
  rw [CodeGraph.relId, forwardSlashes]
  refine (map_congr_left fun c hc => if_neg ?_).trans (map_id rel)
  rintro rfl
  exact h.forward hc

theorem SourceTree.image_relId {Content : Type} (tree : SourceTree Content) :
    tree.rels.image relId = tree.rels := by
  rw [Finset.image_congr fun rel hrel => (tree.plain rel hrel).relId]
  exact Finset.image_id

/-! ## Light links -/

namespace LightLink

section Resolve

variable {fileIds : Finset Text} {fromId : Text}

theorem resolveVarPrefixed_mem {remainder target : Text}
    (h : resolveVarPrefixed fileIds remainder = some target) : target ∈ fileIds := by
  rw [resolveVarPrefixed] at h
  split at h
  case isTrue hmem =>
    cases h
    exact hmem
  case isFalse =>
    split at h
    next hfound =>
      cases h
      have hmem : target ∈ (fileIds.sort (· ≤ ·)).filter fun id => '/' :: remainder <:+ id := by
        rw [hfound]
        exact mem_singleton_self target
      exact (Finset.mem_sort _).mp (mem_filter.mp hmem).1
    next => cases h

theorem resolve_mem {spec : Specifier} {target : Text}
    (h : resolve fileIds fromId spec = some target) : target ∈ fileIds := by
  rw [resolve] at h
  split at h
  · rw [resolveSpecifier] at h
    simpa using find?_some h
  · exact resolveVarPrefixed_mem h
  · rw [resolveExact] at h
    simpa using find?_some h

def linkEnds (e : Edge) : Text × Text := (e.src.2, e.dst.2)

def specEdge (fileIds : Finset Text) (fromId : Text) (kind : EdgeKind) (spec : Specifier) :
    Option Edge :=
  ((resolve fileIds fromId spec).filter (· ≠ fromId)).map fun target =>
    linkEdge kind fromId target spec.method

theorem stageEdges_eq (kind : EdgeKind) (specs : List Specifier) (seen : Finset (Text × Text)) :
    stageEdges fileIds fromId kind specs seen =
      (unmet linkEnds (specs.filterMap (specEdge fileIds fromId kind)) seen,
        seen ∪ keysOf linkEnds (specs.filterMap (specEdge fileIds fromId kind))) := by
  induction specs generalizing seen with
  | nil => simp [stageEdges, unmet, keysOf]
  | cons spec specs ih =>
      rw [stageEdges, filterMap_cons]
      cases hres : resolve fileIds fromId spec with
      | none => simp [specEdge, hres, ih]
      | some target =>
          by_cases hself : target = fromId
          · have hnone : specEdge fileIds fromId kind spec = none := by
              rw [specEdge, hres, filter_some, if_neg (by simp [hself])]
              rfl
            simp [hnone, hself, ih]
          have hedge : specEdge fileIds fromId kind spec =
              some (linkEdge kind fromId target spec.method) := by
            simp [specEdge, hres, hself]
          have hends : linkEnds (linkEdge kind fromId target spec.method) = (fromId, target) := rfl
          by_cases hseen : (fromId, target) ∈ seen
          · simp only [hedge, hself, hseen, or_true, if_true, ih, unmet, hends, keysOf_cons,
              Finset.union_insert, Finset.insert_eq_of_mem (Finset.mem_union_left _ hseen)]
          · simp only [hedge, hself, hseen, or_false, if_false, ih, unmet, hends, keysOf_cons,
              Finset.insert_union_comm]

end Resolve

section Sources

variable {Content : Type} (F : FrontEnd Content) (fileIds : Finset Text)

/-- The edges of all the specifiers of a file. -/
def candidates (rel : Text) (content : Content) : List Edge :=
  match specsForFile F rel content with
  | none => []
  | some (kind, specs) => specs.filterMap (specEdge fileIds (relId rel) kind)

/-- The light links out of a file. -/
def links (rel : Text) (content : Content) : List Edge :=
  unmet linkEnds (candidates F fileIds rel content) ∅

theorem stageSources_eq (content : Text → Content) (sources : List Text)
    (seen : Finset (Text × Text)) : stageSources F fileIds content sources seen =
      unmet linkEnds (sources.flatMap fun rel => candidates F fileIds rel (content rel)) seen := by
  induction sources generalizing seen with
  | nil => rfl
  | cons rel sources ih =>
      rw [stageSources, flatMap_cons]
      cases hspecs : specsForFile F rel (content rel) with
      | none => simp [candidates, hspecs, ih]
      | some specs =>
          obtain ⟨kind, specs⟩ := specs
          simp only [stageEdges_eq, candidates, hspecs, unmet_append, ih]

variable {F fileIds} {rel : Text} {content : Content}

theorem specsForFile_kind {kind : EdgeKind} {specs : List Specifier}
    (h : specsForFile F rel content = some (kind, specs)) : kind = .imports ∨ kind = .references := by
  rw [specsForFile] at h
  split at h
  · obtain ⟨_, -, hsome⟩ := map_eq_some_iff.mp h
    cases hsome
    exact Or.inl rfl
  split at h
  · obtain ⟨_, -, hsome⟩ := map_eq_some_iff.mp h
    cases hsome
    exact Or.inr rfl
  split at h
  · obtain ⟨_, -, hsome⟩ := map_eq_some_iff.mp h
    cases hsome
    exact Or.inr rfl
  · cases h

theorem mem_candidates {e : Edge} (h : e ∈ candidates F fileIds rel content) :
    e.src = (.file, relId rel) ∧ (∃ target ∈ fileIds, e.dst = (.file, target)) ∧
      (e.kind = .imports ∨ e.kind = .references) := by
  rw [candidates] at h
  split at h
  · cases h
  next kind specs hspecs =>
    obtain ⟨spec, -, hspec⟩ := mem_filterMap.mp h
    obtain ⟨target, htarget, rfl⟩ := map_eq_some_iff.mp hspec
    exact ⟨rfl, ⟨target, resolve_mem (filter_eq_some_iff.mp htarget).1, rfl⟩,
      specsForFile_kind hspecs⟩

theorem mem_links {e : Edge} (h : e ∈ links F fileIds rel content) :
    e.src = (.file, relId rel) ∧ (∃ target ∈ fileIds, e.dst = (.file, target)) ∧
      (e.kind = .imports ∨ e.kind = .references) :=
  mem_candidates (unmet_subset _ _ h)

end Sources

section Pass

variable {Content : Type} {F : FrontEnd Content} {tree : SourceTree Content}

theorem stageSources_flatMap {sources : List Text} (hnodup : sources.Nodup)
    (hsub : ∀ rel ∈ sources, rel ∈ tree.rels) :
    stageSources F tree.rels tree.content sources ∅ =
      sources.flatMap fun rel => links F tree.rels rel (tree.content rel) := by
  rw [stageSources_eq]
  refine unmet_flatMap _ hnodup ?_
  intro rel hrel u hu hne
  rw [Finset.disjoint_left]
  intro k hk hk'
  obtain ⟨e, he, rfl⟩ := mem_keysOf.mp hk
  obtain ⟨e', he', hends⟩ := mem_keysOf.mp hk'
  have hsrc : relId u = relId rel := by
    have h : e'.src.2 = e.src.2 := congrArg Prod.fst hends
    rwa [(mem_candidates he).1, (mem_candidates he').1] at h
  rw [(tree.plain u (hsub u hu)).relId, (tree.plain rel (hsub rel hrel)).relId] at hsrc
  exact hne hsrc.symm

theorem linkFileImportsFor_eq {g : Graph} {sources : List Text} (hnodup : sources.Nodup)
    (hsub : ∀ rel ∈ sources, rel ∈ tree.rels)
    (hfiles : ∀ rel ∈ tree.rels, ((.file, rel) : Key) ∈ g.keys) :
    linkFileImportsFor F g tree sources =
      { g with
        edges := g.edges + (sources : Multiset Text).bind fun rel =>
          (links F tree.rels rel (tree.content rel) : Multiset Edge) } := by
  rw [linkFileImportsFor, tree.image_relId, stageSources_flatMap hnodup hsub, insertEdges,
    Multiset.coe_bind, Multiset.filter_eq_self.mpr]
  intro e he
  obtain ⟨rel, hrel, he⟩ := mem_flatMap.mp he
  obtain ⟨hsrc, ⟨target, htarget, hdst⟩, -⟩ := mem_links he
  rw [(tree.plain rel (hsub rel hrel)).relId] at hsrc
  rw [Lands, linked_src, linked_dst, hsrc, hdst]
  exact ⟨hfiles rel (hsub rel hrel), hfiles target htarget⟩

end Pass

end LightLink

/-! ## Infrastructure -/

namespace Iac

def refEnds (e : Edge) : Key × Key := (e.src, e.dst)

theorem stage_eq (es : List Edge) (seen : Finset (Key × Key)) :
    stage es seen = unmet refEnds es seen := by
  induction es generalizing seen with
  | nil => rfl
  | cons e es ih => rw [stage, unmet, ih, ih]; rfl

section Facts

variable {Content : Type} (F : FrontEnd Content) (rel : Text) (content : Content)

/-- The infrastructure nodes of a file. -/
def factNodes : List Node := ((parse F rel content).map (nodes rel)).getD []

/-- Their edges to the file and to each other. -/
def factEdges : List Edge := ((parse F rel content).map (edges rel)).getD []

/-- The references out of them. -/
def refs (idx : ResolutionIndexes) : List Edge :=
  ((parse F rel content).map fun facts => unmet refEnds (references idx rel facts) ∅).getD []

variable {F rel content}

theorem nodes_owned {facts : IacFacts} {n : Node} (h : n ∈ nodes rel facts) :
    Owned rel (key n) ∧ (key n).1 ≠ .file := by
  have himage : ∀ name reference, Owned rel (key (imageNode (inFile rel name) reference)) ∧
      (key (imageNode (inFile rel name) reference)).1 ≠ .file := fun name reference =>
    ⟨.named name rfl, nofun⟩
  cases facts with
  | dockerfile info =>
      rcases mem_cons.mp h with rfl | h
      · exact ⟨.named _ rfl, nofun⟩
      · obtain ⟨i, hi, rfl⟩ := mem_mapIdx.mp h
        exact himage _ _
  | manifest docs =>
      obtain ⟨emitted, hdoc, h⟩ := mem_flatten.mp h
      obtain ⟨docIdx, hdocIdx, rfl⟩ := mem_mapIdx.mp hdoc
      rcases mem_cons.mp h with rfl | h
      · exact ⟨.named _ rfl, nofun⟩
      · obtain ⟨i, hi, rfl⟩ := mem_mapIdx.mp h
        exact himage _ _
  | kustomization kust =>
      obtain rfl := mem_singleton.mp h
      exact ⟨.named _ rfl, nofun⟩

theorem edges_ends {facts : IacFacts} {e : Edge} (h : e ∈ edges rel facts) :
    (e.src = (.file, rel) ∨ e.src ∈ (nodes rel facts).map key) ∧
      e.dst ∈ (nodes rel facts).map key := by
  cases facts with
  | dockerfile info =>
      rcases mem_cons.mp h with rfl | h
      · exact ⟨Or.inl rfl, mem_map_of_mem mem_cons_self⟩
      · obtain ⟨i, hi, rfl⟩ := mem_mapIdx.mp h
        refine ⟨Or.inr (mem_map_of_mem mem_cons_self),
          mem_map.mpr ⟨imageNode (imageId rel i) info.stageImages[i], ?_, rfl⟩⟩
        exact mem_cons_of_mem _ (mem_mapIdx.mpr ⟨i, hi, rfl⟩)
  | manifest docs =>
      obtain ⟨emitted, hdoc, h⟩ := mem_flatten.mp h
      obtain ⟨docIdx, hdocIdx, rfl⟩ := mem_mapIdx.mp hdoc
      have hmem : ∀ {n : Node}, n ∈ ⟨manifestId rel docIdx,
            .iacResource (manifestResource rel docs[docIdx])⟩ ::
          docs[docIdx].images.mapIdx (fun i image => imageNode (manifestImageId rel docIdx i) image) →
          n ∈ nodes rel (.manifest docs) := fun hn =>
        mem_flatten.mpr ⟨_, mem_mapIdx.mpr ⟨docIdx, hdocIdx, rfl⟩, hn⟩
      rcases mem_cons.mp h with rfl | h
      · exact ⟨Or.inl rfl, mem_map.mpr ⟨_, hmem mem_cons_self, rfl⟩⟩
      · obtain ⟨i, hi, rfl⟩ := mem_mapIdx.mp h
        refine ⟨Or.inr (mem_map.mpr ⟨_, hmem mem_cons_self, rfl⟩),
          mem_map.mpr ⟨imageNode (manifestImageId rel docIdx i) docs[docIdx].images[i],
            hmem (mem_cons_of_mem _ ?_), rfl⟩⟩
        exact mem_mapIdx.mpr ⟨i, hi, rfl⟩
  | kustomization kust =>
      obtain rfl := mem_singleton.mp h
      exact ⟨Or.inl rfl, mem_singleton_self _⟩

theorem references_ends {idx : ResolutionIndexes} {facts : IacFacts} {e : Edge}
    (h : e ∈ references idx rel facts) :
    e.kind = .imports ∧ (∃ label name, label.isScoped ∧ e.src = (label, inFile rel name)) ∧
      ((∃ target, e.dst = (.file, target)) ∨ ∃ target, e.dst = (.iacModule, kustomizeId target)) := by
  cases facts with
  | dockerfile info =>
      obtain ⟨src, -, hsrc⟩ := mem_filterMap.mp h
      obtain ⟨target, -, rfl⟩ := map_eq_some_iff.mp hsrc
      exact ⟨rfl, ⟨_, _, rfl, rfl⟩, Or.inl ⟨target, rfl⟩⟩
  | manifest docs =>
      obtain ⟨staged, hdoc, h⟩ := mem_flatten.mp h
      obtain ⟨docIdx, hdocIdx, rfl⟩ := mem_mapIdx.mp hdoc
      rcases mem_append.mp h with h | h
      · obtain ⟨image, -, himage⟩ := mem_filterMap.mp h
        obtain ⟨target, -, rfl⟩ := map_eq_some_iff.mp himage
        exact ⟨rfl, ⟨_, _, rfl, rfl⟩, Or.inl ⟨target, rfl⟩⟩
      · obtain ⟨cref, -, hcref⟩ := mem_filterMap.mp h
        obtain ⟨target, -, rfl⟩ := map_eq_some_iff.mp hcref
        exact ⟨rfl, ⟨_, _, rfl, rfl⟩, Or.inl ⟨target, rfl⟩⟩
  | kustomization kust =>
      obtain ⟨spec, -, hspec⟩ := mem_filterMap.mp h
      obtain ⟨target, -, rfl⟩ := map_eq_some_iff.mp hspec
      split
      · exact ⟨rfl, ⟨_, _, rfl, rfl⟩, Or.inr ⟨target, rfl⟩⟩
      · exact ⟨rfl, ⟨_, _, rfl, rfl⟩, Or.inl ⟨target, rfl⟩⟩

theorem mem_parsed {α : Type} {f : IacFacts → List α} {a : α} :
    a ∈ ((parse F rel content).map f).getD [] ↔ ∃ facts, parse F rel content = some facts ∧ a ∈ f facts := by
  cases parse F rel content with
  | none => simp
  | some facts => simp

theorem factNodes_owned {n : Node} (h : n ∈ factNodes F rel content) :
    Owned rel (key n) ∧ (key n).1 ≠ .file := by
  obtain ⟨facts, -, h⟩ := mem_parsed.mp h
  exact nodes_owned h

theorem factEdges_ends {e : Edge} (h : e ∈ factEdges F rel content) :
    (e.src = (.file, rel) ∨ e.src ∈ (factNodes F rel content).map key) ∧
      e.dst ∈ (factNodes F rel content).map key := by
  obtain ⟨facts, hparse, h⟩ := mem_parsed.mp h
  rw [factNodes, hparse]
  exact edges_ends h

theorem refs_ends {idx : ResolutionIndexes} {e : Edge} (h : e ∈ refs F rel content idx) :
    e.kind = .imports ∧ (∃ label name, label.isScoped ∧ e.src = (label, inFile rel name)) ∧
      ((∃ target, e.dst = (.file, target)) ∨ ∃ target, e.dst = (.iacModule, kustomizeId target)) := by
  obtain ⟨facts, -, h⟩ := mem_parsed.mp h
  exact references_ends (unmet_subset _ _ h)

end Facts

section Pass

variable {Content : Type} {F : FrontEnd Content} {tree : SourceTree Content}

theorem flatMap_parsed {α : Type} (f : Text → IacFacts → List α) {sources : List Text}
    (hsub : ∀ rel ∈ sources, rel ∈ tree.rels) :
    (sources.filterMap fun rel =>
        (parse F rel (tree.content rel)).map fun facts => (relId rel, facts)).flatMap
        (fun p => f p.1 p.2) =
      sources.flatMap fun rel => ((parse F rel (tree.content rel)).map (f rel)).getD [] := by
  induction sources with
  | nil => rfl
  | cons rel sources ih =>
      have hrel : relId rel = rel := (tree.plain rel (hsub rel mem_cons_self)).relId
      have ih := ih fun u hu => hsub u (mem_cons_of_mem rel hu)
      rw [filterMap_cons, flatMap_cons]
      cases hparse : parse F rel (tree.content rel) with
      | none => simpa using ih
      | some facts => simpa [hrel] using ih

theorem stage_flatMap (idx : ResolutionIndexes) {sources : List Text} (hnodup : sources.Nodup)
    (hsub : ∀ rel ∈ sources, rel ∈ tree.rels) :
    stage (sources.flatMap fun rel =>
        ((parse F rel (tree.content rel)).map (references idx rel)).getD []) ∅ =
      sources.flatMap fun rel => refs F rel (tree.content rel) idx := by
  have hsrc : ∀ rel ∈ sources, ∀ k ∈ keysOf refEnds
      (((parse F rel (tree.content rel)).map (references idx rel)).getD []), Near rel k.1 := by
    intro rel _ k hk
    obtain ⟨e, he, rfl⟩ := mem_keysOf.mp hk
    obtain ⟨facts, -, he⟩ := mem_parsed.mp he
    obtain ⟨-, ⟨label, name, hlabel, hsrc⟩, -⟩ := references_ends he
    show Near rel e.src
    exact hsrc ▸ (Owned.named name hlabel).near
  refine (stage_eq _ _).trans ((unmet_flatMap _ hnodup fun rel hrel u hu hne => ?_).trans ?_)
  · rw [Finset.disjoint_left]
    intro k hk hk'
    exact hne ((hsrc rel hrel k hk).unique (tree.plain rel (hsub rel hrel))
      (tree.plain u (hsub u hu)) (hsrc u hu k hk'))
  · refine flatMap_congr ?_
    intro rel _
    rw [refs]
    cases parse F rel (tree.content rel) <;> rfl

/-- The infrastructure nodes are written, then the edges and the references of
each source on its own. -/
theorem runIacPassFor_eq {g : Graph} {sources : List Text} (hnodup : sources.Nodup)
    (hsub : ∀ rel ∈ sources, rel ∈ tree.rels)
    (hfiles : ∀ rel ∈ tree.rels, ((.file, rel) : Key) ∈ g.keys) :
    runIacPassFor F g tree sources =
      let ns := g.nodes + (sources : Multiset Text).bind fun rel =>
        (factNodes F rel (tree.content rel) : Multiset Node)
      let idx := ResolutionIndexes.build F ns tree.rels
      ⟨ns, g.edges +
        ((sources : Multiset Text).bind fun rel =>
          (factEdges F rel (tree.content rel) : Multiset Edge)) +
        (sources : Multiset Text).bind fun rel =>
          (refs F rel (tree.content rel) idx : Multiset Edge).filter (Lands (ns.map key))⟩ := by
  have hemitted : ∀ e ∈ (sources : Multiset Text).bind fun rel =>
      (factEdges F rel (tree.content rel) : Multiset Edge),
      Lands ((g.nodes + (sources : Multiset Text).bind fun rel =>
        (factNodes F rel (tree.content rel) : Multiset Node)).map key) e := by
    intro e he
    obtain ⟨rel, hrel, he⟩ := Multiset.mem_bind.mp he
    have hnode : ∀ k ∈ (factNodes F rel (tree.content rel)).map key,
        k ∈ (g.nodes + (sources : Multiset Text).bind fun rel =>
          (factNodes F rel (tree.content rel) : Multiset Node)).map key := fun k hk => by
      obtain ⟨n, hn, rfl⟩ := mem_map.mp hk
      refine Multiset.mem_map_of_mem _ (Multiset.mem_add.mpr (Or.inr ?_))
      exact Multiset.mem_bind.mpr ⟨rel, hrel, hn⟩
    obtain ⟨hsrc, hdst⟩ := factEdges_ends he
    refine ⟨?_, hnode _ hdst⟩
    rcases hsrc with hsrc | hsrc
    · rw [linked_src, hsrc, Multiset.map_add]
      exact Multiset.mem_add.mpr (Or.inl (hfiles rel (hsub rel hrel)))
    · exact hnode _ hsrc
  simp only [runIacPassFor, flatMap_parsed _ hsub, tree.image_relId, insertEdges, insertNodes,
    PropertyGraph.keys, stage_flatMap _ hnodup hsub, ← Multiset.coe_bind]
  ext1
  · rfl
  · show g.edges + Multiset.filter (Lands ((g.nodes + (sources : Multiset Text).bind fun rel =>
        (factNodes F rel (tree.content rel) : Multiset Node)).map key))
        ((sources : Multiset Text).bind fun rel =>
          (factEdges F rel (tree.content rel) : Multiset Edge)) + Multiset.filter _ _ = _
    rw [Multiset.filter_eq_self.mpr hemitted, Multiset.filter_bind]
    rfl

end Pass

end Iac

end CodeGraph
