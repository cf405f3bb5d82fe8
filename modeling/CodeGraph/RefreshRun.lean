import CodeGraph.IncrementalLinks
import CodeGraph.RefreshSteps

/-!
# The run of a refresh

The state of a store along the statements of a refresh: once everything stale is
deleted, and once the files are read again. `SameOn` says which nodes, edges and rows
no statement touches, `rebuilt_leadsIn` and `mem_index_rebuilt` what is there of a
modified file when the saved edges are put back.
-/

namespace CodeGraph

open PropertyGraph Keyed Linked Schema

open Resolver.Store (inFiles)

/-- What a classification promises: the files read again are of the current tree, and
those that are gone are not. -/
structure ChangeSet.Classified {Content : Type} (changes : ChangeSet)
    (current : SourceTree Content) : Prop where
  reparsed : ∀ rel ∈ changes.reparsedSet, rel ∈ current.rels
  gone : ∀ rel ∈ changes.goneRels, IsFileId rel ∧ rel ∉ current.rels

namespace ChangeSet

variable {Content : Type} {changes : ChangeSet} {current : SourceTree Content}

theorem mem_leaving {rel : Text} :
    rel ∈ changes.leaving ↔ rel ∈ changes.reparsedSet ∨ rel ∈ changes.goneRels := by
  rw [leaving, purgedRels, List.mem_append, List.mem_append]
  have : rel ∈ changes.changedRels → rel ∈ changes.reparsedSet := fun h =>
    mem_reparsedSet.mpr (Or.inl h)
  tauto

theorem Classified.plain (h : changes.Classified current) {rel : Text}
    (hrel : rel ∈ changes.leaving) : IsFileId rel := by
  rcases mem_leaving.mp hrel with hrel | hrel
  · exact current.plain rel (h.reparsed rel hrel)
  · exact (h.gone rel hrel).1

def outside (changes : ChangeSet) (k : StoredKey) : Bool :=
  k.1 ≠ .directory && owningFile k.2 ∉ changes.leaving

def isFileNode (changes : ChangeSet) (k : StoredKey) : Bool :=
  k.1 = .file && k.2 ∈ changes.changedRels

/-- A node in a modified file. -/
def isInner (changes : ChangeSet) (k : StoredKey) : Bool :=
  k.1 ≠ .directory && changes.changedRels.any fun rel =>
    k = (.fileContent, rel) || inFile rel [] <+: k.2

end ChangeSet

theorem ne_directory_of_stored {k : Key} (h : k.stored.1 ≠ .directory) : k.1 ≠ .directory := by
  intro hdir
  refine h ?_
  show k.1.stored = _
  rw [hdir]
  rfl

theorem owningFile_self {rel : Text} (hrel : IsFileId rel) : owningFile rel = rel :=
  hrel.owningFile .file

theorem owningFile_eq_of_inFile {rel id : Text} (hrel : IsFileId rel) (h : inFile rel [] <+: id) :
    owningFile id = rel := by
  obtain ⟨name, rfl⟩ := h
  rw [inFile, List.append_nil, owningFile]
  have hbreak : breakOn "::".toList (inFile rel name) = some (rel, name) :=
    breakOn_scope hrel.unscoped
  rw [inFile] at hbreak
  rw [hbreak]

namespace ChangeSet

variable {Content : Type} {changes : ChangeSet} {current : SourceTree Content} {k : StoredKey}
  {rel : Text}

theorem outside_iff : changes.outside k ↔ k.1 ≠ .directory ∧ owningFile k.2 ∉ changes.leaving := by
  rw [outside, Bool.and_eq_true, decide_eq_true_eq, decide_eq_true_eq]

theorem isFileNode_iff : changes.isFileNode k ↔ k.1 = .file ∧ k.2 ∈ changes.changedRels := by
  rw [isFileNode, Bool.and_eq_true, decide_eq_true_eq, decide_eq_true_eq]

theorem Classified.not_outside (h : changes.Classified current) (hrel : rel ∈ changes.leaving)
    (hk : k.2 = rel ∨ inFile rel [] <+: k.2) : ¬changes.outside k := by
  have howner : owningFile k.2 = rel := by
    rcases hk with hk | hk
    · rw [hk, owningFile_self (h.plain hrel)]
    · exact owningFile_eq_of_inFile (h.plain hrel) hk
  rw [outside_iff, howner]
  exact fun hout => hout.2 hrel

theorem mem_leaving_of_changed (hrel : rel ∈ changes.changedRels) : rel ∈ changes.leaving :=
  mem_leaving.mpr (Or.inl (mem_reparsedSet.mpr (Or.inl hrel)))

theorem Classified.isFileNode_apart (h : changes.Classified current) (hk : changes.isFileNode k) :
    k.2 ∉ changes.goneRels ∧ ∀ rel ∈ changes.leaving, ¬inFile rel [] <+: k.2 := by
  have hmem := (isFileNode_iff.mp hk).2
  refine ⟨fun hgone => ?_, fun rel _ hpre => ?_⟩
  · exact (h.gone _ hgone).2 (h.reparsed _ (mem_reparsedSet.mpr (Or.inl hmem)))
  · exact (h.plain (mem_leaving_of_changed hmem)).not_inFile_isPrefix hpre

end ChangeSet

/-! ## What every statement leaves -/

/-- The same nodes under `p`, and the same edges and rows of `q`. -/
structure LayeredStore.SameOn (p : StoredKey → Bool) (q : StoredKey → StoredKey → Bool)
    (s s' : LayeredStore) : Prop where
  index : Agree (fun k : Key => p k.stored) (fun e : Edge => q e.src.stored e.dst.stored) s.index
    s'.index
  layers : Agree p (fun r : StoredRow => q (src r) (dst r)) s.layers s'.layers

namespace LayeredStore.SameOn

variable {p p' : StoredKey → Bool} {q q' : StoredKey → StoredKey → Bool} {s s' s'' : LayeredStore}

theorem refl (s : LayeredStore) : SameOn p q s s := ⟨.refl _, .refl _⟩

theorem trans (h : SameOn p q s s') (h' : SameOn p q s' s'') : SameOn p q s s'' :=
  ⟨h.index.trans h'.index, h.layers.trans h'.layers⟩

theorem mono (h : SameOn p q s s') (hp : ∀ k, p' k → p k) (hq : ∀ a b, q' a b → q a b) :
    SameOn p' q' s s' :=
  ⟨h.index.mono (fun k : Key => hp k.stored) fun e : Edge => hq e.src.stored e.dst.stored,
    h.layers.mono hp fun r => hq (src r) (dst r)⟩

theorem detachDelete {r : StoredKey → Bool} (hp : ∀ k, p k → ¬r k)
    (hq : ∀ a b, q a b → ¬r a ∧ ¬r b) : SameOn p q s (s.detachDelete r) :=
  ⟨.detachDelete (fun k : Key => hp k.stored) fun e _ => hq e.src.stored e.dst.stored,
    .detachDelete hp fun r _ => hq (src r) (dst r)⟩

end LayeredStore.SameOn

namespace ApplyState

variable {Content : Type} {F : FrontEnd Content} {current : SourceTree Content}
  {changes : ChangeSet} {p : StoredKey → Bool} {q : StoredKey → StoredKey → Bool}

/-- The pairs of which a refresh leaves every edge: an outside node to another, or to the
node of a modified file. -/
def stays (changes : ChangeSet) (a b : StoredKey) : Bool :=
  changes.outside a && (changes.outside b || changes.isFileNode b)

theorem stays_iff {a b : StoredKey} : stays changes a b ↔
    changes.outside a ∧ (changes.outside b ∨ changes.isFileNode b) := by
  rw [stays, Bool.and_eq_true, Bool.or_eq_true]

/-- The pairs of which reading files again leaves every edge. -/
def readsOver (changes : ChangeSet) (a b : StoredKey) : Bool :=
  changes.outside a && b.1 ≠ .directory

theorem readsOver_iff {a b : StoredKey} :
    readsOver changes a b ↔ changes.outside a ∧ b.1 ≠ .directory := by
  rw [readsOver, Bool.and_eq_true, decide_eq_true_eq]

theorem readsOver_of_stays {a b : StoredKey} (h : stays changes a b) : readsOver changes a b := by
  obtain ⟨ha, hb⟩ := stays_iff.mp h
  refine readsOver_iff.mpr ⟨ha, ?_⟩
  rcases hb with hb | hb
  · exact (ChangeSet.outside_iff.mp hb).1
  · rw [(ChangeSet.isFileNode_iff.mp hb).1]
    exact nofun

theorem sameOn_purge (h : changes.Classified current) {rel : Text} (hrel : rel ∈ changes.leaving)
    (s : LayeredStore) (r : StoredKey → Bool) (hr : ∀ k, r k → k.2 = rel ∨ inFile rel [] <+: k.2)
    (hfile : ∀ k, changes.isFileNode k → ¬r k) :
    LayeredStore.SameOn changes.outside (stays changes) s (s.detachDelete r) := by
  have hout : ∀ k, changes.outside k → ¬r k := fun k hk hrk =>
    h.not_outside hrel (hr k hrk) hk
  refine .detachDelete hout fun a b hab => ?_
  obtain ⟨ha, hb⟩ := stays_iff.mp hab
  exact ⟨hout a ha, hb.elim (hout b) (hfile b)⟩

theorem sameOn_purgeStmts (h : changes.Classified current) {stmt : Stmt}
    (hstmt : stmt ∈ LayeredStore.purgeStmts changes) (st : ApplyState) :
    LayeredStore.SameOn changes.outside (stays changes) st.store (st.exec F current stmt).store := by
  have hsymbols : ∀ rel ∈ changes.leaving, LayeredStore.SameOn changes.outside (stays changes)
      st.store (st.exec F current (.purgeFileSymbols rel)).store := fun rel hrel => by
    refine sameOn_purge h hrel st.store _ (fun k hk => Or.inr (of_decide_eq_true hk)) ?_
    exact fun k hk hpre => (h.isFileNode_apart hk).2 rel hrel (of_decide_eq_true hpre)
  have hcontent : ∀ rel ∈ changes.leaving, LayeredStore.SameOn changes.outside (stays changes)
      st.store (st.exec F current (.purgeFileContent rel)).store := fun rel hrel => by
    refine sameOn_purge h hrel st.store (fun k => k = (.fileContent, rel)) (fun k hk => ?_) ?_
    · exact Or.inl (congrArg Prod.snd (of_decide_eq_true hk))
    · intro k hk hcontent
      have hlabel := (ChangeSet.isFileNode_iff.mp hk).1
      rw [of_decide_eq_true hcontent] at hlabel
      cases hlabel
  rcases List.mem_append.mp hstmt with hstmt | hstmt
  · obtain ⟨rel, hrel, hstmt⟩ := List.mem_flatMap.mp hstmt
    have hleaving := ChangeSet.mem_leaving_of_changed hrel
    simp only [List.mem_cons, List.not_mem_nil, or_false] at hstmt
    rcases hstmt with rfl | rfl | rfl
    · exact hsymbols rel hleaving
    · have hout : ∀ k : StoredKey, changes.outside k → k.2 ≠ rel := fun k hk hrel =>
        h.not_outside hleaving (Or.inl hrel) hk
      refine ⟨.deleteEdges fun e _ hq hlink => ?_, .deleteEdges fun r _ hq hlink => ?_⟩
      · have hsrc := (of_decide_eq_true (Bool.and_eq_true_iff.mp hlink).2 : e.src = (.file, rel))
        exact hout _ (stays_iff.mp hq).1 (congrArg Prod.snd hsrc)
      · exact hout _ (stays_iff.mp hq).1 (of_decide_eq_true hlink).2
    · exact hcontent rel hleaving
  · obtain ⟨rel, hrel, hstmt⟩ := List.mem_flatMap.mp hstmt
    have hleaving : rel ∈ changes.leaving := ChangeSet.mem_leaving.mpr (Or.inr hrel)
    simp only [List.mem_cons, List.not_mem_nil, or_false] at hstmt
    rcases hstmt with rfl | rfl | rfl
    · exact hsymbols rel hleaving
    · refine sameOn_purge h hleaving st.store (fun k => k = (.file, rel)) (fun k hk => ?_) ?_
      · exact Or.inl (congrArg Prod.snd (of_decide_eq_true hk))
      · intro k hk hnode
        have hgone := (h.isFileNode_apart hk).1
        rw [of_decide_eq_true hnode] at hgone
        exact hgone hrel
    · exact hcontent rel hleaving

/-- The statements that read files again and derive what goes out of them. -/
def rebuildStmts (changes : ChangeSet) (current : SourceTree Content) : List Stmt :=
  LayeredStore.reparseStmts changes ++ LayeredStore.passStmts changes current

/-- The files the passes go over. -/
def sources (changes : ChangeSet) (current : SourceTree Content) : List Text :=
  (current.rels.sort (· ≤ ·)).filter (· ∈ changes.reparsedSet)

theorem mem_sources {rel : Text} :
    rel ∈ sources changes current ↔ rel ∈ current.rels ∧ rel ∈ changes.reparsedSet := by
  rw [sources, List.mem_filter, Finset.mem_sort, decide_eq_true_eq]

theorem read_of_new {d : Discovered} (hd : d ∈ changes.added ++ changes.renamed.map Rename.newFile) :
    d.rel ∈ changes.reparsedSet := by
  refine ChangeSet.mem_reparsedSet.mpr (Or.inr ?_)
  rw [← freshRels_eq]
  exact List.mem_map_of_mem hd

theorem read_of_changed {d : Discovered} (hd : d ∈ changes.changed) :
    d.rel ∈ changes.reparsedSet :=
  ChangeSet.mem_reparsedSet.mpr (Or.inl (List.mem_map_of_mem hd))

/-- What the statements behind the purge are. -/
inductive Rebuilds (changes : ChangeSet) (current : SourceTree Content) : Stmt → Prop
  | dirs : Rebuilds changes current .existingDirectoryIds
  | changed {d : Discovered} (hd : d ∈ changes.changed) :
      Rebuilds changes current (.reparseModifiedFile d)
  | new {d : Discovered} (hd : d ∈ changes.added ++ changes.renamed.map Rename.newFile) :
      Rebuilds changes current (.reparseNewFile d)
  | prune : Rebuilds changes current .pruneOrphanDirectories
  | links : Rebuilds changes current (.linkFileImportsFor (sources changes current))
  | iac : Rebuilds changes current (.runIacPassFor (sources changes current))

theorem rebuilds {stmt : Stmt} (hstmt : stmt ∈ rebuildStmts changes current) :
    Rebuilds changes current stmt := by
  rcases List.mem_append.mp hstmt with hstmt | hstmt
  · rcases List.mem_cons.mp hstmt with rfl | hstmt
    · exact .dirs
    rcases List.mem_append.mp hstmt with hstmt | hstmt
    · obtain ⟨d, hd, rfl⟩ := List.mem_map.mp hstmt
      exact .changed hd
    · obtain ⟨d, hd, rfl⟩ := List.mem_map.mp hstmt
      exact .new hd
  · rcases List.mem_append.mp hstmt with hstmt | hstmt
    · split at hstmt
      · obtain rfl := List.mem_singleton.mp hstmt
        exact .prune
      · cases hstmt
    · split at hstmt
      · simp only [List.mem_cons, List.not_mem_nil, or_false] at hstmt
        rcases hstmt with rfl | rfl
        · exact .links
        · exact .iac
      · cases hstmt

theorem layers_of_rebuilds {stmt : Stmt} (h : Rebuilds changes current stmt) (st : ApplyState) :
    (st.exec F current stmt).store.layers = st.store.layers := by
  cases h <;> rfl

theorem spares_of_read (h : changes.Classified current) {rel : Text}
    (hrel : rel ∈ changes.reparsedSet) : Spares (fun k : Key => changes.outside k.stored)
      (fun e : Edge => readsOver changes e.src.stored e.dst.stored) rel := by
  have hout : ∀ k : Key, k.1 = .directory ∨ Near rel k → ¬changes.outside k.stored := by
    rintro k (hdir | hnear)
    · exact fun hk => ne_directory_of_stored (ChangeSet.outside_iff.mp hk).1 hdir
    · exact h.not_outside (ChangeSet.mem_leaving.mpr (Or.inl hrel)) hnear.2
  exact ⟨hout, fun e he hq => hout _ he (readsOver_iff.mp hq).1⟩

theorem sameOn_rebuildStmts (h : changes.Classified current) {stmt : Stmt}
    (hstmt : Rebuilds changes current stmt) (st : ApplyState) :
    LayeredStore.SameOn changes.outside (readsOver changes) st.store
      (st.exec F current stmt).store := by
  have hlayers := layers_of_rebuilds (F := F) hstmt st
  have hout : ∀ k : Key, changes.outside k.stored → k.1 ≠ .directory := fun k hk =>
    ne_directory_of_stored (ChangeSet.outside_iff.mp hk).1
  refine ⟨?_, hlayers ▸ .refl _⟩
  cases hstmt with
  | dirs => exact .refl _
  | changed hd => exact agree_reparseModifiedFile (spares_of_read h (read_of_changed hd))
  | new hd => exact agree_reparseNewFile (spares_of_read h (read_of_new hd))
  | prune =>
      refine agree_pruneOrphanDirectories hout fun e he => ?_
      obtain ⟨hsrc, hdst⟩ := readsOver_iff.mp he
      exact ⟨hout _ hsrc, ne_directory_of_stored hdst⟩
  | links =>
      exact agree_linkFileImportsFor (fun rel hrel => (mem_sources.mp hrel).1) fun rel hrel =>
        spares_of_read h (mem_sources.mp hrel).2
  | iac =>
      exact agree_runIacPassFor (fun rel hrel => (mem_sources.mp hrel).1) fun rel hrel =>
        spares_of_read h (mem_sources.mp hrel).2

end ApplyState

/-! ## The graph of the index stage -/

def indexLabel : NodeLabel → Option Label
  | .directory => some .directory
  | .file => some .file
  | .fileContent => some .fileContent
  | .astNode => some .astNode
  | .iacResource => some .iacResource
  | .iacModule => some .iacModule
  | .iacImage => some .iacImage
  | .module => some (.symbol .module)
  | .function => some (.symbol .function)
  | .method => some (.symbol .method)
  | .struct => some (.symbol .struct)
  | .enum => some (.symbol .enum)
  | .variant => some (.symbol .variant)
  | .trait => some (.symbol .trait)
  | .field => some (.symbol .field)
  | .constant => some (.symbol .constant)
  | .typeAlias => some (.symbol .typeAlias)
  | .imported => some (.symbol .imported)
  | .callSite => some (.symbol .callSite)
  | .community | .process | .stdlibSymbol | .commit | .version => none

theorem indexLabel_stored (label : Label) : indexLabel label.stored = some label := by
  cases label with
  | symbol label => cases label <;> rfl
  | _ => rfl

theorem stored_injective : Function.Injective Key.stored := by
  intro k k' h
  have hlabel : some k.1 = some k'.1 := by
    rw [← indexLabel_stored, ← indexLabel_stored]
    exact congrArg (indexLabel ·.1) h
  exact Prod.ext (Option.some.inj hlabel) (congrArg (fun k : StoredKey => k.2) h)

theorem stored_eq_file {k : Key} {id : Text} : k.stored = (.file, id) ↔ k = (.file, id) :=
  stored_injective.eq_iff' rfl

theorem stored_eq_fileContent {k : Key} {id : Text} :
    k.stored = (.fileContent, id) ↔ k = (.fileContent, id) :=
  stored_injective.eq_iff' rfl

theorem mem_map_stored {ks : Multiset Key} {k : Key} : k.stored ∈ ks.map Key.stored ↔ k ∈ ks :=
  Multiset.mem_map_of_injective stored_injective

section Index

open Runs LayeredStore

variable {Content : Type} {F : FrontEnd Content} {current : SourceTree Content}
  {changes : ChangeSet}

theorem detachDelete_content (g : Graph) (rel : Text) :
    (g.detachDelete fun k => decide (k.stored = (.fileContent, rel))) = purgeFileContent g rel :=
  drop_congr (fun _ => decide_eq_decide.mpr stored_eq_fileContent) fun _ => rfl

theorem detachDelete_file (g : Graph) (rel : Text) :
    (g.detachDelete fun k => decide (k.stored = (.file, rel))) = purgeFileNode g rel :=
  drop_congr (fun _ => decide_eq_decide.mpr stored_eq_file) fun _ => rfl

/-- The nodes that the purge of a changed file deletes, of any label. -/
def purgedChanged (rel : Text) (k : StoredKey) : Bool :=
  inFile rel [] <+: k.2 || k = (.fileContent, rel)

def purgedGone (rel : Text) (k : StoredKey) : Bool :=
  inFile rel [] <+: k.2 || (k = (.file, rel) || k = (.fileContent, rel))

/-- The rows that the purge of a changed file deletes by themselves. -/
def purgedRow (rel : Text) (r : StoredRow) : Bool :=
  r.table.name.toList ∈ lightLinkTables ∧ r.source = rel

theorem layers_purgeChanged (g : PropertyGraph LayerNode StoredRow) (rel : Text) :
    ((g.detachDelete fun k => inFile rel [] <+: k.2).deleteEdges
        (fun r => r.table.name.toList ∈ lightLinkTables ∧ r.source = rel)).detachDelete
          (fun k => k = (.fileContent, rel)) = g.drop (purgedChanged rel) (purgedRow rel) := by
  rw [PropertyGraph.detachDelete, deleteEdges, PropertyGraph.detachDelete, drop_drop, drop_drop]
  refine drop_congr (fun k => ?_) fun r => ?_
  · rw [purgedChanged, Bool.false_or]
  · rw [Bool.false_or, Bool.or_false]
    rfl

theorem layers_purgeGone (g : PropertyGraph LayerNode StoredRow) (rel : Text) :
    ((g.detachDelete fun k => inFile rel [] <+: k.2).detachDelete
        (fun k => k = (.file, rel))).detachDelete (fun k => k = (.fileContent, rel)) =
      g.drop (purgedGone rel) fun _ => false := by
  rw [PropertyGraph.detachDelete, PropertyGraph.detachDelete, PropertyGraph.detachDelete, drop_drop,
    drop_drop]
  rfl

theorem run_purgeChanged (st : ApplyState) (rel : Text) :
    run (ApplyState.exec F current)
        [.purgeFileSymbols rel, .purgeOutboundLightLinks rel, .purgeFileContent rel] st =
      { st with
        store := { st.store with
          index := purgeModified st.store.index rel
          layers := st.store.layers.drop (purgedChanged rel) (purgedRow rel) } } := by
  refine ApplyState.ext (LayeredStore.ext ?_ ?_ rfl rfl) rfl
  · exact detachDelete_content _ rel
  · exact layers_purgeChanged st.store.layers rel

theorem run_purgeGone (st : ApplyState) (rel : Text) :
    run (ApplyState.exec F current)
        [.purgeFileSymbols rel, .purgeFileNode rel, .purgeFileContent rel] st =
      { st with
        store := { st.store with
          index := purgeGone st.store.index rel
          layers := st.store.layers.drop (purgedGone rel) fun _ => false } } := by
  refine ApplyState.ext (LayeredStore.ext ?_ ?_ rfl rfl) rfl
  · refine (detachDelete_content _ rel).trans (congrArg (purgeFileContent · rel) ?_)
    exact detachDelete_file _ rel
  · exact layers_purgeGone st.store.layers rel

/-- A run of purges, file by file. -/
theorem foldl_purge {purgeOf : Graph → Text → Graph} {node : Text → StoredKey → Bool}
    {row : Text → StoredRow → Bool} {stmts : Text → List Stmt}
    (h : ∀ (st : ApplyState) rel, run (ApplyState.exec F current) (stmts rel) st =
      { st with
        store := { st.store with
          index := purgeOf st.store.index rel
          layers := st.store.layers.drop (node rel) (row rel) } }) (rels : List Text)
    (st : ApplyState) : run (ApplyState.exec F current) (rels.flatMap stmts) st =
      { st with
        store := { st.store with
          index := rels.foldl purgeOf st.store.index
          layers := st.store.layers.drop (fun k => rels.any (node · k)) fun r =>
            rels.any (row · r) } } := by
  rw [run_flatMap]
  refine Eq.trans ?_ (congrArg (fun layers => { st with store := { st.store with
    index := rels.foldl purgeOf st.store.index, layers } }) (foldl_drop node row rels _))
  induction rels generalizing st with
  | nil => rfl
  | cons rel rels ih => rw [List.foldl_cons, ih, h]; rfl

/-- The nodes that a purge deletes, of any label. -/
def purgedNode (changes : ChangeSet) (k : StoredKey) : Bool :=
  (changes.changedRels.any (purgedChanged · k)) || changes.goneRels.any (purgedGone · k)

theorem run_purgeStmts (st : ApplyState) :
    run (ApplyState.exec F current) (purgeStmts changes) st =
      { st with
        store := { st.store with
          index := purge st.store.index changes
          layers := st.store.layers.drop (purgedNode changes) fun r =>
            changes.changedRels.any (purgedRow · r) } } := by
  rw [purgeStmts, run_append, foldl_purge run_purgeChanged, foldl_purge run_purgeGone]
  refine ApplyState.ext (LayeredStore.ext rfl ?_ rfl rfl) rfl
  dsimp only
  rw [drop_drop]
  exact drop_congr (fun _ => rfl) fun r => by simp

theorem foldl_reparseModified (ds : List Discovered) (st : ApplyState) :
    (ds.foldl (fun st d => st.exec F current (.reparseModifiedFile d)) st).store.index =
        ds.foldl (reparseModifiedFile F current) st.store.index ∧
      (ds.foldl (fun st d => st.exec F current (.reparseModifiedFile d)) st).dirNodesInserted =
        st.dirNodesInserted := by
  induction ds generalizing st with
  | nil => exact ⟨rfl, rfl⟩
  | cons d ds ih => exact ih (st.exec F current (.reparseModifiedFile d))

theorem foldl_reparseNew (ds : List Discovered) (st : ApplyState) :
    (ds.foldl (fun st d => st.exec F current (.reparseNewFile d)) st).store.index =
      (ds.foldl (reparseNewFile F current) (st.store.index, st.dirNodesInserted)).1 := by
  induction ds generalizing st with
  | nil => rfl
  | cons d ds ih => exact ih (st.exec F current (.reparseNewFile d))

theorem index_reparseStmts (st : ApplyState) :
    (run (ApplyState.exec F current) (reparseStmts changes) st).store.index =
      reparse F current st.store.index changes := by
  rw [reparseStmts, List.cons_append, run_cons, run_append, run_map, run_map, foldl_reparseNew,
    (foldl_reparseModified changes.changed _).1, (foldl_reparseModified changes.changed _).2,
    List.foldl_append]
  rfl

/-- The passes behind the reading. -/
def passes (F : FrontEnd Content) (current : SourceTree Content) (changes : ChangeSet) (g : Graph) :
    Graph :=
  let g := if changes.deleted ≠ [] ∨ changes.renamed ≠ [] then pruneOrphanDirectories g else g
  let sources := (current.rels.sort (· ≤ ·)).filter (· ∈ changes.reparsedSet)
  let g := if sources ≠ [] then LightLink.linkFileImportsFor F g current sources else g
  if sources ≠ [] then Iac.runIacPassFor F g current sources else g

theorem index_passStmts (st : ApplyState) :
    (run (ApplyState.exec F current) (passStmts changes current) st).store.index =
      passes F current changes st.store.index := by
  rw [passStmts, run_append, passes]
  split <;> split <;> rfl

/-- The store once everything stale is deleted. -/
def purged (F : FrontEnd Content) (current : SourceTree Content) (s : LayeredStore)
    (changes : ChangeSet) : ApplyState :=
  run (ApplyState.exec F current) (s.reopenSites changes ++ purgeStmts changes) { store := s }

/-- The store when the saved edges are about to be put back. -/
def rebuilt (F : FrontEnd Content) (current : SourceTree Content) (s : LayeredStore)
    (changes : ChangeSet) : ApplyState :=
  run (ApplyState.exec F current) (ApplyState.rebuildStmts changes current)
    (purged F current s changes)

theorem index_purged (s : LayeredStore) :
    (purged F current s changes).store.index = purge s.index changes := by
  rw [purged, run_append, run_purgeStmts]
  rfl

theorem layers_purged (s : LayeredStore) : (purged F current s changes).store.layers =
    s.layers.drop (purgedNode changes) fun r => changes.changedRels.any (purgedRow · r) := by
  rw [purged, run_append, run_purgeStmts]
  rfl

theorem index_rebuilt (s : LayeredStore) : (rebuilt F current s changes).store.index =
    passes F current changes (reparse F current (purge s.index changes) changes) := by
  rw [rebuilt, ApplyState.rebuildStmts, run_append, index_passStmts, index_reparseStmts,
    index_purged]

theorem applyChanges_eq_relinked (s : LayeredStore) : s.applyChanges changes F current =
    (run (ApplyState.exec F current) (s.relinkStmts changes) (rebuilt F current s changes)).store := by
  rw [rebuilt, purged, ← run_append, ← run_append, ApplyState.rebuildStmts,
    LayeredStore.applyChanges, refreshStmts]
  simp only [List.append_assoc]

/-! ## What is there when the saved edges are put back -/

theorem sameOn_run {p : StoredKey → Bool} {q : StoredKey → StoredKey → Bool} {stmts : List Stmt}
    (h : ∀ stmt ∈ stmts, ∀ st : ApplyState, SameOn p q st.store (st.exec F current stmt).store)
    (st : ApplyState) : SameOn p q st.store (run (ApplyState.exec F current) stmts st).store := by
  induction stmts generalizing st with
  | nil => exact .refl _
  | cons stmt stmts ih =>
      refine (h stmt List.mem_cons_self st).trans (ih ?_ (st.exec F current stmt))
      exact fun stmt hstmt => h stmt (List.mem_cons_of_mem _ hstmt)

theorem sameOn_purged (h : changes.Classified current) (s : LayeredStore) :
    SameOn changes.outside (ApplyState.stays changes) s (purged F current s changes).store := by
  refine sameOn_run (fun stmt hstmt st => ?_) { store := s }
  rcases List.mem_append.mp hstmt with hstmt | hstmt
  · simp only [reopenSites, List.mem_cons, List.not_mem_nil, or_false] at hstmt
    rcases hstmt with rfl | rfl
    · exact ⟨.refl _, .refl _⟩
    · exact ⟨.refl _, .refl _⟩
  · exact ApplyState.sameOn_purgeStmts h hstmt st

theorem sameOn_read (h : changes.Classified current) (s : LayeredStore) :
    SameOn changes.outside (ApplyState.readsOver changes) (purged F current s changes).store
      (rebuilt F current s changes).store :=
  sameOn_run (fun _ hstmt st => ApplyState.sameOn_rebuildStmts h (ApplyState.rebuilds hstmt) st) _

theorem sameOn_rebuilt (h : changes.Classified current) (s : LayeredStore) :
    SameOn changes.outside (ApplyState.stays changes) s (rebuilt F current s changes).store :=
  (sameOn_purged h s).trans ((sameOn_read h s).mono (fun _ hk => hk) fun _ _ =>
    ApplyState.readsOver_of_stays)

/-- An outside node to one in a modified file. -/
def leadsIn (changes : ChangeSet) (a b : StoredKey) : Bool :=
  changes.outside a && changes.isInner b

theorem leadsIn_iff {a b : StoredKey} :
    leadsIn changes a b ↔ changes.outside a ∧ changes.isInner b := by
  rw [leadsIn, Bool.and_eq_true]

theorem isInner_iff {k : StoredKey} : changes.isInner k ↔ k.1 ≠ .directory ∧
    ∃ rel ∈ changes.changedRels, k = (.fileContent, rel) ∨ inFile rel [] <+: k.2 := by
  rw [ChangeSet.isInner, Bool.and_eq_true, decide_eq_true_eq, List.any_eq_true]
  simp only [Bool.or_eq_true, decide_eq_true_eq]

theorem purgedNode_of_isInner {k : StoredKey} (hk : changes.isInner k) : purgedNode changes k := by
  obtain ⟨-, rel, hrel, hk⟩ := isInner_iff.mp hk
  refine Bool.or_eq_true_iff.mpr (Or.inl (List.any_eq_true.mpr ⟨rel, hrel, ?_⟩))
  rw [purgedChanged, Bool.or_eq_true, decide_eq_true_eq, decide_eq_true_eq]
  exact hk.symm

/-- The graph's purge deletes what that of the store does. -/
theorem purgedKey_eq (k : Key) : purgedKey changes k = purgedNode changes k.stored := by
  rw [purgedKey, purgedNode]
  have hcontent : ∀ rel, decide (k.stored = (.fileContent, rel)) = decide (k = (.fileContent, rel)) :=
    fun _ => decide_eq_decide.mpr stored_eq_fileContent
  have hfile : ∀ rel, decide (k.stored = (.file, rel)) = decide (k = (.file, rel)) :=
    fun _ => decide_eq_decide.mpr stored_eq_file
  congr 2
  · funext rel
    rw [purgedOfChanged, purgedChanged, hcontent]
    rfl
  · funext rel
    rw [purgedOfGone, purgedGone, hcontent, hfile]
    rfl

theorem rebuilt_leadsIn (h : changes.Classified current) (s : LayeredStore) :
    ((rebuilt F current s changes).store.index.edges.filter
        fun e => leadsIn changes e.src.stored e.dst.stored) = 0 ∧
      ((rebuilt F current s changes).store.layers.edges.filter
        fun r => leadsIn changes (src r) (dst r)) = 0 := by
  have hleads : ∀ a b, leadsIn changes a b → ApplyState.readsOver changes a b := fun a b hab =>
    ApplyState.readsOver_iff.mpr ⟨(leadsIn_iff.mp hab).1, (isInner_iff.mp (leadsIn_iff.mp hab).2).1⟩
  obtain ⟨hindex, hlayers⟩ := (sameOn_read h s).mono (fun _ hk => hk) hleads
  rw [hindex.edges, hlayers.edges, index_purged, layers_purged, purge_eq_drop]
  refine ⟨Multiset.filter_eq_nil.mpr fun e he hlead => ?_,
    Multiset.filter_eq_nil.mpr fun r hr hlead => ?_⟩
  · refine (mem_edges_drop.mp he).2 (Or.inr (Or.inl ?_))
    rw [linked_dst, purgedKey_eq]
    exact purgedNode_of_isInner (leadsIn_iff.mp hlead).2
  · refine (mem_edges_drop.mp hr).2 (Or.inr (Or.inl ?_))
    exact purgedNode_of_isInner (leadsIn_iff.mp hlead).2

/-- The keys of what is written in the files read again. -/
def Redeclared (F : FrontEnd Content) (current : SourceTree Content) (changes : ChangeSet)
    (k : Key) : Prop :=
  ∃ rel ∈ changes.reparsedSet, k ∈ (ownNodes F rel (current.content rel)).map key ∨
    k ∈ (Iac.factNodes F rel (current.content rel)).map key

instance (k : Key) : Decidable (Redeclared F current changes k) :=
  inferInstanceAs (Decidable (∃ rel ∈ changes.reparsedSet, _))

theorem exists_read {P : Text → Prop} : (∃ rel ∈ changes.reparsedSet, P rel) ↔
    (∃ d ∈ changes.changed, P d.rel) ∨
      ∃ d ∈ changes.added ++ changes.renamed.map Rename.newFile, P d.rel := by
  rw [ChangeSet.reparsedSet, List.append_assoc, ← freshRels_eq, ChangeSet.changedRels,
    ← List.map_append]
  simp only [List.mem_map, exists_exists_and_eq_and, List.mem_append, or_and_right, exists_or]

theorem mem_reparse {g : Graph} {k : Key} (hk : k.1 ≠ .directory) :
    k ∈ (reparse F current g changes).keys ↔ k ∈ g.keys ∨
      (∃ rel ∈ changes.reparsedSet, k ∈ (ownNodes F rel (current.content rel)).map key) ∨
        ∃ d ∈ changes.added ++ changes.renamed.map Rename.newFile, k = (.file, d.rel) := by
  rw [reparse, ← List.foldl_append, mem_keys_new hk, mem_keys_changed, exists_read]
  simp only [and_or_left, exists_or, or_assoc]
  refine or_congr_right (or_congr_right ?_)
  exact or_comm

theorem mem_passes (h : changes.Classified current) {g : Graph} {k : Key} (hk : k.1 ≠ .directory) :
    k ∈ (passes F current changes g).keys ↔ k ∈ g.keys ∨
      ∃ rel ∈ changes.reparsedSet, k ∈ (Iac.factNodes F rel (current.content rel)).map key := by
  have hpruned : k ∈ (if changes.deleted ≠ [] ∨ changes.renamed ≠ [] then pruneOrphanDirectories g
      else g).keys ↔ k ∈ g.keys := by
    split
    · exact mem_keys_pruneOrphanDirectories hk
    · exact Iff.rfl
  have hread : ∀ {P : Text → Prop}, (∃ rel ∈ ApplyState.sources changes current, P rel) ↔
      ∃ rel ∈ changes.reparsedSet, P rel := by
    intro P
    refine exists_congr fun rel => and_congr_left fun _ => ?_
    exact ApplyState.mem_sources.trans (and_iff_right_of_imp (h.reparsed rel))
  rw [passes, ← ApplyState.sources, ← hread, ← hpruned]
  generalize (if changes.deleted ≠ [] ∨ changes.renamed ≠ [] then pruneOrphanDirectories g else g) =
    pruned
  split
  · exact mem_keys_runIacPassFor fun rel hrel => (ApplyState.mem_sources.mp hrel).1
  next hnone =>
    rw [not_not] at hnone
    rw [hnone]
    exact (or_iff_left fun ⟨rel, hrel, _⟩ => List.not_mem_nil hrel).symm

/-- In a modified file there is what is declared again. -/
theorem mem_index_rebuilt (h : changes.Classified current) (s : LayeredStore) {k : Key}
    (hk : changes.isInner k.stored) :
    k ∈ (rebuilt F current s changes).store.index.keys ↔ Redeclared F current changes k := by
  have hdir : k.1 ≠ .directory := ne_directory_of_stored (isInner_iff.mp hk).1
  have hgone : k ∉ (purge s.index changes).keys := by
    rw [purge_eq_drop, mem_keys_drop, purgedKey_eq]
    exact fun hmem => hmem.2 (purgedNode_of_isInner hk)
  have hfile : ∀ d ∈ changes.added ++ changes.renamed.map Rename.newFile, k ≠ (.file, d.rel) := by
    rintro d hd rfl
    obtain ⟨-, rel, hrel, heq | hpre⟩ := isInner_iff.mp hk
    · cases heq
    · have hplain := h.plain (ChangeSet.mem_leaving.mpr (Or.inl (ApplyState.read_of_new hd)))
      exact hplain.not_inFile_isPrefix hpre
  have hnew : ¬∃ d ∈ changes.added ++ changes.renamed.map Rename.newFile, k = (.file, d.rel) :=
    fun ⟨d, hd, heq⟩ => hfile d hd heq
  rw [index_rebuilt, mem_passes h hdir, mem_reparse hdir, Redeclared, or_iff_right hgone,
    or_iff_left hnew]
  simp only [and_or_left, exists_or]

theorem not_mem_layers_rebuilt (s : LayeredStore) {k : StoredKey} (hk : changes.isInner k) :
    k ∉ (rebuilt F current s changes).store.layers.keys := by
  have hlayers : ∀ {stmts : List Stmt},
      (∀ stmt ∈ stmts, ApplyState.Rebuilds changes current stmt) → ∀ st : ApplyState,
        (run (ApplyState.exec F current) stmts st).store.layers = st.store.layers := by
    intro stmts hall st
    induction stmts generalizing st with
    | nil => rfl
    | cons stmt stmts ih =>
        rw [run_cons, ih fun stmt hstmt => hall stmt (List.mem_cons_of_mem _ hstmt)]
        exact ApplyState.layers_of_rebuilds (hall stmt List.mem_cons_self) st
  rw [rebuilt, hlayers fun stmt hstmt => ApplyState.rebuilds hstmt, layers_purged, mem_keys_drop]
  exact fun hmem => hmem.2 (purgedNode_of_isInner hk)

end Index

end CodeGraph
