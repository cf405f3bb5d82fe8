import CodeGraph.IncrementalReparse
import CodeGraph.LayeredStore

/-!
# What the steps of a refresh leave alone

Reading files again, the pruning of directories and the two passes behind them,
on any graph: they write nodes of the files read again and directories, and edges
out of these. `Agree` says what stays; `mem_keys_*` say which keys are there after.
-/

namespace CodeGraph

open List PropertyGraph Keyed

variable {Content : Type} {F : FrontEnd Content} {p : Key → Bool} {q : Edge → Bool} {g : Graph}

/-! ## One file -/

/-- The state differs from the graph in no node under `p` and no edge of `q`. -/
structure Apart (p : Key → Bool) (q : Edge → Bool) (g : Graph) (st : IndexState) : Prop where
  store : Agree p q g st.store
  nodes : ∀ n ∈ st.batch.nodes, ¬p (key n)
  edges : ∀ e ∈ st.batch.edges, ¬q e

theorem Apart.settled {st : IndexState} (h : Apart p q g st) : Agree p q g st.settled :=
  (h.store.trans (.insertNodes h.nodes)).trans (.insertEdges h.edges)

/-- The frame names no directory and no node of the file, and no edge out of one. -/
structure Spares (p : Key → Bool) (q : Edge → Bool) (rel : Text) : Prop where
  node : ∀ k, k.1 = .directory ∨ Near rel k → ¬p k
  edge : ∀ e : Edge, e.src.1 = .directory ∨ Near rel e.src → ¬q e

theorem Apart.setFileParseErrors {st : IndexState} (h : Apart p q g st) {rel : Text}
    (hp : Spares p q rel) (errors : Nat) : Apart p q g (setFileParseErrors st rel errors) := by
  refine ⟨h.store.trans (.update (key_setParseErrors rel errors) fun n hn => ?_), h.nodes, h.edges⟩
  exact setParseErrors_of_not_near fun hnear => hp.node _ (Or.inr hnear) hn

theorem Apart.accumulateParsedNodes {st : IndexState} (h : Apart p q g st) {rel : Text}
    (hp : Spares p q rel) (language : Text) (nodes : List ExtractedNode) :
    Apart p q g (accumulateParsedNodes language rel nodes st) := by
  rw [accumulateParsedNodes_eq]
  refine ⟨h.store, fun n hn => ?_, h.edges⟩
  rcases Multiset.mem_add.mp hn with hn | hn
  · obtain ⟨node, -, rfl⟩ := mem_map.mp hn
    exact hp.node _ (Or.inr (symbolNode_owned language rel node).near)
  · exact h.nodes n hn

theorem Apart.accumulateParsedEdges {st : IndexState} (h : Apart p q g st) {rel : Text}
    (hp : Spares p q rel) (refs : List ExtractedRef) :
    Apart p q g (accumulateParsedEdges rel refs st) := by
  refine ⟨h.store, h.nodes, fun e he => ?_⟩
  rcases Multiset.mem_add.mp he with he | he
  · obtain ⟨r, -, hr⟩ := mem_filterMap.mp he
    exact hp.edge e (Or.inr (refEdge_ends hr).1)
  · exact h.edges e he

theorem Apart.persistFullAst {st : IndexState} (h : Apart p q g st) {rel : Text}
    (hp : Spares p q rel) (source language : Text) :
    Apart p q g (persistFullAst F rel source language st) := by
  rw [persistFullAst_eq]
  refine ⟨(h.store.trans (.insertNodes fun n hn => ?_)).trans (.insertEdges fun e he => ?_),
    h.nodes, h.edges⟩
  · exact hp.node _ (Or.inr (astNodes_owned hn).1.near)
  · refine hp.edge e (Or.inr ?_)
    rcases (astEdges_ends he).1 with hsrc | ⟨name, hsrc⟩
    · rw [hsrc]
      exact Owned.file.near
    · rw [hsrc]
      exact (Owned.named name rfl).near

theorem Apart.indexSingleFile {st : IndexState} (h : Apart p q g st) {rel : Text}
    (hp : Spares p q rel) (content : Content) : Apart p q g (indexSingleFile F rel content st) := by
  rw [CodeGraph.indexSingleFile]
  split
  · exact h
  next parsed hparsed =>
    refine .persistFullAst (.accumulateParsedEdges (.accumulateParsedNodes ?_ hp _ _) hp _) hp _ _
    split
    · exact h.setFileParseErrors hp _
    · exact h

theorem Apart.insertAncestorDirs {st : IndexState} (h : Apart p q g st) {rel : Text}
    (hp : Spares p q rel) (u : Text) : Apart p q g (insertAncestorDirs st u) := by
  rw [CodeGraph.insertAncestorDirs, insertDirsFrom_eq]
  refine ⟨h.store.trans (.insertNodes fun n hn => ?_), h.nodes, fun e he => ?_⟩
  · obtain ⟨dir, -, rfl⟩ := mem_map.mp hn
    exact hp.node _ (Or.inl rfl)
  · rcases Multiset.mem_add.mp he with he | he
    · obtain ⟨dir, -, hdir⟩ := mem_flatMap.mp he
      exact hp.edge e (Or.inl (congrArg Prod.fst (mem_dirEdges hdir).2.2.1))
    · exact h.edges e he

theorem Apart.indexFile {st : IndexState} (h : Apart p q g st) {rel : Text} (hp : Spares p q rel)
    (content : Content) : Apart p q g (indexFile F rel content st) := by
  have hdirs := h.insertAncestorDirs hp rel
  rw [CodeGraph.indexFile]
  refine Apart.indexSingleFile ?_ hp content
  refine ⟨?_, hdirs.nodes, fun e he => ?_⟩
  · refine hdirs.store.trans (.insertNodes fun n hn => ?_)
    obtain rfl := Multiset.mem_singleton.mp hn
    exact hp.node _ (Or.inr Owned.file.near)
  · rcases Multiset.mem_add.mp he with he | he
    · obtain ⟨-, ⟨dir, -, hsrc⟩, -⟩ := mem_dirFileEdges he
      exact hp.edge e (Or.inl (congrArg Prod.fst hsrc))
    · exact hdirs.edges e he

theorem apart_self (store : Graph) (dirs : Finset (List Text)) (labels seen : Finset Key) :
    Apart p q store { store, dirNodesInserted := dirs, labelByQn := labels, seenNodeIds := seen } :=
  ⟨.refl _, fun n hn => absurd hn (Multiset.notMem_zero n),
    fun e he => absurd he (Multiset.notMem_zero e)⟩

section Files

variable {current : SourceTree Content} {d : Discovered}

theorem agree_reparseModifiedFile (hp : Spares p q d.rel) :
    Agree p q g (reparseModifiedFile F current g d) := by
  have hreset : Agree p q g (g.update (resetFile d.rel d.size)) := by
    refine .update (key_resetFile d.rel d.size) fun n hn => ?_
    exact resetFile_of_not_near fun hnear => hp.node _ (Or.inr hnear) hn
  exact hreset.trans (((apart_self _ _ _ _).indexSingleFile hp _).settled)

theorem agree_reparseNewFile {dirs : Finset (List Text)} (hp : Spares p q d.rel) :
    Agree p q g (reparseNewFile F current (g, dirs) d).1 :=
  ((apart_self g dirs _ _).indexFile hp _).settled

end Files

/-! ## Pruning and the passes -/

theorem agree_pruneOrphanDirectories (hp : ∀ k, p k → k.1 ≠ .directory)
    (hq : ∀ e : Edge, q e → e.src.1 ≠ .directory ∧ e.dst.1 ≠ .directory) :
    Agree p q g (pruneOrphanDirectories g) := by
  refine .prune (fun k hk => ?_) (fun e he => ⟨?_, ?_⟩) maxDepth
  · exact fun h => hp k hk (of_decide_eq_true h)
  · exact fun h => (hq e he).1 (of_decide_eq_true h)
  · exact fun h => (hq e he).2 (of_decide_eq_true h)

section Passes

variable {current : SourceTree Content} {sources : List Text}

theorem agree_linkFileImportsFor (hsub : ∀ rel ∈ sources, rel ∈ current.rels)
    (hp : ∀ rel ∈ sources, Spares p q rel) :
    Agree p q g (LightLink.linkFileImportsFor F g current sources) := by
  refine .insertEdges fun e he => ?_
  rw [LightLink.stageSources_eq] at he
  obtain ⟨rel, hrel, he⟩ := mem_flatMap.mp (Unmet.unmet_subset _ _ he)
  refine (hp rel hrel).edge e (Or.inr ?_)
  rw [(LightLink.mem_candidates he).1, (current.plain rel (hsub rel hrel)).relId]
  exact Owned.file.near

theorem mem_parsed {rel : Text} {facts : Iac.IacFacts} (hsub : ∀ rel ∈ sources, rel ∈ current.rels)
    (h : (rel, facts) ∈ sources.filterMap fun rel =>
      (Iac.parse F rel (current.content rel)).map fun facts => (relId rel, facts)) :
    rel ∈ sources ∧ Iac.parse F rel (current.content rel) = some facts := by
  obtain ⟨u, hu, hparsed⟩ := mem_filterMap.mp h
  obtain ⟨facts, hfacts, heq⟩ := Option.map_eq_some_iff.mp hparsed
  rw [(current.plain u (hsub u hu)).relId] at heq
  cases heq
  exact ⟨hu, hfacts⟩

theorem agree_runIacPassFor (hsub : ∀ rel ∈ sources, rel ∈ current.rels)
    (hp : ∀ rel ∈ sources, Spares p q rel) : Agree p q g (Iac.runIacPassFor F g current sources) := by
  refine Agree.trans (Agree.trans (.insertNodes ?_) (.insertEdges ?_)) (.insertEdges ?_)
  · intro n hn
    obtain ⟨⟨rel, facts⟩, hparsed, hn⟩ := mem_flatMap.mp hn
    obtain ⟨hrel, -⟩ := mem_parsed hsub hparsed
    exact (hp rel hrel).node _ (Or.inr (Iac.nodes_owned hn).1.near)
  · intro e he
    obtain ⟨⟨rel, facts⟩, hparsed, he⟩ := mem_flatMap.mp he
    obtain ⟨hrel, -⟩ := mem_parsed hsub hparsed
    refine (hp rel hrel).edge e (Or.inr ?_)
    rcases (Iac.edges_ends he).1 with hsrc | hsrc
    · rw [hsrc]
      exact Owned.file.near
    · obtain ⟨n, hn, hkey⟩ := mem_map.mp hsrc
      rw [← hkey]
      exact (Iac.nodes_owned hn).1.near
  · intro e he
    rw [Iac.stage_eq] at he
    obtain ⟨⟨rel, facts⟩, hparsed, he⟩ := mem_flatMap.mp (Unmet.unmet_subset _ _ he)
    obtain ⟨hrel, -⟩ := mem_parsed hsub hparsed
    obtain ⟨label, name, hlabel, hsrc⟩ := (Iac.references_ends he).2.1
    refine (hp rel hrel).edge e (Or.inr ?_)
    rw [hsrc]
    exact (Owned.named name hlabel).near

end Passes

/-! ## The keys there are after -/

theorem IndexState.keys_settled (st : IndexState) :
    st.settled.keys = st.store.keys + st.batch.nodes.map key :=
  keys_insertNodes _ _

section Keys

variable {rel : Text} {st : IndexState}

theorem keys_settled_setFileParseErrors (errors : Nat) :
    (setFileParseErrors st rel errors).settled.keys = st.settled.keys := by
  rw [IndexState.keys_settled, IndexState.keys_settled]
  exact congrArg (· + _) (keys_update (key_setParseErrors rel errors))

theorem keys_settled_accumulateParsedNodes (language : Text) (nodes : List ExtractedNode)
    (hseen : st.seenNodeIds = ∅) : (accumulateParsedNodes language rel nodes st).settled.keys =
      st.settled.keys +
        ((Unmet.unmet (symbolKey rel) nodes ∅).map (symbolNode language rel) : Multiset Node).map
          key := by
  rw [accumulateParsedNodes_eq, hseen, IndexState.keys_settled, IndexState.keys_settled]
  show _ + (_ + st.batch.nodes).map key = _
  rw [Multiset.map_add, add_comm (Multiset.map key _), add_assoc]

theorem keys_settled_persistFullAst (source language : Text) :
    (persistFullAst F rel source language st).settled.keys =
      st.settled.keys + (astNodes F rel language source : Multiset Node).map key := by
  rw [persistFullAst_eq, IndexState.keys_settled, IndexState.keys_settled]
  show (_ + _ : Multiset Node).map key + _ = _
  rw [Multiset.map_add, add_right_comm]
  rfl

theorem keys_settled_indexSingleFile {content : Content} (hseen : st.seenNodeIds = ∅) :
    (indexSingleFile F rel content st).settled.keys =
      st.settled.keys + (ownNodes F rel content).map key := by
  rw [CodeGraph.indexSingleFile, ownNodes]
  cases parsedFile F rel content with
  | none => exact (add_zero _).symm
  | some parsed =>
      obtain ⟨language, source, parsed⟩ := parsed
      have herrors : (if 0 < parsed.parseErrors then setFileParseErrors st rel parsed.parseErrors
          else st).settled.keys = st.settled.keys := by
        split
        · exact keys_settled_setFileParseErrors _
        · rfl
      have hempty : (if 0 < parsed.parseErrors then setFileParseErrors st rel parsed.parseErrors
          else st).seenNodeIds = ∅ := by
        split <;> exact hseen
      dsimp only
      rw [keys_settled_persistFullAst, Multiset.map_add, ← add_assoc, ← herrors]
      exact congrArg (· + _) (keys_settled_accumulateParsedNodes language _ hempty)

end Keys

section Files

variable {current : SourceTree Content} {d : Discovered}

theorem keys_reparseModifiedFile : (reparseModifiedFile F current g d).keys =
    g.keys + (ownNodes F d.rel (current.content d.rel)).map key := by
  rw [CodeGraph.reparseModifiedFile, keys_settled_indexSingleFile rfl, IndexState.keys_settled]
  show (g.update (resetFile d.rel d.size)).keys + 0 + _ = _
  rw [add_zero, keys_update (key_resetFile d.rel d.size)]

theorem mem_keys_reparseNewFile {dirs : Finset (List Text)} {k : Key} (hk : k.1 ≠ .directory) :
    k ∈ (reparseNewFile F current (g, dirs) d).1.keys ↔
      k ∈ g.keys ∨ k = (.file, d.rel) ∨ k ∈ (ownNodes F d.rel (current.content d.rel)).map key := by
  rw [CodeGraph.reparseNewFile]
  dsimp only
  rw [indexFile, insertAncestorDirs, insertDirsFrom_eq, keys_settled_indexSingleFile rfl,
    IndexState.keys_settled, Multiset.mem_add, Multiset.mem_add]
  show (k ∈ ((g.insertNodes _).insertNodes _).keys ∨ k ∈ (0 : Multiset Key)) ∨ _ ↔ _
  rw [keys_insertNodes, keys_insertNodes, Multiset.mem_add, Multiset.mem_add]
  have hdirs : ∀ dirs : List (List Text), k ∉ (dirs.map dirNode : Multiset Node).map key := by
    intro dirs hmem
    obtain ⟨n, hn, rfl⟩ := Multiset.mem_map.mp hmem
    obtain ⟨dir, -, rfl⟩ := mem_map.mp hn
    exact hk rfl
  have hfile : k ∈ ({fileNode d.rel (F.size (current.content d.rel)) 0} : Multiset Node).map key ↔
      k = (.file, d.rel) := Multiset.mem_singleton
  simp only [hdirs, hfile, Multiset.notMem_zero, or_false, or_assoc]

theorem mem_keys_changed {k : Key} : ∀ {ds : List Discovered} {g : Graph},
    k ∈ (ds.foldl (reparseModifiedFile F current) g).keys ↔
      k ∈ g.keys ∨ ∃ d ∈ ds, k ∈ (ownNodes F d.rel (current.content d.rel)).map key
  | [], _ => by simp
  | d :: ds, g => by
      rw [foldl_cons, mem_keys_changed, keys_reparseModifiedFile, Multiset.mem_add, or_assoc,
        exists_mem_cons_iff]

theorem mem_keys_new {k : Key} (hk : k.1 ≠ .directory) : ∀ {ds : List Discovered}
    {acc : Graph × Finset (List Text)}, k ∈ (ds.foldl (reparseNewFile F current) acc).1.keys ↔
      k ∈ acc.1.keys ∨ ∃ d ∈ ds, k = (.file, d.rel) ∨
        k ∈ (ownNodes F d.rel (current.content d.rel)).map key
  | [], _ => by simp
  | d :: ds, acc => by
      rw [foldl_cons, mem_keys_new hk, mem_keys_reparseNewFile hk, or_assoc,
        exists_mem_cons_iff]

end Files

theorem mem_keys_pruneOrphanDirectories {k : Key} (hk : k.1 ≠ .directory) :
    k ∈ (pruneOrphanDirectories g).keys ↔ k ∈ g.keys := by
  have hagree : Agree (fun k : Key => decide (k.1 ≠ .directory)) (fun _ => false) g
      (pruneOrphanDirectories g) :=
    agree_pruneOrphanDirectories (fun k hk => of_decide_eq_true hk) fun e he =>
      absurd he Bool.false_ne_true
  exact hagree.mem_keys (decide_eq_true hk)

theorem mem_keys_runIacPassFor {current : SourceTree Content} {sources : List Text}
    (hsub : ∀ rel ∈ sources, rel ∈ current.rels) {k : Key} :
    k ∈ (Iac.runIacPassFor F g current sources).keys ↔
      k ∈ g.keys ∨ ∃ rel ∈ sources, k ∈ (Iac.factNodes F rel (current.content rel)).map key := by
  show k ∈ (g.insertNodes _).keys ↔ _
  rw [keys_insertNodes, Multiset.mem_add]
  refine or_congr_right ?_
  rw [Multiset.map_coe, Multiset.mem_coe]
  constructor
  · intro hk
    obtain ⟨n, hn, rfl⟩ := mem_map.mp hk
    obtain ⟨⟨rel, facts⟩, hparsed, hn⟩ := mem_flatMap.mp hn
    obtain ⟨hrel, hfacts⟩ := mem_parsed hsub hparsed
    exact ⟨rel, hrel, mem_map_of_mem (Iac.mem_parsed.mpr ⟨facts, hfacts, hn⟩)⟩
  · rintro ⟨rel, hrel, hk⟩
    obtain ⟨n, hn, rfl⟩ := mem_map.mp hk
    obtain ⟨facts, hfacts, hn⟩ := Iac.mem_parsed.mp hn
    refine mem_map_of_mem (mem_flatMap.mpr ⟨(rel, facts), ?_, hn⟩)
    refine mem_filterMap.mpr ⟨rel, hrel, ?_⟩
    rw [hfacts, (current.plain rel (hsub rel hrel)).relId]
    rfl

end CodeGraph
