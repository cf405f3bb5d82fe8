import CodeGraph.IndexOwners
import CodeGraph.Lib.Unmet
import Mathlib.Tactic.Abel

/-!
# The parts of the graph

What each file adds to the graph by itself, and that the index loop adds just
that: the batch, its flushes and what is remembered of earlier files do not
matter, because no id of one file is looked up by another.
-/

namespace CodeGraph

open List PropertyGraph Unmet

/-! ## What one file adds -/

section Parts

variable {Content : Type} (F : FrontEnd Content) (rel : Text) (content : Content)

def fileErrors : Nat :=
  match parsedFile F rel content with
  | none => 0
  | some (_, _, parsed) => parsed.parseErrors

def astRows (language source : Text) : List AstNodeRow :=
  (F.captureFullAst language rel source).getD []

def astNodes (language source : Text) : List Node :=
  match F.captureFullAst language rel source with
  | none => []
  | some rows => ⟨rel, .fileContent source⟩ :: rows.map (astNode language rel)

/-- The declarations kept of a parse, under distinct keys. -/
def ownSymbols (language : Text) (parsed : ParseResult) : List ExtractedNode :=
  unmet (symbolKey rel) (keptNodes F rel language parsed.nodes) ∅

def ownLabels (symbols : List ExtractedNode) : Finset Key :=
  insert (.file, rel) (keysOf (symbolKey rel) symbols)

def ownNodes : Multiset Node :=
  match parsedFile F rel content with
  | none => 0
  | some (language, source, parsed) =>
      ((ownSymbols F rel language parsed).map (symbolNode language rel) : List Node) +
        (astNodes F rel language source : Multiset Node)

def ownKeys : Multiset Key := (.file, rel) ::ₘ (ownNodes F rel content).map Keyed.key

/-- The edges between the nodes of a file. -/
def ownEdges : Multiset Edge :=
  match parsedFile F rel content with
  | none => 0
  | some (language, source, parsed) =>
      let labels := ownLabels rel (ownSymbols F rel language parsed)
      ((parsed.refs.filterMap (refEdge labels rel) : List Edge) +
        (astEdges rel (astRows F rel language source) : Multiset Edge)).filter
          (Lands (ownKeys F rel content))

def baseNodes : Multiset Node :=
  fileNode rel (F.size content) (fileErrors F rel content) ::ₘ ownNodes F rel content

def baseEdges : Multiset Edge := (dirFileEdges rel : Multiset Edge) + ownEdges F rel content

end Parts

/-! ## The loops as sets of first occurrences -/

theorem insertDirsFrom_eq : ∀ (current components : List Text) (st : IndexState),
    insertDirsFrom current components st =
      let fresh := unmet id (dirsBelow current components) st.dirNodesInserted
      { st with
        store := st.store.insertNodes (fresh.map dirNode : List Node)
        batch := { st.batch with
          edges := (fresh.flatMap dirEdges : List Edge) + st.batch.edges }
        dirNodesInserted := st.dirNodesInserted ∪ keysOf id (dirsBelow current components)
        labelByQn := st.labelByQn ∪ keysOf (fun dir => (.directory, dirId dir)) fresh }
  | current, [], st => by
      simp [insertDirsFrom, dirsBelow, unmet, keysOf, insertNodes]
  | current, component :: components, st => by
      rw [insertDirsFrom]
      by_cases h : current ++ [component] ∈ st.dirNodesInserted
      · rw [if_pos h, insertDirsFrom_eq]
        simp [dirsBelow, unmet, h, keysOf_cons]
      · rw [if_neg h, insertDirsFrom_eq]
        simp only [dirsBelow, unmet, id_eq, h, keysOf_cons, IndexState.recordLabel,
          IndexState.pushEdges, if_false, map_cons, flatMap_cons,
          Finset.insert_union_comm, ← Multiset.cons_coe, ← Multiset.coe_add]
        rw [insertNodes_insertNodes, Multiset.singleton_add, ← add_assoc,
          add_comm (dirEdges (current ++ [component]) : Multiset Edge)]

theorem accumulateParsedNodes_eq (language rel : Text) : ∀ (nodes : List ExtractedNode)
    (st : IndexState), accumulateParsedNodes language rel nodes st =
      let fresh := unmet (symbolKey rel) nodes st.seenNodeIds
      { st with
        batch := { st.batch with
          nodes := (fresh.map (symbolNode language rel) : List Node) + st.batch.nodes }
        labelByQn := st.labelByQn ∪ keysOf (symbolKey rel) fresh
        seenNodeIds := st.seenNodeIds ∪ keysOf (symbolKey rel) nodes }
  | [], st => by
      simp [accumulateParsedNodes, unmet, keysOf]
  | node :: nodes, st => by
      rw [accumulateParsedNodes]
      by_cases h : symbolKey rel node ∈ st.seenNodeIds
      · rw [if_pos h, accumulateParsedNodes_eq language rel nodes st]
        simp [unmet, h, keysOf_cons]
      · rw [if_neg h, accumulateParsedNodes_eq language rel nodes]
        simp only [unmet, h, keysOf_cons, IndexState.recordLabel, IndexState.pushNode, if_false,
          map_cons, Finset.insert_union_comm, ← Multiset.cons_coe, Multiset.cons_add,
          Multiset.add_cons]

theorem persistFullAst_eq {Content : Type} (F : FrontEnd Content) (rel source language : Text)
    (st : IndexState) : persistFullAst F rel source language st =
      { st with
        store := (st.store.insertNodes (astNodes F rel language source : List Node)).insertEdges
          (astEdges rel (astRows F rel language source) : List Edge) } := by
  rw [persistFullAst]
  cases h : F.captureFullAst language rel source with
  | none => simp [astNodes, astRows, h, astEdges, insertNodes, insertEdges]
  | some rows =>
      simp only [astNodes, astRows, h, insertNodes_insertNodes, Multiset.singleton_add,
        Multiset.cons_coe, Option.getD_some]

/-! ## Lookups stay in the file -/

theorem lookupLabelAmong_congr {labels labels' : Finset Key} {id : Text} {candidates : List Label}
    (h : ∀ label ∈ candidates, ((label, id) ∈ labels ↔ (label, id) ∈ labels')) :
    lookupLabelAmong labels id candidates = lookupLabelAmong labels' id candidates := by
  have hfilter : candidates.filter (fun label => (label, id) ∈ labels) =
      candidates.filter fun label => (label, id) ∈ labels' :=
    filter_congr fun label hl => decide_eq_decide.mpr (h label hl)
  rw [lookupLabelAmong, lookupLabelAmong, hfilter]

theorem lookupLabelAmong_mem {labels : Finset Key} {id : Text} {candidates : List Label}
    {label : Label} (h : lookupLabelAmong labels id candidates = some label) :
    label ∈ candidates := by
  rw [lookupLabelAmong] at h
  split at h
  next found hfound =>
    cases h
    have hmem : label ∈ candidates.filter fun label => (label, id) ∈ labels := by
      rw [hfound]
      exact mem_singleton_self label
    exact (mem_filter.mp hmem).1
  next => cases h

theorem Endpoint.near (rel : Text) (endpoint : Endpoint) {label : Label} (h : label ≠ .directory) :
    Near rel (label, endpoint.id rel) := by
  refine ⟨h, ?_⟩
  cases endpoint with
  | file => exact Or.inl rfl
  | symbol name => exact Or.inr (inFile_nil_isPrefix rel name)

theorem refEdge_congr {labels labels' : Finset Key} {rel : Text}
    (h : ∀ k, Near rel k → (k ∈ labels ↔ k ∈ labels')) (r : ExtractedRef) :
    refEdge labels rel r = refEdge labels' rel r := by
  have hlook : ∀ (endpoint : Endpoint) (candidates : List Label),
      (∀ label ∈ candidates, label ≠ .directory) →
      lookupLabelAmong labels (endpoint.id rel) candidates =
        lookupLabelAmong labels' (endpoint.id rel) candidates := fun endpoint candidates hc =>
    lookupLabelAmong_congr fun label hl => h _ (endpoint.near rel (hc label hl))
  rw [refEdge, refEdge]
  congr 1
  cases r.kind with
  | defines =>
      rw [resolveEdgeTable, resolveEdgeTable, hlook r.origin definesFrom (by decide),
        hlook r.target definesTo (by decide)]
  | hasMethod | hasField => rw [resolveEdgeTable, resolveEdgeTable, hlook r.origin _ (by decide)]
  | hasVariant | deferred _ => rfl

theorem resolveEdgeTable_labels {labels : Finset Key} {origin target : Text} {kind : RefKind}
    {edgeKind : EdgeKind} {fromLabel toLabel : Label}
    (h : resolveEdgeTable labels origin target kind = some (edgeKind, fromLabel, toLabel)) :
    fromLabel ≠ .directory ∧ toLabel.isScoped := by
  have hfrom : ∀ l ∈ definesFrom, l ≠ .directory := by decide
  have hto : ∀ l ∈ definesTo, l.isScoped := by decide
  have hmethod : ∀ l ∈ ([.symbol .struct, .symbol .enum, .symbol .trait] : List Label),
      l ≠ .directory := by decide
  have hfield : ∀ l ∈ ([.symbol .struct, .symbol .enum] : List Label), l ≠ .directory := by decide
  cases kind with
  | defines =>
      simp only [resolveEdgeTable, Option.bind_eq_bind, Option.bind_eq_some_iff] at h
      obtain ⟨l, hl, m, hm, hif⟩ := h
      split at hif
      · cases hif
        exact ⟨hfrom _ (lookupLabelAmong_mem hl), hto _ (lookupLabelAmong_mem hm)⟩
      · cases hif
  | hasMethod =>
      simp only [resolveEdgeTable, Option.bind_eq_bind, Option.bind_eq_some_iff] at h
      obtain ⟨l, hl, hsome⟩ := h
      cases hsome
      exact ⟨hmethod _ (lookupLabelAmong_mem hl), rfl⟩
  | hasField =>
      simp only [resolveEdgeTable, Option.bind_eq_bind, Option.bind_eq_some_iff] at h
      obtain ⟨l, hl, hsome⟩ := h
      cases hsome
      exact ⟨hfield _ (lookupLabelAmong_mem hl), rfl⟩
  | hasVariant =>
      cases h
      exact ⟨nofun, rfl⟩
  | deferred _ => cases h

/-- The ends of an edge a parse gives rise to: ids of the file, and a symbol is
what it leads to. -/
theorem refEdge_ends {labels : Finset Key} {rel : Text} {r : ExtractedRef} {e : Edge}
    (h : refEdge labels rel r = some e) :
    Near rel e.src ∧ Near rel e.dst ∧ e.dst.1.isScoped := by
  obtain ⟨⟨kind, fromLabel, toLabel⟩, hres, rfl⟩ := Option.map_eq_some_iff.mp h
  obtain ⟨hfrom, hto⟩ := resolveEdgeTable_labels hres
  refine ⟨r.origin.near rel hfrom, r.target.near rel ?_, hto⟩
  rintro rfl
  cases hto

/-- Edges whose ends are told apart by two stores alike land in both or in
neither. -/
theorem lands_congr {ks ls : Multiset Key} {P : Key → Prop} (h : ∀ k, P k → (k ∈ ks ↔ k ∈ ls))
    {e : Edge} (hsrc : P e.src) (hdst : P e.dst) : Lands ks e ↔ Lands ls e :=
  and_congr (h _ hsrc) (h _ hdst)

theorem filter_lands_congr {ks ls : Multiset Key} {P : Key → Prop}
    (h : ∀ k, P k → (k ∈ ks ↔ k ∈ ls)) {es : Multiset Edge}
    (hends : ∀ e ∈ es, P e.src ∧ P e.dst) : es.filter (Lands ks) = es.filter (Lands ls) :=
  Multiset.filter_congr fun e he => lands_congr h (hends e he).1 (hends e he).2

theorem astEdges_ends {rel : Text} {rows : List AstNodeRow} {e : Edge} (h : e ∈ astEdges rel rows) :
    (e.src = (.file, rel) ∨ ∃ name, e.src = (.astNode, inFile rel name)) ∧
      ∃ name, e.dst = (.astNode, inFile rel name) := by
  cases rows with
  | nil => cases h
  | cons root rows =>
      rcases mem_cons.mp h with rfl | h
      · exact ⟨Or.inl rfl, root.localId, rfl⟩
      · obtain ⟨row, -, hrow⟩ := mem_filterMap.mp h
        obtain ⟨parent, -, rfl⟩ := Option.map_eq_some_iff.mp hrow
        exact ⟨Or.inr ⟨parent, rfl⟩, row.localId, rfl⟩

/-! ## Owners of the parts -/

section Owners

variable {Content : Type} {F : FrontEnd Content} {rel : Text} {content : Content}

theorem symbolNode_owned (language rel : Text) (node : ExtractedNode) :
    Owned rel (Keyed.key (symbolNode language rel node)) :=
  .named node.localName rfl

theorem astNodes_owned {language source : Text} {n : Node} (h : n ∈ astNodes F rel language source) :
    Owned rel (Keyed.key n) ∧ (Keyed.key n).1 ≠ .file := by
  rw [astNodes] at h
  split at h
  · cases h
  · rcases mem_cons.mp h with rfl | h
    · exact ⟨.content, nofun⟩
    · obtain ⟨row, -, rfl⟩ := mem_map.mp h
      exact ⟨.named row.localId rfl, nofun⟩

theorem ownNodes_owned {n : Node} (h : n ∈ ownNodes F rel content) :
    Owned rel (Keyed.key n) ∧ (Keyed.key n).1 ≠ .file := by
  rw [ownNodes] at h
  split at h
  · exact absurd h (Multiset.notMem_zero n)
  · rcases Multiset.mem_add.mp h with h | h
    · obtain ⟨node, -, rfl⟩ := mem_map.mp h
      exact ⟨symbolNode_owned _ rel node, nofun⟩
    · exact astNodes_owned h

theorem baseNodes_owned {n : Node} (h : n ∈ baseNodes F rel content) :
    Owned rel (Keyed.key n) := by
  rcases Multiset.mem_cons.mp h with rfl | h
  · exact .file
  · exact (ownNodes_owned h).1

end Owners

/-! ## One file of the loop -/

theorem key_setParseErrors (rel : Text) (errors : Nat) (n : Node) :
    Keyed.key (setParseErrors rel errors n) = Keyed.key n := by
  obtain ⟨id, row⟩ := n
  cases row with
  | file name ext size old =>
      show Keyed.key (if id = rel then _ else _) = _
      split <;> rfl
  | _ => rfl

theorem setParseErrors_of_not_near {rel : Text} {errors : Nat} {n : Node}
    (h : ¬Near rel (Keyed.key n)) : setParseErrors rel errors n = n := by
  obtain ⟨id, row⟩ := n
  cases row with
  | file name ext size old =>
      rw [setParseErrors]
      exact if_neg fun hid => h ⟨nofun, Or.inl hid⟩
  | _ => rfl

/-- The state knows nothing of a file besides its file node; `others` are the
nodes of the store next to it. -/
structure Foreign (rel : Text) (st : IndexState) (others : Multiset Node) : Prop where
  nodes : ∀ n ∈ others + st.batch.nodes, ¬Near rel (Keyed.key n)
  edges : ∀ e ∈ st.batch.edges,
    (Near rel e.src → e.src = (.file, rel)) ∧ (Near rel e.dst → e.dst = (.file, rel))
  seen : ∀ k ∈ st.seenNodeIds, ¬Near rel k
  labels : ∀ k, Near rel k → (k ∈ st.labelByQn ↔ k = (.file, rel))

section SingleFile

variable {Content : Type} {F : FrontEnd Content} {rel : Text} {content : Content}
  {st : IndexState} {others : Multiset Node}

theorem setFileParseErrors_eq {size errors : Nat}
    (hst : st.store.nodes = fileNode rel size 0 ::ₘ others)
    (hothers : ∀ n ∈ others, ¬Near rel (Keyed.key n)) :
    (if 0 < errors then setFileParseErrors st rel errors else st) =
      { st with store := ⟨fileNode rel size errors ::ₘ others, st.store.edges⟩ } := by
  obtain ⟨⟨nodes, edges⟩, batch, dirs, labels, seen⟩ := st
  subst hst
  have hmap : others.map (setParseErrors rel errors) = others :=
    (Multiset.map_congr rfl fun n hn => setParseErrors_of_not_near (hothers n hn)).trans
      (Multiset.map_id others)
  split
  case isTrue =>
    simp only [setFileParseErrors, update, Multiset.map_cons, hmap]
    simp [fileNode, setParseErrors]
  case isFalse h =>
    obtain rfl : errors = 0 := by omega
    rfl

/-- What lands of the edges of a file and of the edges batched before: `A` and `B`
are the keys of other files, `S` and `T` those of the symbols and of the syntax
tree. -/
theorem lands_settled (A B S T : Multiset Key) {ast refs batch : Multiset Edge}
    (hother : ∀ k ∈ A + B, ¬Near rel k) (hown : ∀ k ∈ S + T, Near rel k ∧ k.1 ≠ .file)
    (hS : ∀ k ∈ S, k.1 ≠ .astNode)
    (hast : ∀ e ∈ ast, (Near rel e.src ∧ (e.src.1 = .file ∨ e.src.1 = .astNode)) ∧
      Near rel e.dst ∧ (e.dst.1 = .file ∨ e.dst.1 = .astNode))
    (hrefs : ∀ e ∈ refs, Near rel e.src ∧ Near rel e.dst)
    (hbatch : ∀ e ∈ batch,
      (Near rel e.src → e.src = (.file, rel)) ∧ (Near rel e.dst → e.dst = (.file, rel))) :
    ast.filter (Lands ((.file, rel) ::ₘ A + T)) +
        (refs + batch).filter (Lands ((.file, rel) ::ₘ A + T + (S + B))) =
      batch.filter (Lands ((.file, rel) ::ₘ A + B)) +
        (refs + ast).filter (Lands ((.file, rel) ::ₘ (S + T))) := by
  have hA : ∀ k, Near rel k → k ∉ A := fun k hk hA =>
    hother k (Multiset.mem_add.mpr (Or.inl hA)) hk
  have hB : ∀ k, Near rel k → k ∉ B := fun k hk hB =>
    hother k (Multiset.mem_add.mpr (Or.inr hB)) hk
  have hast' : ast.filter (Lands ((.file, rel) ::ₘ A + T)) =
      ast.filter (Lands ((.file, rel) ::ₘ (S + T))) :=
    filter_lands_congr (fun k (hk : Near rel k ∧ (k.1 = .file ∨ k.1 = .astNode)) => by
      have hkS : k ∈ S → k = (.file, rel) := fun h => absurd hk.2 <| by
        rw [not_or]
        exact ⟨(hown k (Multiset.mem_add.mpr (Or.inl h))).2, hS k h⟩
      simp only [Multiset.mem_cons, Multiset.mem_add]
      have := hA k hk.1
      tauto) hast
  have hrefs' : refs.filter (Lands ((.file, rel) ::ₘ A + T + (S + B))) =
      refs.filter (Lands ((.file, rel) ::ₘ (S + T))) :=
    filter_lands_congr (fun k (hk : Near rel k) => by
      simp only [Multiset.mem_cons, Multiset.mem_add]
      have := hA k hk
      have := hB k hk
      tauto) hrefs
  have hbatch' : batch.filter (Lands ((.file, rel) ::ₘ A + T + (S + B))) =
      batch.filter (Lands ((.file, rel) ::ₘ A + B)) :=
    filter_lands_congr (fun k (hk : Near rel k → k = (.file, rel)) => by
      have hfile : k ∈ S + T → k = (.file, rel) := fun h => hk (hown k h).1
      simp only [Multiset.mem_cons, Multiset.mem_add] at hfile ⊢
      tauto) hbatch
  rw [Multiset.filter_add, Multiset.filter_add, hast', hrefs', hbatch']
  abel

theorem settled_indexSingleFile (hst : st.store.nodes = fileNode rel (F.size content) 0 ::ₘ others)
    (h : Foreign rel st others) : (indexSingleFile F rel content st).settled =
      ⟨baseNodes F rel content + (others + st.batch.nodes),
        st.settled.edges + ownEdges F rel content⟩ := by
  rw [indexSingleFile]
  cases hparsed : parsedFile F rel content with
  | none =>
      simp [baseNodes, ownNodes, ownEdges, fileErrors, hparsed, IndexState.settled,
        SymbolBatch.flush, insertEdges, insertNodes, hst]
  | some parsed =>
      obtain ⟨language, source, parsed⟩ := parsed
      have hothers : ∀ n ∈ others, ¬Near rel (Keyed.key n) := fun n hn =>
        h.nodes n (Multiset.mem_add.mpr (Or.inl hn))
      have hfresh : unmet (symbolKey rel) (keptNodes F rel language parsed.nodes) st.seenNodeIds =
          ownSymbols F rel language parsed :=
        unmet_congr fun node _ => iff_of_false
          (fun hseen => h.seen _ hseen (symbolNode_owned language rel node).near)
          (Finset.notMem_empty _)
      dsimp only
      rw [setFileParseErrors_eq hst hothers, accumulateParsedNodes_eq]
      have hrefs : parsed.refs.filterMap (refEdge
            (st.labelByQn ∪ keysOf (symbolKey rel) (ownSymbols F rel language parsed)) rel) =
          parsed.refs.filterMap (refEdge (ownLabels rel (ownSymbols F rel language parsed)) rel) := by
        refine filterMap_congr fun r _ => refEdge_congr (fun k hk => ?_) r
        rw [Finset.mem_union, ownLabels, Finset.mem_insert, h.labels k hk]
      have hnear : ∀ e ∈ (parsed.refs.filterMap
          (refEdge (ownLabels rel (ownSymbols F rel language parsed)) rel) : Multiset Edge),
          Near rel e.src ∧ Near rel e.dst := fun e he => by
        obtain ⟨r, -, hr⟩ := mem_filterMap.mp he
        exact ⟨(refEdge_ends hr).1, (refEdge_ends hr).2.1⟩
      simp only [accumulateParsedEdges, IndexState.pushEdges, persistFullAst_eq, hfresh, hrefs,
        IndexState.settled, SymbolBatch.flush]
      ext1
      · simp only [insertEdges, insertNodes, baseNodes, ownNodes, hparsed, fileErrors,
          ← Multiset.singleton_add]
        abel
      · have hast : ∀ e ∈ (astEdges rel (astRows F rel language source) : Multiset Edge),
            (Near rel e.src ∧ (e.src.1 = .file ∨ e.src.1 = .astNode)) ∧
              Near rel e.dst ∧ (e.dst.1 = .file ∨ e.dst.1 = .astNode) := fun e he => by
          obtain ⟨hsrc, name, hdst⟩ := astEdges_ends he
          rw [hdst]
          refine ⟨?_, (Owned.named name rfl).near, Or.inr rfl⟩
          rcases hsrc with hsrc | ⟨name, hsrc⟩
          · rw [hsrc]
            exact ⟨Owned.file.near, Or.inl rfl⟩
          · rw [hsrc]
            exact ⟨(Owned.named name rfl).near, Or.inr rfl⟩
        have hother : ∀ k ∈ others.map Keyed.key + st.batch.nodes.map Keyed.key, ¬Near rel k := by
          rw [← Multiset.map_add]
          exact Multiset.forall_mem_map_iff.mpr h.nodes
        have hown : ∀ k ∈ (((ownSymbols F rel language parsed).map (symbolNode language rel) :
            List Node) : Multiset Node).map Keyed.key +
            (astNodes F rel language source : Multiset Node).map Keyed.key,
            Near rel k ∧ k.1 ≠ .file := by
          rw [← Multiset.map_add]
          refine Multiset.forall_mem_map_iff.mpr ?_
          intro n hn
          have hn : n ∈ ownNodes F rel content := by rwa [ownNodes, hparsed]
          exact ⟨(ownNodes_owned hn).1.near, (ownNodes_owned hn).2⟩
        have hsymbol : ∀ k ∈ (((ownSymbols F rel language parsed).map (symbolNode language rel) :
            List Node) : Multiset Node).map Keyed.key, k.1 ≠ .astNode := by
          refine Multiset.forall_mem_map_iff.mpr ?_
          intro n hn
          obtain ⟨node, -, rfl⟩ := mem_map.mp hn
          rintro ⟨⟩
        have hlands := lands_settled _ _ _ _ hother hown hsymbol hast hnear h.edges
        simp only [insertEdges, insertNodes, PropertyGraph.keys, Multiset.map_add,
          Multiset.map_cons, hst, ownEdges, hparsed, ownKeys, ownNodes]
        refine (add_assoc _ _ _).trans (Eq.trans ?_ (add_assoc _ _ _).symm)
        exact congrArg (st.store.edges + ·) hlands

/-- The loop carries only ids of the file on from it. -/
structure Carried (rel : Text) (st st' : IndexState) : Prop where
  dirs : st'.dirNodesInserted = st.dirNodesInserted
  edges : ∀ e ∈ st'.batch.edges, e ∈ st.batch.edges ∨ Near rel e.src ∧ Near rel e.dst
  labels : ∀ k ∈ st'.labelByQn, k ∈ st.labelByQn ∨ Near rel k
  seen : ∀ k ∈ st'.seenNodeIds, k ∈ st.seenNodeIds ∨ Near rel k

theorem carried_indexSingleFile (F : FrontEnd Content) (rel : Text) (content : Content)
    (st : IndexState) : Carried rel st (indexSingleFile F rel content st) := by
  rw [indexSingleFile]
  cases hparsed : parsedFile F rel content with
  | none => exact ⟨rfl, fun _ => Or.inl, fun _ => Or.inl, fun _ => Or.inl⟩
  | some parsed =>
      obtain ⟨language, source, parsed⟩ := parsed
      have hnear : ∀ {nodes : List ExtractedNode} {k : Key}, k ∈ keysOf (symbolKey rel) nodes →
          Near rel k := fun hk => by
        obtain ⟨node, -, rfl⟩ := mem_keysOf.mp hk
        exact (symbolNode_owned language rel node).near
      dsimp only
      rw [persistFullAst_eq, accumulateParsedEdges, accumulateParsedNodes_eq]
      refine ⟨?_, fun e he => ?_, fun k hk => ?_, fun k hk => ?_⟩
      · split <;> rfl
      · rcases Multiset.mem_add.mp he with he | he
        · obtain ⟨r, -, hr⟩ := mem_filterMap.mp he
          exact Or.inr ⟨(refEdge_ends hr).1, (refEdge_ends hr).2.1⟩
        · refine Or.inl ?_
          split at he <;> exact he
      · rcases Finset.mem_union.mp hk with hk | hk
        · refine Or.inl ?_
          split at hk <;> exact hk
        · exact Or.inr (hnear hk)
      · rcases Finset.mem_union.mp hk with hk | hk
        · refine Or.inl ?_
          split at hk <;> exact hk
        · exact Or.inr (hnear hk)

end SingleFile

end CodeGraph
