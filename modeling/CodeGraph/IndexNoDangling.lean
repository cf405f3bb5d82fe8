import CodeGraph.ApplyChanges
import CodeGraph.IndexParts

/-!
# No dangling edge

Neither index writes an edge without both its ends, and none is left behind when
a node is deleted.
-/

namespace CodeGraph

open PropertyGraph Keyed

variable {Content : Type} {F : FrontEnd Content}

/-! ## The index loop -/

variable {st : IndexState}

theorem closed_settled (h : st.store.Closed) : st.settled.Closed :=
  (h.insertNodes _).insertEdges _

theorem closed_insertDirsFrom : ∀ (components : List Text) {current : List Text}
    {st : IndexState}, st.store.Closed → (insertDirsFrom current components st).store.Closed
  | [], _, _, h => h
  | component :: components, current, st, h => by
      rw [insertDirsFrom]
      by_cases hmem : current ++ [component] ∈ st.dirNodesInserted
      · rw [if_pos hmem]
        exact closed_insertDirsFrom components h
      · rw [if_neg hmem]
        exact closed_insertDirsFrom components (h.insertNodes _)

theorem closed_accumulateParsedNodes (language rel : Text) (nodes : List ExtractedNode) (h : st.store.Closed) :
    (accumulateParsedNodes language rel nodes st).store.Closed := by
  rw [accumulateParsedNodes_eq]
  exact h

theorem closed_persistFullAst (rel source language : Text)
    (h : st.store.Closed) : (persistFullAst F rel source language st).store.Closed := by
  rw [persistFullAst_eq]
  exact (h.insertNodes _).insertEdges _

theorem closed_indexSingleFile (rel : Text) (content : Content)
    (h : st.store.Closed) : (indexSingleFile F rel content st).store.Closed := by
  rw [indexSingleFile]
  split
  · exact h
  next language source parsed hparse =>
    refine closed_persistFullAst _ _ _ (closed_accumulateParsedNodes _ _ _ ?_)
    show (if 0 < parsed.parseErrors then setFileParseErrors st rel parsed.parseErrors
      else st).store.Closed
    split
    · exact h.update (key_setParseErrors rel parsed.parseErrors)
    · exact h

theorem closed_indexFile (rel : Text) (content : Content)
    (h : st.store.Closed) : (indexFile F rel content st).store.Closed :=
  closed_indexSingleFile rel content ((closed_insertDirsFrom _ h).insertNodes _)

theorem closed_flushLarge (h : st.store.Closed) : (flushLarge st).store.Closed := by
  rw [flushLarge]
  split
  · exact closed_settled h
  · exact h

theorem closed_indexFiles (tree : SourceTree Content) : ∀ (rels : List Text) {st : IndexState},
    st.store.Closed → (indexFiles F tree st rels).store.Closed
  | [], _, h => h
  | rel :: rels, _, h =>
      closed_indexFiles tree rels (closed_flushLarge (closed_indexFile rel (tree.content rel) h))

/-! ## The passes -/

variable {g : Graph}

theorem closed_linkFileImportsFor (tree : SourceTree Content) (sources : List Text)
    (h : g.Closed) : (LightLink.linkFileImportsFor F g tree sources).Closed :=
  h.insertEdges _

theorem closed_runIacPassFor (tree : SourceTree Content) (sources : List Text)
    (h : g.Closed) : (Iac.runIacPassFor F g tree sources).Closed :=
  ((h.insertNodes _).insertEdges _).insertEdges _

theorem closed_indexCodebase (tree : SourceTree Content) : (indexCodebase F tree).Closed :=
  closed_runIacPassFor tree _ (closed_linkFileImportsFor tree _
    (closed_settled (closed_indexFiles tree _ closed_empty)))

/-! ## The incremental index -/

theorem closed_purgeModified (rel : Text) (h : g.Closed) : (purgeModified g rel).Closed := by
  have hsymbols : (purgeFileSymbols g rel).Closed := h.detachDelete _
  have hlinks : (purgeOutboundLightLinks (purgeFileSymbols g rel) rel).Closed := hsymbols.drop _ _
  exact hlinks.detachDelete _

theorem closed_purgeGone (rel : Text) (h : g.Closed) : (purgeGone g rel).Closed := by
  have hsymbols : (purgeFileSymbols g rel).Closed := h.detachDelete _
  have hfile : (purgeFileNode (purgeFileSymbols g rel) rel).Closed := hsymbols.detachDelete _
  exact hfile.detachDelete _

theorem closed_purge (changes : ChangeSet) (h : g.Closed) : (purge g changes).Closed := by
  have hmodified : ∀ (rels : List Text) {g : Graph}, g.Closed →
      (rels.foldl purgeModified g).Closed := by
    intro rels
    induction rels with
    | nil => exact fun h => h
    | cons rel rels ih => exact fun h => ih (closed_purgeModified rel h)
  have hgone : ∀ (rels : List Text) {g : Graph}, g.Closed →
      (rels.foldl purgeGone g).Closed := by
    intro rels
    induction rels with
    | nil => exact fun h => h
    | cons rel rels ih => exact fun h => ih (closed_purgeGone rel h)
  exact hgone _ (hmodified _ h)

theorem closed_reparseModifiedFile (current : SourceTree Content) (d : Discovered)
    (h : g.Closed) : (reparseModifiedFile F current g d).Closed :=
  closed_settled (closed_indexSingleFile _ _ (h.update (key_resetFile d.rel d.size)))

theorem closed_reparse (current : SourceTree Content) (changes : ChangeSet)
    (h : g.Closed) : (reparse F current g changes).Closed := by
  have hchanged : ∀ (ds : List Discovered) {g : Graph}, g.Closed →
      (ds.foldl (reparseModifiedFile F current) g).Closed := by
    intro ds
    induction ds with
    | nil => exact fun h => h
    | cons d ds ih => exact fun h => ih (closed_reparseModifiedFile current d h)
  have hnew : ∀ (ds : List Discovered) {acc : Graph × Finset (List Text)}, acc.1.Closed →
      (ds.foldl (reparseNewFile F current) acc).1.Closed := by
    intro ds
    induction ds with
    | nil => exact fun h => h
    | cons d ds ih => exact fun h => ih (closed_settled (closed_indexFile _ _ h))
  exact hnew _ (hnew _ (hchanged _ h))

end CodeGraph
