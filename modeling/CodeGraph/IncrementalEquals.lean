import CodeGraph.IncrementalLinks

/-!
# Incremental and full

What an incremental index leaves, in closed form, and when it is what a full
index of the current tree leaves: exactly when no unedited file resolves its
links differently in the two trees.
-/

namespace CodeGraph

open Multiset PropertyGraph Keyed

variable {Content : Type} {F : FrontEnd Content} {changes : ChangeSet}
  {before after : SourceTree Content}

/-! ## Links out of unedited files -/

theorem uneditedLinks_land (h : changes.Correct F before after) {e : Edge}
    (he : e ∈ uneditedLinks F changes before after) : Lands (treeKeys F after) e :=
  closed_linkedGraph h e (mem_add.mpr (Or.inl (mem_add.mpr (Or.inr he))))

/-- A link out of an unedited file is saved when the purge takes what it leads to
and the current tree has that again. -/
theorem saved_iff_purged (h : changes.Correct F before after) {rel : Text}
    (hrel : rel ∈ changes.kept after) {e : Edge} (he : e ∈ linksOut F before rel)
    (hlands : Lands (treeKeys F after) e) : Saved changes e ↔ purgedKey changes e.dst := by
  have hbefore := h.kept_mem_before hrel
  have hout := linksOut_outward hbefore he
  obtain ⟨u, hu, hdst⟩ := hout.dst
  have hafter : u ∈ after.rels := ((mem_treeKeys_of_owned (before.plain u hu) hdst).mp hlands.2).1
  have hgone : u ∉ changes.goneRels := fun hg => ((h.gone u).mp hg).2 hafter
  have hread : rel ∉ changes.reparsedSet := (ChangeSet.mem_kept.mp hrel).2
  rw [saved_outward h hbefore hout hu hdst, h.purgedKey_iff (before.plain u hu) hdst]
  tauto

/-- What comes back of the saved edges: the links out of unedited files that the
purge took and the current tree has both ends of. -/
theorem relinked_lands (h : changes.Correct F before after) :
    (before.rels.val.bind fun rel => (linksOut F before rel).filter (Saved changes)).filter
        (Lands (treeKeys F after)) =
      (changes.kept after).val.bind fun rel => (linksOut F before rel).filter fun e =>
        purgedKey changes e.dst ∧ Lands (treeKeys F after) e := by
  have hkept : ∀ rel ∈ changes.kept after,
      ((linksOut F before rel).filter (Saved changes)).filter (Lands (treeKeys F after)) =
        (linksOut F before rel).filter fun e =>
          purgedKey changes e.dst ∧ Lands (treeKeys F after) e := by
    intro rel hrel
    rw [filter_filter]
    refine filter_congr ?_
    intro e he
    have := saved_iff_purged h hrel he
    tauto
  have hchanged : ∀ rel ∈ changes.changedRels,
      ((linksOut F before rel).filter (Saved changes)).filter (Lands (treeKeys F after)) = 0 := by
    intro rel hrel
    have hbefore := (h.changed rel hrel).1
    refine filter_eq_nil.mpr ?_
    intro e he _
    obtain ⟨he, hsaved⟩ := mem_filter.mp he
    have hout := linksOut_outward hbefore he
    obtain ⟨u, hu, hdst⟩ := hout.dst
    exact ((saved_outward h hbefore hout hu hdst).mp hsaved).2.2
      (ChangeSet.mem_reparsedSet.mpr (Or.inl hrel))
  have hgone : ∀ rel ∈ changes.goneRels,
      ((linksOut F before rel).filter (Saved changes)).filter (Lands (treeKeys F after)) = 0 := by
    intro rel hrel
    obtain ⟨hbefore, hafter⟩ := (h.gone rel).mp hrel
    refine filter_eq_nil.mpr fun e he hlands => hafter ?_
    have hout := linksOut_outward hbefore (mem_filter.mp he).1
    exact ((mem_treeKeys_of_owned (before.plain rel hbefore) hout.src).mp hlands.1).1
  rw [before_bind h hkept hchanged hgone, bind_zero, add_zero]

/-- The links out of an unedited file as the incremental index leaves them: those
of the earlier tree with both ends in the current one. -/
def carriedLinks (F : FrontEnd Content) (before after : SourceTree Content) (rel : Text) :
    Multiset Edge :=
  (linksOut F before rel).filter (Lands (treeKeys F after))

theorem uneditedLinks_relinked (h : changes.Correct F before after) :
    uneditedLinks F changes before after +
        ((changes.kept after).val.bind fun rel => (linksOut F before rel).filter fun e =>
          purgedKey changes e.dst ∧ Lands (treeKeys F after) e) =
      (changes.kept after).val.bind (carriedLinks F before after) := by
  rw [uneditedLinks, ← bind_add]
  refine bind_congr ?_
  intro rel hrel
  have hland : (linksOut F before rel).filter (fun e => ¬purgedKey changes e.dst) =
      (linksOut F before rel).filter fun e =>
        ¬purgedKey changes e.dst ∧ Lands (treeKeys F after) e := by
    refine filter_congr fun e he => (and_iff_left_of_imp fun hnot => ?_).symm
    exact uneditedLinks_land h
      (mem_bind.mpr ⟨rel, hrel, mem_filter.mpr ⟨he, hnot⟩⟩)
  have hsplit := filter_add_not (fun e : Edge => ¬purgedKey changes e.dst)
    (carriedLinks F before after rel)
  rw [carriedLinks, filter_filter, filter_filter] at hsplit
  rw [hland, carriedLinks, ← hsplit]
  simp only [not_not]

/-! ## The incremental index -/

/-- The incremental index leaves the parts of the current tree, the links out of
the files read again, and what is left of the earlier links out of the others. -/
theorem applyChanges_eq (h : changes.Correct F before after) :
    applyChanges F (indexCodebase F before) changes after =
      ⟨treeNodes F after, treeEdges F after +
        (changes.reparsedSet : Multiset Text).bind (linksOut F after) +
          (changes.kept after).val.bind (carriedLinks F before after)⟩ := by
  have hlinked : (let sources := linkSources changes after
      let g := reparse F after (purge (indexCodebase F before) changes) changes
      let g := if changes.deleted ≠ [] ∨ changes.renamed ≠ [] then pruneOrphanDirectories g else g
      let g := if sources ≠ [] then LightLink.linkFileImportsFor F g after sources else g
      if sources ≠ [] then Iac.runIacPassFor F g after sources else g) =
        linkedGraph F changes before after :=
    (congrArg (fun g =>
      let sources := linkSources changes after
      let g := if sources ≠ [] then LightLink.linkFileImportsFor F g after sources else g
      if sources ≠ [] then Iac.runIacPassFor F g after sources else g) (pruned_eq h)).trans
        (passes_ite h)
  have happly : applyChanges F (indexCodebase F before) changes after =
      relinkInboundEdges (linkedGraph F changes before after)
        (snapshotInboundEdges (indexCodebase F before) changes) :=
    congrArg (relinkInboundEdges · _) hlinked
  rw [happly, relinkInboundEdges, snapshot_relinked h]
  ext1
  · rfl
  · show treeEdges F after + uneditedLinks F changes before after +
        (changes.reparsedSet : Multiset Text).bind (linksOut F after) +
          Multiset.filter (Lands (treeKeys F after)) _ = _
    rw [relinked_lands h, ← uneditedLinks_relinked h]
    ac_rfl

theorem indexCodebase_after (h : changes.Correct F before after) :
    indexCodebase F after =
      ⟨treeNodes F after, treeEdges F after +
        (changes.reparsedSet : Multiset Text).bind (linksOut F after) +
          (changes.kept after).val.bind (linksOut F after)⟩ := by
  rw [indexCodebase_eq, h.after_val, add_bind]
  ext1
  · rfl
  · show _ + (_ + _) = _ + _ + _
    ac_rfl

/-- The parts of a sum are told apart when each carries its index. -/
theorem eq_of_bind_eq {α β : Type} [DecidableEq α] {s : Finset α} {f g : α → Multiset β}
    (owner : β → α) (hf : ∀ a ∈ s, ∀ b ∈ f a, owner b = a) (hg : ∀ a ∈ s, ∀ b ∈ g a, owner b = a)
    (heq : s.val.bind f = s.val.bind g) : ∀ a ∈ s, f a = g a := by
  have hpart : ∀ {f : α → Multiset β}, (∀ a ∈ s, ∀ b ∈ f a, owner b = a) → ∀ a ∈ s,
      (s.val.bind f).filter (fun b => owner b = a) = f a := by
    intro f hf a ha
    have hrest : ∀ c ∈ s.erase a, (f c).filter (fun b => owner b = a) = 0 := by
      intro c hc
      obtain ⟨hne, hmem⟩ := Finset.mem_erase.mp hc
      exact filter_eq_nil.mpr fun b hb hown => hne ((hf c hmem b hb).symm.trans hown)
    have hself : (f a).filter (fun b => owner b = a) = f a := filter_eq_self.mpr (hf a ha)
    have hval : s.val = a ::ₘ (s.erase a).val := by
      rw [← Finset.insert_val_of_notMem (Finset.notMem_erase a s), Finset.insert_erase ha]
    rw [filter_bind, hval, cons_bind, hself, bind_congr hrest,
      bind_zero, add_zero]
  intro a ha
  rw [← hpart hf a ha, ← hpart hg a ha, heq]

/-- An index that came out as the full one has the links of every unedited file
as the current tree resolves them. -/
theorem carriedLinks_of_eq (h : changes.Correct F before after)
    (heq : applyChanges F (indexCodebase F before) changes after = indexCodebase F after)
    {rel : Text} (hrel : rel ∈ changes.kept after) :
    carriedLinks F before after rel = linksOut F after rel := by
  have hbefore : ∀ rel ∈ changes.kept after, ∀ e ∈ carriedLinks F before after rel,
      owningFile e.src.2 = rel := by
    intro rel hrel e he
    have hmem := h.kept_mem_before hrel
    exact (before.plain rel hmem).owningFile
      (linksOut_outward hmem (mem_filter.mp he).1).src
  have hafter : ∀ rel ∈ changes.kept after, ∀ e ∈ linksOut F after rel,
      owningFile e.src.2 = rel := by
    intro rel hrel e he
    have hmem := (ChangeSet.mem_kept.mp hrel).1
    exact (after.plain rel hmem).owningFile (linksOut_outward hmem he).src
  rw [applyChanges_eq h, indexCodebase_after h] at heq
  have hedges := add_left_cancel (congrArg PropertyGraph.edges heq)
  exact eq_of_bind_eq (fun e : Edge => owningFile e.src.2) hbefore hafter hedges rel hrel

/-- Reads one document: a link to `b.md`. -/
def linkReader : FrontEnd Text where
  size content := content.length
  readText := some
  language _ _ := []
  hasLanguage _ := false
  restrictToPublicApi _ := false
  parseFile _ _ _ := none
  captureFullAst _ _ _ := none
  extractRelativeSpecifiers _ := []
  extractMarkdownSpecifiers source :=
    if source = "[b](b.md)".toList then [⟨"b.md".toList, .mdLink⟩] else []
  extractShellSpecifiers _ := []
  parseDockerfile _ := none
  parseKustomization _ := ⟨[]⟩
  looksLikeManifest _ := false
  scanManifest _ := []
  scan _ := []

/-- `a.md` by itself, with a link to a file that is not there. -/
def danglingTree : SourceTree Text where
  rels := {"a.md".toList}
  content _ := "[b](b.md)".toList
  plain := by decide
  shallow := by decide

/-- `a.md` and the file it links to. -/
def linkedTree : SourceTree Text where
  rels := {"a.md".toList, "b.md".toList}
  content rel := if rel = "a.md".toList then "[b](b.md)".toList else []
  plain := by decide
  shallow := by decide

/-- `b.md` appears. -/
def addTarget : ChangeSet := { added := [⟨"b.md".toList, "/b.md".toList, 0, 0⟩] }

/-- `b.md` goes. -/
def dropTarget : ChangeSet := { deleted := ["b.md".toList] }

theorem mem_linked_only (rel : Text) :
    rel ∈ ["b.md".toList] ↔ rel ∈ linkedTree.rels ∧ rel ∉ danglingTree.rels := by
  show rel ∈ ["b.md".toList] ↔ rel ∈ ({"a.md".toList, "b.md".toList} : Finset Text) ∧
    rel ∉ ({"a.md".toList} : Finset Text)
  rw [List.mem_singleton, Finset.mem_insert, Finset.mem_singleton, Finset.mem_singleton]
  constructor
  · rintro rfl
    exact ⟨Or.inr rfl, by decide⟩
  · tauto

theorem not_dangling_only (rel : Text) :
    rel ∈ ([] : List Text) ↔ rel ∈ danglingTree.rels ∧ rel ∉ linkedTree.rels := by
  show rel ∈ [] ↔ rel ∈ ({"a.md".toList} : Finset Text) ∧
    rel ∉ ({"a.md".toList, "b.md".toList} : Finset Text)
  rw [Finset.mem_insert, Finset.mem_singleton]
  refine iff_of_false List.not_mem_nil ?_
  tauto

theorem addTarget_correct : addTarget.Correct linkReader danglingTree linkedTree where
  nodup := by decide
  changed := nofun
  fresh := mem_linked_only
  gone := not_dangling_only
  same rel hrel _ _ := by
    obtain rfl := Finset.mem_singleton.mp hrel
    rfl
  size := nofun

theorem dropTarget_correct : dropTarget.Correct linkReader linkedTree danglingTree where
  nodup := by decide
  changed := nofun
  fresh := not_dangling_only
  gone := mem_linked_only
  same rel _ hrel _ := by
    obtain rfl := Finset.mem_singleton.mp hrel
    rfl
  size := nofun

theorem linksOut_of_other {tree : SourceTree Content} {rel : Text}
    (h : Iac.classify rel = .other) :
    linksOut F tree rel =
      (LightLink.links F tree.rels rel (tree.content rel) : Multiset Edge) := by
  have hrefs : Iac.refs F rel (tree.content rel) (treeIndexes F tree) = [] := by
    rw [Iac.refs, Iac.parse, h]
    rfl
  rw [linksOut, hrefs, coe_nil, filter_zero, add_zero]

theorem linksOut_danglingTree : linksOut linkReader danglingTree "a.md".toList = 0 := by
  have hother : Iac.classify "a.md".toList = .other := by decide
  have hlinks : LightLink.links linkReader {"a.md".toList} "a.md".toList "[b](b.md)".toList = [] := by
    decide
  rw [linksOut_of_other hother]
  exact congrArg (fun es : List Edge => (es : Multiset Edge)) hlinks

theorem linksOut_linkedTree : linksOut linkReader linkedTree "a.md".toList =
    {LightLink.linkEdge .references "a.md".toList "b.md".toList .mdLink} := by
  have hother : Iac.classify "a.md".toList = .other := by decide
  have hlinks : LightLink.links linkReader {"a.md".toList, "b.md".toList} "a.md".toList
      "[b](b.md)".toList = [LightLink.linkEdge .references "a.md".toList "b.md".toList .mdLink] := by
    decide
  rw [linksOut_of_other hother]
  exact congrArg (fun es : List Edge => (es : Multiset Edge)) hlinks

end CodeGraph
