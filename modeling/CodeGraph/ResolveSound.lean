import CodeGraph.IncrementalLinks
import CodeGraph.ResolveSpec

/-!
# The rows of a store and its nodes

In every store that events reach, each row joins nodes that are there, and a row
of the language server points at a declaration (`Sound`, `sound_step`). The
incremental index is the step that could break it: a node the purge leaves has to
be there when the files are read again (`hasNode_refresh`).
-/

namespace CodeGraph

open List

namespace Resolver

open Schema AmbiguityPolicy Unmet PropertyGraph Keyed

/-! ## Rows put in one at a time -/

section Insert

variable {ns : Multiset Node} {rows edges : List RelRow} {r : RelRow} {k : RowKey}

theorem mem_insertEdgeIfAbsent {e : RelRow} (h : r ∈ insertEdgeIfAbsent ns rows e) :
    r ∈ rows ∨ r = e ∧ ¬ HasKey rows r.key ∧ Joins ns r.key := by
  rw [insertEdgeIfAbsent] at h
  split at h
  next => exact Or.inl h
  next habsent =>
    obtain h | ⟨hmem, hjoins⟩ := mem_insertEdges.mp h
    · exact Or.inl h
    · obtain rfl := mem_singleton.mp hmem
      exact Or.inr ⟨rfl, fun hkey => habsent (mem_map.mpr hkey), hjoins⟩

theorem subset_insertEdgeIfAbsent (e : RelRow) : rows ⊆ insertEdgeIfAbsent ns rows e := by
  rw [insertEdgeIfAbsent]
  split
  · exact List.Subset.refl _
  · exact fun r hr => mem_insertEdges.mpr (Or.inl hr)

theorem subset_foldl_insertEdgeIfAbsent : rows ⊆ edges.foldl (insertEdgeIfAbsent ns) rows := by
  induction edges generalizing rows with
  | nil => exact List.Subset.refl _
  | cons e edges ih => exact List.Subset.trans (subset_insertEdgeIfAbsent e) ih

theorem mem_foldl_insertEdgeIfAbsent (h : r ∈ edges.foldl (insertEdgeIfAbsent ns) rows) :
    r ∈ rows ∨ r ∈ edges ∧ ¬ HasKey rows r.key ∧ Joins ns r.key := by
  induction edges generalizing rows with
  | nil => exact Or.inl h
  | cons e edges ih =>
      obtain h | ⟨h, habsent, hjoins⟩ := ih h
      · refine (mem_insertEdgeIfAbsent h).imp_right fun ⟨heq, hnew⟩ => ?_
        exact ⟨mem_cons.mpr (Or.inl heq), hnew⟩
      · refine Or.inr ⟨mem_cons_of_mem e h, fun ⟨q, hq, hkey⟩ => habsent ?_, hjoins⟩
        exact ⟨q, subset_insertEdgeIfAbsent e hq, hkey⟩

theorem hasKey_foldl_insertEdgeIfAbsent : HasKey (edges.foldl (insertEdgeIfAbsent ns) rows) k ↔
    HasKey rows k ∨ HasKey edges k ∧ Joins ns k := by
  induction edges generalizing rows with
  | nil => simp [HasKey]
  | cons e edges ih =>
      have hcons : HasKey (e :: edges) k ↔ k = e.key ∨ HasKey edges k := by
        simp [HasKey, eq_comm]
      rw [foldl_cons, ih, hasKey_insertEdgeIfAbsent, hcons]
      tauto

end Insert

/-! ## The nodes a refresh leaves -/

section Nodes

variable {Content : Type} {F : FrontEnd Content} {before after tree : SourceTree Content}
  {changes : ChangeSet} {rel id : Text} {l : EndLabel} {label : SymbolLabel}

/-- The table of a label, the standard library's apart. -/
def EndLabel.index : EndLabel → Option Label
  | file => some .file
  | stdlibSymbol => none
  | symbol label => some (.symbol label)

theorem hasNode_iff : HasNode (treeNodes F tree) l id ↔
    ∀ table ∈ l.index, (table, id) ∈ treeKeys F tree := by
  cases l <;> simp [HasNode, EndLabel.index, treeKeys]

theorem owned_of_mem {k : Key} (h : k ∈ treeKeys F tree) (hdir : k.1 ≠ .directory) :
    ∃ rel ∈ tree.rels, Owned rel k ∧ k ∈ (fileNodes F rel (tree.content rel)).map key := by
  obtain ⟨rel, hrel, hmem⟩ | ⟨dir, -, rfl⟩ := mem_treeKeys.mp h
  · obtain ⟨n, hn, rfl⟩ := Multiset.mem_map.mp hmem
    exact ⟨rel, hrel, fileNodes_owned hn, hmem⟩
  · exact absurd rfl hdir

theorem file_mem_treeKeys (h : rel ∈ tree.rels) : (Label.file, rel) ∈ treeKeys F tree := by
  refine (mem_treeKeys_of_owned (tree.plain rel h) Owned.file).mpr ⟨h, ?_⟩
  exact Multiset.mem_map.mpr ⟨_, Multiset.mem_add.mpr (Or.inl (Multiset.mem_cons_self _ _)), rfl⟩

theorem inFiles_inFile {rels : List Text} {name : Text} (h : rel ∈ rels) :
    Store.inFiles rels (inFile rel name) :=
  any_eq_true.mpr ⟨rel, h, decide_eq_true (inFile_nil_isPrefix rel name)⟩

theorem mem_treeKeys_of_kept (h : changes.Correct F before after) (hrel : rel ∈ changes.kept after)
    {k : Key} (hk : Owned rel k) : k ∈ treeKeys F after ↔ k ∈ treeKeys F before := by
  have hafter := (ChangeSet.mem_kept.mp hrel).1
  have hbefore := h.kept_mem_before hrel
  have hplain := after.plain rel hafter
  rw [mem_treeKeys_of_owned hplain hk, mem_treeKeys_of_owned hplain hk, h.kept_content hrel,
    and_iff_right hafter, and_iff_right hbefore]

theorem hasNode_refresh (h : changes.Correct F before after)
    (hnode : HasNode (treeNodes F before) l id) (hkeep : ¬ Store.isPurged changes id) :
    HasNode (treeNodes F after) l id := by
  rw [hasNode_iff] at hnode ⊢
  intro table htable
  have hdir : table ≠ .directory := by
    rintro rfl
    cases l <;> simp [EndLabel.index] at htable
  obtain ⟨rel, hrel, howned, hmem⟩ := owned_of_mem (hnode table htable) hdir
  rw [Store.isPurged, Bool.or_eq_true, not_or] at hkeep
  by_cases hafter : rel ∈ after.rels
  · by_cases hchanged : rel ∈ changes.changedRels
    · cases howned with
      | file => exact file_mem_treeKeys hafter
      | content => cases l <;> simp [EndLabel.index] at htable
      | named name _ =>
          exact absurd (inFiles_inFile (mem_append_left _ hchanged)) hkeep.1
    · have hkept : rel ∈ changes.kept after := by
        refine ChangeSet.mem_kept.mpr ⟨hafter, fun hread => ?_⟩
        obtain hc | hnew := ChangeSet.mem_reparsedSet.mp hread
        · exact hchanged hc
        · exact ((h.fresh rel).mp hnew).2 hrel
      exact (mem_treeKeys_of_kept h hkept howned).mpr (hnode table htable)
  · have hgone : rel ∈ changes.goneRels := (h.gone rel).mpr ⟨hrel, hafter⟩
    cases howned with
    | file => exact absurd (contains_iff_mem.mpr hgone) hkeep.2
    | content => cases l <;> simp [EndLabel.index] at htable
    | named name _ =>
        exact absurd (inFiles_inFile (mem_append_right _ hgone)) hkeep.1

end Nodes

namespace Store

variable {Content Cargo : Type} {F : FrontEnd Content} {R : Rules Cargo}

/-! ## The rows of an answer -/

section Answers

variable {ns : Multiset Node} {cols : Columns Cargo} {site : CallSite} {answer : LspAnswer}
  {rows : List RelRow} {r : RelRow} {s : Store Content Cargo} {answers : Text → LspAnswer}

theorem findNodeAtPosition_label {file : Text} {line : Nat} {target : NodePosition}
    (h : findNodeAtPosition R ns file line = some target) :
    ∃ l ∈ positionLabels, target.label = .symbol l := by
  obtain ⟨l, hl, hmem⟩ := mem_flatMap.mp (mem_of_getLast? h)
  obtain ⟨n, -, hn⟩ := mem_filterMap.mp hmem
  refine ⟨l, hl, ?_⟩
  rw [NodePosition.ofNode] at hn
  split at hn
  · split at hn
    · cases hn
      rfl
    · cases hn
  · cases hn

/-- Where one declaration starts at the line, that is the one found. -/
theorem findNodeAtPosition_eq {file : Text} {line : Nat} {target : NodePosition} {l : SymbolLabel}
    {n : Node} (hl : l ∈ positionLabels) (hn : n ∈ ns)
    (htarget : NodePosition.ofNode file line l n = some target)
    (hall : ∀ l ∈ positionLabels, ∀ n ∈ ns, NodePosition.ofNode file line l n ∈ [none, some target]) :
    findNodeAtPosition R ns file line = some target := by
  have hmem : ∀ {n}, n ∈ R.scan ns ↔ n ∈ ns := by
    intro n
    rw [← Multiset.mem_coe, R.scan_eq]
  have hfound : target ∈ positionLabels.flatMap fun label =>
      (R.scan ns).filterMap (NodePosition.ofNode file line label) :=
    mem_flatMap.mpr ⟨l, hl, mem_filterMap.mpr ⟨n, hmem.mpr hn, htarget⟩⟩
  have hne := ne_nil_of_mem hfound
  rw [findNodeAtPosition, getLast?_eq_some_getLast hne]
  obtain ⟨l', hl', hlast⟩ := mem_flatMap.mp (getLast_mem hne)
  obtain ⟨n', hn', hpos⟩ := mem_filterMap.mp hlast
  have hcases := hall l' hl' n' (hmem.mp hn')
  rw [hpos, mem_cons, mem_singleton] at hcases
  exact hcases.resolve_left nofun

theorem lspEdge_rows (h : lspEdge R ns cols site answer = .added rows) :
    ∃ l ∈ positionLabels, ∃ target, ¬ isCompiledOut (loadView ns cols) site.id target ∧
      CallRows (lspCallerLabel ns site.caller) (.symbol l) site target lspDefinition rows := by
  cases answer with
  | outsideTargets => cases h
  | external => cases h
  | nothing => cases h
  | definition file line =>
      rw [lspEdge] at h
      split at h
      next => cases h
      next target htarget =>
        obtain ⟨l, hl, hlabel⟩ := findNodeAtPosition_label htarget
        rw [hlabel] at h
        split at h
        · cases h
        · split at h
          · cases h
          next hcompiled =>
            split at h
            · cases h
            next rel hrel =>
              split at h
              next hknown =>
                cases h
                exact ⟨l, hl, target.id, hcompiled, callRows hrel hknown⟩
              next => cases h

theorem lspEdge_eq {file : Text} {line : Nat} {target : NodePosition} {rel : Table}
    (hfind : findNodeAtPosition R ns file line = some target)
    (hname : resolvedTargetMatches target site)
    (hcompiled : ¬ isCompiledOut (loadView ns cols) site.id target.id)
    (hrel : callRelTable (lspCallerLabel ns site.caller) target.label = some rel)
    (hknown : isKnownRelTable rel) : lspEdge R ns cols site (.definition file line) =
      .added (⟨rel, site.caller, target.id, 9 / 10, lspDefinition⟩ ::
        ((callSiteRelTable target.label).map fun table =>
          (⟨table, site.id, target.id, 9 / 10, lspDefinition⟩ : RelRow)).toList) := by
  have hnamed : ¬ (!resolvedTargetMatches target site) = true := by simp [hname]
  rw [lspEdge, hfind]
  dsimp only
  rw [if_neg hnamed, if_neg hcompiled, hrel]
  exact if_pos hknown

theorem mem_lspSiteRows (h : r ∈ s.lspSiteRows F R answers site) :
    ∃ l ∈ positionLabels, ∃ target,
      CallRows (lspCallerLabel (s.nodes F) site.caller) (.symbol l) site target lspDefinition
        (s.lspSiteRows F R answers site) := by
  rw [lspSiteRows] at h ⊢
  split at h
  next rows hrows =>
    obtain ⟨l, hl, target, -, hcall⟩ := lspEdge_rows hrows
    exact ⟨l, hl, target, hcall⟩
  next => cases h

end Answers

/-! ## The invariant -/

/-- Each row joins nodes, and the language server's point at declarations. -/
structure Sound (F : FrontEnd Content) (s : Store Content Cargo) : Prop where
  joins : ∀ r ∈ s.rows, Joins (s.nodes F) r.key
  lsp : ∀ r ∈ s.rows, r.method = lspDefinition → ∃ l ∈ positionLabels, r.table.toLabel = .symbol l

theorem sound_indexed (tree : SourceTree Content) (columns : Columns Cargo) :
    Sound F (indexed tree columns) where
  joins _ hr := nomatch hr
  lsp _ hr := nomatch hr

theorem sound_rewrite {s : Store Content Cargo} (hs : Sound F s) (columns : Columns Cargo) :
    Sound F { s with columns } :=
  ⟨hs.joins, hs.lsp⟩

theorem mem_refreshedRows {s : Store Content Cargo} {changes : ChangeSet}
    {after : SourceTree Content} {r : RelRow} : r ∈ s.refreshedRows F changes after ↔
      r ∈ s.rows ∧ (¬ isPurged changes r.source ∧ ¬ isPurged changes r.target ∧
          ¬ isOutboundLink changes r ∨
        isSaved changes r ∧ Joins (treeNodes F after) r.key) := by
  simp only [refreshedRows, mem_insertEdges, mem_filter, Bool.and_eq_true, Bool.not_eq_true',
    Bool.not_eq_true, and_assoc, and_or_left]

theorem sound_refresh {s : Store Content Cargo} {changes : ChangeSet} {after : SourceTree Content}
    (hs : Sound F s) (h : changes.Correct F s.tree after) (columns : Columns Cargo) :
    Sound F (s.refresh F changes after columns) where
  joins r hr := by
    obtain ⟨hmem, ⟨hsource, htarget, -⟩ | ⟨-, hjoins⟩⟩ := mem_refreshedRows.mp hr
    · obtain ⟨hknown, hfrom, hto⟩ := hs.joins r hmem
      exact ⟨hknown, hasNode_refresh h hfrom hsource, hasNode_refresh h hto htarget⟩
    · exact hjoins
  lsp r hr := hs.lsp r (mem_refreshedRows.mp hr).1

theorem sound_resolveGraph {s : Store Content Cargo} (hs : Sound F s) :
    Sound F (s.resolveGraph F R) where
  joins r hr := by
    rw [resolveGraph_nodes]
    obtain ⟨hmem, -⟩ | ⟨-, hjoins⟩ := mem_resolveGraph hr
    · exact hs.joins r hmem
    · exact hjoins
  lsp r hr hlsp := by
    obtain ⟨hmem, -⟩ | ⟨hstaged, -⟩ := mem_resolveGraph hr
    · exact hs.lsp r hmem hlsp
    · exact absurd hlsp (stagedRows_ne_lsp hstaged)

theorem mem_lspPass {s : Store Content Cargo} {answers : Text → LspAnswer} {r : RelRow}
    (h : r ∈ (s.lspPass F R answers).rows) : r ∈ s.rows ∨ ¬ HasKey s.rows r.key ∧
      Joins (s.nodes F) r.key ∧ ∃ site ∈ s.openSites F R, r ∈ s.lspSiteRows F R answers site := by
  obtain h | ⟨h, habsent, hjoins⟩ := mem_foldl_insertEdgeIfAbsent h
  · exact Or.inl h
  · exact Or.inr ⟨habsent, hjoins, mem_flatMap.mp h⟩

@[simp] theorem lspPass_nodes (s : Store Content Cargo) (answers : Text → LspAnswer) :
    (s.lspPass F R answers).nodes F = s.nodes F := rfl

theorem sound_lspPass {s : Store Content Cargo} (hs : Sound F s) (answers : Text → LspAnswer) :
    Sound F (s.lspPass F R answers) where
  joins r hr := by
    obtain hmem | ⟨-, hjoins, -⟩ := mem_lspPass hr
    · exact hs.joins r hmem
    · exact hjoins
  lsp r hr hlsp := by
    obtain hmem | ⟨-, -, site, -, hrow⟩ := mem_lspPass hr
    · exact hs.lsp r hmem hlsp
    · obtain ⟨l, hl, target, hcall⟩ := mem_lspSiteRows hrow
      exact ⟨l, hl, hcall.toLabel hrow⟩

end Store

/-! ## Runs -/

/-- The change set of a refresh is that between the two trees. -/
def IsEvent {Content Cargo : Type} (F : FrontEnd Content) (s : Store Content Cargo) :
    Event Content Cargo → Prop
  | .refresh changes after _ => changes.Correct F s.tree after
  | _ => True

@[simp] theorem rewrite_nodes {Content Cargo : Type} {F : FrontEnd Content} {R : Rules Cargo}
    (s : Store Content Cargo) (columns : Columns Cargo) :
    (step F R s (.rewrite columns)).nodes F = s.nodes F := rfl

theorem sound_step {Content Cargo : Type} {F : FrontEnd Content} {R : Rules Cargo}
    {s : Store Content Cargo} (e : Event Content Cargo) (hs : s.Sound F) (he : IsEvent F s e) :
    (step F R s e).Sound F := by
  cases e with
  | index tree columns => exact Store.sound_indexed tree columns
  | refresh changes after columns => exact Store.sound_refresh hs he columns
  | rewrite columns => exact Store.sound_rewrite hs columns
  | resolve => exact Store.sound_resolveGraph hs
  | lsp answers => exact Store.sound_lspPass hs answers

end Resolver

end CodeGraph
