import CodeGraph.RefreshCuts
import CodeGraph.RefreshFrame

/-!
# Sites at every stop of a refresh

Reopened before the purge and restored behind it, a site of another file is never left
resolved without a row: up to the purge each row is there, from then on the sites that
may lose one are open, and a site is resolved again on the strength of a row it holds.
-/

namespace CodeGraph

open PropertyGraph Keyed Linked Runs LayeredStore

open Resolver.Store (inFiles)

variable {Content : Type} {F : FrontEnd Content} {current : SourceTree Content}
  {changes : ChangeSet} {s t : LayeredStore}

/-! ## Rows of a site -/

theorem mem_rowsOf {id : Text} {r : StoredRow} :
    r ∈ s.rowsOf id ↔ r ∈ s.layers.edges ∧ isCallSiteTable r.table ∧ r.source = id :=
  Multiset.mem_filter

theorem rowsOf_ne_zero {id : Text} : s.rowsOf id ≠ 0 ↔ ∃ r, r ∈ s.rowsOf id := by
  refine ⟨Multiset.exists_mem_of_ne_zero, ?_⟩
  rintro ⟨r, hr⟩ hnone
  rw [hnone] at hr
  exact Multiset.notMem_zero r hr

theorem mem_sitesWithEdge {id : Text} : id ∈ s.sitesWithEdge ↔ s.rowsOf id ≠ 0 := by
  rw [sitesWithEdge, Multiset.mem_map, rowsOf_ne_zero]
  refine exists_congr fun r => ?_
  rw [Multiset.mem_filter, mem_rowsOf, and_assoc]

theorem mem_reopened {id : Text} : id ∈ s.reopened changes ↔
    ∃ r ∈ s.rowsOf id, inFiles changes.purgedRels r.target ∧ owningFile id ∉ changes.leaving := by
  rw [reopened, Multiset.mem_toFinset, Multiset.mem_map]
  refine exists_congr fun r => ?_
  simp only [Multiset.mem_filter, isReopening, Bool.and_eq_true, decide_eq_true_eq, mem_rowsOf]
  constructor
  · rintro ⟨⟨hr, ⟨htable, htarget⟩, howner⟩, rfl⟩
    exact ⟨⟨hr, htable, rfl⟩, htarget, howner⟩
  · rintro ⟨⟨hr, htable, rfl⟩, htarget, howner⟩
    exact ⟨⟨hr, ⟨htable, htarget⟩, howner⟩, rfl⟩

theorem callSiteTable_spec : ∀ table ∈ Schema.relTables, isCallSiteTable table →
    table.fromLabel = .callSite ∧ table.toLabel ≠ .file ∧ table.toLabel ≠ .fileContent ∧
      table.name.toList ∉ lightLinkTables := by
  decide

/-- The rows that a purge deletes by themselves. -/
def purgedRows (changes : ChangeSet) (r : StoredRow) : Bool :=
  changes.changedRels.any (purgedRow · r)

theorem purgedNode_iff {k : StoredKey} : purgedNode changes k ↔
    inFiles changes.purgedRels k.2 ∨ (k.1 = .fileContent ∧ k.2 ∈ changes.purgedRels) ∨
      k.1 = .file ∧ k.2 ∈ changes.goneRels := by
  have hpair : ∀ {label : Schema.NodeLabel} {rel : Text}, k = (label, rel) ↔ k.1 = label ∧ k.2 = rel :=
    Prod.ext_iff
  simp only [purgedNode, purgedChanged, purgedGone, Resolver.Store.inFiles, ChangeSet.purgedRels,
    Bool.or_eq_true, List.any_eq_true, decide_eq_true_eq, hpair, List.mem_append]
  constructor
  · rintro (⟨rel, hrel, hpre | ⟨hlabel, rfl⟩⟩ | ⟨rel, hrel, hpre | ⟨hlabel, rfl⟩ | ⟨hlabel, rfl⟩⟩)
    · exact Or.inl ⟨rel, Or.inl hrel, hpre⟩
    · exact Or.inr (Or.inl ⟨hlabel, Or.inl hrel⟩)
    · exact Or.inl ⟨rel, Or.inr hrel, hpre⟩
    · exact Or.inr (Or.inr ⟨hlabel, hrel⟩)
    · exact Or.inr (Or.inl ⟨hlabel, Or.inr hrel⟩)
  · rintro (⟨rel, hrel | hrel, hpre⟩ | ⟨hlabel, hrel | hrel⟩ | ⟨hlabel, hrel⟩)
    · exact Or.inl ⟨rel, hrel, Or.inl hpre⟩
    · exact Or.inr ⟨rel, hrel, Or.inl hpre⟩
    · exact Or.inl ⟨_, hrel, Or.inr ⟨hlabel, rfl⟩⟩
    · exact Or.inr ⟨_, hrel, Or.inr (Or.inr ⟨hlabel, rfl⟩)⟩
    · exact Or.inr ⟨_, hrel, Or.inr (Or.inl ⟨hlabel, rfl⟩)⟩

theorem not_inFiles_of_outside (h : changes.Classified current) {id : Text}
    (hid : owningFile id ∉ changes.leaving) {rels : List Text} (hrels : rels ⊆ changes.leaving) :
    ¬inFiles rels id := by
  intro hin
  obtain ⟨rel, hrel, hpre⟩ := List.any_eq_true.mp hin
  have hleaving := hrels hrel
  rw [owningFile_eq_of_inFile (h.plain hleaving) (of_decide_eq_true hpre)] at hid
  exact hid hleaving

theorem purgedRels_subset : changes.purgedRels ⊆ changes.leaving := fun _ h =>
  List.mem_append.mpr (Or.inr h)

theorem purged_rowsOf (h : changes.Classified current) {id : Text}
    (hid : owningFile id ∉ changes.leaving) {r : StoredRow} (hr : r ∈ s.rowsOf id) :
    ¬purgedNode changes (src r) ∧ (purgedNode changes (dst r) ↔ inFiles changes.purgedRels r.target) ∧
      ¬purgedRows changes r := by
  obtain ⟨-, htable, rfl⟩ := mem_rowsOf.mp hr
  obtain ⟨hfrom, hfile, hcontent, hlight⟩ := callSiteTable_spec _ r.declared htable
  refine ⟨fun hsrc => ?_, ?_, fun hrow => ?_⟩
  · rcases purgedNode_iff.mp hsrc with hin | ⟨hlabel, -⟩ | ⟨hlabel, -⟩
    · exact not_inFiles_of_outside h hid purgedRels_subset hin
    · cases hfrom.symm.trans hlabel
    · cases hfrom.symm.trans hlabel
  · refine purgedNode_iff.trans (or_iff_left ?_)
    rintro (⟨hlabel, -⟩ | ⟨hlabel, -⟩)
    · exact hcontent hlabel
    · exact hfile hlabel
  · obtain ⟨rel, -, hrow⟩ := List.any_eq_true.mp hrow
    exact hlight (of_decide_eq_true hrow).1

theorem kept_rowsOf (h : changes.Classified current) {id : Text}
    (hid : owningFile id ∉ changes.leaving) (hopen : id ∉ s.reopened changes) {r : StoredRow}
    (hr : r ∈ s.rowsOf id) : ¬(purgedNode changes (src r) ∨ purgedNode changes (dst r) ∨
      purgedRows changes r) := by
  obtain ⟨hsrc, hdst, hrow⟩ := purged_rowsOf h hid hr
  rintro (hpurged | hpurged | hpurged)
  · exact hsrc hpurged
  · exact hopen (mem_reopened.mpr ⟨r, hr, hdst.mp hpurged, hid⟩)
  · exact hrow hpurged

/-! ## Up to the last statements -/

/-- While the sites are reopened: only their columns differ. -/
structure Marked (changes : ChangeSet) (s t : LayeredStore) : Prop where
  index : t.index = s.index
  layers : t.layers = s.layers
  sites : ∀ id ∉ s.reopened changes, t.isResolved id = s.isResolved id ∧ t.reason id = s.reason id

theorem Marked.refl : Marked changes s s := ⟨rfl, rfl, fun _ _ => ⟨rfl, rfl⟩⟩

theorem Marked.torn {st st' : ApplyState} {stmt : Stmt} (hstmt : stmt ∈ s.reopenSites changes)
    (h : Marked changes s st.store) (htorn : (ApplyState.machine F current).torn st stmt st') :
    Marked changes s st'.store := by
  have hmark : ∀ ids ⊆ s.reopened changes,
      Marked changes s (st.exec F current (.markUnresolved ids)).store := fun ids hids => by
    refine ⟨h.index, h.layers, fun id hid => ?_⟩
    have hnot : id ∉ ids := fun hmem => hid (hids hmem)
    exact ⟨(if_neg hnot).trans (h.sites id hid).1, (h.sites id hid).2⟩
  have hclear : ∀ ids ⊆ s.reopened changes,
      Marked changes s (st.exec F current (.clearReasons ids)).store := fun ids hids => by
    refine ⟨h.index, h.layers, fun id hid => ?_⟩
    have hnot : id ∉ ids := fun hmem => hid (hids hmem)
    exact ⟨(h.sites id hid).1, (if_neg hnot).trans (h.sites id hid).2⟩
  simp only [reopenSites, List.mem_cons, List.not_mem_nil, or_false] at hstmt
  rcases hstmt with rfl | rfl
  · cases htorn with
    | unbegun => exact h
    | ended hexec =>
        obtain rfl := Option.some.inj hexec
        exact hmark _ subset_rfl
    | marked hids => exact hmark _ hids
    | read hreads => exact absurd hreads id
    | derived hderives => exact absurd hderives id
  · cases htorn with
    | unbegun => exact h
    | ended hexec =>
        obtain rfl := Option.some.inj hexec
        exact hclear _ subset_rfl
    | cleared hids => exact hclear _ hids
    | read hreads => exact absurd hreads id
    | derived hderives => exact absurd hderives id

/-- The statements of a purge. -/
inductive ApplyState.Purges (changes : ChangeSet) : Stmt → Prop
  | symbols {rel : Text} (h : rel ∈ changes.purgedRels) : Purges changes (.purgeFileSymbols rel)
  | links {rel : Text} (h : rel ∈ changes.changedRels) :
      Purges changes (.purgeOutboundLightLinks rel)
  | node {rel : Text} (h : rel ∈ changes.goneRels) : Purges changes (.purgeFileNode rel)
  | content {rel : Text} (h : rel ∈ changes.purgedRels) : Purges changes (.purgeFileContent rel)

theorem ApplyState.purges {stmt : Stmt} (hstmt : stmt ∈ purgeStmts changes) :
    ApplyState.Purges changes stmt := by
  rcases List.mem_append.mp hstmt with hstmt | hstmt
  · obtain ⟨rel, hrel, hstmt⟩ := List.mem_flatMap.mp hstmt
    have hpurged : rel ∈ changes.purgedRels := List.mem_append.mpr (Or.inl hrel)
    simp only [List.mem_cons, List.not_mem_nil, or_false] at hstmt
    rcases hstmt with rfl | rfl | rfl
    · exact .symbols hpurged
    · exact .links hrel
    · exact .content hpurged
  · obtain ⟨rel, hrel, hstmt⟩ := List.mem_flatMap.mp hstmt
    have hpurged : rel ∈ changes.purgedRels := List.mem_append.mpr (Or.inr hrel)
    simp only [List.mem_cons, List.not_mem_nil, or_false] at hstmt
    rcases hstmt with rfl | rfl | rfl
    · exact .symbols hpurged
    · exact .node hrel
    · exact .content hpurged

/-- From the purge until the saved rows are put back: rows go only with the purge, and the
columns of the sites are those of reopening them. -/
structure Kept (changes : ChangeSet) (s t : LayeredStore) : Prop where
  layers : ∃ p q, (∀ k, p k → purgedNode changes k) ∧ (∀ r, q r → purgedRows changes r) ∧
    t.layers = s.layers.drop p q
  sites : ∀ id, inFiles changes.reparsedSet id ∨
    t.isResolved id = (if id ∈ s.reopened changes then false else s.isResolved id) ∧
      t.reason id = if id ∈ s.reopened changes then Resolver.noReason else s.reason id

theorem Kept.drop (h : Kept changes s t) {p : StoredKey → Bool} {q : StoredRow → Bool}
    {index : Graph} (hp : ∀ k, p k → purgedNode changes k) (hq : ∀ r, q r → purgedRows changes r) :
    Kept changes s { t with index, layers := t.layers.drop p q } := by
  obtain ⟨p', q', hp', hq', hlayers⟩ := h.layers
  refine ⟨⟨fun k => p' k || p k, fun r => q' r || q r, fun k hk => ?_, fun r hr => ?_, ?_⟩, h.sites⟩
  · exact (Bool.or_eq_true_iff.mp hk).elim (hp' k) (hp k)
  · exact (Bool.or_eq_true_iff.mp hr).elim (hq' r) (hq r)
  · show t.layers.drop p q = _
    rw [hlayers, drop_drop]

theorem inFiles_of_read {rels : List Text} {rel id : Text} (hrel : rel ∈ rels)
    (hpre : inFile rel [] <+: id) : inFiles rels id :=
  List.any_eq_true.mpr ⟨rel, hrel, decide_eq_true hpre⟩

theorem Kept.read (h : Kept changes s t) {rel : Text} (hrel : rel ∈ changes.reparsedSet)
    {t' : LayeredStore} (hlayers : t'.layers = t.layers)
    (hresolved : ∀ id, t'.isResolved id = t.isResolved id ∨
      t'.isResolved id = if inFile rel [] <+: id then false else t.isResolved id)
    (hreason : ∀ id, t'.reason id = t.reason id ∨
      t'.reason id = if inFile rel [] <+: id then Resolver.noReason else t.reason id) :
    Kept changes s t' := by
  refine ⟨hlayers ▸ h.layers, fun id => ?_⟩
  by_cases hpre : inFile rel [] <+: id
  · exact Or.inl (inFiles_of_read hrel hpre)
  · have hsame := hresolved id
    have hsame' := hreason id
    rw [if_neg hpre, or_self] at hsame hsame'
    rw [hsame, hsame']
    exact h.sites id

theorem Kept.torn {st st' : ApplyState} {stmt : Stmt}
    (hstmt : stmt ∈ purgeStmts changes ++ ApplyState.rebuildStmts changes current)
    (h : Kept changes s st.store) (htorn : (ApplyState.machine F current).torn st stmt st') :
    Kept changes s st'.store := by
  have hnone : ∀ r : StoredRow, (fun _ => false) r → purgedRows changes r := fun _ hr =>
    absurd hr Bool.false_ne_true
  rcases List.mem_append.mp hstmt with hstmt | hstmt
  · have hsymbols : ∀ rel ∈ changes.purgedRels,
        Kept changes s (st.exec F current (.purgeFileSymbols rel)).store := fun rel hrel => by
      refine h.drop (fun k hk => ?_) hnone
      exact purgedNode_iff.mpr (Or.inl (inFiles_of_read hrel (of_decide_eq_true hk)))
    have hcontent : ∀ rel ∈ changes.purgedRels,
        Kept changes s (st.exec F current (.purgeFileContent rel)).store := fun rel hrel => by
      refine h.drop (fun k hk => ?_) hnone
      obtain rfl := of_decide_eq_true hk
      exact purgedNode_iff.mpr (Or.inr (Or.inl ⟨rfl, hrel⟩))
    cases ApplyState.purges hstmt with
    | symbols hrel =>
        rcases htorn.of_single trivial with rfl | rfl
        · exact h
        · exact hsymbols _ hrel
    | content hrel =>
        rcases htorn.of_single trivial with rfl | rfl
        · exact h
        · exact hcontent _ hrel
    | @node rel hrel =>
        rcases htorn.of_single trivial with rfl | rfl
        · exact h
        · refine h.drop (p := fun k => k = (.file, rel)) (fun k hk => ?_) hnone
          obtain rfl := of_decide_eq_true hk
          exact purgedNode_iff.mpr (Or.inr (Or.inr ⟨rfl, hrel⟩))
    | @links rel hrel =>
        have hno : ∀ k : StoredKey, (fun _ => false) k → purgedNode changes k := fun _ hk =>
          absurd hk Bool.false_ne_true
        cases htorn with
        | unbegun => exact h
        | ended hexec =>
            obtain rfl := Option.some.inj hexec
            refine h.drop hno fun r hr => ?_
            exact List.any_eq_true.mpr ⟨rel, hrel, hr⟩
        | unlinked =>
            refine h.drop hno fun r hr => List.any_eq_true.mpr ⟨rel, hrel, ?_⟩
            obtain ⟨hname, hsource⟩ := of_decide_eq_true hr
            refine decide_eq_true ⟨?_, hsource⟩
            rw [hname]
            exact List.mem_cons_self
        | read hreads => exact absurd hreads id
        | derived hderives => exact absurd hderives id
  · have hread : ∀ rel ∈ changes.reparsedSet, ∀ index,
        Kept changes s (st.store.reparsed rel index) := fun rel hrel index =>
      h.read hrel rfl (fun _ => Or.inr rfl) fun _ => Or.inr rfl
    cases ApplyState.rebuilds hstmt with
    | dirs =>
        rcases htorn.of_single trivial with rfl | rfl
        · exact h
        · exact h
    | @changed d hd =>
        have hrel := ApplyState.read_of_changed hd
        cases htorn with
        | unbegun => exact h
        | ended hexec =>
            obtain rfl := Option.some.inj hexec
            exact hread _ hrel _
        | read hreads _ hlayers hresolved hreason => exact h.read hrel hlayers hresolved hreason
        | derived hderives => exact absurd hderives id
    | @new d hd =>
        have hrel := ApplyState.read_of_new hd
        cases htorn with
        | unbegun => exact h
        | ended hexec =>
            obtain ⟨-, rfl⟩ := ApplyState.exec?_eq_some.mp hexec
            exact hread _ hrel _
        | read hreads _ hlayers hresolved hreason => exact h.read hrel hlayers hresolved hreason
        | derived hderives => exact absurd hderives id
    | prune =>
        cases htorn with
        | unbegun => exact h
        | ended hexec =>
            obtain rfl := Option.some.inj hexec
            exact ⟨h.layers, h.sites⟩
        | pruned => exact ⟨h.layers, h.sites⟩
        | read hreads => exact absurd hreads id
        | derived hderives => exact absurd hderives id
    | links =>
        cases htorn with
        | unbegun => exact h
        | ended hexec =>
            obtain rfl := Option.some.inj hexec
            exact ⟨h.layers, h.sites⟩
        | read hreads => exact absurd hreads id
        | derived => exact ⟨h.layers, h.sites⟩
    | iac =>
        cases htorn with
        | unbegun => exact h
        | ended hexec =>
            obtain rfl := Option.some.inj hexec
            exact ⟨h.layers, h.sites⟩
        | read hreads => exact absurd hreads id
        | derived => exact ⟨h.layers, h.sites⟩

/-! ## The last statements -/

/-- Some of the saved edges and rows are put back, and some of the sites restored. -/
structure PutBack (changes : ChangeSet) (s mid t : LayeredStore) (ids : Finset Text) : Prop where
  sub : ids ⊆ s.reopened changes
  index : ∃ edges ≤ snapshotInboundEdges s.index changes,
    t.index = CodeGraph.relinkInboundEdges mid.index edges
  layers : ∃ rows ≤ s.savedRows changes, t.layers =
    { mid.layers with
      edges := mid.layers.edges + (rows.map relinkedRow).filter (Lands mid.keys) }
  resolved : ∀ id, t.isResolved id = ((id ∈ ids ∧ id ∈ t.sitesWithEdge) || mid.isResolved id)
  reason : t.reason = mid.reason

theorem relinkInboundEdges_zero (g : Graph) : CodeGraph.relinkInboundEdges g 0 = g :=
  PropertyGraph.ext rfl (add_zero g.edges)

theorem PutBack.refl : PutBack changes s t t ∅ where
  sub := Finset.empty_subset _
  index := ⟨0, Multiset.zero_le _, (relinkInboundEdges_zero t.index).symm⟩
  layers := ⟨0, Multiset.zero_le _, PropertyGraph.ext rfl (add_zero t.layers.edges).symm⟩
  resolved id := by
    rw [decide_eq_false fun h => Finset.notMem_empty id h.1, Bool.false_or]
  reason := rfl

theorem PutBack.torn {st st' : ApplyState} (htorn : (ApplyState.machine F current).torn st
      (.relinkInboundEdges (snapshotInboundEdges s.index changes) (s.savedRows changes)) st') :
    PutBack changes s st.store st'.store ∅ := by
  have hpart : ∀ edges ≤ snapshotInboundEdges s.index changes, ∀ rows ≤ s.savedRows changes,
      PutBack changes s st.store (st.exec F current (.relinkInboundEdges edges rows)).store ∅ :=
    fun edges hedges rows hrows =>
      ⟨Finset.empty_subset _, ⟨edges, hedges, rfl⟩, ⟨rows, hrows, rfl⟩, fun id => by
        rw [decide_eq_false fun h => Finset.notMem_empty id h.1, Bool.false_or]
        rfl, rfl⟩
  cases htorn with
  | unbegun => exact .refl
  | ended hexec =>
      obtain rfl := Option.some.inj hexec
      exact hpart _ le_rfl _ le_rfl
  | relinked hedges hrows => exact hpart _ hedges _ hrows
  | read hreads => exact absurd hreads id
  | derived hderives => exact absurd hderives id

variable (F current) in
theorem PutBack.restored {mid : LayeredStore} {st : ApplyState}
    (h : PutBack changes s mid st.store ∅) {ids : Finset Text} (hids : ids ⊆ s.reopened changes) :
    PutBack changes s mid (st.exec F current (.restoreSites ids)).store ids := by
  refine ⟨hids, h.index, h.layers, fun id => ?_, h.reason⟩
  have hopen := h.resolved id
  rw [decide_eq_false fun h => Finset.notMem_empty id h.1, Bool.false_or] at hopen
  rw [← hopen]
  rfl

theorem PutBack.torn_restore {mid : LayeredStore} {st st' : ApplyState}
    (h : PutBack changes s mid st.store ∅)
    (htorn : (ApplyState.machine F current).torn st (.restoreSites (s.reopened changes)) st') :
    ∃ ids, PutBack changes s mid st'.store ids := by
  cases htorn with
  | unbegun => exact ⟨∅, h⟩
  | ended hexec =>
      obtain rfl := Option.some.inj hexec
      exact ⟨_, h.restored F current subset_rfl⟩
  | restored hids => exact ⟨_, h.restored F current hids⟩
  | read hreads => exact absurd hreads id
  | derived hderives => exact absurd hderives id

/-! ## Where a refresh can stop -/

/-- The store once the sites are reopened. -/
def reopenedState (changes : ChangeSet) (s : LayeredStore) : ApplyState where
  store :=
    { s with
      isResolved := fun id => if id ∈ s.reopened changes then false else s.isResolved id
      reason := fun id => if id ∈ s.reopened changes then Resolver.noReason else s.reason id }

variable (F current changes) in
/-- The purge and the reading of files. -/
def middleStmts : List Stmt := purgeStmts changes ++ ApplyState.rebuildStmts changes current

theorem refreshStmts_eq : s.refreshStmts changes current =
    s.reopenSites changes ++ (middleStmts current changes ++ s.relinkStmts changes) := by
  rw [refreshStmts, middleStmts, ApplyState.rebuildStmts]
  simp only [List.append_assoc]

theorem completes_reopenSites {st : ApplyState}
    (h : (ApplyState.machine F current).Completes (s.reopenSites changes) { store := s } st) :
    st = reopenedState changes s := by
  have hrun := h.eq_run fun stmt hstmt => by
    simp only [reopenSites, List.mem_cons, List.not_mem_nil, or_false] at hstmt
    rcases hstmt with rfl | rfl <;> exact id
  exact (Option.some.inj hrun).symm

theorem kept_reopened : Kept changes s (reopenedState changes s).store :=
  ⟨⟨fun _ => false, fun _ => false, fun _ h => absurd h Bool.false_ne_true,
    fun _ h => absurd h Bool.false_ne_true, (drop_nothing s.layers).symm⟩, fun _ => Or.inr ⟨rfl, rfl⟩⟩

/-- The middle of a refresh has come to its end. -/
def MiddleDone (F : FrontEnd Content) (current : SourceTree Content) (changes : ChangeSet)
    (s : LayeredStore) (mid : ApplyState) : Prop :=
  (ApplyState.machine F current).Completes (middleStmts current changes) (reopenedState changes s) mid

/-- The middle of a refresh has stopped. -/
def MiddleCut (F : FrontEnd Content) (current : SourceTree Content) (changes : ChangeSet)
    (s : LayeredStore) (mid : ApplyState) : Prop :=
  (ApplyState.machine F current).Stops (middleStmts current changes) (reopenedState changes s) mid

theorem Kept.middle {stmt : Stmt} (hstmt : stmt ∈ middleStmts current changes) (st st' : ApplyState)
    (h : Kept changes s st.store) (htorn : (ApplyState.machine F current).torn st stmt st') :
    Kept changes s st'.store := h.torn hstmt htorn

theorem MiddleDone.kept {mid : ApplyState} (h : MiddleDone F current changes s mid) :
    Kept changes s mid.store :=
  h.inv (I := fun st => Kept changes s st.store) (fun _ hstmt => Kept.middle hstmt) kept_reopened

theorem MiddleCut.kept {mid : ApplyState} (h : MiddleCut F current changes s mid) :
    Kept changes s mid.store :=
  h.inv (I := fun st => Kept changes s st.store) (fun _ hstmt => Kept.middle hstmt) kept_reopened

theorem StopsAt.cases (h : s.StopsAt F current changes t) : Marked changes s t ∨
    (∃ mid, MiddleCut F current changes s mid ∧ t = mid.store) ∨
      ∃ mid ids, MiddleDone F current changes s mid ∧ PutBack changes s mid.store t ids := by
  obtain ⟨st, hstop, rfl⟩ := h
  rw [refreshStmts_eq] at hstop
  rcases Cuttable.stops_append.mp hstop with hmark | ⟨start, hstart, hstop⟩
  · refine Or.inl (hmark.inv (I := fun st => Marked changes s st.store) ?_ .refl)
    exact fun stmt hstmt st st' hmarked => hmarked.torn hstmt
  obtain rfl := completes_reopenSites hstart
  refine Or.inr ?_
  rcases Cuttable.stops_append.mp hstop with hmiddle | ⟨mid, hmid, hstop⟩
  · exact Or.inl ⟨st, hmiddle, rfl⟩
  rcases Cuttable.stops_cons.mp hstop with htorn | ⟨st', hrelink, hstop⟩
  · exact Or.inr ⟨mid, ∅, hmid, .torn htorn⟩
  rcases Cuttable.stops_cons.mp hstop with htorn | ⟨_, _, hstop⟩
  · obtain ⟨ids, hput⟩ := (PutBack.torn hrelink.torn).torn_restore htorn
    exact Or.inr ⟨mid, ids, hmid, hput⟩
  · exact absurd hstop Cuttable.not_stops_nil

theorem CompletesAt.putBack (h : s.CompletesAt F current changes t) :
    ∃ mid, MiddleDone F current changes s mid ∧
      PutBack changes s mid.store t (s.reopened changes) := by
  obtain ⟨st, hend, rfl⟩ := h
  rw [refreshStmts_eq] at hend
  obtain ⟨start, hstart, hend⟩ := Cuttable.completes_append.mp hend
  obtain rfl := completes_reopenSites hstart
  obtain ⟨mid, hmid, hend⟩ := Cuttable.completes_append.mp hend
  obtain ⟨st', hrelink, hend⟩ := Cuttable.completes_cons.mp hend
  obtain ⟨st'', hrestore, hend⟩ := Cuttable.completes_cons.mp hend
  rw [Cuttable.completes_nil.mp hend]
  refine ⟨mid, hmid, ?_⟩
  have hexec := hrestore.resolve_right fun hlenient => hlenient.1
  obtain rfl := Option.some.inj hexec
  exact (PutBack.torn hrelink.torn).restored F current subset_rfl

/-! ## No site is left resolved without a row -/

theorem Kept.site (hkept : Kept changes s t) (h : changes.Classified current) {id : Text}
    (hid : owningFile id ∉ changes.leaving) :
    t.isResolved id = (if id ∈ s.reopened changes then false else s.isResolved id) ∧
      t.reason id = if id ∈ s.reopened changes then Resolver.noReason else s.reason id := by
  refine (hkept.sites id).resolve_left (not_inFiles_of_outside h hid fun rel hrel => ?_)
  exact List.mem_append.mpr (Or.inl hrel)

theorem PutBack.mem_rowsOf {mid : LayeredStore} {ids : Finset Text} (hput : PutBack changes s mid t ids)
    {id : Text} {r : StoredRow} (hr : r ∈ mid.rowsOf id) : r ∈ t.rowsOf id := by
  obtain ⟨rows, -, hlayers⟩ := hput.layers
  refine CodeGraph.mem_rowsOf.mpr ⟨?_, (CodeGraph.mem_rowsOf.mp hr).2⟩
  rw [hlayers]
  exact Multiset.mem_add.mpr (Or.inl (CodeGraph.mem_rowsOf.mp hr).1)

theorem Kept.mem_rowsOf (hkept : Kept changes s t) {id : Text} {r : StoredRow} (hr : r ∈ s.rowsOf id)
    (hstays : ¬(purgedNode changes (src r) ∨ purgedNode changes (dst r) ∨ purgedRows changes r)) :
    r ∈ t.rowsOf id := by
  obtain ⟨p, q, hp, hq, hlayers⟩ := hkept.layers
  refine CodeGraph.mem_rowsOf.mpr ⟨?_, (CodeGraph.mem_rowsOf.mp hr).2⟩
  rw [hlayers]
  refine mem_edges_drop.mpr ⟨(CodeGraph.mem_rowsOf.mp hr).1, fun hdrop => hstays ?_⟩
  exact hdrop.imp (hp _) (Or.imp (hp _) (hq _))

theorem rows_of_resolved (h : changes.Classified current) {mid : LayeredStore} {ids : Finset Text}
    (hkept : Kept changes s mid) (hput : PutBack changes s mid t ids) {id : Text}
    (hid : owningFile id ∉ changes.leaving) (hresolved : t.isResolved id) :
    (id ∈ s.reopened changes ∧ t.rowsOf id ≠ 0) ∨ ∀ r ∈ s.rowsOf id, r ∈ t.rowsOf id := by
  have hsite := hkept.site h hid
  rw [hput.resolved, Bool.or_eq_true, decide_eq_true_eq] at hresolved
  by_cases hopen : id ∈ s.reopened changes
  · rw [hsite.1, if_pos hopen] at hresolved
    have hedge := hresolved.resolve_right Bool.false_ne_true
    exact Or.inl ⟨hopen, mem_sitesWithEdge.mp hedge.2⟩
  · exact Or.inr fun r hr => hput.mem_rowsOf (hkept.mem_rowsOf hr (kept_rowsOf h hid hopen hr))

/-- Wherever a refresh stops, each site that is resolved and held a row holds one. -/
theorem honest_of_stops (h : changes.Classified current) (hstop : s.StopsAt F current changes t) :
    s.Honest changes t := by
  intro id hid hresolved hrows
  have hmid : ∀ {mid : LayeredStore} {ids}, Kept changes s mid → PutBack changes s mid t ids →
      t.rowsOf id ≠ 0 := by
    intro mid ids hkept hput
    rcases rows_of_resolved h hkept hput hid hresolved with ⟨-, hheld⟩ | hall
    · exact hheld
    · obtain ⟨r, hr⟩ := rowsOf_ne_zero.mp hrows
      exact rowsOf_ne_zero.mpr ⟨r, hall r hr⟩
  rcases StopsAt.cases hstop with hmarked | ⟨mid, hcut, rfl⟩ | ⟨mid, ids, hdone, hput⟩
  · rwa [rowsOf, hmarked.layers]
  · exact hmid hcut.kept .refl
  · exact hmid hdone.kept hput

theorem restores_of_completes (h : changes.Classified current)
    (hend : s.CompletesAt F current changes t) : s.RestoresSites changes t := by
  intro id hopen
  obtain ⟨mid, hmid, hput⟩ := CompletesAt.putBack hend
  obtain ⟨-, -, -, hid⟩ := mem_reopened.mp hopen
  have hsite := (hmid.kept.site h hid).1
  rw [if_pos hopen] at hsite
  rw [hput.resolved, hsite, Bool.or_false, decide_eq_true_eq, mem_sitesWithEdge]
  exact and_iff_right hopen

end CodeGraph
