import CodeGraph.HistoryRows
import CodeGraph.RefreshRun

/-!
# The frame of a refresh

What a refresh leaves of the files that are not in its change set: their nodes, the
edges and rows between them, and the edges and rows out of them into a modified file.
The last are put back from what the snapshot saved of them.
-/

namespace CodeGraph

open Multiset PropertyGraph Keyed Linked Schema LayeredStore

/-- What is filtered and rewritten comes out the same when the filter takes all of it and
the rewriting changes none. -/
theorem map_filter_eq_iff {α : Type*} {A : Multiset α} {P : α → Prop} [DecidablePred P] {f : α → α}
    (hf : ∀ a, f (f a) = f a) : (A.filter P).map f = A ↔ ∀ a ∈ A, P a ∧ f a = a := by
  constructor
  · intro h
    have hcard : A.card ≤ (A.filter P).card :=
      calc A.card = ((A.filter P).map f).card := congrArg Multiset.card h.symm
        _ ≤ (A.filter P).card := (card_map f _).le
    have hall : A.filter P = A := eq_of_le_of_card_le (filter_le P A) hcard
    rw [hall] at h
    intro a ha
    refine ⟨(filter_eq_self.mp hall) a ha, ?_⟩
    rw [← h] at ha
    obtain ⟨b, -, rfl⟩ := mem_map.mp ha
    exact hf b
  · intro h
    rw [filter_eq_self.mpr fun a ha => (h a ha).1]
    exact (map_congr rfl fun a ha => (h a ha).2).trans (map_id A)

variable {Content : Type} {F : FrontEnd Content} {current : SourceTree Content}
  {changes : ChangeSet} {s : LayeredStore}

/-! ## The law -/

/-- An outside node to one of a modified file, there before and there again. -/
def survives (changes : ChangeSet) (before after : Multiset StoredKey) (a b : StoredKey) : Bool :=
  changes.outside a && (changes.isFileNode b || changes.isInner b) &&
    (a ∈ before ∧ b ∈ before ∧ b ∈ after)

/-- What a refresh owes the files that are not in its change set. -/
structure FrameKept (changes : ChangeSet) (s s' : LayeredStore) : Prop where
  between : SameOn changes.outside (fun a b => changes.outside a && changes.outside b) s s'
  sites : ∀ id, owningFile id ∉ changes.leaving → id ∉ s.reopened changes →
    s'.isResolved id = s.isResolved id ∧ s'.reason id = s.reason id
  edgesInto : (s'.index.edges.filter fun e => survives changes (s.index.keys.map Key.stored)
      (s'.index.keys.map Key.stored) e.src.stored e.dst.stored) =
    s.index.edges.filter fun e => survives changes (s.index.keys.map Key.stored)
      (s'.index.keys.map Key.stored) e.src.stored e.dst.stored
  rowsInto : (s'.layers.edges.filter fun r => survives changes s.keys s'.keys (src r) (dst r)) =
    s.layers.edges.filter fun r => survives changes s.keys s'.keys (src r) (dst r)

def SavesAll (r : StoredRow) : Prop :=
  ¬r.confidence.all Char.isWhitespace ∧ r.observedCount = none ∧ r.others = []

/-- What must be put back is of a table that is saved, and no column is left out. -/
structure AllSaved (F : FrontEnd Content) (current : SourceTree Content) (changes : ChangeSet)
    (s : LayeredStore) : Prop where
  edges : ∀ e ∈ s.index.edges, Lands s.index.keys e → leadsIn changes e.src.stored e.dst.stored →
    Redeclared F current changes e.dst →
      (isResolutionKind e.kind ∧ e.dst.1 ≠ .fileContent) ∧ Stated e
  rows : ∀ r ∈ s.layers.edges, Lands s.keys r → leadsIn changes (src r) (dst r) →
    (∃ k, Redeclared F current changes k ∧ k.stored = dst r) →
      isResolutionTable r.table.name.toList ∧ SavesAll r

/-! ## Putting back -/

section Relink

variable {E : Type*} {into atFile : E → Bool} {saved lands : E → Prop} [DecidablePred saved]
  [DecidablePred lands] {f : E → E} {before rebuilt : Multiset E}

/-- Of the edges of `into` those at a file node stay, and the others are what is saved of
them: the same when all of them are saved whole. -/
theorem relink_eq_iff (hfile : (rebuilt.filter fun e => into e) =
      before.filter fun e => atFile e ∧ into e) (hsaved : ∀ e, saved e → ¬atFile e)
    (hlands : ∀ e, into e → lands e) (hinto : ∀ e, into (f e) = into e)
    (hf : ∀ e, f (f e) = f e) :
    (((rebuilt + ((before.filter saved).map f).filter lands).filter fun e => into e) =
      before.filter fun e => into e) ↔
      ∀ e ∈ before, into e → ¬atFile e → saved e ∧ f e = e := by
  have hrest : (((before.filter saved).map f).filter lands).filter (fun e => into e) =
      ((before.filter fun e => ¬atFile e ∧ into e).filter saved).map f := by
    rw [filter_filter, filter_map, filter_filter, filter_filter]
    refine congrArg _ (filter_congr fun e _ => ?_)
    show (into (f e) ∧ lands (f e)) ∧ saved e ↔ saved e ∧ ¬atFile e ∧ into e
    rw [hinto]
    have := hlands (f e)
    rw [hinto] at this
    have := hsaved e
    tauto
  have hsplit : (before.filter fun e => into e) = (before.filter fun e => atFile e ∧ into e) +
      before.filter fun e => ¬atFile e ∧ into e := by
    rw [← filter_filter, ← filter_filter, filter_add_not]
  rw [filter_add, hfile, hrest, hsplit, add_right_inj, map_filter_eq_iff hf]
  simp only [mem_filter, and_imp]
  exact forall₂_congr fun e _ => forall_comm

/-- Once the files are read again, of the edges of `into` there are those at a file
node. -/
theorem filter_into {stays leads : E → Bool}
    (hstays : (rebuilt.filter fun e => stays e) = before.filter fun e => stays e)
    (hleads : (rebuilt.filter fun e => leads e) = 0) (hfile : ∀ e, into e → atFile e → stays e)
    (hinner : ∀ e, into e → ¬atFile e → leads e) :
    (rebuilt.filter fun e => into e) = before.filter fun e => atFile e ∧ into e := by
  have hkept : ∀ es : Multiset E, (es.filter fun e => atFile e ∧ into e) =
      (es.filter fun e => stays e).filter fun e => atFile e ∧ into e := fun es => by
    rw [filter_filter]
    exact filter_congr fun e _ => (and_iff_left_of_imp fun h => hfile e h.2 h.1).symm
  rw [hkept before, ← hstays, ← hkept]
  refine filter_congr fun e he => (and_iff_right_of_imp fun hinto => ?_).symm
  by_contra hnot
  have hmem : e ∈ rebuilt.filter fun e => leads e :=
    mem_filter.mpr ⟨he, hinner e hinto hnot⟩
  rw [hleads] at hmem
  exact notMem_zero e hmem

end Relink

/-! ## The columns of the sites -/

section Sites

open Runs

theorem flags_read (h : changes.Classified current) {id : Text}
    (hid : owningFile id ∉ changes.leaving) {stmts : List Stmt}
    (hall : ∀ stmt ∈ stmts, ApplyState.Rebuilds changes current stmt) (st : ApplyState) :
    (run (ApplyState.exec F current) stmts st).store.isResolved id = st.store.isResolved id ∧
      (run (ApplyState.exec F current) stmts st).store.reason id = st.store.reason id := by
  have hcreated : ∀ {rel}, rel ∈ changes.reparsedSet → ¬inFile rel [] <+: id := by
    intro rel hrel hpre
    have hleaving := ChangeSet.mem_leaving.mpr (Or.inl hrel)
    rw [owningFile_eq_of_inFile (h.plain hleaving) hpre] at hid
    exact hid hleaving
  induction stmts generalizing st with
  | nil => exact ⟨rfl, rfl⟩
  | cons stmt stmts ih =>
      have hrest := ih (fun stmt hstmt => hall stmt (List.mem_cons_of_mem _ hstmt))
        (st.exec F current stmt)
      rw [run_cons, hrest.1, hrest.2]
      cases hall stmt List.mem_cons_self with
      | changed hd =>
          have hnot := hcreated (ApplyState.read_of_changed hd)
          exact ⟨if_neg hnot, if_neg hnot⟩
      | new hd =>
          have hnot := hcreated (ApplyState.read_of_new hd)
          exact ⟨if_neg hnot, if_neg hnot⟩
      | _ => exact ⟨rfl, rfl⟩

/-- Outside the change set a site is reopened or left as it is. -/
theorem flags_rebuilt (h : changes.Classified current) {id : Text}
    (hid : owningFile id ∉ changes.leaving) :
    (rebuilt F current s changes).store.isResolved id =
        (if id ∈ s.reopened changes then false else s.isResolved id) ∧
      (rebuilt F current s changes).store.reason id =
        if id ∈ s.reopened changes then Resolver.noReason else s.reason id := by
  have hread := flags_read (F := F) h hid (fun stmt hstmt => ApplyState.rebuilds hstmt)
    (purged F current s changes)
  rw [rebuilt, hread.1, hread.2, purged, run_append, run_purgeStmts]
  exact ⟨rfl, rfl⟩

end Sites

/-! ## The frame -/

theorem inner_of_saved {e : Edge} (hsaved : Saved changes e) : changes.isInner e.dst.stored := by
  obtain ⟨-, -, hdir, hscope, -⟩ := hsaved
  obtain ⟨rel, hrel, hpre⟩ := List.any_eq_true.mp hscope
  refine isInner_iff.mpr ⟨fun h => hdir ?_, rel, hrel, Or.inr (of_decide_eq_true hpre)⟩
  have hlabel : some e.dst.1 = some .directory := by
    rw [← indexLabel_stored, show e.dst.1.stored = _ from h]
    rfl
  exact Option.some.inj hlabel

theorem inner_of_isSaved {r : StoredRow} (hsaved : isSaved changes r) :
    changes.isInner (dst r) := by
  simp only [isSaved, Bool.and_eq_true, decide_eq_true_eq] at hsaved
  obtain ⟨⟨⟨-, hlabel⟩, hscope⟩, -⟩ := hsaved
  obtain ⟨rel, hrel, hpre⟩ := List.any_eq_true.mp hscope
  refine isInner_iff.mpr ⟨fun hdir => hlabel ?_, rel, hrel, Or.inr (of_decide_eq_true hpre)⟩
  rw [show r.table.toLabel = _ from hdir]
  exact List.mem_cons_of_mem _ List.mem_cons_self

theorem ChangeSet.Classified.inner_apart (h : changes.Classified current) {k : StoredKey}
    (hk : changes.isInner k) : ¬changes.isFileNode k ∧ ¬changes.outside k := by
  obtain ⟨-, rel, hrel, hk⟩ := isInner_iff.mp hk
  have hleaving := mem_leaving_of_changed hrel
  constructor
  · intro hfile
    rcases hk with rfl | hpre
    · cases (isFileNode_iff.mp hfile).1
    · exact (h.isFileNode_apart hfile).2 rel hleaving hpre
  · refine h.not_outside hleaving ?_
    exact hk.imp_left (congrArg Prod.snd)

theorem survives_iff {before after : Multiset StoredKey} {a b : StoredKey} :
    survives changes before after a b ↔ (changes.outside a ∧
      (changes.isFileNode b ∨ changes.isInner b)) ∧ a ∈ before ∧ b ∈ before ∧ b ∈ after := by
  simp only [survives, Bool.and_eq_true, Bool.or_eq_true, decide_eq_true_eq]

section Frame

theorem index_relinked (s : LayeredStore) : (s.applyChanges changes F current).index =
    (rebuilt F current s changes).store.index.insertEdges
      ((s.index.edges.filter (Saved changes)).map relinked) := by
  rw [applyChanges_eq_relinked]
  rfl

theorem layers_relinked (s : LayeredStore) : (s.applyChanges changes F current).layers =
    { (rebuilt F current s changes).store.layers with
      edges := (rebuilt F current s changes).store.layers.edges +
        ((s.layers.edges.filter (isSaved changes ·)).map relinkedRow).filter
          (Lands (rebuilt F current s changes).store.keys) } := by
  rw [applyChanges_eq_relinked]
  rfl

theorem keys_relinked (s : LayeredStore) : (s.applyChanges changes F current).keys =
    (rebuilt F current s changes).store.keys := by
  rw [LayeredStore.keys, index_relinked, layers_relinked]
  rfl

theorem src_relinked (e : Edge) : (relinked e).src.stored = e.src.stored := rfl

theorem dst_relinked (e : Edge) : (relinked e).dst.stored = e.dst.stored := rfl

theorem src_relinkedRow (r : StoredRow) : src (relinkedRow r) = src r := rfl

theorem dst_relinkedRow (r : StoredRow) : dst (relinkedRow r) = dst r := rfl

theorem filled_again (confidence : Text) :
    (if (if confidence.all Char.isWhitespace then "1.0".toList else confidence).all
        Char.isWhitespace then "1.0".toList
      else if confidence.all Char.isWhitespace then "1.0".toList else confidence) =
      if confidence.all Char.isWhitespace then "1.0".toList else confidence := by
  by_cases hblank : confidence.all Char.isWhitespace
  · rw [if_pos hblank, ite_self]
  · rw [if_neg hblank, if_neg hblank]

theorem relinked_relinked (e : Edge) : relinked (relinked e) = relinked e := by
  obtain ⟨kind, src, dst, props⟩ := e
  cases props with
  | provenance confidence method =>
      exact congrArg (fun c => (⟨kind, src, dst, .provenance c method⟩ : Edge))
        (filled_again confidence)
  | none => rfl
  | child => rfl

theorem relinkedRow_relinkedRow (r : StoredRow) : relinkedRow (relinkedRow r) = relinkedRow r :=
  congrArg (fun c => { relinkedRow r with confidence := c }) (filled_again r.confidence)

theorem between_relinked (h : changes.Classified current) (s : LayeredStore) :
    SameOn changes.outside (fun a b => changes.outside a && changes.outside b) s
      (s.applyChanges changes F current) := by
  have hrebuilt : SameOn changes.outside (fun a b => changes.outside a && changes.outside b) s
      (rebuilt F current s changes).store := by
    refine (sameOn_rebuilt h s).mono (fun _ hk => hk) fun a b hab => ?_
    rw [Bool.and_eq_true] at hab
    exact ApplyState.stays_iff.mpr ⟨hab.1, Or.inl hab.2⟩
  refine hrebuilt.trans ⟨?_, ?_⟩
  · rw [index_relinked]
    refine .insertEdges fun e he hout => ?_
    obtain ⟨saved, hsaved, rfl⟩ := mem_map.mp he
    have hinner := inner_of_saved (mem_filter.mp hsaved).2
    exact (h.inner_apart hinner).2 (Bool.and_eq_true_iff.mp hout).2
  · rw [layers_relinked]
    refine ⟨rfl, filter_add_eq fun r hr hout => ?_⟩
    obtain ⟨saved, hsaved, rfl⟩ := mem_map.mp (mem_filter.mp hr).1
    have hinner := inner_of_isSaved (mem_filter.mp hsaved).2
    exact (h.inner_apart hinner).2 (Bool.and_eq_true_iff.mp hout).2

theorem sites_relinked (h : changes.Classified current) {id : Text}
    (hid : owningFile id ∉ changes.leaving) (hopen : id ∉ s.reopened changes) :
    (s.applyChanges changes F current).isResolved id = s.isResolved id ∧
      (s.applyChanges changes F current).reason id = s.reason id := by
  obtain ⟨hresolved, hreason⟩ := flags_rebuilt (F := F) (s := s) h hid
  rw [if_neg hopen] at hresolved hreason
  rw [applyChanges_eq_relinked]
  refine ⟨?_, hreason⟩
  show (decide (id ∈ s.reopened changes ∧ _) || _) = _
  rw [decide_eq_false fun hmem => hopen hmem.1, Bool.false_or]
  exact hresolved

theorem mem_keys_outside (h : changes.Classified current) {k : StoredKey} (hk : changes.outside k) :
    (k ∈ (rebuilt F current s changes).store.index.keys.map Key.stored ↔
        k ∈ s.index.keys.map Key.stored) ∧
      (k ∈ (rebuilt F current s changes).store.layers.keys ↔ k ∈ s.layers.keys) := by
  have hsame := sameOn_rebuilt (F := F) h s
  refine ⟨?_, hsame.layers.mem_keys hk⟩
  rw [mem_map, mem_map]
  refine exists_congr fun k' => and_congr_left ?_
  rintro rfl
  exact hsame.index.mem_keys hk

/-- For edges and rows alike: what leads into a modified file survives a refresh if what
must be put back is saved whole. -/
theorem into_iff (h : changes.Classified current) {E : Type*} {a b : E → StoredKey}
    {saved lands : E → Prop} [DecidablePred saved] [DecidablePred lands] {f : E → E}
    {before rebuilt : Multiset E} {ks ks' : Multiset StoredKey}
    (hstays : (rebuilt.filter fun e => ApplyState.stays changes (a e) (b e)) =
      before.filter fun e => ApplyState.stays changes (a e) (b e))
    (hleads : (rebuilt.filter fun e => leadsIn changes (a e) (b e)) = 0)
    (hsaved : ∀ e, saved e → changes.isInner (b e)) (ha : ∀ e, a (f e) = a e)
    (hb : ∀ e, b (f e) = b e) (hf : ∀ e, f (f e) = f e)
    (hlands : ∀ e, a e ∈ ks' → b e ∈ ks' → lands e)
    (houtside : ∀ k, changes.outside k → k ∈ ks → k ∈ ks') :
    (((rebuilt + ((before.filter saved).map f).filter lands).filter fun e =>
        survives changes ks ks' (a e) (b e)) =
      before.filter fun e => survives changes ks ks' (a e) (b e)) ↔
      ∀ e ∈ before, a e ∈ ks → b e ∈ ks → leadsIn changes (a e) (b e) → b e ∈ ks' →
        saved e ∧ f e = e := by
  have hinto : (rebuilt.filter fun e => survives changes ks ks' (a e) (b e)) =
      before.filter fun e => changes.isFileNode (b e) ∧ survives changes ks ks' (a e) (b e) := by
    refine filter_into hstays hleads (fun e hs hfile => ?_) fun e hs hfile => ?_
    · exact ApplyState.stays_iff.mpr ⟨(survives_iff.mp hs).1.1, Or.inr hfile⟩
    · obtain ⟨⟨hout, hdst⟩, -⟩ := survives_iff.mp hs
      exact leadsIn_iff.mpr ⟨hout, hdst.resolve_left hfile⟩
  refine (relink_eq_iff hinto (fun e he => (h.inner_apart (hsaved e he)).1) (fun e hs => ?_)
    (fun e => ?_) hf).trans (forall₂_congr fun e _ => ?_)
  · obtain ⟨⟨hout, -⟩, hsrc, -, hdst⟩ := survives_iff.mp hs
    exact hlands e (houtside _ hout hsrc) hdst
  · rw [ha, hb]
  · rw [survives_iff, leadsIn_iff]
    have hapart : changes.isInner (b e) → ¬changes.isFileNode (b e) := fun hk => (h.inner_apart hk).1
    tauto

theorem edgesInto_iff (h : changes.Classified current) (s : LayeredStore) :
    (((s.applyChanges changes F current).index.edges.filter fun e =>
        survives changes (s.index.keys.map Key.stored)
          ((s.applyChanges changes F current).index.keys.map Key.stored) e.src.stored e.dst.stored) =
      s.index.edges.filter fun e => survives changes (s.index.keys.map Key.stored)
        ((s.applyChanges changes F current).index.keys.map Key.stored) e.src.stored e.dst.stored) ↔
      ∀ e ∈ s.index.edges, Lands s.index.keys e → leadsIn changes e.src.stored e.dst.stored →
        Redeclared F current changes e.dst → Saved changes e ∧ relinked e = e := by
  have hkeys : (s.applyChanges changes F current).index.keys =
      (rebuilt F current s changes).store.index.keys := by
    rw [index_relinked]
    rfl
  rw [hkeys, index_relinked]
  refine (into_iff h (sameOn_rebuilt h s).index.edges (rebuilt_leadsIn h s).1
    (fun e => inner_of_saved) src_relinked dst_relinked relinked_relinked (fun e hsrc hdst => ?_)
    fun k hk => (mem_keys_outside h hk).1.mpr).trans (forall₂_congr fun e _ => ?_)
  · exact ⟨mem_map_stored.mp hsrc, mem_map_stored.mp hdst⟩
  · rw [mem_map_stored, mem_map_stored, mem_map_stored]
    constructor
    · intro hall hlands hlead hagain
      refine hall hlands.1 hlands.2 hlead ?_
      exact (mem_index_rebuilt h s (leadsIn_iff.mp hlead).2).mpr hagain
    · intro hall hsrc hdst hlead hagain
      refine hall ⟨hsrc, hdst⟩ hlead ?_
      exact (mem_index_rebuilt h s (leadsIn_iff.mp hlead).2).mp hagain

theorem rowsInto_iff (h : changes.Classified current) (s : LayeredStore) :
    (((s.applyChanges changes F current).layers.edges.filter fun r =>
        survives changes s.keys (s.applyChanges changes F current).keys (src r) (dst r)) =
      s.layers.edges.filter fun r =>
        survives changes s.keys (s.applyChanges changes F current).keys (src r) (dst r)) ↔
      ∀ r ∈ s.layers.edges, Lands s.keys r → leadsIn changes (src r) (dst r) →
        (∃ k, Redeclared F current changes k ∧ k.stored = dst r) →
          isSaved changes r ∧ relinkedRow r = r := by
  rw [keys_relinked, layers_relinked]
  have hagain : ∀ r : StoredRow, leadsIn changes (src r) (dst r) →
      (dst r ∈ (rebuilt F current s changes).store.keys ↔
        ∃ k, Redeclared F current changes k ∧ k.stored = dst r) := by
    intro r hlead
    have hinner := (leadsIn_iff.mp hlead).2
    rw [LayeredStore.keys, mem_add, or_iff_left (not_mem_layers_rebuilt s hinner),
      mem_map]
    refine exists_congr fun k => and_congr_left fun hk => ?_
    rw [← hk] at hinner
    exact mem_index_rebuilt h s hinner
  refine (into_iff h (sameOn_rebuilt h s).layers.edges (rebuilt_leadsIn h s).2
    (fun r => inner_of_isSaved) src_relinkedRow dst_relinkedRow relinkedRow_relinkedRow
    (fun r hsrc hdst => ⟨hsrc, hdst⟩) fun k hk => ?_).trans (forall₂_congr fun r _ => ?_)
  · rw [LayeredStore.keys, LayeredStore.keys, mem_add, mem_add,
      (mem_keys_outside h hk).1, (mem_keys_outside h hk).2]
    exact id
  · constructor
    · intro hall hlands hlead hdst
      exact hall hlands.1 hlands.2 hlead ((hagain r hlead).mpr hdst)
    · intro hall hsrc hdst hlead hafter
      exact hall ⟨hsrc, hdst⟩ hlead ((hagain r hlead).mp hafter)

end Frame

/-! ## What is saved -/

theorem stated_iff {e : Edge} : relinked e = e ↔ Stated e := by
  refine ⟨fun heq => ?_, Stated.relinked⟩
  rw [← heq]
  obtain ⟨kind, src, dst, props⟩ := e
  have hone : ¬"1.0".toList.all Char.isWhitespace := by decide
  cases props with
  | provenance confidence method =>
      refine ⟨_, method, rfl, ?_⟩
      split
      · exact hone
      · assumption
  | none => exact ⟨_, _, rfl, hone⟩
  | child => exact ⟨_, _, rfl, hone⟩

theorem savesAll_iff {r : StoredRow} : relinkedRow r = r ↔ SavesAll r := by
  constructor
  · intro heq
    rw [← heq]
    refine ⟨?_, rfl, rfl⟩
    show ¬(if _ then _ else r.confidence).all _
    split
    · decide
    · assumption
  · rintro ⟨hblank, hcount, hothers⟩
    obtain ⟨table, source, target, confidence, method, count, others, declared, layered⟩ := r
    obtain rfl : count = none := hcount
    obtain rfl : others = [] := hothers
    exact congrArg (fun c => StoredRow.mk table source target c method none [] declared layered)
      (if_neg hblank)

theorem toLabel_ne_fileContent : ∀ t ∈ relTables, t.toLabel ≠ .fileContent := by decide

theorem Redeclared.owned {k : Key} (h : Redeclared F current changes k) :
    ∃ rel ∈ changes.reparsedSet, Owned rel k ∧ k.1 ≠ .file := by
  obtain ⟨rel, hrel, hk | hk⟩ := h
  · obtain ⟨n, hn, rfl⟩ := mem_map.mp hk
    exact ⟨rel, hrel, ownNodes_owned hn⟩
  · obtain ⟨n, hn, rfl⟩ := List.mem_map.mp hk
    exact ⟨rel, hrel, Iac.factNodes_owned hn⟩

theorem not_read_of_outside {k : StoredKey} (hk : changes.outside k) :
    owningFile k.2 ∉ changes.reparsedSet := fun hread =>
  (ChangeSet.outside_iff.mp hk).2 (ChangeSet.mem_leaving.mpr (Or.inl hread))

theorem saved_iff_of_leadsIn (h : changes.Classified current) {e : Edge}
    (hlead : leadsIn changes e.src.stored e.dst.stored) (hagain : Redeclared F current changes e.dst) :
    Saved changes e ↔ isResolutionKind e.kind ∧ e.dst.1 ≠ .fileContent := by
  obtain ⟨hout, hinner⟩ := leadsIn_iff.mp hlead
  obtain ⟨hdir, rel, hrel, hdst⟩ := isInner_iff.mp hinner
  obtain ⟨u, hu, howned, hfile⟩ := hagain.owned
  have hleaving := ChangeSet.mem_leaving.mpr (Or.inl hu)
  constructor
  · rintro ⟨hkind, -, -, hscope, -⟩
    refine ⟨hkind, fun hcontent => ?_⟩
    obtain ⟨rel, -, hpre⟩ := List.any_eq_true.mp hscope
    generalize e.dst = k at howned hcontent hpre
    cases howned with
    | file => cases hcontent
    | content => exact (h.plain hleaving).not_inFile_isPrefix (of_decide_eq_true hpre)
    | named name hscoped =>
        subst hcontent
        cases hscoped
  · rintro ⟨hkind, hcontent⟩
    refine ⟨hkind, hfile, ne_directory_of_stored hdir, ?_, not_read_of_outside hout⟩
    refine List.any_eq_true.mpr ⟨rel, hrel, decide_eq_true (hdst.resolve_left fun heq => ?_)⟩
    exact hcontent (congrArg Prod.fst (stored_eq_fileContent.mp heq))

theorem isSaved_iff_of_leadsIn {r : StoredRow} (hlead : leadsIn changes (src r) (dst r))
    (hagain : ∃ k, Redeclared F current changes k ∧ k.stored = dst r) :
    isSaved changes r ↔ isResolutionTable r.table.name.toList := by
  obtain ⟨hout, hinner⟩ := leadsIn_iff.mp hlead
  obtain ⟨hdir, rel, hrel, hdst⟩ := isInner_iff.mp hinner
  simp only [isSaved, Bool.and_eq_true, decide_eq_true_eq]
  refine ⟨fun h => h.1.1.1, fun htable => ⟨⟨⟨htable, ?_⟩, ?_⟩, not_read_of_outside hout⟩⟩
  · obtain ⟨k, hk, heq⟩ := hagain
    obtain ⟨-, -, -, hfile⟩ := hk.owned
    have hlabel : r.table.toLabel = k.1.stored := congrArg (fun k : StoredKey => k.1) heq.symm
    simp only [List.mem_cons, List.not_mem_nil, or_false, not_or]
    refine ⟨fun hto => hfile ?_, hdir⟩
    have hstored : k.stored = (.file, k.2) := Prod.ext (hlabel.symm.trans hto) rfl
    exact congrArg Prod.fst (stored_eq_file.mp hstored)
  · refine List.any_eq_true.mpr ⟨rel, hrel, decide_eq_true (hdst.resolve_left fun heq => ?_)⟩
    exact toLabel_ne_fileContent r.table r.declared (congrArg Prod.fst heq)

/-- A refresh keeps the frame of its change set just when all that must be put back is
saved whole. -/
theorem refresh_frame_iff (h : changes.Classified current) (s : LayeredStore) :
    FrameKept changes s (s.applyChanges changes F current) ↔ AllSaved F current changes s := by
  have hedges := (edgesInto_iff (F := F) h s).trans (forall₂_congr fun e _ =>
    forall_congr' fun _ => forall_congr' fun hlead => forall_congr' fun hagain =>
      and_congr (saved_iff_of_leadsIn h hlead hagain) stated_iff)
  have hrows := (rowsInto_iff (F := F) h s).trans (forall₂_congr fun r _ =>
    forall_congr' fun _ => forall_congr' fun hlead => forall_congr' fun hagain =>
      and_congr (isSaved_iff_of_leadsIn hlead hagain) savesAll_iff)
  constructor
  · intro hkept
    exact ⟨hedges.mp hkept.edgesInto, hrows.mp hkept.rowsInto⟩
  · intro hsaved
    exact ⟨between_relinked h s, fun _ hid hopen => sites_relinked h hid hopen,
      hedges.mpr hsaved.edges, hrows.mpr hsaved.rows⟩

/-! ## A call that was observed -/

open Resolver

/-- `f` calls the `helper` of `a.rs`, and was seen to so many times. -/
def observedCall (observedCount : Option Int) : StoredRow where
  table := ⟨"Calls_Function_Function", .function, .function⟩
  source := "b.rs::f".toList
  target := "a.rs::helper".toList
  confidence := "0.95".toList
  resolutionMethod := "unique-match".toList
  observedCount := observedCount
  declared := by decide
  layered := nofun

noncomputable def observedStore (observedCount : Option Int) : LayeredStore where
  index := indexCodebase helperReader oneHelper
  layers := ⟨0, {observedCall observedCount}⟩
  isResolved _ := false
  reason _ := noReason

/-- A line is added to `a.rs`. -/
def touchHelper : ChangeSet := { changed := [⟨"a.rs".toList, "/a.rs".toList, 0, 0⟩] }

theorem touchHelper_classified : touchHelper.Classified oneHelper where
  reparsed rel hrel := by
    obtain rfl := List.mem_singleton.mp hrel
    exact Finset.mem_insert_self _ _
  gone := nofun

theorem observedCall_leadsIn (observedCount : Option Int) :
    leadsIn touchHelper (src (observedCall observedCount)) (dst (observedCall observedCount)) ∧
      ∃ k, Redeclared helperReader oneHelper touchHelper k ∧
        k.stored = dst (observedCall observedCount) := by
  have hends : leadsIn touchHelper (.function, "b.rs::f".toList) (.function, "a.rs::helper".toList) ∧
      Redeclared helperReader oneHelper touchHelper (.symbol .function, "a.rs::helper".toList) := by
    decide
  exact ⟨hends.1, _, hends.2, rfl⟩

theorem observedCall_lands (observedCount : Option Int) :
    Lands (observedStore observedCount).keys (observedCall observedCount) := by
  have hkeys : ∀ k, k ∈ treeKeys helperReader oneHelper →
      k.stored ∈ (observedStore observedCount).keys := fun k hk => by
    refine mem_add.mpr (Or.inl (mem_map_stored.mpr ?_))
    rw [observedStore, indexCodebase_eq]
    exact hk
  obtain ⟨-, hsource, htarget⟩ := calls_helperSite.joins
  exact ⟨hkeys (.symbol .function, _) hsource, hkeys (.symbol .function, _) htarget⟩

/-- The count is lost when `a.rs` is read again. -/
theorem observed_count_lost : ¬FrameKept touchHelper (observedStore (some 7))
    ((observedStore (some 7)).applyChanges touchHelper helperReader oneHelper) := by
  intro hkept
  obtain ⟨hlead, hagain⟩ := observedCall_leadsIn (some 7)
  have hsaved := (rowsInto_iff touchHelper_classified _).mp hkept.rowsInto _
    (mem_singleton_self _) (observedCall_lands (some 7)) hlead hagain
  have hcount := congrArg StoredRow.observedCount hsaved.2
  cases hcount

theorem edges_oneHelper : (indexCodebase helperReader oneHelper).edges = 0 := by
  rw [indexCodebase_eq]
  decide

/-- A row that nobody counted on comes back. -/
theorem call_row_kept : FrameKept touchHelper (observedStore none)
    ((observedStore none).applyChanges touchHelper helperReader oneHelper) := by
  refine (refresh_frame_iff touchHelper_classified (observedStore none)).mpr ⟨?_, ?_⟩
  · intro e he
    rw [show (observedStore none).index.edges = 0 from edges_oneHelper] at he
    exact absurd he (notMem_zero e)
  · intro r hr _ _ _
    obtain rfl := mem_singleton.mp hr
    exact ⟨by decide +kernel, by decide +kernel, rfl, rfl⟩

end CodeGraph
