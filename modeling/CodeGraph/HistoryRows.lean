import CodeGraph.ResolveSound

/-!
# What a history of edits leaves

An edit of the tree is followed by a refresh and a run of the resolver. What is
then there is what a full index of the tree and one run leave if and only if the
refresh and the resets leave no row and no flag that the rules do not give on the
new tree (`sameAsIndexed_edit`): the run adds to what it finds, it does not
reconsider it.
-/

namespace CodeGraph

namespace Resolver

open Schema AmbiguityPolicy Runs Keyed

/-- A change set and the tree it leads to. -/
structure Edit (Content : Type) where
  changes : ChangeSet
  after : SourceTree Content

section History

variable {Content Cargo : Type} (F : FrontEnd Content) (R : Rules Cargo)
  (columns : SourceTree Content → Columns Cargo)

def refreshEdit (s : Store Content Cargo) (e : Edit Content) : Store Content Cargo :=
  s.refresh F e.changes e.after (columns e.after)

def edit (s : Store Content Cargo) (e : Edit Content) : Store Content Cargo :=
  (refreshEdit F columns s e).resolveGraph F R

/-- A full index and one run. -/
def indexResolve (tree : SourceTree Content) : Store Content Cargo :=
  (Store.indexed tree (columns tree)).resolveGraph F R

/-- The store is as if the tree had been indexed and resolved at once. -/
structure SameAsIndexed (s : Store Content Cargo) : Prop where
  rows : ∀ k, HasKey s.rows k ↔ HasKey (indexResolve F R columns s.tree).rows k
  flags : ∀ site ∈ callSites R (s.nodes F),
    s.isResolved site.id = (indexResolve F R columns s.tree).isResolved site.id
  reasons : ∀ site ∈ callSites R (s.nodes F),
    s.reason site.id = (indexResolve F R columns s.tree).reason site.id

/-- What is left of earlier runs is what the rules give on the new tree: every row
that no reset takes back, and every site that stays flagged. -/
structure NothingLeftOver (s : Store Content Cargo) (e : Edit Content) : Prop where
  rows : ∀ r ∈ (refreshEdit F columns s e).rows,
    Store.isTaken F (refreshEdit F columns s e) r = false →
      HasKey (stagedRows R (treeNodes F e.after) (columns e.after)) r.key
  flags : ∀ site ∈ callSites R (treeNodes F e.after),
    Store.StaysFlagged F R (refreshEdit F columns s e) site.id →
      (refreshEdit F columns s e).isDecided F R site.id

/-- The change set of an edit is that between the two trees. -/
def IsEdit (s : Store Content Cargo) (e : Edit Content) : Prop :=
  e.changes.Correct F s.tree e.after

variable {F R columns} {s : Store Content Cargo} {e : Edit Content} {k : RowKey} {id : Text}

/-! ## A run behind an index -/

theorem hasKey_indexResolve {tree : SourceTree Content} :
    HasKey (indexResolve F R columns tree).rows k ↔
      HasKey (stagedRows R (treeNodes F tree) (columns tree)) k ∧ Joins (treeNodes F tree) k := by
  rw [indexResolve, Store.hasKey_resolveGraph]
  refine or_iff_right ?_
  rintro ⟨r, hr, -⟩
  exact absurd hr List.not_mem_nil

theorem not_staysFlagged_indexed {tree : SourceTree Content} {cols : Columns Cargo} :
    ¬ Store.StaysFlagged F R (.indexed tree cols) id :=
  fun h => absurd h.1 Bool.false_ne_true

theorem leftOpen_isSome {site : CallSite} (hsite : site ∈ callSites R (s.nodes F))
    (hopen : ¬ s.isDecided F R site.id) : (s.leftOpen F R site.id).isSome := by
  rw [Store.leftOpen, List.findSome?_isSome_iff]
  refine ⟨site, hsite, ?_⟩
  rw [if_pos rfl]
  cases hsettled : settled R (s.nodes F) s.columns site with
  | error why => rfl
  | ok rows =>
      refine absurd (List.any_eq_true.mpr ⟨site, hsite, ?_⟩) hopen
      rw [hsettled, decide_eq_true rfl]
      rfl

/-! ## An edit -/

theorem edit_tree : (edit F R columns s e).tree = e.after := Store.resolveGraph_tree _

theorem sound_edit (hs : s.Sound F) (he : IsEdit F s e) : (edit F R columns s e).Sound F :=
  Store.sound_resolveGraph (Store.sound_refresh hs he (columns e.after))

theorem rows_edit_iff (hs : s.Sound F) (he : IsEdit F s e) :
    (∀ k, HasKey (edit F R columns s e).rows k ↔ HasKey (indexResolve F R columns e.after).rows k) ↔
      ∀ r ∈ (refreshEdit F columns s e).rows,
        Store.isTaken F (refreshEdit F columns s e) r = false →
          HasKey (stagedRows R (treeNodes F e.after) (columns e.after)) r.key := by
  have hsound : (refreshEdit F columns s e).Sound F :=
    Store.sound_refresh hs he (columns e.after)
  constructor
  · intro h r hr hkept
    have hrow : HasKey (edit F R columns s e).rows r.key :=
      ⟨r, Store.mem_resolveGraph_of_kept hr hkept, rfl⟩
    exact (hasKey_indexResolve.mp ((h r.key).mp hrow)).1
  · intro h k
    rw [edit, Store.hasKey_resolveGraph, hasKey_indexResolve]
    refine or_iff_right_of_imp ?_
    rintro ⟨r, hr, hkept, rfl⟩
    exact ⟨h r hr hkept, hsound.joins r hr⟩

theorem flags_edit_iff : (edit F R columns s e).isResolved id =
    (indexResolve F R columns e.after).isResolved id ↔
      (Store.StaysFlagged F R (refreshEdit F columns s e) id →
        (refreshEdit F columns s e).isDecided F R id) := by
  rw [Bool.eq_iff_iff, edit, indexResolve, Store.resolveGraph_isResolved,
    Store.resolveGraph_isResolved, or_iff_right not_staysFlagged_indexed]
  exact or_iff_right_iff_imp

theorem reason_edit {site : CallSite} (hsite : site ∈ callSites R (treeNodes F e.after))
    (hflag : Store.StaysFlagged F R (refreshEdit F columns s e) site.id →
      (refreshEdit F columns s e).isDecided F R site.id) :
    (edit F R columns s e).reason site.id = (indexResolve F R columns e.after).reason site.id := by
  have hsame : (Store.indexed e.after (columns e.after)).isDecided F R site.id =
      (refreshEdit F columns s e).isDecided F R site.id := rfl
  have hopen : (Store.indexed e.after (columns e.after)).leftOpen F R site.id =
      (refreshEdit F columns s e).leftOpen F R site.id := rfl
  rw [edit, indexResolve, Store.resolveGraph_reason, Store.resolveGraph_reason, hsame, hopen]
  by_cases hdecided : (refreshEdit F columns s e).isDecided F R site.id
  · rw [if_pos hdecided, if_pos hdecided]
  · have hnew : ¬ Store.StaysFlagged F R (.indexed e.after (columns e.after)) site.id :=
      not_staysFlagged_indexed
    rw [← Store.resetEarlier_isResolved] at hnew
    have hold := mt hflag hdecided
    rw [← Store.resetEarlier_isResolved] at hold
    obtain ⟨why, hwhy⟩ := Option.isSome_iff_exists.mp
      (leftOpen_isSome (s := refreshEdit F columns s e) hsite hdecided)
    rw [if_neg hdecided, if_neg hdecided, if_neg hold, if_neg hnew, hwhy, Option.getD_some,
      Option.getD_some]

/-- Behind an edit the store is as a full index and one run leave it if and only if
nothing is left over. -/
theorem sameAsIndexed_edit (hs : s.Sound F) (he : IsEdit F s e) :
    SameAsIndexed F R columns (edit F R columns s e) ↔ NothingLeftOver F R columns s e := by
  have hnodes : (edit F R columns s e).nodes F = treeNodes F e.after := Store.resolveGraph_nodes _
  constructor
  · rintro ⟨hrows, hflags, -⟩
    rw [edit_tree] at hrows hflags
    rw [hnodes] at hflags
    refine ⟨(rows_edit_iff hs he).mp hrows, fun site hsite => ?_⟩
    exact flags_edit_iff.mp (hflags site hsite)
  · rintro ⟨hrows, hflags⟩
    refine ⟨?_, ?_, ?_⟩
    · rw [edit_tree]
      exact (rows_edit_iff hs he).mpr hrows
    · rw [edit_tree, hnodes]
      exact fun site hsite => flags_edit_iff.mpr (hflags site hsite)
    · rw [edit_tree, hnodes]
      exact fun site hsite => reason_edit hsite (hflags site hsite)

end History

def rustFiles (rels : Finset Text) (plain : ∀ rel ∈ rels, IsFileId rel)
    (flat : ∀ rel ∈ rels, (splitOnChar '/' rel).dropLast.length ≤ maxDepth) : SourceTree Unit where
  rels := rels
  content _ := ()
  plain := plain
  shallow := flat

/-- `a.rs` defines `helper`, and `b.rs` calls it. -/
def oneHelper : SourceTree Unit :=
  rustFiles {"a.rs".toList, "b.rs".toList} (by decide) (by decide)

/-- `c.rs` defines a `helper` of its own. -/
def twoHelpers : SourceTree Unit :=
  rustFiles {"a.rs".toList, "b.rs".toList, "c.rs".toList} (by decide) (by decide)

def aHelper : SymbolEntry := ⟨"a.rs::helper".toList, "Function".toList, _, rfl⟩

def cHelper : SymbolEntry := ⟨"c.rs::helper".toList, "Function".toList, _, rfl⟩

/-- The call `helper()` in `f`. -/
def helperSite : CallSite :=
  ⟨"b.rs::f::call@2:4".toList, "helper".toList, "rust".toList, [], [], [], []⟩

def helperCall : ExtractedNode :=
  { declAt .callSite "f::call@2:4".toList 2 with
    properties := [("callee_name".toList, "helper".toList)] }

def helperReader : FrontEnd Unit := declReader fun rel =>
  if rel = "b.rs".toList then [declAt .function "f".toList 1, helperCall]
  else [declAt .function "helper".toList 1]

/-- A call of a name is of what has the name, if only one has. -/
noncomputable def helperRules : Rules Unit := callRules fun ns _ site =>
  if site.id = helperSite.id then
    if HasNode ns (.symbol .function) cHelper.id then .ambiguous [aHelper, cHelper]
    else .resolved aHelper .uniqueGlobal (confidenceFor .uniqueGlobal)
  else .notFound

def noColumns (_ : SourceTree Unit) : Columns Unit where
  cfgActive _ _ := .unknown
  files _ := ⟨[], [], .unknown⟩
  cargo := ()

def addHelper : Edit Unit where
  changes := { added := [⟨"c.rs".toList, "/c.rs".toList, 0, 0⟩] }
  after := twoHelpers

theorem addHelper_correct : addHelper.changes.Correct helperReader oneHelper addHelper.after where
  nodup := by decide
  changed := nofun
  fresh rel := by
    show rel ∈ ["c.rs".toList] ↔ rel ∈ ({"a.rs".toList, "b.rs".toList, "c.rs".toList} : Finset Text) ∧
      rel ∉ ({"a.rs".toList, "b.rs".toList} : Finset Text)
    simp only [List.mem_singleton, Finset.mem_insert, Finset.mem_singleton]
    constructor
    · rintro rfl
      exact ⟨Or.inr (Or.inr rfl), by decide⟩
    · tauto
  gone rel := by
    show rel ∈ [] ↔ rel ∈ ({"a.rs".toList, "b.rs".toList} : Finset Text) ∧
      rel ∉ ({"a.rs".toList, "b.rs".toList, "c.rs".toList} : Finset Text)
    simp only [Finset.mem_insert, Finset.mem_singleton]
    refine iff_of_false List.not_mem_nil ?_
    tauto
  same _ _ _ _ := rfl
  size := nofun

section Example

variable {r : RelRow}

/-- The row of `f` and of `helper` in `a.rs`. -/
def callsHelper : RowKey :=
  (⟨.calls, .symbol .function, .symbol .function⟩, "b.rs::f".toList, aHelper.id)

theorem calls_helperSite : helperSite.Calls (treeNodes helperReader oneHelper) "b.rs::f".toList
    ⟨.calls, .symbol .function, .symbol .function⟩ aHelper :=
  .of_calls 39 (by decide)

theorem hasNode_cHelper :
    ¬ HasNode (treeNodes helperReader oneHelper) (.symbol .function) cHelper.id ∧
      HasNode (treeNodes helperReader twoHelpers) (.symbol .function) cHelper.id ∧
      choose (loadView (treeNodes helperReader twoHelpers) (noColumns twoHelpers))
        "b.rs::f".toList [aHelper, cHelper] = none := by
  decide

theorem settle_oneHelper {site : CallSite} {rows : List RelRow}
    (h : settle helperRules (treeNodes helperReader oneHelper) (noColumns oneHelper) site = .ok rows) :
    ∀ r ∈ rows, r.method = resolutionLabel .uniqueGlobal := by
  rw [settle] at h
  by_cases hsite : site.id = helperSite.id
  · have hpick : helperRules.resolveSingleCall (treeNodes helperReader oneHelper)
        (noColumns oneHelper) site =
          (.resolved aHelper .uniqueGlobal (confidenceFor .uniqueGlobal), none) :=
      congrArg (·, none) ((if_pos hsite).trans (if_neg hasNode_cHelper.1))
    rw [hpick] at h
    obtain ⟨label, hcall⟩ := stagedLabel_rows h
    exact hcall.method
  · have hpick : helperRules.resolveSingleCall (treeNodes helperReader oneHelper)
        (noColumns oneHelper) site = (.notFound, none) := congrArg (·, none) (if_neg hsite)
    rw [hpick] at h
    cases h

theorem settle_twoHelpers {site : CallSite} {rows : List RelRow} :
    settle helperRules (treeNodes helperReader twoHelpers) (noColumns twoHelpers) site ≠ .ok rows := by
  obtain ⟨-, hboth, hchoose⟩ := hasNode_cHelper
  rw [settle]
  by_cases hsite : site.id = helperSite.id
  · have hpick : helperRules.resolveSingleCall (treeNodes helperReader twoHelpers)
        (noColumns twoHelpers) site = (.ambiguous [aHelper, cHelper], none) :=
      congrArg (·, none) ((if_pos hsite).trans (if_pos hboth))
    have hcaller : site.caller = "b.rs::f".toList :=
      (congrArg extractCallerFromCallsiteId hsite).trans calls_helperSite.ofCaller
    rw [hpick]
    dsimp only
    rw [hcaller, hchoose]
    rintro ⟨⟩
  · have hpick : helperRules.resolveSingleCall (treeNodes helperReader twoHelpers)
        (noColumns twoHelpers) site = (.notFound, none) := congrArg (·, none) (if_neg hsite)
    rw [hpick]
    rintro ⟨⟩

theorem staged_callsHelper : HasKey (stagedRows helperRules (treeNodes helperReader oneHelper)
    (noColumns oneHelper)) callsHelper := by
  have hpick : helperRules.resolveSingleCall (treeNodes helperReader oneHelper)
      (noColumns oneHelper) helperSite =
        (.resolved aHelper .uniqueGlobal (confidenceFor .uniqueGlobal), none) :=
    congrArg (·, none) ((if_pos rfl).trans (if_neg hasNode_cHelper.1))
  have hsettle : settle helperRules (treeNodes helperReader oneHelper) (noColumns oneHelper)
      helperSite = stagedLabel helperRules (treeNodes helperReader oneHelper) (noColumns oneHelper)
        helperSite aHelper .uniqueGlobal (confidenceFor .uniqueGlobal) := by
    rw [settle, hpick]
  exact calls_helperSite.staged hsettle

theorem row_indexResolve : ∃ r ∈ (indexResolve helperReader helperRules noColumns oneHelper).rows,
    r.key = callsHelper ∧ r.method = resolutionLabel .uniqueGlobal := by
  obtain ⟨r, hr, hkey⟩ : HasKey (indexResolve helperReader helperRules noColumns oneHelper).rows
      callsHelper := hasKey_indexResolve.mpr ⟨staged_callsHelper, calls_helperSite.joins⟩
  refine ⟨r, hr, hkey, ?_⟩
  obtain ⟨hnone, -⟩ | ⟨hstaged, -⟩ := Store.mem_resolveGraph hr
  · exact absurd hnone List.not_mem_nil
  · obtain ⟨site, -, rows, hrows, hrow⟩ := mem_staged_callRules hstaged
    exact settle_oneHelper hrows r hrow

theorem mem_refresh_addHelper {s : Store Unit Unit} (hr : r ∈ s.rows) :
    r ∈ (refreshEdit helperReader noColumns s addHelper).rows := by
  have hpurged : ∀ id, ¬ Store.isPurged addHelper.changes id := fun id => Bool.false_ne_true
  refine Store.mem_refreshedRows.mpr ⟨hr, Or.inl ⟨hpurged _, hpurged _, ?_⟩⟩
  rw [Store.isOutboundLink, Bool.and_eq_true, not_and]
  exact fun _ => Bool.false_ne_true

theorem isTaken_uniqueGlobal {s : Store Unit Unit} (hkey : r.key = callsHelper)
    (hmethod : r.method = resolutionLabel .uniqueGlobal) : Store.isTaken helperReader s r = false := by
  have htable : r.table = ⟨.calls, .symbol .function, .symbol .function⟩ := congrArg Prod.fst hkey
  have hrebuilt : Store.isRebuilt (resolutionLabel .uniqueGlobal) = false := rfl
  have hlsp := resolutionLabel_ne_lsp .uniqueGlobal
  simp [Store.isTaken, Store.isMacroRow, Table.isMacro, Store.isUndone, Store.isStaleLsp, htable,
    hmethod, hrebuilt, hlsp]

/-- The second definition goes again. -/
def dropHelper : Edit Unit where
  changes := { deleted := ["c.rs".toList] }
  after := oneHelper

theorem dropHelper_correct :
    dropHelper.changes.Correct helperReader twoHelpers dropHelper.after where
  nodup := by decide
  changed := nofun
  fresh rel := by
    have h := addHelper_correct.gone rel
    exact h
  gone rel := addHelper_correct.fresh rel
  same _ _ _ _ := rfl
  size := nofun

theorem not_mem_twoHelpers :
    r ∉ (indexResolve helperReader helperRules noColumns twoHelpers).rows := by
  intro hr
  obtain ⟨hnone, -⟩ | ⟨hstaged, -⟩ := Store.mem_resolveGraph hr
  · exact absurd hnone List.not_mem_nil
  · obtain ⟨site, -, rows, hrows, -⟩ := mem_staged_callRules hstaged
    exact settle_twoHelpers hrows

theorem not_isResolved_twoHelpers {id : Text} :
    ¬ (indexResolve helperReader helperRules noColumns twoHelpers).isResolved id := by
  rw [indexResolve, Store.resolveGraph_isResolved]
  rintro (hstays | hdecided)
  · exact not_staysFlagged_indexed hstays
  · obtain ⟨site, rows, -, hrows⟩ := Store.settle_of_isDecided hdecided
    exact settle_twoHelpers hrows

theorem nothingLeftOver_dropHelper : NothingLeftOver helperReader helperRules noColumns
    (indexResolve helperReader helperRules noColumns twoHelpers) dropHelper := by
  refine ⟨fun r hr => ?_, fun site _ hstays => ?_⟩
  · exact absurd (Store.mem_refreshedRows.mp hr).1 not_mem_twoHelpers
  · have hflag := hstays.1
    rw [refreshEdit, Store.refresh] at hflag
    dsimp only at hflag
    split at hflag
    · obtain ⟨r, hr, -⟩ := List.any_eq_true.mp hflag
      exact absurd (Store.mem_refreshedRows.mp hr).1 not_mem_twoHelpers
    · split at hflag
      · exact absurd hflag Bool.false_ne_true
      · exact absurd hflag not_isResolved_twoHelpers

end Example

end Resolver

end CodeGraph
