import CodeGraph.CallReasons
import CodeGraph.HistoryRows
import CodeGraph.ResolveAgain
import CodeGraph.SiteRows

/-!
# How a call site is settled

Behind a run a call site is flagged as resolved and says nothing, or it is open and
gives a reason of the closed set. A flag is that of the run, or of an earlier pass
that staged the edge of its caller (`ResolvedBy`): a site that pass left with a row
of its own holds one still, for whoever takes such a row lowers the flag.
-/

namespace CodeGraph

open List

namespace Resolver

open Schema AmbiguityPolicy Unmet PropertyGraph Keyed Runs

variable {Content Cargo : Type} {F : FrontEnd Content} {R : Rules Cargo}

/-! ## Open calls -/

section Open

variable {ns : Multiset Node} {cols : Columns Cargo} {site : CallSite}

def Rules.withReasons (R : Rules Cargo) (facts : Multiset Node → Columns Cargo → ReasonFacts) :
    Rules Cargo :=
  { R with classify := fun ns cols => Resolver.classify (facts ns cols) }

/-- A call that is left open gives the reason of what failed. -/
theorem settle_error {why : Reason} (h : settle R ns cols site = .error why) :
    ∃ failure, why = R.classify ns cols site failure := by
  have hlabel : ∀ {target : SymbolEntry} {evidence : Evidence} {confidence : ℚ},
      stagedLabel R ns cols site target evidence confidence = .error why →
        ∃ failure, why = R.classify ns cols site failure := by
    intro target evidence confidence h
    rw [stagedLabel] at h
    split at h
    · cases h
    · cases h
      exact ⟨_, rfl⟩
  rw [settle] at h
  split at h
  · exact hlabel h
  · dsimp only at h
    split at h
    · exact hlabel h
    · cases h
      exact ⟨_, rfl⟩
  · cases h
    exact ⟨_, rfl⟩

theorem settled_plain (h : ¬ site.isRustMacro) :
    settled R ns cols site = settle R ns cols site := by
  rw [settled, if_neg h]

end Open

namespace Store

variable {s : Store Content Cargo} {id : Text} {site : CallSite} {r : RelRow}

theorem isMacroSite_iff : s.isMacroSite F R id ↔
    ∃ site ∈ callSites R (s.nodes F), site.isRustMacro ∧ site.id = id := by
  simp only [isMacroSite, any_eq_true, Bool.and_eq_true, decide_eq_true_eq]

theorem leftOpen_eq_some {why : Reason} (h : s.leftOpen F R id = some why) :
    ∃ site ∈ callSites R (s.nodes F), site.id = id ∧
      settled R (s.nodes F) s.columns site = .error why := by
  obtain ⟨site, hsite, h⟩ := exists_of_findSome?_eq_some h
  split at h
  next hid =>
    split at h
    · cases h
    next why' herror =>
      cases h
      exact ⟨site, hsite, hid, herror⟩
  next => cases h

theorem reason_of_open {facts : Multiset Node → Columns Cargo → ReasonFacts}
    (hsite : site ∈ callSites (R.withReasons facts) (s.nodes F))
    (hcall : ¬ s.isMacroSite F (R.withReasons facts) site.id)
    (hopen : ¬ (s.resolveGraph F (R.withReasons facts)).isResolved site.id) :
    ((s.resolveGraph F (R.withReasons facts)).reason site.id).1 ∈ closedReasons := by
  obtain ⟨hflag, hdecided⟩ := not_or.mp (resolveGraph_isResolved.not.mp hopen)
  obtain ⟨why, hwhy⟩ := Option.isSome_iff_exists.mp (leftOpen_isSome hsite hdecided)
  obtain ⟨site', hsite', hid, herror⟩ := leftOpen_eq_some hwhy
  have hplain : ¬ site'.isRustMacro := fun hrust =>
    hcall (isMacroSite_iff.mpr ⟨site', hsite', hrust, hid⟩)
  rw [settled_plain hplain] at herror
  obtain ⟨failure, rfl⟩ := settle_error herror
  rw [resolveGraph_reason, if_neg hdecided, if_neg ((resetEarlier_isResolved s).not.mpr hflag), hwhy,
    Option.getD_some]
  exact classify_mem _ _ _

/-! ## A flagged site says nothing -/

/-- No resolved site carries a reason. -/
def Blank (s : Store Content Cargo) : Prop := ∀ id, s.isResolved id → s.reason id = noReason

theorem resetEarlier_reason_of_flagged (h : (s.resetEarlier F R).isResolved id) :
    (s.resetEarlier F R).reason id = s.reason id := by
  rw [resetEarlier] at h ⊢
  rw [resetCompiledOutLspRows] at h ⊢
  split at h
  next hno =>
    rw [if_pos hno]
    rfl
  next hno =>
    rw [if_neg hno]
    refine if_neg ?_
    have hkept := (Bool.and_eq_true_iff.mp h).2
    simpa using hkept

theorem blank_resolveGraph (hs : s.Blank) : (s.resolveGraph F R).Blank := by
  intro id h
  rw [resolveGraph_reason]
  by_cases hdecided : s.isDecided F R id
  · rw [if_pos hdecided]
  · obtain hflag | hdecided' := resolveGraph_isResolved.mp h
    · have hreset := (resetEarlier_isResolved s).mpr hflag
      rw [if_neg hdecided, if_pos hreset, resetEarlier_reason_of_flagged hreset, hs id hflag.1]
    · exact absurd hdecided' hdecided

theorem anyOpen_of_flagged {answers : Text → LspAnswer} {p : LspEdge → Bool} (h : s.isResolved id) :
    ¬ s.anyOpen F R answers p id := by
  rw [anyOpen, any_eq_true]
  rintro ⟨site, hsite, hid⟩
  have hopen := of_mem_filter hsite
  rw [of_decide_eq_true (Bool.and_eq_true_iff.mp hid).1, h] at hopen
  cases hopen

theorem blank_lspPass (hs : s.Blank) (answers : Text → LspAnswer) :
    (s.lspPass F R answers).Blank := by
  intro id h
  obtain hflag | hadded := Bool.or_eq_true_iff.mp h
  · have hnone : ¬ (s.openSites F R).any (·.id = id) := by
      rw [any_eq_true]
      rintro ⟨site, hsite, hid⟩
      have hopen := of_mem_filter hsite
      rw [of_decide_eq_true hid, hflag] at hopen
      cases hopen
    have hreason : (s.lspPass F R answers).reason id = s.reason id := by
      dsimp only [lspPass]
      rw [if_neg (anyOpen_of_flagged hflag), if_neg (anyOpen_of_flagged hflag),
        if_neg fun h => anyOpen_of_flagged hflag h.1, if_neg fun h => hnone h.1]
    rw [hreason, hs id hflag]
  · exact if_pos hadded

theorem blank_refresh {changes : ChangeSet} {after : SourceTree Content} (hs : s.Blank)
    (columns : Columns Cargo) : (s.refresh F changes after columns).Blank := by
  intro id h
  dsimp only [refresh] at h ⊢
  split at h
  next hreopened => rw [if_pos (Or.inl hreopened)]
  next hreopened =>
    split at h
    · cases h
    next hcreated =>
      rw [if_neg fun hor => hor.elim hreopened hcreated]
      exact hs id h

end Store

theorem blank_step {s : Store Content Cargo} (e : Event Content Cargo) (hs : s.Blank) :
    (step F R s e).Blank := by
  cases e with
  | index tree columns => exact fun _ _ => rfl
  | refresh changes after columns => exact Store.blank_refresh hs columns
  | rewrite columns => exact hs
  | resolve => exact Store.blank_resolveGraph hs
  | lsp answers => exact Store.blank_lspPass hs answers

/-! ## Where a flag comes from -/

def givenRows (F : FrontEnd Content) (R : Rules Cargo) (s : Store Content Cargo) (site : CallSite) :
    Event Content Cargo → List RelRow
  | .resolve => siteRows R (s.nodes F) s.columns site
  | .lsp answers => if site ∈ s.openSites F R then s.lspSiteRows F R answers site else []
  | _ => []

/-- The event resolves the site: an edge of its caller is among the rows it is given. -/
def Resolves (F : FrontEnd Content) (R : Rules Cargo) (s : Store Content Cargo)
    (e : Event Content Cargo) (id : Text) : Prop :=
  ∃ site ∈ callSites R (s.nodes F), site.id = id ∧ ∃ r ∈ givenRows F R s site e,
    r.source = site.caller ∧ ∃ c l, callRelTable c l = some r.table

def Store.HoldsRow (s : Store Content Cargo) (id : Text) : Prop :=
  ∃ r ∈ s.rows, r.table.isSite ∧ r.source = id

/-- The rows of a call are to declarations. -/
def Store.SiteTargets (F : FrontEnd Content) (R : Rules Cargo) (s : Store Content Cargo) : Prop :=
  ∀ r ∈ s.rows, r.table.isSite →
    (∃ label, r.table.toLabel = .symbol label) ∨ s.isMacroSite F R r.source

section Steps

variable {s : Store Content Cargo} {id : Text} {site : CallSite} {r : RelRow}

variable {rows : List RelRow}

theorem CallRows.caller_mem {c l : EndLabel} {target method : Text}
    (h : CallRows c l site target method rows) :
    ∃ r ∈ rows, r.source = site.caller ∧ ∃ c l, callRelTable c l = some r.table := by
  obtain ⟨rel, hrel, -, r, hr, hkey⟩ := h.caller
  have htable : r.table = rel := congrArg Prod.fst hkey
  have hsource : r.source = site.caller := congrArg (·.2.1) hkey
  exact ⟨r, hr, hsource, c, l, htable ▸ hrel⟩

theorem siteRows_eq {ns : Multiset Node} {cols : Columns Cargo}
    (h : settled R ns cols site = .ok rows) : siteRows R ns cols site = rows := by
  rw [siteRows, h]

theorem resolves_of_settled (hsite : site ∈ callSites R (s.nodes F))
    (hplain : ¬ site.isRustMacro) (h : settled R (s.nodes F) s.columns site = .ok rows) :
    Resolves F R s .resolve site.id := by
  obtain ⟨label, target, evidence, hcall⟩ := settle_rows (settled_plain hplain ▸ h)
  obtain ⟨r, hr, hcaller⟩ := hcall.caller_mem
  refine ⟨site, hsite, rfl, r, ?_, hcaller⟩
  rw [givenRows, siteRows_eq h]
  exact hr

theorem resolves_of_isDecided (hcall : ¬ s.isMacroSite F R id) (h : s.isDecided F R id) :
    Resolves F R s .resolve id := by
  obtain ⟨site, hsite, hid⟩ := any_eq_true.mp h
  obtain ⟨hid, hok⟩ := Bool.and_eq_true_iff.mp hid
  obtain rfl : site.id = id := of_decide_eq_true hid
  have hplain : ¬ site.isRustMacro := fun hrust =>
    hcall (Store.isMacroSite_iff.mpr ⟨site, hsite, hrust, rfl⟩)
  cases hrows : settled R (s.nodes F) s.columns site with
  | error why =>
      rw [hrows] at hok
      cases hok
  | ok rows => exact resolves_of_settled hsite hplain hrows

theorem mem_callSites_of_open (h : site ∈ s.openSites F R) : site ∈ callSites R (s.nodes F) :=
  mem_of_mem_filter h

variable {answers : Text → Store.LspAnswer}

theorem resolves_of_lspRows (hopen : site ∈ s.openSites F R)
    (hr : r ∈ s.lspSiteRows F R answers site) : Resolves F R s (.lsp answers) site.id := by
  obtain ⟨l, -, target, hcall⟩ := Store.mem_lspSiteRows hr
  obtain ⟨q, hq, hcaller⟩ := hcall.caller_mem
  refine ⟨site, mem_callSites_of_open hopen, rfl, q, ?_, hcaller⟩
  rw [givenRows, if_pos hopen]
  exact hq

theorem resolves_of_added
    (h : s.anyOpen F R answers Store.LspEdge.isAdded id) : Resolves F R s (.lsp answers) id := by
  obtain ⟨site, hopen, hsite⟩ := any_eq_true.mp h
  obtain ⟨hid, hadded⟩ := Bool.and_eq_true_iff.mp hsite
  obtain rfl : site.id = id := of_decide_eq_true hid
  have hedge : ∃ rows, Store.lspEdge R (s.nodes F) s.columns site (answers site.id) = .added rows := by
    cases hedge : Store.lspEdge R (s.nodes F) s.columns site (answers site.id) with
    | added rows => exact ⟨rows, rfl⟩
    | compiledOutTwin => rw [hedge] at hadded; cases hadded
    | external => rw [hedge] at hadded; cases hadded
    | notAdded => rw [hedge] at hadded; cases hadded
  obtain ⟨rows, hedge⟩ := hedge
  obtain ⟨l, -, target, -, hcall⟩ := Store.lspEdge_rows hedge
  obtain ⟨r, hr, -⟩ := hcall.caller_mem
  refine resolves_of_lspRows hopen (r := r) ?_
  rw [Store.lspSiteRows, hedge]
  exact hr

/-! ## A row of a site -/

theorem resolves_of_staged (hr : r ∈ s.staged F R) (hsite : r.table.isSite)
    (hcall : ¬ s.isMacroSite F R r.source) : Resolves F R s .resolve r.source := by
  obtain hphase | ⟨site, hmem, hrow⟩ := mem_stagedRows.mp hr
  · exact absurd (of_decide_eq_true (Store.isCall_of_isSite hsite)) (other_of_phase hphase).table
  · obtain ⟨rows, hrows, -⟩ := settled_of_mem hrow
    have hsource := source_of_isSite hrow hsite
    have hplain : ¬ site.isRustMacro := fun hrust =>
      hcall (Store.isMacroSite_iff.mpr ⟨site, hmem, hrust, hsource.symm⟩)
    rw [hsource]
    exact resolves_of_settled hmem hplain hrows

theorem symbol_of_callRelTable {c l : EndLabel} {t : Table} (h : callRelTable c l = some t) :
    ∃ label, l = .symbol label := by
  have hl : l ∈ callables ∨ l ∈ types := by
    rw [callRelTable, if_pos (callRelTable_cases h).1] at h
    split at h
    next hl => exact Or.inl hl
    next =>
      split at h
      next hl => exact Or.inr hl
      next => cases h
  simp only [callables, types, mem_cons, not_mem_nil, or_false] at hl
  rcases hl with (rfl | rfl) | rfl | rfl | rfl | rfl <;> exact ⟨_, rfl⟩

theorem target_of_staged (hr : r ∈ s.staged F R) (hsite : r.table.isSite) :
    (∃ label, r.table.toLabel = .symbol label) ∨ s.isMacroSite F R r.source := by
  obtain hphase | ⟨site, hmem, hrow⟩ := mem_stagedRows.mp hr
  · exact absurd (of_decide_eq_true (Store.isCall_of_isSite hsite)) (other_of_phase hphase).table
  · obtain ⟨rows, hrows, hr⟩ := settled_of_mem hrow
    by_cases hrust : site.isRustMacro
    · refine Or.inr (Store.isMacroSite_iff.mpr ⟨site, hmem, hrust, ?_⟩)
      exact (source_of_isSite hrow hsite).symm
    · obtain ⟨label, target, evidence, hcall⟩ := settle_rows (settled_plain hrust ▸ hrows)
      obtain ⟨rel, hrel, -⟩ := hcall.caller
      rw [hcall.toLabel hr]
      exact Or.inl (symbol_of_callRelTable hrel)

theorem target_of_lspRows
    (hr : r ∈ s.lspSiteRows F R answers site) : ∃ label, r.table.toLabel = .symbol label := by
  obtain ⟨l, -, target, hcall⟩ := Store.mem_lspSiteRows hr
  exact ⟨l, hcall.toLabel hr⟩

theorem source_of_lspRows
    (hr : r ∈ s.lspSiteRows F R answers site) (hsite : r.table.isSite) : r.source = site.id := by
  obtain ⟨label, hlabel⟩ := target_of_lspRows hr
  refine Store.source_of_lspSiteRows hr ⟨hsite, ?_⟩
  rw [hlabel]
  exact nofun

end Steps

/-! ## The refresh -/

section Refresh

variable {s : Store Content Cargo} {changes : ChangeSet} {after : SourceTree Content} {id : Text}
  {r : RelRow}

variable {n : Node}

theorem CallSite.ofNode_label {site : CallSite} (h : CallSite.ofNode n = some site) :
    n.row.label = .symbol .callSite ∧ n.id = site.id := by
  rw [CallSite.ofNode] at h
  split at h
  next hrow =>
    split at h
    next hlabel =>
      cases h
      rw [hrow, Row.label, hlabel]
      exact ⟨rfl, rfl⟩
    next => cases h
  next => cases h

theorem mem_callSites_iff {ns : Multiset Node} {site : CallSite} : site ∈ callSites R ns ↔
    ∃ n ∈ ns, CallSite.ofNode n = some site := by
  rw [callSites, mem_filterMap]
  refine exists_congr fun n => and_congr_left fun _ => ?_
  rw [← Multiset.mem_coe, R.scan_eq]

theorem hasNode_of_callSites {ns : Multiset Node} {site : CallSite} (h : site ∈ callSites R ns) :
    HasNode ns (.symbol .callSite) site.id := by
  obtain ⟨n, hn, hof⟩ := mem_callSites_iff.mp h
  obtain ⟨hlabel, hid⟩ := CallSite.ofNode_label hof
  exact Multiset.mem_map.mpr ⟨n, hn, Prod.ext hlabel hid⟩

theorem mem_fileNodes {tree : SourceTree Content} (hn : n ∈ treeNodes F tree)
    (hdir : n.row.label ≠ .directory) : owningFile n.id ∈ tree.rels ∧
      n ∈ fileNodes F (owningFile n.id) (tree.content (owningFile n.id)) := by
  rcases Multiset.mem_add.mp hn with hn | hn
  · obtain ⟨rel, hrel, hn⟩ := Multiset.mem_bind.mp hn
    obtain rfl : owningFile n.id = rel := (tree.plain rel hrel).owningFile (fileNodes_owned hn)
    exact ⟨hrel, hn⟩
  · obtain ⟨dir, -, rfl⟩ := Multiset.mem_map.mp hn
    exact absurd rfl hdir

theorem mem_treeNodes_of_kept {before : SourceTree Content} (h : changes.Correct F before after) (hn : n ∈ treeNodes F before) (hdir : n.row.label ≠ .directory)
    (hkept : owningFile n.id ∈ changes.kept after) : n ∈ treeNodes F after := by
  obtain ⟨-, hmem⟩ := mem_fileNodes hn hdir
  refine Multiset.mem_add.mpr (Or.inl (Multiset.mem_bind.mpr ⟨_, (ChangeSet.mem_kept.mp hkept).1, ?_⟩))
  rw [h.kept_content hkept]
  exact hmem

theorem isMacroSite_of_kept (h : changes.Correct F s.tree after) (columns : Columns Cargo)
    (hkept : owningFile id ∈ changes.kept after) (hrust : s.isMacroSite F R id) :
    (s.refresh F changes after columns).isMacroSite F R id := by
  obtain ⟨site, hsite, hrust, hid⟩ := Store.isMacroSite_iff.mp hrust
  obtain ⟨n, hn, hof⟩ := mem_callSites_iff.mp hsite
  obtain ⟨hlabel, hnid⟩ := CallSite.ofNode_label hof
  refine Store.isMacroSite_iff.mpr ⟨site, mem_callSites_iff.mpr ⟨n, ?_, hof⟩, hrust, hid⟩
  refine mem_treeNodes_of_kept h hn (by rw [hlabel]; exact nofun) ?_
  rw [hnid, hid]
  exact hkept

theorem kept_of_not_created (h : changes.Correct F s.tree after)
    (hnode : HasNode (s.nodes F) (.symbol .callSite) id) (hnot : ¬ Store.isCreated changes id) :
    owningFile id ∈ changes.kept after := by
  obtain ⟨rel, hrel, howned, -⟩ := owned_of_mem (hasNode_iff.mp hnode _ rfl) nofun
  obtain ⟨name, hname⟩ := Store.inFile_of_owned howned
  have hpurged : rel ∉ changes.changedRels ++ changes.goneRels := fun hin => by
    refine hnot ?_
    rw [hname]
    exact inFiles_inFile hin
  rw [mem_append, not_or] at hpurged
  have hafter : rel ∈ after.rels := by
    by_contra hgone
    exact hpurged.2 ((h.gone rel).mpr ⟨hrel, hgone⟩)
  rw [(s.tree.plain rel hrel).owningFile howned]
  refine ChangeSet.mem_kept.mpr ⟨hafter, fun hread => ?_⟩
  obtain hchanged | hnew := ChangeSet.mem_reparsedSet.mp hread
  · exact hpurged.1 hchanged
  · exact ((h.fresh rel).mp hnew).2 hrel

theorem not_isCreated_of_not_isPurged (h : ¬ Store.isPurged changes id) :
    ¬ Store.isCreated changes id := by
  rw [Store.isPurged, Bool.or_eq_true, not_or] at h
  exact h.1

theorem hasNode_source (hs : s.Sound F) (hr : r ∈ s.rows) (hsite : r.table.isSite) :
    HasNode (s.nodes F) (.symbol .callSite) r.source := by
  have hnode := (hs.joins r hr).2.1
  rwa [show r.key.1.fromLabel = .symbol .callSite from Store.fromLabel_of_isSite hsite] at hnode

theorem kept_of_refreshed (hs : s.Sound F) (h : changes.Correct F s.tree after)
    (hr : r ∈ s.refreshedRows F changes after) (hsite : r.table.isSite) :
    owningFile r.source ∈ changes.kept after := by
  obtain ⟨hmem, ⟨hsource, -, -⟩ | ⟨hsaved, hjoins⟩⟩ := Store.mem_refreshedRows.mp hr
  · exact kept_of_not_created h (hasNode_source hs hmem hsite) (not_isCreated_of_not_isPurged hsource)
  · have hnode := hjoins.2.1
    rw [show r.key.1.fromLabel = .symbol .callSite from Store.fromLabel_of_isSite hsite] at hnode
    obtain ⟨rel, hrel, howned, -⟩ := owned_of_mem (hasNode_iff.mp hnode _ rfl) nofun
    have hfile : owningFile r.source = rel := (after.plain rel hrel).owningFile howned
    simp only [Store.isSaved, Bool.and_eq_true, Bool.not_eq_true', contains_eq_mem,
      decide_eq_false_iff_not] at hsaved
    exact ChangeSet.mem_kept.mpr ⟨hfile.symm ▸ hrel, hsaved.2⟩

theorem notMem_goneRels (h : changes.Correct F s.tree after) {label : SymbolLabel}
    (hnode : HasNode (s.nodes F) (.symbol label) id) : ¬ changes.goneRels.contains id := by
  obtain ⟨rel, hrel, howned, -⟩ := owned_of_mem (hasNode_iff.mp hnode _ rfl) nofun
  obtain ⟨name, hname⟩ := Store.inFile_of_owned howned
  intro hgone
  exact (h.plain_gone (contains_iff_mem.mp hgone)).ne_inFile hname

theorem refreshed_of_not_reopened (hs : s.Sound F) (h : changes.Correct F s.tree after)
    (hr : r ∈ s.rows) (hsite : r.table.isSite) (htarget : ∃ label, r.table.toLabel = .symbol label)
    (hcreated : ¬ Store.isCreated changes r.source)
    (hreopened : ¬ s.isReopened changes r.source) : r ∈ s.refreshedRows F changes after := by
  have hkept := ChangeSet.mem_kept.mp
    (kept_of_not_created h (hasNode_source hs hr hsite) hcreated)
  have hfile : owningFile r.source ∉
      changes.reparsedSet ++ (changes.changedRels ++ changes.goneRels) := by
    simp only [mem_append, not_or]
    refine ⟨hkept.2, fun hchanged => ?_, fun hgone => ((h.gone _).mp hgone).2 hkept.1⟩
    exact hkept.2 (ChangeSet.mem_reparsedSet.mpr (Or.inl hchanged))
  have hstays : ¬ Store.inFiles (changes.changedRels ++ changes.goneRels) r.target := by
    intro hin
    refine hreopened (Bool.and_eq_true_iff.mpr ⟨by simpa using hfile, ?_⟩)
    refine any_eq_true.mpr ⟨r, hr, ?_⟩
    simp only [hsite, hin, decide_true, Bool.and_self]
  obtain ⟨label, hlabel⟩ := htarget
  have hnode := (hs.joins r hr).2.2
  rw [show r.key.1.toLabel = .symbol label from hlabel] at hnode
  refine Store.mem_refreshedRows.mpr ⟨hr, Or.inl ⟨?_, ?_, ?_⟩⟩
  · rw [Store.isPurged, Bool.or_eq_true, not_or]
    exact ⟨hcreated, notMem_goneRels h (hasNode_source hs hr hsite)⟩
  · rw [Store.isPurged, Bool.or_eq_true, not_or]
    exact ⟨hstays, notMem_goneRels h hnode⟩
  · rw [Store.isOutboundLink, Bool.and_eq_true, not_and]
    intro hlink
    have hcall : r.table.kind = .calls := of_decide_eq_true (Store.isCall_of_isSite hsite)
    rw [of_decide_eq_true hlink] at hcall
    cases hcall

end Refresh

/-! ## The invariant -/

theorem siteTargets_step {s : Store Content Cargo} (e : Event Content Cargo) (hs : s.Sound F)
    (he : IsEvent F s e) (ht : s.SiteTargets F R) : (step F R s e).SiteTargets F R := by
  cases e with
  | index tree columns => exact fun r hr => nomatch hr
  | refresh changes after columns =>
      intro r hr hsite
      have hkept := kept_of_refreshed hs he hr hsite
      exact (ht r (Store.mem_refreshedRows.mp hr).1 hsite).imp_right
        (isMacroSite_of_kept he columns hkept)
  | rewrite columns => exact ht
  | resolve =>
      intro r hr hsite
      have hrust : (s.resolveGraph F R).isMacroSite F R r.source = s.isMacroSite F R r.source := by
        rw [Store.isMacroSite, Store.resolveGraph_nodes, Store.isMacroSite]
      rw [show (step F R s .resolve).isMacroSite F R r.source = _ from hrust]
      obtain ⟨hmem, -⟩ | ⟨hstaged, -⟩ := Store.mem_resolveGraph hr
      · exact ht r hmem hsite
      · exact target_of_staged hstaged hsite
  | lsp answers =>
      intro r hr hsite
      obtain hmem | ⟨-, -, site, -, hrow⟩ := Store.mem_lspPass hr
      · exact ht r hmem hsite
      · exact Or.inl (target_of_lspRows hrow)

/-- The site was settled before the event, and has not lost a row by it. -/
structure SettledBefore (F : FrontEnd Content) (R : Rules Cargo) (s s' : Store Content Cargo)
    (id : Text) : Prop where
  call : ¬ s.isMacroSite F R id
  settled : s.isResolved id ∨ s.HoldsRow id
  keeps : s.HoldsRow id → s'.HoldsRow id

section Origin

variable {s : Store Content Cargo} {id : Text}

theorem origin_resolve (ht : s.SiteTargets F R) (hcall : ¬ s.isMacroSite F R id)
    (h : (s.resolveGraph F R).isResolved id ∨ (s.resolveGraph F R).HoldsRow id) :
    Resolves F R s .resolve id ∨ SettledBefore F R s (s.resolveGraph F R) id := by
  rcases h with hflag | hholds
  · obtain hstays | hdecided := Store.resolveGraph_isResolved.mp hflag
    · refine Or.inr ⟨hcall, Or.inl hstays.1, ?_⟩
      rintro ⟨r, hr, hsite, rfl⟩
      obtain ⟨label, hlabel⟩ := (ht r hr hsite).resolve_right hcall
      have hrust : ¬ Store.isMacroRow r := fun hrow => by
        have htable : r.table.isMacro := (Bool.and_eq_true_iff.mp hrow).1
        have hstdlib : r.table.toLabel = .stdlibSymbol :=
          of_decide_eq_true (Bool.and_eq_true_iff.mp htable).2
        rw [hlabel] at hstdlib
        cases hstdlib
      have hundone := (hstays.2.2 r hr hsite rfl).resolve_left hrust
      have hkept : Store.isTaken F s r = false := by
        rw [Store.isTaken, Bool.or_eq_false_iff]
        exact ⟨Bool.eq_false_iff.mpr hrust, Bool.eq_false_iff.mpr hundone⟩
      exact ⟨r, Store.mem_resolveGraph_of_kept hr hkept, hsite, rfl⟩
    · exact Or.inl (resolves_of_isDecided hcall hdecided)
  · obtain ⟨r, hr, hsite, rfl⟩ := hholds
    obtain ⟨hmem, -⟩ | ⟨hstaged, -⟩ := Store.mem_resolveGraph hr
    · exact Or.inr ⟨hcall, Or.inr ⟨r, hmem, hsite, rfl⟩, fun _ => ⟨r, hr, hsite, rfl⟩⟩
    · exact Or.inl (resolves_of_staged hstaged hsite hcall)

theorem origin_lspPass {answers : Text → Store.LspAnswer} (hcall : ¬ s.isMacroSite F R id)
    (h : (s.lspPass F R answers).isResolved id ∨ (s.lspPass F R answers).HoldsRow id) :
    Resolves F R s (.lsp answers) id ∨ SettledBefore F R s (s.lspPass F R answers) id := by
  have hkeeps : s.HoldsRow id → (s.lspPass F R answers).HoldsRow id := by
    rintro ⟨r, hr, hrow⟩
    exact ⟨r, subset_foldl_insertEdgeIfAbsent hr, hrow⟩
  rcases h with hflag | hholds
  · obtain hflag | hadded := Bool.or_eq_true_iff.mp hflag
    · exact Or.inr ⟨hcall, Or.inl hflag, hkeeps⟩
    · exact Or.inl (resolves_of_added hadded)
  · obtain ⟨r, hr, hsite, rfl⟩ := hholds
    obtain hmem | ⟨-, -, site, hopen, hrow⟩ := Store.mem_lspPass hr
    · exact Or.inr ⟨hcall, Or.inr ⟨r, hmem, hsite, rfl⟩, hkeeps⟩
    · rw [source_of_lspRows hrow hsite]
      exact Or.inl (resolves_of_lspRows hopen hrow)

theorem origin_refresh {changes : ChangeSet} {after : SourceTree Content} {columns : Columns Cargo}
    (hs : s.Sound F) (h : changes.Correct F s.tree after) (ht : s.SiteTargets F R)
    (hcall : ¬ (s.refresh F changes after columns).isMacroSite F R id)
    (hsettled : (s.refresh F changes after columns).isResolved id ∨
      (s.refresh F changes after columns).HoldsRow id) :
    SettledBefore F R s (s.refresh F changes after columns) id := by
  have hheld : (s.refresh F changes after columns).HoldsRow id →
      SettledBefore F R s (s.refresh F changes after columns) id := by
    rintro ⟨r, hr, hsite, rfl⟩
    refine ⟨fun hrust => hcall ?_, Or.inr ⟨r, (Store.mem_refreshedRows.mp hr).1, hsite, rfl⟩,
      fun _ => ⟨r, hr, hsite, rfl⟩⟩
    exact isMacroSite_of_kept h columns (kept_of_refreshed hs h hr hsite) hrust
  rcases hsettled with hflag | hholds
  · dsimp only [Store.refresh] at hflag
    split at hflag
    next =>
      obtain ⟨r, hr, hrow⟩ := any_eq_true.mp hflag
      obtain ⟨hsite, hsource⟩ := Bool.and_eq_true_iff.mp hrow
      exact hheld ⟨r, hr, hsite, of_decide_eq_true hsource⟩
    next hreopened =>
      split at hflag
      · cases hflag
      next hcreated =>
        -- the site is of a file that is not read again, so it was no macro before either
        have hbefore : ¬ s.isMacroSite F R id := fun hrust => by
          have hnode : HasNode (s.nodes F) (.symbol .callSite) id := by
            obtain ⟨site, hsite, -, rfl⟩ := Store.isMacroSite_iff.mp hrust
            exact hasNode_of_callSites hsite
          exact hcall (isMacroSite_of_kept h columns (kept_of_not_created h hnode hcreated) hrust)
        refine ⟨hbefore, Or.inl hflag, ?_⟩
        rintro ⟨r, hr, hsite, rfl⟩
        have htarget := (ht r hr hsite).resolve_right hbefore
        exact ⟨r, refreshed_of_not_reopened hs h hr hsite htarget hcreated hreopened, hsite, rfl⟩
  · exact hheld hholds

theorem origin_step (e : Event Content Cargo) (hs : s.Sound F) (he : IsEvent F s e)
    (ht : s.SiteTargets F R) (hcall : ¬ (step F R s e).isMacroSite F R id)
    (h : (step F R s e).isResolved id ∨ (step F R s e).HoldsRow id) :
    Resolves F R s e id ∨ SettledBefore F R s (step F R s e) id := by
  cases e with
  | index tree columns =>
      rcases h with hflag | ⟨r, hr, -⟩
      · cases hflag
      · cases hr
  | refresh changes after columns => exact Or.inr (origin_refresh hs he ht hcall h)
  | rewrite columns => exact Or.inr ⟨hcall, h, fun hholds => hholds⟩
  | resolve =>
      refine origin_resolve ht ?_ h
      rw [Store.isMacroSite, ← Store.resolveGraph_nodes (F := F) (R := R)]
      exact hcall
  | lsp answers => exact origin_lspPass hcall h

end Origin

/-! ## Runs -/

/-- A pass of the run resolved the site. The site still holds a row of its own, unless
that pass left it without one. -/
def ResolvedBy (F : FrontEnd Content) (R : Rules Cargo) (events : List (Event Content Cargo))
    (s : Store Content Cargo) (id : Text) : Prop :=
  ∃ before e after, events = before ++ e :: after ∧
    Resolves F R (run (step F R) before s) e id ∧
      ((run (step F R) events s).HoldsRow id ∨
        ¬ (run (step F R) (before ++ [e]) s).HoldsRow id)

variable {tree : SourceTree Content} {columns : Columns Cargo}
  {events : List (Event Content Cargo)}

theorem sound_run (h : Along (step F R) (IsEvent F) events (.indexed tree columns)) :
    (run (step F R) events (.indexed tree columns)).Sound F :=
  run_inv (fun _ e hs he => sound_step e hs he) (Store.sound_indexed tree columns) h

theorem siteTargets_run (h : Along (step F R) (IsEvent F) events (.indexed tree columns)) :
    (run (step F R) events (.indexed tree columns)).SiteTargets F R := by
  have hstep : ∀ (s : Store Content Cargo) (e : Event Content Cargo),
      s.Sound F ∧ s.SiteTargets F R → IsEvent F s e →
        (step F R s e).Sound F ∧ (step F R s e).SiteTargets F R := fun s e hs he =>
    ⟨sound_step e hs.1 he, siteTargets_step e hs.1 he hs.2⟩
  exact (run_inv hstep ⟨Store.sound_indexed tree columns, fun r hr => nomatch hr⟩ h).2

theorem blank_run (events : List (Event Content Cargo)) (tree : SourceTree Content)
    (columns : Columns Cargo) : (run (step F R) events (.indexed tree columns)).Blank :=
  run_inv_of_mem (fun _ e _ hs => blank_step e hs) fun _ _ => rfl

theorem resolvedBy_run {id : Text}
    (hevents : Along (step F R) (IsEvent F) events (.indexed tree columns))
    (hcall : ¬ (run (step F R) events (.indexed tree columns)).isMacroSite F R id)
    (h : (run (step F R) events (.indexed tree columns)).isResolved id ∨
      (run (step F R) events (.indexed tree columns)).HoldsRow id) :
    ResolvedBy F R events (.indexed tree columns) id := by
  induction events using List.reverseRecOn with
  | nil =>
      rcases h with hflag | ⟨r, hr, -⟩
      · cases hflag
      · cases hr
  | append_singleton events e ih =>
      obtain ⟨hbefore, he⟩ := along_append.mp hevents
      have hrun : run (step F R) (events ++ [e]) (.indexed tree columns) =
          step F R (run (step F R) events (.indexed tree columns)) e := run_append _ _ _
      rw [hrun] at hcall h
      obtain hnow | hold := origin_step e (sound_run hbefore) he.1 (siteTargets_run hbefore) hcall h
      · exact ⟨events, e, [], rfl, hnow, em _⟩
      · obtain ⟨before, e', after, rfl, hresolves, hrow⟩ := ih hbefore hold.call hold.settled
        refine ⟨before, e', after ++ [e], append_assoc .., hresolves, ?_⟩
        rw [hrun]
        exact hrow.imp_left hold.keeps

/-- Behind a run a call is flagged by a pass that staged the edge of its caller, and says
nothing, or it is open and gives a reason of the set; whatever passes ran before it, no
flagged site carries a reason. -/
theorem sites_settled {Content Cargo : Type} (F : FrontEnd Content) (R : Rules Cargo)
    (facts : Multiset Node → Columns Cargo → ReasonFacts) (tree : SourceTree Content)
    (columns : Columns Cargo) (events : List (Event Content Cargo))
    (hevents : Along (step F (R.withReasons facts)) (IsEvent F) events (.indexed tree columns)) :
    let rules := R.withReasons facts
    let before := run (step F rules) events (.indexed tree columns)
    let after := run (step F rules) (events ++ [.resolve]) (.indexed tree columns)
    before.Blank ∧ ∀ site ∈ callSites rules (before.nodes F), ¬ before.isMacroSite F rules site.id →
      after.isResolved site.id ∧ after.reason site.id = noReason ∧
          ResolvedBy F rules (events ++ [.resolve]) (.indexed tree columns) site.id ∨
        ¬ after.isResolved site.id ∧ (after.reason site.id).1 ∈ closedReasons := by
  intro rules before after
  have hafter : after = before.resolveGraph F rules := run_append _ _ _
  have hall : Along (step F rules) (IsEvent F) (events ++ [.resolve]) (.indexed tree columns) :=
    along_append.mpr ⟨hevents, trivial, trivial⟩
  refine ⟨blank_run events tree columns, fun site hsite hcall => ?_⟩
  by_cases hflag : after.isResolved site.id
  · have hrust : ¬ after.isMacroSite F rules site.id := by
      rw [hafter, Store.isMacroSite, Store.resolveGraph_nodes]
      exact hcall
    exact Or.inl ⟨hflag, blank_run (events ++ [.resolve]) tree columns site.id hflag,
      resolvedBy_run hall hrust (Or.inl hflag)⟩
  · rw [hafter] at hflag ⊢
    exact Or.inr ⟨hflag, Store.reason_of_open hsite hcall hflag⟩

/-! ## The deleted file of an enum -/

section Example

variable {ns : Multiset Node} {cols : Columns Unit} {site : CallSite} {r : RelRow}

/-- `a.swift` defines the enum `Color`, and `b.swift` makes one. -/
def withEnum : SourceTree Unit :=
  rustFiles {"a.swift".toList, "b.swift".toList} (by decide) (by decide)

def withoutEnum : SourceTree Unit :=
  rustFiles {"b.swift".toList} (by decide) (by decide)

def colorEntry : SymbolEntry := ⟨"a.swift::Color".toList, "Enum".toList, _, rfl⟩

/-- The call `Color(rawValue: 1)` in `f`. -/
def colorSite : CallSite :=
  ⟨"b.swift::f::call@2:4".toList, "Color".toList, "swift".toList, [], [], [], []⟩

def swiftReader : FrontEnd Unit :=
  { declReader fun rel =>
      if rel = "b.swift".toList then
        [declAt .function "f".toList 1, { declAt .callSite "f::call@2:4".toList 2 with
          properties := [("callee_name".toList, "Color".toList)] }]
      else [declAt .enum "Color".toList 1] with
    language := fun _ _ => "swift".toList }

noncomputable def enumCalls : Rules Unit := callRules fun ns _ site =>
  if site.id = colorSite.id ∧ HasNode ns (.symbol .enum) colorEntry.id then
    .resolved colorEntry .uniqueGlobal (confidenceFor .uniqueGlobal)
  else .notFound

def noFacts : ReasonFacts where
  index := ⟨[]⟩
  hasVariant _ := false
  outsideTargets _ := false
  known := false
  crateNames _ := false
  fileImports _ := []
  selfValuePrefix _ := none
  selfTypePrefix _ := none
  stdReceiverType _ := false

noncomputable def enumRules : Rules Unit := enumCalls.withReasons fun _ _ => noFacts

def usesEnum : Table := ⟨.uses, .symbol .function, .symbol .enum⟩

theorem calls_colorSite :
    colorSite.Calls (treeNodes swiftReader withEnum) "b.swift::f".toList usesEnum colorEntry :=
  .of_calls 55 (by decide)

theorem nodes_withoutEnum :
    ¬ HasNode (treeNodes swiftReader withoutEnum) (.symbol .enum) colorEntry.id ∧
      some colorSite ∈ (treeNodes swiftReader withoutEnum).map CallSite.ofNode ∧
        ∀ n ∈ treeNodes swiftReader withoutEnum, (CallSite.ofNode n).all (!·.isRustMacro) := by
  decide

theorem stagedLabel_enum {rows : List RelRow} {evidence : Evidence} {confidence : ℚ}
    (h : stagedLabel enumRules ns cols site colorEntry evidence confidence = .ok rows) :
    ∀ r ∈ rows, r.target = colorEntry.id ∧ ¬ r.table.isSite := by
  rw [stagedLabel] at h
  split at h
  next rows' hrows =>
    cases h
    rw [stageCallEdge, calls_colorSite.label, Option.bind_eq_bind, Option.bind_some] at hrows
    obtain ⟨rel, hrel, hrows⟩ := Option.bind_eq_some_iff.mp hrows
    dsimp only at hrows
    split at hrows
    · cases hrows
      have hnone : callSiteRelTable usesEnum.toLabel = none := if_neg (by decide)
      intro r hr
      rw [hnone] at hr
      obtain rfl := mem_singleton.mp hr
      exact ⟨rfl, not_isSite_of_callRelTable hrel⟩
    · cases hrows
  next => cases h

theorem settled_enumRules {rows : List RelRow} (h : settled enumRules ns cols site = .ok rows) :
    HasNode ns (.symbol .enum) colorEntry.id ∧
      ∀ r ∈ rows, r.target = colorEntry.id ∧ ¬ r.table.isSite := by
  rw [settled] at h
  split at h
  · cases h
  · rw [settle] at h
    by_cases hpick : site.id = colorSite.id ∧ HasNode ns (.symbol .enum) colorEntry.id
    · have hresolved : enumRules.resolveSingleCall ns cols site =
          (.resolved colorEntry .uniqueGlobal (confidenceFor .uniqueGlobal), none) :=
        congrArg (·, none) (if_pos hpick)
      rw [hresolved] at h
      exact ⟨hpick.2, stagedLabel_enum h⟩
    · have hnone : enumRules.resolveSingleCall ns cols site = (.notFound, none) :=
        congrArg (·, none) (if_neg hpick)
      rw [hnone] at h
      cases h

theorem mem_staged_enumRules (h : r ∈ stagedRows enumRules ns cols) :
    HasNode ns (.symbol .enum) colorEntry.id ∧ r.target = colorEntry.id ∧ ¬ r.table.isSite := by
  obtain hphase | ⟨site, -, hr⟩ := mem_stagedRows.mp h
  · exact hphase.elim nofun nofun
  · obtain ⟨rows, hrows, hr⟩ := settled_of_mem hr
    exact (settled_enumRules hrows).imp_right fun hall => hall r hr

noncomputable def enumResolved : Store Unit Unit :=
  (Store.indexed withEnum (noColumns withEnum)).resolveGraph swiftReader enumRules

theorem colorSite_flagged : enumResolved.isResolved colorSite.id := by
  obtain ⟨n, hn, hsite⟩ := calls_colorSite.mem
  have hpick : enumRules.resolveSingleCall (treeNodes swiftReader withEnum) (noColumns withEnum)
      colorSite = (.resolved colorEntry .uniqueGlobal (confidenceFor .uniqueGlobal), none) :=
    congrArg (·, none) (if_pos ⟨rfl, calls_colorSite.joins.2.2⟩)
  have hlabel : determineCallerLabel (treeNodes swiftReader withEnum) colorSite.caller =
      usesEnum.fromLabel := calls_colorSite.ofCaller ▸ calls_colorSite.callerLabel
  have hsettled : settled enumRules (treeNodes swiftReader withEnum) (noColumns withEnum) colorSite =
      stagedLabel enumRules (treeNodes swiftReader withEnum) (noColumns withEnum) colorSite
        colorEntry .uniqueGlobal (confidenceFor .uniqueGlobal) := by
    rw [settled_plain calls_colorSite.rust, settle, hpick]
  have hrows := hsettled.trans (stagedLabel_eq hlabel calls_colorSite.label calls_colorSite.table
    calls_colorSite.joins.1)
  refine Store.resolveGraph_isResolved.mpr (Or.inr (any_eq_true.mpr ⟨colorSite, ?_, ?_⟩))
  · exact mem_callSites hn hsite
  · have hok : (settled enumRules (treeNodes swiftReader withEnum) (noColumns withEnum)
        colorSite).isOk := by
      rw [hrows]
      rfl
    exact Bool.and_eq_true_iff.mpr ⟨decide_eq_true rfl, hok⟩

def dropEnum : ChangeSet := { deleted := ["a.swift".toList] }

theorem dropEnum_correct : dropEnum.Correct swiftReader withEnum withoutEnum where
  nodup := by decide
  changed := nofun
  fresh rel := by
    show rel ∈ [] ↔ rel ∈ ({"b.swift".toList} : Finset Text) ∧
      rel ∉ ({"a.swift".toList, "b.swift".toList} : Finset Text)
    simp only [Finset.mem_insert, Finset.mem_singleton]
    refine iff_of_false not_mem_nil ?_
    tauto
  gone rel := by
    show rel ∈ ["a.swift".toList] ↔ rel ∈ ({"a.swift".toList, "b.swift".toList} : Finset Text) ∧
      rel ∉ ({"b.swift".toList} : Finset Text)
    simp only [mem_singleton, Finset.mem_insert, Finset.mem_singleton]
    constructor
    · rintro rfl
      exact ⟨Or.inl rfl, by decide⟩
    · tauto
  same _ _ _ _ := rfl
  size := nofun

noncomputable def enumDropped : Store Unit Unit :=
  enumResolved.refresh swiftReader dropEnum withoutEnum (noColumns withoutEnum)

theorem mem_enumResolved (hr : r ∈ enumResolved.rows) :
    r.target = colorEntry.id ∧ ¬ r.table.isSite := by
  obtain ⟨hnone, -⟩ | ⟨hstaged, -⟩ := Store.mem_resolveGraph hr
  · exact absurd hnone not_mem_nil
  · exact (mem_staged_enumRules hstaged).2

theorem not_mem_enumDropped : r ∉ enumDropped.rows := by
  intro hr
  obtain ⟨hmem, ⟨-, htarget, -⟩ | ⟨hsaved, -⟩⟩ := Store.mem_refreshedRows.mp hr
  · refine htarget ?_
    rw [(mem_enumResolved hmem).1]
    decide
  · simp [Store.isSaved, Store.inFiles, dropEnum, ChangeSet.changedRels] at hsaved

theorem colorSite_still_flagged : enumDropped.isResolved colorSite.id := by
  have hreopened : ¬ enumResolved.isReopened dropEnum colorSite.id := by
    rw [Store.isReopened, Bool.and_eq_true, not_and]
    intro _ hloses
    obtain ⟨r, hr, hrow⟩ := any_eq_true.mp hloses
    exact (mem_enumResolved hr).2 (Bool.and_eq_true_iff.mp (Bool.and_eq_true_iff.mp hrow).1).1
  have hcreated : ¬ Store.isCreated dropEnum colorSite.id := by decide
  dsimp only [enumDropped, Store.refresh]
  rw [if_neg hreopened, if_neg hcreated]
  exact colorSite_flagged

/-- The first run, and the file goes. -/
def dropsEnum : List (Event Unit Unit) :=
  [.resolve, .refresh dropEnum withoutEnum (noColumns withoutEnum)]

theorem along_dropsEnum : Along (step swiftReader enumRules) (IsEvent swiftReader) dropsEnum
    (.indexed withEnum (noColumns withEnum)) := by
  have htree : enumResolved.tree = withEnum := Store.resolveGraph_tree _
  refine ⟨trivial, ?_, trivial⟩
  rw [IsEvent, step]
  exact htree ▸ dropEnum_correct

theorem colorSite_mem : colorSite ∈ callSites enumRules (enumDropped.nodes swiftReader) :=
  mem_callSites_iff.mpr (Multiset.mem_map.mp nodes_withoutEnum.2.1)

theorem colorSite_call : ¬ enumDropped.isMacroSite swiftReader enumRules colorSite.id := by
  intro hrust
  obtain ⟨site, hmem, hrust, -⟩ := Store.isMacroSite_iff.mp hrust
  obtain ⟨n, hn, hof⟩ := mem_callSites_iff.mp hmem
  have hnot := nodes_withoutEnum.2.2 n hn
  rw [hof, Option.all_some, hrust] at hnot
  cases hnot

theorem colorSite_flagged_again :
    (enumDropped.resolveGraph swiftReader enumRules).isResolved colorSite.id :=
  Store.resolveGraph_isResolved.mpr
    (Or.inl ⟨colorSite_still_flagged, colorSite_call, fun _ hr => absurd hr not_mem_enumDropped⟩)

/-- A site is flagged, and no edge of its caller is staged or there. -/
theorem enum_file_deleted : ¬ ∀ (tree : SourceTree Unit) (columns : Columns Unit)
    (events : List (Event Unit Unit)),
    Along (step swiftReader enumRules) (IsEvent swiftReader) events (.indexed tree columns) →
      let before := run (step swiftReader enumRules) events (.indexed tree columns)
      let after := before.resolveGraph swiftReader enumRules
      ∀ site ∈ callSites enumRules (before.nodes swiftReader),
        ¬ before.isMacroSite swiftReader enumRules site.id → after.isResolved site.id →
          ∃ r ∈ before.staged swiftReader enumRules ++ after.rows, r.source = site.caller := by
  intro h
  obtain ⟨r, hr, -⟩ := h withEnum (noColumns withEnum) dropsEnum along_dropsEnum colorSite
    colorSite_mem colorSite_call colorSite_flagged_again
  rcases mem_append.mp hr with hstaged | hr
  · exact nodes_withoutEnum.1 (mem_staged_enumRules hstaged).1
  · obtain ⟨hmem, -⟩ | ⟨hstaged, -⟩ := Store.mem_resolveGraph hr
    · exact not_mem_enumDropped hmem
    · exact nodes_withoutEnum.1 (mem_staged_enumRules hstaged).1

/-- The flag is that of the first run. -/
theorem color_settled :
    (run (step swiftReader enumRules) (dropsEnum ++ [.resolve])
        (.indexed withEnum (noColumns withEnum))).reason colorSite.id = noReason ∧
      ResolvedBy swiftReader enumRules (dropsEnum ++ [.resolve])
        (.indexed withEnum (noColumns withEnum)) colorSite.id := by
  have hsettled := (sites_settled swiftReader enumCalls (fun _ _ => noFacts) withEnum
    (noColumns withEnum) dropsEnum along_dropsEnum).2 colorSite colorSite_mem colorSite_call
  exact (hsettled.resolve_right fun hopen => hopen.1 colorSite_flagged_again).2

end Example

end Resolver

end CodeGraph
