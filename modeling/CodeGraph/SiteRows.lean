import CodeGraph.ResolveSound

/-!
# Rows of sites and rows of callers

Every row a call site holds of its own goes with a row of its caller to the same
target (`Agree`). The writers put the two in together, but the caller's row is
shared by the sites of the caller and carries the method of whichever was first:
a run that takes it back by that method has to write it again for the sites it
leaves (`KeepsCallerRows`).
-/

namespace CodeGraph

open List

namespace Resolver

open Schema AmbiguityPolicy Runs Keyed

/-- The row of a site is of a target that `callRelTable` has a table for. -/
def IsCallOfSite (r : RelRow) : Prop := r.table.isSite ∧ r.table.toLabel ≠ .stdlibSymbol

/-- The key is of the caller's row to the target of a site's row, in the table
`callRelTable` names. -/
def CallerKey (r : RelRow) (k : RowKey) : Prop :=
  ∃ c, callRelTable c r.table.toLabel = some k.1 ∧
    k.2 = (extractCallerFromCallsiteId r.source, r.target)

/-- The caller of a site is a function or a method of the tree. -/
def CallableNode (ns : Multiset Node) (id : Text) : Prop := ∃ c ∈ callables, HasNode ns c id

/-! ## The labels the writers give a caller -/

section Labels

variable {ns : Multiset Node} {id : Text}

theorem hasNode_determineCallerLabel (h : CallableNode ns id) :
    HasNode ns (determineCallerLabel ns id) id := by
  obtain ⟨c, hc, hnode⟩ := h
  have hindexed : c ∈ indexedLabels := by
    simp only [callables, mem_cons, not_mem_nil, or_false] at hc
    obtain rfl | rfl := hc <;> simp [indexedLabels]
  have hmem : c ∈ indexedLabels.filter fun label => HasNode ns label id :=
    mem_filter.mpr ⟨hindexed, decide_eq_true hnode⟩
  have hlast := getLast?_eq_some_getLast (ne_nil_of_mem hmem)
  rw [determineCallerLabel, hlast, Option.getD_some]
  exact of_decide_eq_true (mem_filter.mp (getLast_mem (ne_nil_of_mem hmem))).2

theorem hasNode_lspCallerLabel (h : CallableNode ns id) :
    HasNode ns (Store.lspCallerLabel ns id) id := by
  obtain ⟨c, hc, hnode⟩ := h
  have hsome : (callables.find? fun label => HasNode ns label id).isSome :=
    find?_isSome.mpr ⟨c, hc, decide_eq_true hnode⟩
  obtain ⟨found, hfound⟩ := Option.isSome_iff_exists.mp hsome
  have hlabel := find?_some hfound
  rw [Store.lspCallerLabel, hfound, Option.getD_some]
  exact of_decide_eq_true hlabel

end Labels

namespace Store

variable {Content Cargo : Type} {F : FrontEnd Content} {R : Rules Cargo}
  {s : Store Content Cargo} {r : RelRow} {k : RowKey}

def Agree (s : Store Content Cargo) : Prop :=
  ∀ r ∈ s.rows, IsCallOfSite r → ∃ k, CallerKey r k ∧ HasKey s.rows k

/-- Every row of a site that a run leaves keeps its caller's row or is given it
again, and every site the run gives a row has a caller to give one to. -/
structure KeepsCallerRows (F : FrontEnd Content) (R : Rules Cargo) (s : Store Content Cargo) :
    Prop where
  kept : ∀ r ∈ s.rows, isTaken F s r = false → IsCallOfSite r → ∃ k, CallerKey r k ∧
    ((∃ q ∈ s.rows, isTaken F s q = false ∧ q.key = k) ∨
      HasKey (s.staged F R) k ∧ Joins (s.nodes F) k)
  staged : ∀ site ∈ callSites R (s.nodes F), ∀ r ∈ siteRows R (s.nodes F) s.columns site,
    IsCallOfSite r → Joins (s.nodes F) r.key → CallableNode (s.nodes F) site.caller

/-- Every site the language server gives a row has a caller to give one to. -/
def AnswersCallers (F : FrontEnd Content) (R : Rules Cargo) (s : Store Content Cargo)
    (answers : Text → LspAnswer) : Prop :=
  ∀ site ∈ s.openSites F R, ∀ r ∈ s.lspSiteRows F R answers site, IsCallOfSite r →
    Joins (s.nodes F) r.key → CallableNode (s.nodes F) site.caller

/-! ## What a caller's row says -/

theorem callerKey_congr {q : RelRow} (h : q.key = r.key) : CallerKey q k ↔ CallerKey r k := by
  obtain ⟨htable, hrest⟩ := Prod.mk.inj h
  obtain ⟨hsource, htarget⟩ := Prod.mk.inj hrest
  rw [CallerKey, CallerKey, htable, hsource, htarget]

theorem isCallOfSite_congr {q : RelRow} (h : q.key = r.key) : IsCallOfSite q ↔ IsCallOfSite r := by
  rw [IsCallOfSite, IsCallOfSite, show q.table = r.table from congrArg Prod.fst h]

theorem callRelTable_kind {c l : EndLabel} {t : Table} (h : callRelTable c l = some t) :
    t.kind ≠ .imports := by
  rw [callRelTable] at h
  split at h
  · split at h
    · cases h
      rintro ⟨⟩
    · split at h
      · cases h
        rintro ⟨⟩
      · cases h
  · cases h

theorem callableNode_of_hasKey (hs : Sound F s) (hcaller : CallerKey r k) (hkey : HasKey s.rows k) :
    CallableNode (s.nodes F) (extractCallerFromCallsiteId r.source) := by
  obtain ⟨q, hq, rfl⟩ := hkey
  obtain ⟨c, hrel, hends⟩ := hcaller
  obtain ⟨hc, hfrom, -⟩ := callRelTable_cases hrel
  have hnode : HasNode (s.nodes F) q.table.fromLabel q.source := (hs.joins q hq).2.1
  rw [show q.table.fromLabel = c from hfrom,
    show q.source = _ from congrArg Prod.fst hends] at hnode
  exact ⟨c, hc, hnode⟩

theorem callerKey_of_callRows {ns : Multiset Node} {c l : EndLabel} {site : CallSite}
    {target method : Text} {rows : List RelRow} (h : CallRows c l site target method rows)
    (hr : r ∈ rows) (hsite : IsCallOfSite r) (hjoins : Joins ns r.key)
    (hcaller : HasNode ns c site.caller) :
    ∃ k, CallerKey r k ∧ HasKey rows k ∧ Joins ns k := by
  have hlabel := h.toLabel hr
  obtain ⟨hrel, -⟩ | ⟨-, hsource, htarget⟩ := h.keys r hr
  · exact absurd hsite.1 (not_isSite_of_callRelTable hrel)
  · obtain ⟨rel, hrel, hknown, hkey⟩ := h.caller
    obtain ⟨-, hfrom, hto⟩ := callRelTable_cases hrel
    refine ⟨_, ⟨c, hlabel ▸ hrel, ?_⟩, hkey, hknown, ?_, ?_⟩
    · rw [hsource, htarget]
      rfl
    · rw [hfrom]
      exact hcaller
    · rw [hto, ← hlabel, ← htarget]
      exact hjoins.2.2

/-! ## Steps -/

theorem callerKey_of_staged (hkeep : KeepsCallerRows F R s) (hr : r ∈ s.staged F R)
    (hjoins : Joins (s.nodes F) r.key) (hsite : IsCallOfSite r) :
    ∃ k, CallerKey r k ∧ HasKey (s.staged F R) k ∧ Joins (s.nodes F) k := by
  obtain hphase | ⟨site, hmem, hrow⟩ := mem_stagedRows.mp hr
  · exact absurd (of_decide_eq_true (isCall_of_isSite hsite.1)) (other_of_phase hphase).table
  · have hcaller := hkeep.staged site hmem r hrow hsite hjoins
    obtain hrust | ⟨label, target, evidence, hrows⟩ := mem_siteRows hrow
    · exact absurd hrust.target hsite.2
    · obtain ⟨k, hkey, ⟨q, hq, hqkey⟩, hkjoins⟩ := callerKey_of_callRows hrows hrow hsite hjoins
        (hasNode_determineCallerLabel hcaller)
      exact ⟨k, hkey, ⟨q, mem_stagedRows.mpr (Or.inr ⟨site, hmem, hq⟩), hqkey⟩, hkjoins⟩

theorem source_of_siteRows {site : CallSite} (hrow : r ∈ siteRows R (s.nodes F) s.columns site)
    (hsite : IsCallOfSite r) : r.source = site.id := by
  obtain hrust | ⟨label, target, evidence, hrows⟩ := mem_siteRows hrow
  · exact absurd hrust.target hsite.2
  · obtain ⟨hrel, -⟩ | ⟨-, hsource, -⟩ := hrows.keys r hrow
    · exact absurd hsite.1 (not_isSite_of_callRelTable hrel)
    · exact hsource

theorem agree_resolveGraph (hs : Sound F s) :
    (s.resolveGraph F R).Agree ↔ KeepsCallerRows F R s := by
  constructor
  · intro h
    refine ⟨fun r hr hkept hsite => ?_, fun site hmem r hrow hsite hjoins => ?_⟩
    · obtain ⟨k, hkey, hhas⟩ := h r (mem_resolveGraph_of_kept hr hkept) hsite
      exact ⟨k, hkey, hasKey_resolveGraph.mp hhas⟩
    · have hstaged : r ∈ s.staged F R := mem_stagedRows.mpr (Or.inr ⟨site, hmem, hrow⟩)
      obtain ⟨q, hq, hqkey⟩ : HasKey (s.resolveGraph F R).rows r.key :=
        hasKey_resolveGraph.mpr (Or.inr ⟨⟨r, hstaged, rfl⟩, hjoins⟩)
      obtain ⟨k, hkey, hhas⟩ := h q hq ((isCallOfSite_congr hqkey).mpr hsite)
      have hnode := callableNode_of_hasKey (sound_resolveGraph hs) ((callerKey_congr hqkey).mp hkey)
        hhas
      rwa [resolveGraph_nodes, source_of_siteRows hrow hsite] at hnode
  · intro h r hr hsite
    obtain ⟨hmem, hkept⟩ | ⟨hstaged, hjoins⟩ := mem_resolveGraph hr
    · obtain ⟨k, hkey, hleft⟩ := h.kept r hmem hkept hsite
      exact ⟨k, hkey, hasKey_resolveGraph.mpr hleft⟩
    · obtain ⟨k, hkey, hhas, hkjoins⟩ := callerKey_of_staged h hstaged hjoins hsite
      exact ⟨k, hkey, hasKey_resolveGraph.mpr (Or.inr ⟨hhas, hkjoins⟩)⟩

theorem source_of_lspSiteRows {answers : Text → LspAnswer} {site : CallSite}
    (hrow : r ∈ s.lspSiteRows F R answers site) (hsite : IsCallOfSite r) : r.source = site.id := by
  obtain ⟨l, -, target, hrows⟩ := mem_lspSiteRows hrow
  obtain ⟨hrel, -⟩ | ⟨-, hsource, -⟩ := hrows.keys r hrow
  · exact absurd hsite.1 (not_isSite_of_callRelTable hrel)
  · exact hsource

theorem hasKey_lspPass {answers : Text → LspAnswer} : HasKey (s.lspPass F R answers).rows k ↔
    HasKey s.rows k ∨
      HasKey ((s.openSites F R).flatMap (s.lspSiteRows F R answers)) k ∧ Joins (s.nodes F) k :=
  hasKey_foldl_insertEdgeIfAbsent

theorem agree_lspPass (hs : Sound F s) (hagree : s.Agree) (answers : Text → LspAnswer) :
    (s.lspPass F R answers).Agree ↔ AnswersCallers F R s answers := by
  constructor
  · intro h site hopen r hrow hsite hjoins
    obtain ⟨q, hq, hqkey⟩ : HasKey (s.lspPass F R answers).rows r.key :=
      hasKey_lspPass.mpr (Or.inr ⟨⟨r, mem_flatMap.mpr ⟨site, hopen, hrow⟩, rfl⟩, hjoins⟩)
    obtain ⟨k, hkey, hhas⟩ := h q hq ((isCallOfSite_congr hqkey).mpr hsite)
    have hnode := callableNode_of_hasKey (sound_lspPass hs answers) ((callerKey_congr hqkey).mp hkey)
      hhas
    rwa [source_of_lspSiteRows hrow hsite] at hnode
  · intro h r hr hsite
    obtain hmem | ⟨-, hjoins, site, hopen, hrow⟩ := mem_lspPass hr
    · obtain ⟨k, hkey, hhas⟩ := hagree r hmem hsite
      exact ⟨k, hkey, hasKey_lspPass.mpr (Or.inl hhas)⟩
    · obtain ⟨l, -, target, hrows⟩ := mem_lspSiteRows hrow
      obtain ⟨k, hkey, ⟨q, hq, hqkey⟩, hkjoins⟩ := callerKey_of_callRows hrows hrow hsite hjoins
        (hasNode_lspCallerLabel (h site hopen r hrow hsite hjoins))
      refine ⟨k, hkey, hasKey_lspPass.mpr (Or.inr ⟨⟨q, ?_, hqkey⟩, hkjoins⟩)⟩
      exact mem_flatMap.mpr ⟨site, hopen, hq⟩

/-! ## The refresh -/

section Refresh

variable {changes : ChangeSet} {after : SourceTree Content}

theorem inFile_of_owned {rel id : Text} {label : SymbolLabel} (h : Owned rel (.symbol label, id)) :
    ∃ name, id = inFile rel name := by
  generalize hkey : (Label.symbol label, id) = key at h
  cases h with
  | file => cases hkey
  | content => cases hkey
  | named name _ => exact ⟨name, congrArg Prod.snd hkey⟩

theorem symbol_of_callables {c : EndLabel} (h : c ∈ callables) : ∃ label, c = .symbol label := by
  simp only [callables, mem_cons, not_mem_nil, or_false] at h
  obtain rfl | rfl := h
  · exact ⟨_, rfl⟩
  · exact ⟨_, rfl⟩

theorem owned_caller {tree : SourceTree Content} {id : Text} {label : SymbolLabel}
    (hsite : HasNode (treeNodes F tree) (.symbol .callSite) id)
    (hcaller : HasNode (treeNodes F tree) (.symbol label) (extractCallerFromCallsiteId id)) :
    ∃ rel ∈ tree.rels, Owned rel (.symbol .callSite, id) ∧
      Owned rel (.symbol label, extractCallerFromCallsiteId id) := by
  obtain ⟨rel, hrel, howned, -⟩ := owned_of_mem (hasNode_iff.mp hsite _ rfl) nofun
  obtain ⟨rel', hrel', howned', -⟩ := owned_of_mem (hasNode_iff.mp hcaller _ rfl) nofun
  obtain ⟨name, hname⟩ := inFile_of_owned howned
  obtain ⟨name', hname'⟩ := inFile_of_owned howned'
  have hprefix : inFile rel' [] <+: inFile rel name := by
    rw [← hname]
    refine (inFile_nil_isPrefix rel' name').trans ?_
    rw [← hname']
    exact extractCallerFromCallsiteId_isPrefix id
  obtain rfl := (inFile_prefix_iff (tree.plain rel' hrel') (tree.plain rel hrel)).mp hprefix
  exact ⟨rel', hrel, howned, howned'⟩

theorem not_isPurged_caller (h : changes.Correct F s.tree after) {id : Text} {label : SymbolLabel}
    (hcaller : HasNode (s.nodes F) (.symbol label) (extractCallerFromCallsiteId id))
    (hkeep : ¬ isPurged changes id) : ¬ isPurged changes (extractCallerFromCallsiteId id) := by
  rw [isPurged, Bool.or_eq_true, not_or] at hkeep ⊢
  refine ⟨fun hin => hkeep.1 ?_, fun hgone => ?_⟩
  · obtain ⟨rel, hrel, hprefix⟩ := any_eq_true.mp hin
    refine any_eq_true.mpr ⟨rel, hrel, decide_eq_true ?_⟩
    exact (of_decide_eq_true hprefix).trans (extractCallerFromCallsiteId_isPrefix id)
  · obtain ⟨rel, hrel, howned, -⟩ := owned_of_mem (hasNode_iff.mp hcaller _ rfl) (by simp)
    obtain ⟨name, hname⟩ := inFile_of_owned howned
    have hfile := h.plain_gone (contains_iff_mem.mp hgone)
    exact hfile.ne_inFile hname

theorem hasNode_caller (h : changes.Correct F s.tree after) {id : Text} {label : SymbolLabel}
    (hread : owningFile id ∉ changes.reparsedSet)
    (hbefore : HasNode (s.nodes F) (.symbol .callSite) id)
    (hafter : HasNode (treeNodes F after) (.symbol .callSite) id)
    (hcaller : HasNode (s.nodes F) (.symbol label) (extractCallerFromCallsiteId id)) :
    owningFile (extractCallerFromCallsiteId id) ∉ changes.reparsedSet ∧
      HasNode (treeNodes F after) (.symbol label) (extractCallerFromCallsiteId id) := by
  obtain ⟨rel, hrel, howned, hcallerOwned⟩ := owned_caller hbefore hcaller
  obtain ⟨rel', hrel', howned', -⟩ := owned_of_mem (hasNode_iff.mp hafter _ rfl) nofun
  have hplain := s.tree.plain rel hrel
  obtain rfl := howned.near.unique hplain (after.plain rel' hrel') howned'.near
  have hfile : owningFile id = rel := hplain.owningFile howned
  have hkept : rel ∈ changes.kept after := ChangeSet.mem_kept.mpr ⟨hrel', hfile ▸ hread⟩
  refine ⟨?_, hasNode_iff.mpr fun table htable => ?_⟩
  · rw [hplain.owningFile hcallerOwned, ← hfile]
    exact hread
  · obtain rfl := Option.mem_some.mp htable
    exact (mem_treeKeys_of_kept h hkept hcallerOwned).mpr (hasNode_iff.mp hcaller _ rfl)

theorem fromLabel_of_isSite {t : Table} (h : t.isSite) : t.fromLabel = .symbol .callSite :=
  of_decide_eq_true (Bool.and_eq_true_iff.mp h).2

/-- A refresh keeps the rows of a site and of its caller together: they lie in one
file and point at one target. -/
theorem agree_refresh (hs : Sound F s) (hagree : s.Agree) (h : changes.Correct F s.tree after)
    (columns : Columns Cargo) : (s.refresh F changes after columns).Agree := by
  intro r hr hsite
  obtain ⟨hmem, hstays⟩ := mem_refreshedRows.mp hr
  obtain ⟨_, ⟨c, hrel, hends⟩, q, hq, rfl⟩ := hagree r hmem hsite
  have hsource : q.source = extractCallerFromCallsiteId r.source := congrArg Prod.fst hends
  have htarget : q.target = r.target := congrArg Prod.snd hends
  obtain ⟨hc, hfrom, hto⟩ := callRelTable_cases hrel
  obtain ⟨label, rfl⟩ := symbol_of_callables hc
  have hto' : q.table.toLabel = r.table.toLabel := hto
  have hfrom' : q.table.fromLabel = .symbol label := hfrom
  obtain ⟨hknown, hcaller, -⟩ := hs.joins q hq
  have hcaller' : HasNode (s.nodes F) (.symbol label) (extractCallerFromCallsiteId r.source) := by
    rw [← hsource, ← hfrom']
    exact hcaller
  refine ⟨q.key, ⟨_, hrel, hends⟩, q, mem_refreshedRows.mpr ⟨hq, ?_⟩, rfl⟩
  obtain ⟨hfree, hfree', -⟩ | ⟨hsaved, hjoins⟩ := hstays
  · refine Or.inl ⟨?_, ?_, ?_⟩
    · rw [hsource]
      exact not_isPurged_caller h hcaller' hfree
    · rw [htarget]
      exact hfree'
    · have hkind := callRelTable_kind hrel
      rw [isOutboundLink, Bool.and_eq_true, not_and]
      intro hlink
      exact absurd (congrArg Table.kind (of_decide_eq_true hlink)) hkind
  · have hlabel := fromLabel_of_isSite hsite.1
    have hbefore : HasNode (s.nodes F) r.table.fromLabel r.source := (hs.joins r hmem).2.1
    have hafter : HasNode (treeNodes F after) r.table.fromLabel r.source := hjoins.2.1
    rw [hlabel] at hbefore hafter
    simp only [isSaved, Bool.and_eq_true, Bool.not_eq_true', decide_eq_true_eq] at hsaved
    have hread : owningFile r.source ∉ changes.reparsedSet := by
      simpa using hsaved.2
    obtain ⟨hread', hnode⟩ := hasNode_caller h hread hbefore hafter hcaller'
    refine Or.inr ⟨?_, hknown, ?_, ?_⟩
    · simp only [isSaved, Bool.and_eq_true, Bool.not_eq_true', decide_eq_true_eq, hto', htarget,
        hsource]
      refine ⟨hsaved.1, ?_⟩
      simpa using hread'
    · show HasNode (treeNodes F after) q.table.fromLabel q.source
      rw [hfrom', hsource]
      exact hnode
    · show HasNode (treeNodes F after) q.table.toLabel q.target
      rw [hto', htarget]
      exact hjoins.2.2

end Refresh

end Store

/-! ## Runs -/

/-- A step keeps the callers' rows: a run by writing again what it takes back, and
whoever adds a row of a site by having a caller to add one of. -/
def KeepsAgreement {Content Cargo : Type} (F : FrontEnd Content) (R : Rules Cargo)
    (s : Store Content Cargo) : Event Content Cargo → Prop
  | .resolve => s.KeepsCallerRows F R
  | .lsp answers => s.AnswersCallers F R answers
  | _ => True

theorem agree_step {Content Cargo : Type} {F : FrontEnd Content} {R : Rules Cargo}
    {s : Store Content Cargo} (e : Event Content Cargo) (hs : s.Sound F) (he : IsEvent F s e)
    (hagree : s.Agree) : (step F R s e).Agree ↔ KeepsAgreement F R s e := by
  cases e with
  | index tree columns => exact iff_of_true (fun r hr => nomatch hr) trivial
  | refresh changes after columns =>
      exact iff_of_true (Store.agree_refresh hs hagree he columns) trivial
  | rewrite columns => exact iff_of_true hagree trivial
  | resolve => exact Store.agree_resolveGraph hs
  | lsp answers => exact Store.agree_lspPass hs hagree answers

/-- In every state of a run from an index the rows of sites go with those of their
callers if and only if every step of the run keeps the callers' rows. -/
theorem site_rows_agree_iff {Content Cargo : Type} (F : FrontEnd Content) (R : Rules Cargo)
    (tree : SourceTree Content) (columns : Columns Cargo) (events : List (Event Content Cargo))
    (hevents : Along (step F R) (IsEvent F) events (.indexed tree columns)) :
    (∀ before after, events = before ++ after →
        (run (step F R) before (.indexed tree columns)).Agree) ↔
      Along (step F R) (KeepsAgreement F R) events (.indexed tree columns) := by
  have hempty : (Store.indexed tree columns).Agree := fun r hr => nomatch hr
  have hstep : ∀ (s : Store Content Cargo) (e : Event Content Cargo), s.Sound F → IsEvent F s e →
      (step F R s e).Sound F := fun s e hs he => sound_step e hs he
  have hiff : ∀ (s : Store Content Cargo) (e : Event Content Cargo), s.Sound F → IsEvent F s e →
      s.Agree → ((step F R s e).Agree ↔ KeepsAgreement F R s e) :=
    fun s e hs he hagree => agree_step e hs he hagree
  exact run_inv_iff hiff hstep (Store.sound_indexed tree columns) hempty hevents

/-! ## Two sites of one caller -/

/-- A method a function calls twice. -/
def getEntry : SymbolEntry := ⟨"a.rs::C::get".toList, "Method".toList, _, rfl⟩

/-- The call `x.get()` in `f`. -/
def xSite : CallSite := ⟨"a.rs::f::call@2:4".toList, "x.get".toList, "rust".toList, [], [], [], []⟩

/-- The call `y.get()` in `f`. -/
def ySite : CallSite := ⟨"a.rs::f::call@3:4".toList, "y.get".toList, "rust".toList, [], [], [], []⟩

def callDecl (name callee : Text) (line : Nat) : ExtractedNode :=
  { declAt .callSite name line with properties := [("callee_name".toList, callee)] }

def getReader : FrontEnd Unit := declReader fun _ =>
  [declAt .function "f".toList 1, callDecl "f::call@2:4".toList "x.get".toList 2,
    callDecl "f::call@3:4".toList "y.get".toList 3, declAt .method "C::get".toList 7]

/-- What `x` is follows from the return type of a function whose crate the Cargo
facts place in the tree; of `y` nothing is known. -/
noncomputable def getRules : Rules Bool := callRules fun _ cols site =>
  if site.id = xSite.id ∧ cols.cargo then
    .resolved getEntry .receiverReturnType (confidenceFor .receiverReturnType)
  else .notFound

def getColumns (inTree : Bool) : Columns Bool where
  cfgActive _ _ := .unknown
  files _ := ⟨[], [], .unknown⟩
  cargo := inTree

/-- The language server finds the method behind `y`. -/
def getAnswers (id : Text) : Store.LspAnswer :=
  if id = ySite.id then .definition "a.rs".toList 7 else .nothing

def getStore : Store Unit Bool := .indexed oneFile (getColumns true)

/-- The table of the row of `f` that both calls share. -/
def callsMethod : Table := ⟨.calls, .symbol .function, .symbol .method⟩

/-- The row of `y`. -/
def siteGet : RowKey :=
  (⟨.calls, .symbol .callSite, .symbol .method⟩, ySite.id, getEntry.id)

-- Both calls are of one caller.
example : xSite.caller = ySite.caller := by decide

section Example

variable {cols : Columns Bool} {r : RelRow}

/-- The method's node. -/
def getNode : Node :=
  ⟨getEntry.id, .symbol "rust".toList (declAt .method "C::get".toList 7)⟩

/-- What the nodes of the store say, evaluated once. -/
theorem getStore_evaluated :
    (xSite.calls (getStore.nodes getReader) "a.rs::f".toList callsMethod getEntry 40 ∧
      ySite.calls (getStore.nodes getReader) "a.rs::f".toList callsMethod getEntry 40 ∧
      HasNode (getStore.nodes getReader) (.symbol .callSite) ySite.id) ∧
    (getNode ∈ getStore.nodes getReader ∧
      Store.NodePosition.ofNode "a.rs".toList 7 .method getNode =
        some ⟨getEntry.id, .symbol .method⟩ ∧
      ∀ l ∈ Store.positionLabels, ∀ n ∈ getStore.nodes getReader,
        Store.NodePosition.ofNode "a.rs".toList 7 l n ∈
          [none, some ⟨getEntry.id, .symbol .method⟩]) ∧
    (Store.resolvedTargetMatches ⟨getEntry.id, .symbol .method⟩ ySite ∧
      ¬ isCompiledOut (loadView (getStore.nodes getReader) getStore.columns) ySite.id
        getEntry.id ∧
      Store.lspCallerLabel (getStore.nodes getReader) ySite.caller = .symbol .function) ∧
    ¬ HasNode (getStore.nodes getReader) (.symbol .method) "a.rs::f".toList ∧
      (getStore.nodes getReader).filter IsTwinNode = 0 ∧
      twinFiles (getStore.nodes getReader) (getColumns false) = 0 := by decide +kernel

theorem calls_xSite :
    xSite.Calls (getStore.nodes getReader) "a.rs::f".toList callsMethod getEntry :=
  .of_calls 40 getStore_evaluated.1.1

theorem calls_ySite :
    ySite.Calls (getStore.nodes getReader) "a.rs::f".toList callsMethod getEntry :=
  .of_calls 40 getStore_evaluated.1.2.1

-- It is a method they call.
example : labelOf getEntry = some callsMethod.toLabel := by decide

theorem ne_ySite : "a.rs::f".toList ≠ ySite.id ∧ xSite.id ≠ ySite.id := by decide

theorem joins_siteGet : Joins (getStore.nodes getReader) siteGet := by
  have hname : "Calls_CallSite_Method".toList = siteGet.1.name := by decide
  exact ⟨isKnownRelTable_of_index 46 rfl hname, getStore_evaluated.1.2.2, calls_ySite.joins.2.2⟩

theorem settle_getRules {ns : Multiset Node} {site : CallSite} {rows : List RelRow}
    (h : settle getRules ns cols site = .ok rows) : cols.cargo ∧ site.id = xSite.id ∧
      ∃ label, CallRows (determineCallerLabel ns site.caller) label site getEntry.id
        (resolutionLabel .receiverReturnType) rows := by
  rw [settle] at h
  by_cases hpick : site.id = xSite.id ∧ cols.cargo
  · have hresolve : getRules.resolveSingleCall ns cols site =
        (.resolved getEntry .receiverReturnType (confidenceFor .receiverReturnType), none) :=
      congrArg (·, none) (if_pos hpick)
    rw [hresolve] at h
    exact ⟨hpick.2, hpick.1, stagedLabel_rows h⟩
  · have hresolve : getRules.resolveSingleCall ns cols site = (.notFound, none) :=
      congrArg (·, none) (if_neg hpick)
    rw [hresolve] at h
    cases h

theorem mem_staged_getRules {ns : Multiset Node} (h : r ∈ stagedRows getRules ns cols) :
    cols.cargo ∧ r.method = resolutionLabel .receiverReturnType ∧ r.source ≠ ySite.id := by
  obtain ⟨site, -, rows, hrows, hr⟩ := mem_staged_callRules h
  obtain ⟨hcargo, hid, label, hcall⟩ := settle_getRules hrows
  have hcaller : site.caller = "a.rs::f".toList :=
    (congrArg extractCallerFromCallsiteId hid).trans calls_xSite.ofCaller
  refine ⟨hcargo, hcall.method r hr, ?_⟩
  obtain ⟨-, hsource, -⟩ | ⟨-, hsource, -⟩ := hcall.keys r hr
  · rw [hsource, hcaller]
    exact ne_ySite.1
  · rw [hsource, hid]
    exact ne_ySite.2

theorem staged_callerGet : HasKey (stagedRows getRules (getStore.nodes getReader) getStore.columns)
    (callsMethod, "a.rs::f".toList, getEntry.id) := by
  have hpick : getRules.resolveSingleCall (getStore.nodes getReader) getStore.columns xSite =
      (.resolved getEntry .receiverReturnType (confidenceFor .receiverReturnType), none) :=
    congrArg (·, none) (if_pos ⟨rfl, rfl⟩)
  have hsettle : settle getRules (getStore.nodes getReader) getStore.columns xSite =
      stagedLabel getRules (getStore.nodes getReader) getStore.columns xSite getEntry
        .receiverReturnType (confidenceFor .receiverReturnType) := by
    rw [settle, hpick]
  exact calls_xSite.staged hsettle

theorem rows_first (hr : r ∈ (getStore.resolveGraph getReader getRules).rows) :
    r.method = resolutionLabel .receiverReturnType ∧ r.source ≠ ySite.id := by
  obtain ⟨hnone, -⟩ | ⟨hstaged, -⟩ := Store.mem_resolveGraph hr
  · cases hnone
  · exact (mem_staged_getRules hstaged).2

theorem hasKey_first : HasKey (getStore.resolveGraph getReader getRules).rows
    (callsMethod, "a.rs::f".toList, getEntry.id) :=
  Store.hasKey_resolveGraph.mpr (Or.inr ⟨staged_callerGet, calls_xSite.joins⟩)

/-- Behind the first run the language server asks about `y`. -/
theorem ySite_open :
    ySite ∈ (getStore.resolveGraph getReader getRules).openSites getReader getRules := by
  have hflag : ¬ (getStore.resolveGraph getReader getRules).isResolved ySite.id := by
    rw [Store.resolveGraph_isResolved]
    rintro (hstays | hdecided)
    · exact absurd hstays.1 Bool.false_ne_true
    · obtain ⟨site, rows, hid, hrows⟩ := Store.settle_of_isDecided hdecided
      have hx := (settle_getRules hrows).2.1
      exact absurd (hx.symm.trans hid) ne_ySite.2
  have hrust := calls_ySite.rust
  obtain ⟨n, hn, hsite⟩ := calls_ySite.mem
  refine mem_filter.mpr ⟨?_, ?_⟩
  · rw [Store.resolveGraph_nodes]
    exact mem_callSites hn hsite
  · rw [Bool.not_eq_true] at hflag hrust
    rw [hflag, hrust]
    rfl

/-- What is declared at line 7. -/
theorem position_getEntry : Store.findNodeAtPosition getRules (getStore.nodes getReader)
    "a.rs".toList 7 = some ⟨getEntry.id, .symbol .method⟩ := by
  obtain ⟨hn, hat, hone⟩ := getStore_evaluated.2.1
  have hmethod : SymbolLabel.method ∈ Store.positionLabels := by simp [Store.positionLabels]
  exact Store.findNodeAtPosition_eq hmethod hn hat hone

theorem lspEdge_ySite : ∃ rows, Store.lspEdge getRules (getStore.nodes getReader) getStore.columns
    ySite (getAnswers ySite.id) = .added rows ∧ HasKey rows siteGet := by
  have hanswer : getAnswers ySite.id = .definition "a.rs".toList 7 := if_pos rfl
  have h := getStore_evaluated.2.2.1
  have hrel : callRelTable (Store.lspCallerLabel (getStore.nodes getReader) ySite.caller)
      (.symbol .method) = some callsMethod := by
    rw [h.2.2]
    rfl
  rw [hanswer]
  refine ⟨_, Store.lspEdge_eq position_getEntry h.1 h.2.1 hrel calls_ySite.joins.1, ?_⟩
  exact ⟨_, mem_cons_of_mem _ (Option.mem_toList.mpr rfl), rfl⟩

theorem ungated_getReader :
    ¬ HasNode (getStore.nodes getReader) (.symbol .method) "a.rs::f".toList ∧
      (getStore.nodes getReader).filter IsTwinNode = 0 ∧
      twinFiles (getStore.nodes getReader) (getColumns false) = 0 := getStore_evaluated.2.2.2

/-- The store the language server leaves behind the first run. -/
noncomputable def getAnswered : Store Unit Bool :=
  (getStore.resolveGraph getReader getRules).lspPass getReader getRules getAnswers

theorem sound_getAnswered : getAnswered.Sound getReader :=
  Store.sound_lspPass (Store.sound_resolveGraph (Store.sound_indexed _ _)) _

theorem siteRow_getAnswered : ∃ r ∈ getAnswered.rows, r.key = siteGet ∧
    r.method = lspDefinition := by
  obtain ⟨rows, hedge, q, hq, hqkey⟩ := lspEdge_ySite
  have hrows : (getStore.resolveGraph getReader getRules).lspSiteRows getReader getRules getAnswers
      ySite = rows := by
    rw [Store.lspSiteRows, Store.resolveGraph_nodes, Store.resolveGraph_columns, hedge]
  have hedges : HasKey (((getStore.resolveGraph getReader getRules).openSites getReader
      getRules).flatMap ((getStore.resolveGraph getReader getRules).lspSiteRows getReader getRules
        getAnswers)) siteGet :=
    ⟨q, mem_flatMap.mpr ⟨ySite, ySite_open, hrows ▸ hq⟩, hqkey⟩
  have hjoins : Joins ((getStore.resolveGraph getReader getRules).nodes getReader)
      siteGet := by
    rw [Store.resolveGraph_nodes]
    exact joins_siteGet
  obtain ⟨r, hr, hkey⟩ := Store.hasKey_lspPass.mpr (Or.inr ⟨hedges, hjoins⟩)
  refine ⟨r, hr, hkey, ?_⟩
  obtain hold | ⟨-, -, site, -, hrow⟩ := Store.mem_lspPass hr
  · exact absurd (congrArg (fun k : RowKey => k.2.1) hkey) (rows_first hold).2
  · obtain ⟨l, -, target, hcall⟩ := Store.mem_lspSiteRows hrow
    exact hcall.method r hrow

theorem callerRow_getAnswered {q : RelRow} (hq : q ∈ getAnswered.rows) {c : EndLabel}
    (hkey : q.key = (⟨.calls, c, .symbol .method⟩, "a.rs::f".toList, getEntry.id))
    (hc : c ∈ callables) : q.method = resolutionLabel .receiverReturnType := by
  obtain hold | ⟨habsent, hjoins, -⟩ := Store.mem_lspPass hq
  · exact (rows_first hold).1
  · rw [hkey] at habsent hjoins
    rw [Store.resolveGraph_nodes] at hjoins
    simp only [callables, mem_cons, not_mem_nil, or_false] at hc
    obtain rfl | rfl := hc
    · exact absurd hasKey_first habsent
    · exact absurd hjoins.2.1 ungated_getReader.1

/-- The store in which the facts have changed. -/
noncomputable def getRewritten : Store Unit Bool :=
  step getReader getRules getAnswered (.rewrite (getColumns false))

theorem getRewritten_nodes : getRewritten.nodes getReader = getStore.nodes getReader := by
  rw [getRewritten, rewrite_nodes, getAnswered, Store.lspPass_nodes, Store.resolveGraph_nodes]

theorem isTaken_getRewritten {r : RelRow} (hkey : r.key = siteGet)
    (hmethod : r.method = lspDefinition) : Store.isTaken getReader getRewritten r = false := by
  have htwin : Store.HasNoTwin getReader getRewritten := by
    rw [Store.HasNoTwin, getRewritten_nodes]
    exact ungated_getReader.2
  have htable : r.table = ⟨.calls, .symbol .callSite, .symbol .method⟩ := congrArg Prod.fst hkey
  simp [Store.isTaken, Store.isMacroRow, Table.isMacro, Store.isUndone, Store.isStaleLsp, htable,
    hmethod, Store.isRebuilt_lsp, htwin]

/-- The facts change, the run takes back the row both calls share, and the row of
`y` is left without one. -/
theorem site_row_without_caller :
    ¬ (run (step getReader getRules)
      [.resolve, .lsp getAnswers, .rewrite (getColumns false), .resolve]
      (.indexed oneFile (getColumns true))).Agree := by
  intro hagree
  simp only [run_cons, run_nil, step] at hagree
  have hsound : Store.Sound getReader getRewritten := Store.sound_rewrite sound_getAnswered _
  have hkeep := (Store.agree_resolveGraph (R := getRules) hsound).mp hagree
  obtain ⟨r, hr, hkey, hmethod⟩ := siteRow_getAnswered
  have htable : r.table = ⟨.calls, .symbol .callSite, .symbol .method⟩ := congrArg Prod.fst hkey
  have hsite : IsCallOfSite r := by
    rw [IsCallOfSite, htable]
    exact ⟨rfl, nofun⟩
  obtain ⟨k, ⟨c, hrel, hends⟩, hleft⟩ := hkeep.kept r hr (isTaken_getRewritten hkey hmethod) hsite
  obtain ⟨q, hq, hkept, rfl⟩ | ⟨⟨q, hq, -⟩, -⟩ := hleft
  · have hcall : q.table = ⟨.calls, c, .symbol .method⟩ := by
      rw [htable] at hrel
      exact callRelTable_callable (by simp [callables]) hrel
    have hqkey : q.key = (⟨.calls, c, .symbol .method⟩, "a.rs::f".toList, getEntry.id) := by
      have hsource : r.source = ySite.id := congrArg (fun k : RowKey => k.2.1) hkey
      have htarget : r.target = getEntry.id := congrArg (fun k : RowKey => k.2.2) hkey
      rw [hsource, htarget, show extractCallerFromCallsiteId ySite.id = _ from calls_ySite.ofCaller] at hends
      rw [← hcall, ← hends]
      rfl
    have hmethod := callerRow_getAnswered hq hqkey (callRelTable_cases hrel).1
    have hundone : Store.isUndone getReader getRewritten q := by
      simp [Store.isUndone, Table.isCall, hcall, Store.isRebuilt, hmethod]
    rw [Store.isTaken, hundone, Bool.or_true] at hkept
    cases hkept
  · exact absurd (mem_staged_getRules hq).1 Bool.false_ne_true

theorem callable_caller : CallableNode (getStore.nodes getReader) "a.rs::f".toList :=
  ⟨.symbol .function, mem_cons_self, calls_xSite.joins.2.1⟩

theorem keeps_first : Store.KeepsCallerRows getReader getRules getStore := by
  refine ⟨fun r hr => absurd hr not_mem_nil, fun site _ r hrow _ _ => ?_⟩
  obtain ⟨rows, hrows, -⟩ := settled_of_mem hrow
  have hid := (settle_getRules (settle_of_settled hrows)).2.1
  have hcaller : site.caller = "a.rs::f".toList :=
    (congrArg extractCallerFromCallsiteId hid).trans calls_xSite.ofCaller
  rw [hcaller]
  exact callable_caller

/-- The first run gives `x` its row and the caller's. -/
theorem site_rows_agree_first :
    (run (step getReader getRules) [.resolve] (.indexed oneFile (getColumns true))).Agree := by
  have hall := (site_rows_agree_iff getReader getRules oneFile (getColumns true) [.resolve]
    ⟨trivial, trivial⟩).mpr ⟨keeps_first, trivial⟩
  exact hall [.resolve] [] (append_nil _).symm

end Example

end Resolver

end CodeGraph
