import CodeGraph.LspConnection
import CodeGraph.LspSites
import CodeGraph.ResolveSound
import CodeGraph.Lib.Tally

/-!
# The pass over the open call sites

`lsp_resolver`: each open site is put to the language server, and the answer
looked up by file and line among the nodes of the graph. The rows written and
the counts of the pass are followed through every run of answers.
-/

namespace CodeGraph

open List

namespace LspPass

open Resolver
open Lsp (DefinitionResult)

/-! ## Nodes by position -/

structure NodePosition where
  id : Text
  label : SymbolLabel
deriving DecidableEq

/-- The labels of the index, in the order they are read. -/
def positionLabels : List SymbolLabel := [.function, .method, .struct, .enum, .trait]

/-- The rows of the queries, one query for each label, in the order the engine
gives them. -/
structure NodeScan (ns : Multiset Node) where
  rows : SymbolLabel → List Node
  complete : ∀ label, (rows label : Multiset Node) = ns.filter (·.row.label = .symbol label)

def NodeScan.nodes {ns : Multiset Node} (scan : NodeScan ns) : List Node :=
  positionLabels.flatMap scan.rows

/-- The file and line a node starts at. Its qualified name is its id. -/
def startOf (n : Node) : Option (Text × Nat) :=
  match n.row with
  | .symbol _ node => some (extractFilePrefixOrSelf n.id, node.startLine)
  | _ => none

def positionOf (n : Node) : Option NodePosition :=
  match n.row with
  | .symbol _ node => some ⟨n.id, node.label⟩
  | _ => none

abbrev NodeIndex := Text × Nat → Option NodePosition

/-- A later node takes the place of an earlier one that starts there. -/
def insertNode (index : NodeIndex) (n : Node) : NodeIndex := fun key =>
  if startOf n = some key then positionOf n else index key

def buildNodePositionIndex (scanned : List Node) : NodeIndex :=
  scanned.foldl insertNode fun _ => none

/-! ## One answer -/

/-- Why an answer wrote no row. -/
inductive NotAdded
  | external
  | noNode
  | nameMismatch
  | noRelTable
  | writeFailed
deriving DecidableEq

def NotAdded.asStr : NotAdded → Text
  | .external => "external_definition".toList
  | .noNode => "no_node_at_definition".toList
  | .nameMismatch => "name_mismatch".toList
  | .noRelTable => "no_rel_table".toList
  | .writeFailed => "write_failed".toList

inductive LspEdge
  | added
  | compiledOutTwin
  | notAdded (why : NotAdded)
deriving DecidableEq

/-- What the answers are looked up in. -/
structure SiteContext where
  nodeIndex : NodeIndex
  /-- The path below the root that a URI names, `none` outside the root. -/
  uriToRelativePath : Text → Option Text
  twins : TwinView

/-- The last segment of an id, without twin suffix. -/
def ownName (id : Text) : Text := stripCfgGates (lastPiece "::".toList id)

def resolvedTargetMatches (target : NodePosition) (site : UnresolvedCallSite) : Bool :=
  ownName target.id == site.identifierName

/-- The node a row is to be written to, or why there is none. -/
def lspTarget (ctx : SiteContext) (site : UnresolvedCallSite) (answer : DefinitionResult) :
    Except LspEdge NodePosition :=
  match ctx.uriToRelativePath answer.uri with
  | none => .error (.notAdded .external)
  | some filePath =>
      match ctx.nodeIndex (filePath, answer.startLine + 1) with
      | none => .error (.notAdded .noNode)
      | some target =>
          if !resolvedTargetMatches target site then .error (.notAdded .nameMismatch)
          else if isCompiledOut ctx.twins site.id target.id then .error .compiledOutTwin
          else .ok target

/-- The table of the caller's row, for a caller under a label as text. -/
def callerRelTable (callerLabel : Text) (target : NodePosition) : Option Table :=
  (callables.find? (·.text = callerLabel)).bind (callRelTable · (.symbol target.label))

/-- Which of the two inserts of an answer the store accepts. -/
structure Writes where
  caller : Bool
  site : Bool

def lspRow (table : Table) (source : Text) (target : NodePosition) : RelRow :=
  ⟨table, source, target.id, 9 / 10, lspDefinition⟩

def insertLspEdge (ns : Multiset Node) (writes : Writes) (rows : List RelRow) (table : Table)
    (site : UnresolvedCallSite) (target : NodePosition) : List RelRow × Bool :=
  if !isKnownRelTable table then (rows, false)
  else if !writes.caller then (rows, false)
  else
    let rows := insertEdgeIfAbsent ns rows (lspRow table site.callerQn target)
    match callSiteRelTable (.symbol target.label) with
    | some siteTable =>
        if writes.site then (insertEdgeIfAbsent ns rows (lspRow siteTable site.id target), true)
        else (rows, false)
    | none => (rows, true)

def lspEdge (ns : Multiset Node) (ctx : SiteContext) (writes : Writes) (rows : List RelRow)
    (site : UnresolvedCallSite) (answer : DefinitionResult) : List RelRow × LspEdge :=
  match lspTarget ctx site answer with
  | .error refused => (rows, refused)
  | .ok target =>
      match callerRelTable site.callerLabel target with
      | none => (rows, .notAdded .noRelTable)
      | some table =>
          match insertLspEdge ns writes rows table site target with
          | (rows, true) => (rows, .added)
          | (rows, false) => (rows, .notAdded .writeFailed)

/-! ## The tally -/

structure Pass where
  total : Nat
  resolved : Nat := 0
  failed : Nat := 0
  outsideTargets : Nat := 0
  newlyResolved : List Text := []
  outsideTargetIds : List Text := []
  compiledOutTwinIds : List Text := []
  externalIds : List Text := []
  failedByReason : List (Text × Nat) := []

namespace Pass

def fail (pass : Pass) (why : Text) : Pass :=
  { pass with
    failed := pass.failed + 1
    failedByReason := Tally.add pass.failedByReason why 1 }

def markOutsideTargets (pass : Pass) (sites : List UnresolvedCallSite) : Pass :=
  { pass with
    outsideTargets := pass.outsideTargets + sites.length
    outsideTargetIds := pass.outsideTargetIds ++ sites.map (·.id) }

def recordEdge (pass : Pass) (site : UnresolvedCallSite) : LspEdge → Pass
  | .added =>
      { pass with resolved := pass.resolved + 1, newlyResolved := pass.newlyResolved ++ [site.id] }
  | .compiledOutTwin =>
      let pass := pass.fail "compiled_out_twin".toList
      { pass with compiledOutTwinIds := pass.compiledOutTwinIds ++ [site.id] }
  | .notAdded why =>
      let pass := pass.fail why.asStr
      if why = .external then { pass with externalIds := pass.externalIds ++ [site.id] } else pass

/-- The number of sites the pass never got an answer for. -/
def skipped (pass : Pass) : Nat := pass.total - (pass.resolved + pass.failed + pass.outsideTargets)

end Pass

def isLspTimeout (e : Text) : Bool := "lsp_timeout:".toList.isPrefixOf e

/-! ## The run -/

/-- What the world does with one request: the server's answer, the store's
acceptance of the rows, and whether the budget has run out behind it. -/
structure Reply where
  definition : Except Text (Option DefinitionResult)
  writes : Writes
  expired : Bool

structure PassState where
  pass : Pass
  rows : List RelRow
  /-- The requests made, each with the reply to it. -/
  requests : List (UnresolvedCallSite × Reply) := []

/-- What is fixed for the whole pass. -/
structure PassPlan where
  nodes : Multiset Node
  scan : NodeScan nodes
  uriToRelativePath : Text → Option Text
  twins : TwinView
  /-- The file is outside every compiled target. -/
  outside : Text → Bool
  /-- The file can be read and opened at the server. -/
  opens : Text → Bool
  /-- The replies, in the order of the requests. -/
  reply : Nat → Reply

/-- The context over nodes scanned in any order. -/
def PassPlan.ctxOf (plan : PassPlan) (scanned : List Node) : SiteContext where
  nodeIndex := buildNodePositionIndex scanned
  uriToRelativePath := plan.uriToRelativePath
  twins := plan.twins

def PassPlan.ctx (plan : PassPlan) : SiteContext := plan.ctxOf plan.scan.nodes

namespace PassPlan

variable (plan : PassPlan)

def record (st : PassState) (site : UnresolvedCallSite) (r : Reply) : PassState :=
  let requests := st.requests ++ [(site, r)]
  match r.definition with
  | .ok (some answer) =>
      let (rows, edge) := lspEdge plan.nodes plan.ctx r.writes st.rows site answer
      { pass := st.pass.recordEdge site edge, rows := rows, requests := requests }
  | .ok none => { st with pass := st.pass.fail "no_definition".toList, requests := requests }
  | .error e =>
      if isLspTimeout e then { st with requests := requests }
      else { st with pass := st.pass.fail "error".toList, requests := requests }

/-- The requests of one file, and whether the budget ran out. -/
def askSites : List UnresolvedCallSite → PassState → PassState × Bool
  | [], st => (st, false)
  | site :: sites, st =>
      let r := plan.reply st.requests.length
      let st := plan.record st site r
      if r.expired then (st, true) else askSites sites st

def driveFiles (sites : List UnresolvedCallSite) : List Text → PassState → PassState
  | [], st => st
  | file :: files, st =>
      let ofFile := sites.filter (·.filePath = file)
      if plan.outside file then
        driveFiles sites files { st with pass := st.pass.markOutsideTargets ofFile }
      else if !plan.opens file then driveFiles sites files st
      else
        match plan.askSites ofFile st with
        | (st, true) => st
        | (st, false) => driveFiles sites files st

end PassPlan

structure FileOrder (sites : List UnresolvedCallSite) where
  files : List Text
  nodup : files.Nodup
  mem_iff : ∀ file, file ∈ files ↔ file ∈ sites.map (·.filePath)

def PassPlan.drivePass (plan : PassPlan) (sites : List UnresolvedCallSite)
    (order : FileOrder sites) (rows : List RelRow) : PassState :=
  plan.driveFiles sites order.files { pass := { total := sites.length }, rows := rows }

/-! ## The node on the answered line -/

theorem buildNodePositionIndex_eq (scanned : List Node) (key : Text × Nat) :
    buildNodePositionIndex scanned key =
      ((scanned.filter (startOf · = some key)).getLast?).bind positionOf := by
  rw [buildNodePositionIndex]
  induction scanned using List.reverseRecOn with
  | nil => rfl
  | append_singleton scanned n ih =>
      rw [foldl_append, filter_append]
      by_cases h : startOf n = some key
      · simp [insertNode, h]
      · simp [insertNode, h, ih]

variable {n : Node}

theorem positionOf_eq {key : Text × Nat} (h : startOf n = some key) :
    ∃ label, n.row.label = .symbol label ∧ positionOf n = some ⟨n.id, label⟩ := by
  rw [startOf] at h
  cases hrow : n.row with
  | symbol language node => exact ⟨node.label, rfl, by rw [positionOf, hrow]⟩
  | _ => rw [hrow] at h; cases h

namespace PassPlan

variable (plan : PassPlan) (site : UnresolvedCallSite) (answer : DefinitionResult)

/-- The node is indexed and starts on the answered line of the answered file. -/
def OnLine (n : Node) : Prop :=
  n ∈ plan.scan.nodes ∧ ∃ file, plan.uriToRelativePath answer.uri = some file ∧
    startOf n = some (file, answer.startLine + 1)

/-- The node has the name the site asks for, and the build compiles it. -/
def Fits (n : Node) : Prop :=
  ownName n.id = site.identifierName ∧ isCompiledOut plan.twins site.id n.id = false

/-- What the pass decides does not depend on the order of the scan, if a node
on the answered line fits. -/
def OrderFree : Prop :=
  (∃ n, plan.OnLine answer n ∧ plan.Fits site n) →
    ∀ scanned, scanned.Perm plan.scan.nodes →
      lspTarget (plan.ctxOf scanned) site answer = lspTarget plan.ctx site answer

/-- If a node on the answered line fits, no other node starts there. -/
def LineDecided : Prop :=
  ∀ n, plan.OnLine answer n → plan.Fits site n →
    ∀ n', plan.OnLine answer n' → positionOf n' = positionOf n

variable {plan site answer}

variable {file : Text}

theorem onLine_start (h : plan.OnLine answer n)
    (hfile : plan.uriToRelativePath answer.uri = some file) :
    startOf n = some (file, answer.startLine + 1) := by
  obtain ⟨-, file', hfile', hstart⟩ := h
  rw [hfile, Option.some_inj] at hfile'
  rw [hfile', hstart]

variable {scanned : List Node}

theorem index_onLine (hperm : scanned.Perm plan.scan.nodes) (hn : plan.OnLine answer n)
    (hfile : plan.uriToRelativePath answer.uri = some file) : ∃ last, plan.OnLine answer last ∧
      (plan.ctxOf scanned).nodeIndex (file, answer.startLine + 1) = positionOf last := by
  have hmem : n ∈ scanned.filter (startOf · = some (file, answer.startLine + 1)) :=
    mem_filter.mpr ⟨hperm.mem_iff.mpr hn.1, decide_eq_true (onLine_start hn hfile)⟩
  have hlast := getLast?_eq_some_getLast (ne_nil_of_mem hmem)
  have hin := mem_filter.mp (getLast_mem (ne_nil_of_mem hmem))
  refine ⟨_, ⟨hperm.mem_iff.mp hin.1, file, hfile, of_decide_eq_true hin.2⟩, ?_⟩
  show buildNodePositionIndex scanned _ = _
  rw [buildNodePositionIndex_eq, hlast, Option.bind_some]

theorem exists_scan_last (hn : plan.OnLine answer n)
    (hfile : plan.uriToRelativePath answer.uri = some file) :
    ∃ scanned, scanned.Perm plan.scan.nodes ∧
      (plan.ctxOf scanned).nodeIndex (file, answer.startLine + 1) = positionOf n := by
  refine ⟨plan.scan.nodes.erase n ++ [n], ?_, ?_⟩
  · exact (perm_append_singleton _ _).trans (perm_cons_erase hn.1).symm
  · show buildNodePositionIndex _ _ = _
    rw [buildNodePositionIndex_eq, filter_append]
    have hstart := onLine_start hn hfile
    simp [hstart]

theorem lspTarget_of_fits
    (hfile : plan.uriToRelativePath answer.uri = some file) (hn : plan.OnLine answer n)
    (hfits : plan.Fits site n)
    (hindex : (plan.ctxOf scanned).nodeIndex (file, answer.startLine + 1) = positionOf n) :
    ∃ target, positionOf n = some target ∧
      lspTarget (plan.ctxOf scanned) site answer = .ok target := by
  obtain ⟨label, -, hpos⟩ := positionOf_eq (onLine_start hn hfile)
  refine ⟨_, hpos, ?_⟩
  have hname : resolvedTargetMatches ⟨n.id, label⟩ site = true := beq_iff_eq.mpr hfits.1
  have hcompiled : isCompiledOut (plan.ctxOf scanned).twins site.id n.id = false := hfits.2
  have huri : (plan.ctxOf scanned).uriToRelativePath answer.uri = some file := hfile
  rw [lspTarget, huri]
  simp only [hindex, hpos, hname, hcompiled]
  rfl

variable {target : NodePosition}

theorem eq_of_lspTarget {ctx : SiteContext} (h : lspTarget ctx site answer = .ok target) :
    ∃ file, ctx.uriToRelativePath answer.uri = some file ∧
      ctx.nodeIndex (file, answer.startLine + 1) = some target ∧
      ownName target.id = site.identifierName ∧
      isCompiledOut ctx.twins site.id target.id = false := by
  rw [lspTarget] at h
  split at h
  next => cases h
  next file hfile =>
    split at h
    next => cases h
    next found hfound =>
      split at h
      next => cases h
      next hname =>
        split at h
        next => cases h
        next hcompiled =>
          cases h
          refine ⟨file, hfile, hfound, ?_, by simpa using hcompiled⟩
          simpa [resolvedTargetMatches] using hname

theorem orderFree_of_lineDecided (h : plan.LineDecided site answer) :
    plan.OrderFree site answer := by
  rintro ⟨n, hn, hfits⟩ scanned hperm
  obtain ⟨file, hfile, -⟩ := hn.2
  obtain ⟨last, hlast, hindex⟩ := index_onLine hperm hn hfile
  obtain ⟨last', hlast', hindex'⟩ := index_onLine (List.Perm.refl plan.scan.nodes) hn hfile
  rw [h n hn hfits last hlast] at hindex
  rw [h n hn hfits last' hlast'] at hindex'
  obtain ⟨target, htarget, hscanned⟩ := lspTarget_of_fits hfile hn hfits hindex
  obtain ⟨target', htarget', hscan⟩ := lspTarget_of_fits hfile hn hfits hindex'
  rw [htarget, Option.some_inj] at htarget'
  rw [hscanned, ctx, hscan, htarget']

theorem lineDecided_of_orderFree (h : plan.OrderFree site answer) :
    plan.LineDecided site answer := by
  intro n hn hfits n' hn'
  have hsame := h ⟨n, hn, hfits⟩
  obtain ⟨file, hfile, -⟩ := hn.2
  obtain ⟨scanned, hperm, hindex⟩ := exists_scan_last hn hfile
  obtain ⟨scanned', hperm', hindex'⟩ := exists_scan_last hn' hfile
  obtain ⟨target, htarget, hok⟩ := lspTarget_of_fits hfile hn hfits hindex
  have hok' : lspTarget (plan.ctxOf scanned') site answer = .ok target := by
    rw [hsame scanned' hperm', ← hsame scanned hperm, hok]
  obtain ⟨file', hfile', hfound, -⟩ := eq_of_lspTarget hok'
  have hsamefile : file' = file := Option.some_inj.mp (hfile'.symm.trans hfile)
  rw [← hindex', ← hsamefile, hfound, htarget]

theorem OrderFree.lspEdge_eq (h : plan.OrderFree site answer)
    (hfits : ∃ n, plan.OnLine answer n ∧ plan.Fits site n)
    (hperm : scanned.Perm plan.scan.nodes) (writes : Writes) (rows : List RelRow) :
    lspEdge plan.nodes (plan.ctxOf scanned) writes rows site answer =
      lspEdge plan.nodes plan.ctx writes rows site answer := by
  rw [lspEdge, lspEdge, h hfits scanned hperm]

/-! ## The rows written -/

inductive RowTo (site : UnresolvedCallSite) (target : NodePosition) : RelRow → Prop
  | caller (table : Table) (h : callerRelTable site.callerLabel target = some table) :
      RowTo site target (lspRow table site.callerQn target)
  | site (table : Table) (h : callSiteRelTable (.symbol target.label) = some table) :
      RowTo site target (lspRow table site.id target)

/-- The row answers one of the requests: it leads to a node on the answered
line that fits. -/
def RowAnswers (plan : PassPlan) (requests : List (UnresolvedCallSite × Reply)) (row : RelRow) :
    Prop :=
  ∃ request ∈ requests, ∃ answer, request.2.definition = .ok (some answer) ∧
    ∃ n, plan.OnLine answer n ∧ plan.Fits request.1 n ∧
      ∃ target, positionOf n = some target ∧ RowTo request.1 target row

variable {row : RelRow}

theorem mem_insertLspEdge {ns : Multiset Node} {writes : Writes} {rows : List RelRow}
    {table : Table} (htable : callerRelTable site.callerLabel target = some table)
    (h : row ∈ (insertLspEdge ns writes rows table site target).1) :
    row ∈ rows ∨ RowTo site target row := by
  have hcaller : ∀ r ∈ insertEdgeIfAbsent ns rows (lspRow table site.callerQn target),
      r ∈ rows ∨ RowTo site target r := by
    intro r hr
    obtain hold | ⟨rfl, -⟩ := mem_insertEdgeIfAbsent hr
    · exact .inl hold
    · exact .inr (.caller table htable)
  rw [insertLspEdge] at h
  split at h
  next => exact .inl h
  next =>
    split at h
    next => exact .inl h
    next =>
      dsimp only at h
      split at h
      next siteTable hsite =>
        split at h
        next =>
          obtain hold | ⟨rfl, -⟩ := mem_insertEdgeIfAbsent h
          · exact hcaller row hold
          · exact .inr (.site siteTable hsite)
        next => exact hcaller row h
      next => exact hcaller row h

theorem mem_lspEdge {ns : Multiset Node} {ctx : SiteContext} {writes : Writes}
    {rows : List RelRow} (h : row ∈ (lspEdge ns ctx writes rows site answer).1) :
    row ∈ rows ∨ ∃ target, lspTarget ctx site answer = .ok target ∧ RowTo site target row := by
  rw [lspEdge] at h
  split at h
  next => exact .inl h
  next target htarget =>
    split at h
    next => exact .inl h
    next table htable =>
      have hrows : row ∈ (insertLspEdge ns writes rows table site target).1 := by
        split at h <;> simp_all
      exact (mem_insertLspEdge htable hrows).imp_right fun hrow => ⟨target, htarget, hrow⟩

theorem onLine_of_lspTarget (h : lspTarget plan.ctx site answer = .ok target) :
    ∃ n, plan.OnLine answer n ∧ plan.Fits site n ∧ positionOf n = some target := by
  obtain ⟨file, hfile, hfound, hname, hcompiled⟩ := eq_of_lspTarget h
  change buildNodePositionIndex plan.scan.nodes _ = _ at hfound
  rw [buildNodePositionIndex_eq] at hfound
  obtain ⟨n, hlast, hpos⟩ := Option.bind_eq_some_iff.mp hfound
  obtain ⟨hn, hstart⟩ := mem_filter.mp (mem_of_getLast? hlast)
  obtain ⟨label, -, hpos'⟩ := positionOf_eq (of_decide_eq_true hstart)
  have hid : target.id = n.id := by
    rw [hpos, Option.some_inj] at hpos'
    rw [hpos']
  refine ⟨n, ⟨hn, file, hfile, of_decide_eq_true hstart⟩, ⟨?_, ?_⟩, hpos⟩
  · rw [← hid]
    exact hname
  · rw [← hid]
    exact hcompiled

def RowsAnswer (plan : PassPlan) (rows : List RelRow) (st : PassState) : Prop :=
  ∀ row ∈ st.rows, row ∈ rows ∨ plan.RowAnswers st.requests row

theorem RowAnswers.append {requests more : List (UnresolvedCallSite × Reply)} :
    plan.RowAnswers requests row → plan.RowAnswers (requests ++ more) row := by
  rintro ⟨request, hrequest, h⟩
  exact ⟨request, mem_append_left _ hrequest, h⟩

theorem requests_record (st : PassState) (site : UnresolvedCallSite) (r : Reply) :
    (plan.record st site r).requests = st.requests ++ [(site, r)] := by
  rw [record]
  cases r.definition with
  | ok definition => cases definition <;> rfl
  | error e =>
      dsimp only
      split <;> rfl

theorem RowsAnswer.record {rows : List RelRow} {st : PassState} (h : plan.RowsAnswer rows st)
    (site : UnresolvedCallSite) (r : Reply) : plan.RowsAnswer rows (plan.record st site r) := by
  intro row hrow
  rw [requests_record]
  have hold : row ∈ st.rows → row ∈ rows ∨ plan.RowAnswers (st.requests ++ [(site, r)]) row :=
    fun hin => (h row hin).imp_right RowAnswers.append
  rw [PassPlan.record] at hrow
  split at hrow
  next answer hanswer =>
    obtain hin | ⟨target, htarget, hto⟩ := mem_lspEdge hrow
    · exact hold hin
    · obtain ⟨n, hn, hfits, hpos⟩ := onLine_of_lspTarget htarget
      exact .inr ⟨(site, r), mem_append_right _ mem_cons_self, answer, hanswer, n, hn,
        hfits, target, hpos, hto⟩
  next => exact hold hrow
  next =>
    split at hrow
    next => exact hold hrow
    next => exact hold hrow

/-! ## Runs -/

theorem askSites_inv {Inv : PassState → Prop}
    (hrecord : ∀ st site r, Inv st → Inv (plan.record st site r)) :
    ∀ (sites : List UnresolvedCallSite) {st : PassState}, Inv st → Inv (plan.askSites sites st).1
  | [], _, h => h
  | site :: sites, st, h => by
      have hnext := hrecord st site (plan.reply st.requests.length) h
      rw [askSites]
      split
      next => exact hnext
      next => exact askSites_inv hrecord sites hnext

theorem driveFiles_inv {Inv : PassState → Prop} {sites : List UnresolvedCallSite}
    (hrecord : ∀ st site r, Inv st → Inv (plan.record st site r))
    (hmark : ∀ st ofFile, Inv st → Inv { st with pass := st.pass.markOutsideTargets ofFile }) :
    ∀ (files : List Text) {st : PassState}, Inv st → Inv (plan.driveFiles sites files st)
  | [], _, h => h
  | file :: files, st, h => by
      rw [driveFiles]
      split
      next => exact driveFiles_inv hrecord hmark files (hmark st _ h)
      next =>
        split
        next => exact driveFiles_inv hrecord hmark files h
        next =>
          have hasked := @askSites_inv plan Inv hrecord (sites.filter (·.filePath = file)) _ h
          split
          next last heq =>
            rw [heq] at hasked
            exact hasked
          next last heq =>
            rw [heq] at hasked
            exact driveFiles_inv hrecord hmark files hasked

theorem rowsAnswer_drivePass (plan : PassPlan) (sites : List UnresolvedCallSite)
    (order : FileOrder sites) (rows : List RelRow) :
    plan.RowsAnswer rows (plan.drivePass sites order rows) :=
  driveFiles_inv (fun _ site r h => h.record site r) (fun _ _ h => h) order.files
    fun _ hrow => .inl hrow

end PassPlan

/-! ## The accounts -/

/-- Each count of the pass is of sites of its own among `visited`, none of them
counted twice. -/
structure Pass.Counts (pass : Pass) (visited : List UnresolvedCallSite) : Prop where
  ledger : ∃ resolved failed outside : List UnresolvedCallSite,
    resolved.length = pass.resolved ∧ resolved.map (·.id) = pass.newlyResolved ∧
      failed.length = pass.failed ∧ outside.length = pass.outsideTargets ∧
        outside.map (·.id) = pass.outsideTargetIds ∧
          List.Subperm (resolved ++ failed ++ outside) visited
  reasons : (pass.failedByReason.map Prod.snd).sum = pass.failed

namespace Pass

variable {pass : Pass} {visited : List UnresolvedCallSite}

theorem Counts.start (total : Nat) : ({ total := total } : Pass).Counts [] :=
  ⟨⟨[], [], [], rfl, rfl, rfl, rfl, rfl, List.Subperm.refl _⟩, rfl⟩

theorem Counts.mono {visited' : List UnresolvedCallSite} (h : pass.Counts visited)
    (hsub : List.Subperm visited visited') : pass.Counts visited' := by
  obtain ⟨resolved, failed, outside, hr, hri, hf, ho, hoi, hin⟩ := h.ledger
  exact ⟨⟨resolved, failed, outside, hr, hri, hf, ho, hoi, hin.trans hsub⟩, h.reasons⟩

theorem Counts.unanswered (h : pass.Counts visited) (site : UnresolvedCallSite) :
    pass.Counts (visited ++ [site]) :=
  h.mono (sublist_append_left _ _).subperm

theorem Counts.fail (h : pass.Counts visited) (site : UnresolvedCallSite) (why : Text) :
    (pass.fail why).Counts (visited ++ [site]) := by
  obtain ⟨resolved, failed, outside, hr, hri, hf, ho, hoi, hin⟩ := h.ledger
  refine ⟨⟨resolved, failed ++ [site], outside, hr, hri, ?_, ho, hoi, ?_⟩, ?_⟩
  · rw [length_append, hf]
    rfl
  · have hperm : (resolved ++ (failed ++ [site]) ++ outside).Perm
        (resolved ++ failed ++ outside ++ [site]) := by
      simp only [append_assoc]
      exact perm_append_comm.append_left failed |>.append_left resolved
    exact hperm.subperm.trans (hin.append (List.Subperm.refl _))
  · show ((Tally.add pass.failedByReason why 1).map Prod.snd).sum = pass.failed + 1
    rw [Tally.sum_snd_add, h.reasons]

theorem Counts.recordEdge (h : pass.Counts visited) (site : UnresolvedCallSite) (edge : LspEdge) :
    (pass.recordEdge site edge).Counts (visited ++ [site]) := by
  cases edge with
  | added =>
      obtain ⟨resolved, failed, outside, hr, hri, hf, ho, hoi, hin⟩ := h.ledger
      refine ⟨⟨resolved ++ [site], failed, outside, ?_, ?_, hf, ho, hoi, ?_⟩, h.reasons⟩
      · rw [length_append, hr]
        rfl
      · rw [map_append, hri]
        rfl
      · have hperm : (resolved ++ [site] ++ failed ++ outside).Perm
            (resolved ++ failed ++ outside ++ [site]) := by
          simp only [append_assoc]
          refine List.Perm.append_left resolved ?_
          rw [← append_assoc failed]
          exact perm_append_comm
        exact hperm.subperm.trans (hin.append (List.Subperm.refl _))
  | compiledOutTwin =>
      obtain ⟨ledger, reasons⟩ := h.fail site "compiled_out_twin".toList
      exact ⟨ledger, reasons⟩
  | notAdded why =>
      obtain ⟨ledger, reasons⟩ := h.fail site why.asStr
      rw [Pass.recordEdge]
      split
      next => exact ⟨ledger, reasons⟩
      next => exact ⟨ledger, reasons⟩

theorem Counts.markOutsideTargets (h : pass.Counts visited) (sites : List UnresolvedCallSite) :
    (pass.markOutsideTargets sites).Counts (visited ++ sites) := by
  obtain ⟨resolved, failed, outside, hr, hri, hf, ho, hoi, hin⟩ := h.ledger
  refine ⟨⟨resolved, failed, outside ++ sites, hr, hri, hf, ?_, ?_, ?_⟩, h.reasons⟩
  · rw [length_append, ho]
    rfl
  · rw [map_append, hoi]
    rfl
  · rw [← append_assoc]
    exact hin.append (List.Subperm.refl _)

end Pass

namespace PassPlan

variable {plan : PassPlan} {visited : List UnresolvedCallSite}

variable (plan) in
theorem counts_record {st : PassState} (h : st.pass.Counts visited) (site : UnresolvedCallSite)
    (r : Reply) : (plan.record st site r).pass.Counts (visited ++ [site]) := by
  rw [record]
  split
  next => exact h.recordEdge site _
  next => exact h.fail site _
  next =>
    split
    next => exact h.unanswered site
    next => exact h.fail site _

variable (plan) in
theorem counts_askSites : ∀ (sites : List UnresolvedCallSite) {st : PassState}
    {visited : List UnresolvedCallSite}, st.pass.Counts visited →
      (plan.askSites sites st).1.pass.Counts (visited ++ sites)
  | [], _, _, h => by
      rw [append_nil]
      exact h
  | site :: sites, st, visited, h => by
      have hnext := counts_record plan h site (plan.reply st.requests.length)
      rw [askSites, append_cons]
      split
      next => exact hnext.mono (sublist_append_left _ _).subperm
      next => exact counts_askSites sites hnext

theorem counts_driveFiles {sites : List UnresolvedCallSite} : ∀ (files : List Text)
    {st : PassState} {visited : List UnresolvedCallSite}, st.pass.Counts visited →
      (plan.driveFiles sites files st).pass.Counts
        (visited ++ files.flatMap fun file => sites.filter (·.filePath = file))
  | [], _, _, h => by
      rw [flatMap_nil, append_nil]
      exact h
  | file :: files, st, visited, h => by
      have hskip : st.pass.Counts (visited ++ sites.filter (·.filePath = file)) :=
        h.mono (sublist_append_left _ _).subperm
      have hasked := counts_askSites plan (sites.filter (·.filePath = file)) h
      rw [driveFiles, flatMap_cons, ← append_assoc]
      split
      next => exact counts_driveFiles files (h.markOutsideTargets _)
      next =>
        split
        next => exact counts_driveFiles files hskip
        next =>
          split
          next last heq =>
            rw [heq] at hasked
            exact hasked.mono (sublist_append_left _ _).subperm
          next last heq =>
            rw [heq] at hasked
            exact counts_driveFiles files hasked

theorem flatMap_filter_subperm {sites : List UnresolvedCallSite} {files : List Text}
    (h : files.Nodup) :
    List.Subperm (files.flatMap fun file => sites.filter (·.filePath = file)) sites := by
  have hperm : (files.flatMap fun file => sites.filter (·.filePath = file)).Perm
      (sites.filter (·.filePath ∈ files)) := by
    induction files with
    | nil => simp
    | cons file files ih =>
        rw [nodup_cons] at h
        rw [flatMap_cons]
        refine ((ih h.2).append_left _).trans ?_
        have hsplit := filter_append_perm (fun site : UnresolvedCallSite =>
          decide (site.filePath = file)) (sites.filter (·.filePath ∈ file :: files))
        rw [filter_filter, filter_filter] at hsplit
        refine List.Perm.trans (List.Perm.of_eq ?_) hsplit
        congr 1
        · refine filter_congr fun site _ => ?_
          by_cases hfile : site.filePath = file <;> simp [hfile]
        · refine filter_congr fun site _ => ?_
          by_cases hfile : site.filePath = file
          · simp [hfile, h.1]
          · simp [hfile]
  exact hperm.subperm.trans filter_sublist.subperm

theorem total_record {n : Nat} {st : PassState} (h : st.pass.total = n)
    (site : UnresolvedCallSite) (r : Reply) : (plan.record st site r).pass.total = n := by
  rw [record]
  split
  next answer _ =>
    rw [← h]
    dsimp only
    cases (lspEdge plan.nodes plan.ctx r.writes st.rows site answer).2 with
    | notAdded why => cases why <;> rfl
    | _ => rfl
  next => exact h
  next =>
    split
    next => exact h
    next => exact h

variable (plan) (sites : List UnresolvedCallSite) (order : FileOrder sites) (rows : List RelRow)

structure Accounted (pass : Pass) : Prop where
  counts : pass.Counts sites
  bound : pass.resolved + pass.failed + pass.outsideTargets ≤ sites.length
  skipped : pass.skipped = sites.length - (pass.resolved + pass.failed + pass.outsideTargets)

theorem accounted_drivePass : Accounted sites (plan.drivePass sites order rows).pass := by
  have htotal : (plan.drivePass sites order rows).pass.total = sites.length :=
    @driveFiles_inv plan (·.pass.total = sites.length) sites
      (fun _ site r h => total_record h site r) (fun _ _ h => h) order.files _ rfl
  have hcounts : (plan.drivePass sites order rows).pass.Counts sites :=
    (counts_driveFiles order.files (Pass.Counts.start sites.length)).mono
      (flatMap_filter_subperm order.nodup)
  obtain ⟨resolved, failed, outside, hr, -, hf, ho, -, hin⟩ := hcounts.ledger
  refine ⟨hcounts, ?_, ?_⟩
  · have hlength := hin.length_le
    rw [length_append, length_append, hr, hf, ho] at hlength
    exact hlength
  · rw [Pass.skipped, htotal]

/-- Every row answers a request with a node that fits, the order of the scan
decides no answer, and every site is accounted for once. -/
structure Sound : Prop where
  rowsAnswer : plan.RowsAnswer rows (plan.drivePass sites order rows)
  orderFree : ∀ request ∈ (plan.drivePass sites order rows).requests, ∀ answer,
    request.2.definition = .ok (some answer) → plan.OrderFree request.1 answer
  accounted : Accounted sites (plan.drivePass sites order rows).pass

/-- A pass is sound exactly when each answered line that has a node that fits
has no other node. -/
theorem sound_iff_lineDecided : plan.Sound sites order rows ↔
    ∀ request ∈ (plan.drivePass sites order rows).requests, ∀ answer,
      request.2.definition = .ok (some answer) → plan.LineDecided request.1 answer := by
  constructor
  · intro h request hrequest answer hanswer
    exact lineDecided_of_orderFree (h.orderFree request hrequest answer hanswer)
  · intro h
    refine ⟨rowsAnswer_drivePass plan sites order rows, fun request hrequest answer hanswer => ?_,
      accounted_drivePass plan sites order rows⟩
    exact orderFree_of_lineDecided (h request hrequest answer hanswer)

end PassPlan

namespace Sample

def fn (name : String) : Node where
  id := ("a.rs::" ++ name).toList
  row := .symbol "rust".toList ⟨.function, name.toList, [], 1, 1, [], []⟩

/-- A call of `a`, below `fn a() .. fn b() ..` on the first line. -/
def call : UnresolvedCallSite where
  id := "a.rs::c::call@2:11".toList
  callerQn := "a.rs::c".toList
  callerLabel := "Function".toList
  calleeName := "a".toList
  filePath := "a.rs".toList
  line := 2
  col := 11

def answered : DefinitionResult := ⟨"file:///src/a.rs".toList, 0, 3⟩

def plan : PassPlan where
  nodes := [fn "a", fn "b"]
  scan :=
    { rows := fun label => if label = .function then [fn "a", fn "b"] else []
      complete := fun label => by cases label <;> decide }
  uriToRelativePath := fun _ => some "a.rs".toList
  twins := ⟨fun _ => none, fun _ => none, fun _ => false⟩
  outside := fun _ => false
  opens := fun _ => true
  reply := fun _ => ⟨.ok (some answered), ⟨true, true⟩, false⟩

def order : FileOrder [call] where
  files := ["a.rs".toList]
  nodup := by decide
  mem_iff := fun _ => Iff.rfl

end Sample

theorem later_node_hides_answer : ¬∀ (plan : PassPlan) (sites : List UnresolvedCallSite)
    (order : FileOrder sites) (rows : List RelRow), plan.Sound sites order rows := by
  intro h
  have hasked : (Sample.call, Sample.plan.reply 0) ∈
      (Sample.plan.drivePass [Sample.call] Sample.order []).requests := mem_cons_self
  have hfits : ∃ n, Sample.plan.OnLine Sample.answered n ∧ Sample.plan.Fits Sample.call n :=
    ⟨Sample.fn "a", ⟨mem_cons_self, "a.rs".toList, rfl, by decide +kernel⟩,
      by decide +kernel, by decide +kernel⟩
  have hsame := (h Sample.plan [Sample.call] Sample.order []).orderFree _ hasked Sample.answered rfl
    hfits [Sample.fn "b", Sample.fn "a"] (List.Perm.swap _ _ _)
  exact absurd (congrArg Except.toBool hsame) (by decide +kernel)

end LspPass

end CodeGraph
