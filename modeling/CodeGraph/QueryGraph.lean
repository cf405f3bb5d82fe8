import CodeGraph.ReadOnlyGate
import CodeGraph.ResponseBudget

/-!
# `query_graph`

One call: the request is gated, a query without a `LIMIT` gets one that reaches
one row past the page's window, the row past the window is clipped, and what is
left is paged under a byte budget. The engine is a parameter; `Answers` is what
its `LIMIT` owes the caller. The last section follows the cursor over a whole
run of calls.
-/

namespace CodeGraph

open List

namespace QueryGraph

open Cypher ResponseBudget

/-! ## The engine -/

def u64Max : ℕ := 2 ^ 64 - 1

/-- No `Vec` holds more elements. -/
def isizeMax : ℕ := 2 ^ 63 - 1

def saturatingAdd (a b : ℕ) : ℕ := min (a + b) u64Max

abbrev Row := List Text

structure QueryResult where
  columns : List Text
  rows : List Row
  rows_fit : rows.length ≤ isizeMax

/-- `rows.truncate(n)`. -/
def QueryResult.truncate (qr : QueryResult) (n : ℕ) : QueryResult where
  columns := qr.columns
  rows := qr.rows.take n
  rows_fit := Nat.le_trans (length_take_le' _ _) qr.rows_fit

@[simp] theorem QueryResult.rows_truncate (qr : QueryResult) (n : ℕ) :
    (qr.truncate n).rows = qr.rows.take n := rfl

/-- The file at `graph_path` and the engine that runs a statement over it under
a timeout. -/
structure Engine where
  graphPathExists : Bool
  executeReadOnlyQuery : Text → ℕ → Except String QueryResult

def readQueryTimeoutMs : ℕ := 30000

/-- `result` is the full answer to `query`: a call without a `LIMIT` returns
it, and one under `LIMIT n` returns the same first `n` rows. -/
structure Engine.Answers (engine : Engine) (query : Text) (result : QueryResult) : Prop where
  whole : engine.executeReadOnlyQuery query readQueryTimeoutMs = .ok result
  limited : ∀ n ≤ u64Max, ∃ qr : QueryResult,
    engine.executeReadOnlyQuery (executablePrefix query ++ limitClause n) readQueryTimeoutMs =
        .ok qr ∧
      qr.rows.take n = result.rows.take n

/-! ## The request -/

/-- The fields of the arguments object, each `none` when it is missing or of
another type. -/
structure Arguments where
  graphPath : Option Text
  graph : Option Text := none
  query : Option Text := none
  offset : Option ℕ := none
  detail : Option Text := none
  format : Option Text := none

inductive Detail where
  | full
  | ids
deriving DecidableEq

inductive Format where
  | json
  | tabular
deriving DecidableEq

def parseDetail (args : Arguments) : Detail :=
  if args.detail = some "ids".toList then .ids else .full

def parseFormat (args : Arguments) : Format :=
  if args.format = some "tabular".toList then .tabular else .json

/-- The error of a request with more than one statement. -/
def multiStatementNotSupported : String :=
  "multi_statement_not_supported: query_graph executes exactly one statement per call. " ++
  "The engine's read-only classification and this tool's LIMIT injection, ORDER BY " ++
  "detection and offset cursor are all properties of a single statement, so a " ++
  "`;`-chained request has no well-defined page. Send one statement per call; a " ++
  "trailing `;` is accepted."

/-- The query and the offset of a request the gate lets through. The text is
judged before the file is looked at. -/
def gatedCypherRequest (cls : CharClass) (engine : Engine) (args : Arguments)
    (graphStr : Text) : Except String (Text × ℕ) :=
  match args.query with
  | none => .error "missing required field 'query'"
  | some query =>
      let offset := args.offset.getD 0
      match forbiddenCypherKeyword query with
      | some bad => .error
          ("read_only_query_required: query_graph is read-only; found forbidden keyword: " ++ bad)
      | none =>
          if isMultiStatement cls query then .error multiStatementNotSupported
          else if engine.graphPathExists then .ok (query, offset)
          else .error ("graph_path does not exist: " ++ String.ofList graphStr)

/-! ## The page -/

def queryGraphRowLimit : ℕ := 500

/-- The window of the page at `offset`, and one row past it as a probe. -/
def injectedFetchLimit (offset : ℕ) : ℕ := saturatingAdd offset (queryGraphRowLimit + 1)

/-- Drops the probe row; whether it was there says that the bound cut rows
off. -/
def clipProbeRow (qr : QueryResult) (offset : ℕ) : QueryResult × Bool :=
  let windowEnd := saturatingAdd offset queryGraphRowLimit
  (qr.truncate windowEnd, decide (windowEnd < qr.rows.length))

theorem clipProbeRow_kept (qr : QueryResult) (offset : ℕ) : (clipProbeRow qr offset).1.rows =
    qr.rows.take (saturatingAdd offset queryGraphRowLimit) := by
  rw [clipProbeRow, QueryResult.rows_truncate]

theorem clipProbeRow_reached (qr : QueryResult) (offset : ℕ) : (clipProbeRow qr offset).2 =
    decide (saturatingAdd offset queryGraphRowLimit < qr.rows.length) := rfl

/-- An entry of the response's `rows`: a row of cells, or a bare identifier. -/
inductive Shown where
  | cells (row : Row)
  | id (cell : Text)
deriving DecidableEq

/-- A response. `elapsed_ms` is left out: nothing reads it. -/
structure QueryPage where
  columns : List Text
  rows : List Shown
  result : Option Text
  totalCount : ℕ
  returnedCount : ℕ
  offset : ℕ
  truncated : Bool
  orderStable : Bool
  limitInjected : Bool
  rowLimit : Option ℕ
  nextOffset : Option ℕ
  detail : Option String := none
  format : Option String := none

structure QueryPageMeta where
  offset : ℕ
  orderStable : Bool
  limitInjected : Bool
  rowLimitReached : Bool

def formatQueryResult (columns : List Text) (rows : List Row) : Text :=
  joinWith " | ".toList columns ++ rows.flatMap fun row => '\n' :: joinWith " | ".toList row

section Calls

variable (cls : CharClass) (engine : Engine) (rowSize : Row → ℕ) (charBudget : ℕ)

/-- One page of the rows, within the cap of a tool result. -/
def pagedQueryResponse (qr : QueryResult) (info : QueryPageMeta) : QueryPage :=
  let page := boundValuesPaged rowSize charBudget qr.rows info.offset
  let start := min info.offset qr.rows.length
  let rowWindowEnd := if info.rowLimitReached then some qr.rows.length else none
  { columns := qr.columns
    rows := page.items.map .cells
    result := some (formatQueryResult qr.columns ((qr.rows.drop start).take page.items.length))
    totalCount := page.totalCount
    returnedCount := page.items.length
    offset := info.offset
    truncated := page.truncated || info.rowLimitReached
    orderStable := info.orderStable
    limitInjected := info.limitInjected
    rowLimit := if info.limitInjected then some queryGraphRowLimit else none
    nextOffset := page.nextOffset.or rowWindowEnd }

def runGatedCypher (query : Text) (offset : ℕ) : Except String QueryPage :=
  let (effectiveQuery, limitInjected) := injectLimitIfAbsent query (injectedFetchLimit offset)
  match engine.executeReadOnlyQuery effectiveQuery readQueryTimeoutMs with
  | .error e => .error e
  | .ok qr =>
      let (qr, rowLimitReached) := if limitInjected then clipProbeRow qr offset else (qr, false)
      .ok (pagedQueryResponse rowSize charBudget qr
        { offset, orderStable := hasOrderByClause query, limitInjected, rowLimitReached })

/-- What the first cell of an entry is in the bare identifier list. -/
def Shown.firstCell : Shown → Option Shown
  | .cells row => row.head?.map .id
  | .id _ => none

def shapeTokenSurface (args : Arguments) (page : QueryPage) : QueryPage :=
  match parseDetail args with
  | .ids =>
      { page with
        rows := page.rows.filterMap Shown.firstCell
        columns := page.columns.take 1
        result := none
        detail := some "ids"
        format := some "ids" }
  | .full =>
      match parseFormat args with
      | .tabular =>
          { page with result := none, detail := some "full", format := some "tabular" }
      | .json => { page with detail := some "full", format := some "json" }

/-- What a call returns: a page, or the list of what the index missed. -/
inductive Reply where
  | missed
  | page (page : QueryPage)

def doQueryGraph (arguments : Option Arguments) : Except String Reply :=
  match arguments with
  | none => .error "arguments must be an object"
  | some args =>
      match args.graphPath with
      | none => .error "missing required field 'graph_path'"
      | some graphStr =>
          if args.graph.getD "default".toList = "missed".toList then
            if engine.graphPathExists then .ok .missed
            else .error ("graph_path does not exist: " ++ String.ofList graphStr)
          else
            match gatedCypherRequest cls engine args graphStr with
            | .error e => .error e
            | .ok (query, offset) =>
                match runGatedCypher engine rowSize charBudget query offset with
                | .error e => .error e
                | .ok page => .ok (.page (shapeTokenSurface args page))

end Calls

/-! ## One page -/

/-- What a response shows of a list of rows. -/
def shownRows : Detail → List Row → List Shown
  | .full, rows => rows.map .cells
  | .ids, rows => rows.filterMap fun row => row.head?.map .id

theorem shownRows_append (detail : Detail) (xs ys : List Row) :
    shownRows detail (xs ++ ys) = shownRows detail xs ++ shownRows detail ys := by
  cases detail with
  | full => exact map_append
  | ids => exact filterMap_append

/-- `page` is the page at `o` of the rows `all`. -/
structure PageAt (all : List Row) (detail : Detail) (o : ℕ) (page : QueryPage) : Prop where
  offset_eq : page.offset = o
  rows_eq : page.rows = shownRows detail ((all.drop o).take page.returnedCount)
  within : page.returnedCount ≤ all.length - o
  moves : o < all.length → 0 < page.returnedCount
  truncated_eq : page.truncated = decide (o + page.returnedCount < all.length)
  nextOffset_eq : page.nextOffset =
    if o + page.returnedCount < all.length then some (o + page.returnedCount) else none

section OnePage

variable {cls : CharClass} {engine : Engine} {rowSize : Row → ℕ} {charBudget : ℕ}

/-- The window that a page is cut from holds the first `w` rows of the answer,
and the probe says whether the answer is longer. Whichever of the budget and
the window stops the page, the response describes the page of the answer. -/
theorem pagedQueryResponse_pageAt {all : List Row} {qr : QueryResult} (info : QueryPageMeta)
    {w : ℕ} (hrows : qr.rows = all.take w)
    (hreached : info.rowLimitReached = decide (w < all.length))
    (hw : w < all.length → info.offset < w) :
    PageAt all .full info.offset (pagedQueryResponse rowSize charBudget qr info) := by
  let page := boundValuesPaged rowSize charBudget qr.rows info.offset
  have hlen : qr.rows.length = min w all.length := by rw [hrows, length_take]
  obtain ⟨hitems, hpos⟩ : page.items = (qr.rows.drop info.offset).take page.items.length ∧
      (info.offset < qr.rows.length → 0 < page.items.length) :=
    boundValuesPaged_items rowSize charBudget qr.rows info.offset
  have hle : page.items.length ≤ qr.rows.length - info.offset :=
    boundValuesPaged_length_le rowSize charBudget qr.rows info.offset
  have htruncated : page.truncated =
      decide (info.offset + page.items.length < qr.rows.length) :=
    boundValuesPaged_truncated rowSize charBudget qr.rows info.offset
  have hnext : page.nextOffset = if info.offset + page.items.length < qr.rows.length then
      some (info.offset + page.items.length) else none :=
    boundValuesPaged_nextOffset rowSize charBudget qr.rows info.offset
  refine ⟨rfl, ?_, ?_, ?_, ?_, ?_⟩
  · show page.items.map Shown.cells = ((all.drop info.offset).take page.items.length).map .cells
    have hcut : page.items.length ≤ w - info.offset := by omega
    rw [hrows, drop_take, take_take, Nat.min_eq_left hcut] at hitems
    rw [← hitems]
  · show page.items.length ≤ all.length - info.offset
    omega
  · intro hlt
    refine hpos ?_
    by_cases hcut : w < all.length
    · have := hw hcut
      omega
    · omega
  · show (page.truncated || info.rowLimitReached) =
      decide (info.offset + page.items.length < all.length)
    rw [htruncated, hreached, ← Bool.decide_or]
    refine decide_eq_decide.mpr ?_
    by_cases hcut : w < all.length
    · have := hw hcut
      omega
    · omega
  · show page.nextOffset.or (if info.rowLimitReached = true then some qr.rows.length else none) =
      if info.offset + page.items.length < all.length then
        some (info.offset + page.items.length) else none
    rw [hnext, hreached]
    simp only [decide_eq_true_eq]
    by_cases hcut : w < all.length
    · have := hw hcut
      rw [if_pos hcut]
      split_ifs with hbudget hrest hrest
      · rfl
      · omega
      · -- the window stopped the page, so it ends where the window does
        show some qr.rows.length = _
        congr 1
        omega
      · omega
    · rw [if_neg hcut, Option.or_none, hlen, Nat.min_eq_right (by omega)]

/-- The rows that `LIMIT` and clip leave are the first of the full answer, up
to the end of the window; the probe row was there if the answer goes on. -/
theorem clipProbeRow_rows {all : List Row} {qr : QueryResult} {offset : ℕ}
    (hall : all.length ≤ isizeMax)
    (hqr : qr.rows.take (injectedFetchLimit offset) = all.take (injectedFetchLimit offset)) :
    (clipProbeRow qr offset).1.rows = all.take (saturatingAdd offset queryGraphRowLimit) ∧
      (clipProbeRow qr offset).2 =
        decide (saturatingAdd offset queryGraphRowLimit < all.length) := by
  have hfit := qr.rows_fit
  have hmax : isizeMax < u64Max := by decide
  have hlen := congrArg List.length hqr
  rw [clipProbeRow_kept, clipProbeRow_reached, decide_eq_decide]
  simp only [length_take, injectedFetchLimit, saturatingAdd, queryGraphRowLimit] at hlen hqr ⊢
  generalize u64Max = M at hmax hlen hqr ⊢
  have hle : min (offset + 500) M ≤ min (offset + (500 + 1)) M := by omega
  refine ⟨?_, by omega⟩
  have hkept := congrArg (List.take (min (offset + 500) M)) hqr
  rwa [take_take, take_take, Nat.min_eq_left hle] at hkept

/-- A gated statement, with or without a `LIMIT` of its own, answers with the
page at the offset of the engine's full answer. -/
theorem runGatedCypher_pageAt {query : Text} {full : QueryResult}
    (hanswers : engine.Answers query full) (offset : ℕ) :
    ∃ page, runGatedCypher engine rowSize charBudget query offset = .ok page ∧
      PageAt full.rows .full offset page := by
  have hmax : isizeMax + queryGraphRowLimit < u64Max := by decide
  have hfit := full.rows_fit
  cases hlimit : hasLimitClause query with
  | true =>
      let info : QueryPageMeta :=
        { offset, orderStable := hasOrderByClause query, limitInjected := false
          rowLimitReached := false }
      have hpage : PageAt full.rows .full offset
          (pagedQueryResponse rowSize charBudget full info) :=
        pagedQueryResponse_pageAt info take_length.symm
          (decide_eq_false (Nat.lt_irrefl _)).symm fun h => absurd h (Nat.lt_irrefl _)
      refine ⟨_, ?_, hpage⟩
      simp only [runGatedCypher, injectLimitIfAbsent, hlimit, if_true, hanswers.whole,
        Bool.false_eq_true, if_false]
      rfl
  | false =>
      obtain ⟨qr, hrun, hqr⟩ := hanswers.limited (injectedFetchLimit offset) (Nat.min_le_right _ _)
      obtain ⟨hrows, hreached⟩ := clipProbeRow_rows hfit hqr
      let info : QueryPageMeta :=
        { offset, orderStable := hasOrderByClause query, limitInjected := true
          rowLimitReached := (clipProbeRow qr offset).2 }
      have hpage : PageAt full.rows .full offset
          (pagedQueryResponse rowSize charBudget (clipProbeRow qr offset).1 info) := by
        refine pagedQueryResponse_pageAt info hrows hreached ?_
        intro hcut
        simp only [saturatingAdd, queryGraphRowLimit] at hcut hmax ⊢
        show offset < _
        omega
      refine ⟨_, ?_, hpage⟩
      simp only [runGatedCypher, injectLimitIfAbsent, hlimit, Bool.false_eq_true, if_false, hrun,
        if_true]
      rfl

theorem shapeTokenSurface_pageAt {all : List Row} {o : ℕ} {page : QueryPage} (args : Arguments)
    (h : PageAt all .full o page) :
    PageAt all (parseDetail args) o (shapeTokenSurface args page) := by
  obtain ⟨hoffset, hrows, hwithin, hmoves, htruncated, hnext⟩ := h
  cases hdetail : parseDetail args with
  | ids =>
      simp only [shapeTokenSurface, hdetail]
      refine ⟨hoffset, ?_, hwithin, hmoves, htruncated, hnext⟩
      show page.rows.filterMap Shown.firstCell = _
      rw [hrows]
      exact filterMap_map
  | full =>
      cases hformat : parseFormat args with
      | tabular =>
          simp only [shapeTokenSurface, hdetail, hformat]
          exact ⟨hoffset, hrows, hwithin, hmoves, htruncated, hnext⟩
      | json =>
          simp only [shapeTokenSurface, hdetail, hformat]
          exact ⟨hoffset, hrows, hwithin, hmoves, htruncated, hnext⟩

end OnePage

/-! ## A run of calls -/

/-- A response as the cursor rules read it. -/
def pageView : Cursor.View QueryPage Shown where
  shown := QueryPage.rows
  count := QueryPage.returnedCount
  next := QueryPage.nextOffset

theorem PageAt.serves {all : List Row} {detail : Detail} {o : ℕ} {page : QueryPage}
    (h : PageAt all detail o page) (ho : o ≤ all.length) :
    pageView.Serves all (shownRows detail) o page := by
  have hwithin := h.within
  refine ⟨h.rows_eq, ?_, h.moves, h.nextOffset_eq⟩
  show o + page.returnedCount ≤ all.length
  omega

section Run

variable {cls : CharClass} {engine : Engine} {rowSize : Row → ℕ} {charBudget : ℕ}

/-- The page of the request with its offset moved to `o`, when the call answers
with one. -/
def callAt (cls : CharClass) (engine : Engine) (rowSize : Row → ℕ) (charBudget : ℕ)
    (args : Arguments) (o : ℕ) : Option QueryPage :=
  match doQueryGraph cls engine rowSize charBudget (some { args with offset := some o }) with
  | .ok (.page page) => some page
  | _ => none

/-- The gate reads the offset and nothing of it. -/
theorem gatedCypherRequest_offset {args : Arguments} {graphStr query : Text} {offset : ℕ}
    (h : gatedCypherRequest cls engine args graphStr = .ok (query, offset)) (o : ℕ) :
    gatedCypherRequest cls engine { args with offset := some o } graphStr = .ok (query, o) := by
  simp only [gatedCypherRequest] at h ⊢
  cases hquery : args.query with
  | none => simp [hquery] at h
  | some q =>
      simp only [hquery] at h ⊢
      cases hbad : forbiddenCypherKeyword q with
      | some bad => simp [hbad] at h
      | none =>
          simp only [hbad] at h ⊢
          split_ifs at h ⊢
          obtain ⟨rfl, -⟩ := Prod.mk.inj (Except.ok.inj h)
          rfl

theorem callAt_pageAt {args : Arguments} {graphStr query : Text} {offset : ℕ}
    {full : QueryResult} (hpath : args.graphPath = some graphStr)
    (hmode : args.graph ≠ some "missed".toList)
    (hgate : gatedCypherRequest cls engine args graphStr = .ok (query, offset))
    (hanswers : engine.Answers query full) (o : ℕ) :
    ∃ page, callAt cls engine rowSize charBudget args o = some page ∧
      PageAt full.rows (parseDetail args) o page := by
  obtain ⟨page, hrun, hpage⟩ :
      ∃ page, runGatedCypher engine rowSize charBudget query o = .ok page ∧
        PageAt full.rows .full o page := runGatedCypher_pageAt hanswers o
  have hdefault : ¬ args.graph.getD "default".toList = "missed".toList := by
    cases hgraph : args.graph with
    | none => simp
    | some mode => exact fun h => hmode (hgraph.trans (congrArg some h))
  refine ⟨shapeTokenSurface { args with offset := some o } page, ?_,
    shapeTokenSurface_pageAt _ hpage⟩
  have hgate' := gatedCypherRequest_offset hgate o
  simp only [hpath] at hgate'
  simp only [callAt, doQueryGraph, hpath, if_neg hdefault, hgate', hrun]

/-- From offset 0, following `next_offset` visits every row of a gated query's
answer once and in order, whatever the rows weigh and whatever the budget, in
at most one call more than there are rows; and a page reports itself truncated
exactly when rows remain after it. -/
theorem paging_visits_every_row_once {args : Arguments} {graphStr query : Text} {offset : ℕ}
    {full : QueryResult} (hpath : args.graphPath = some graphStr)
    (hmode : args.graph ≠ some "missed".toList)
    (hgate : gatedCypherRequest cls engine args graphStr = .ok (query, offset))
    (hanswers : engine.Answers query full) :
    ∃ pages, pageView.follow (callAt cls engine rowSize charBudget args)
        (full.rows.length + 1) 0 = some pages ∧
      pages.flatMap QueryPage.rows = shownRows (parseDetail args) full.rows ∧
      ∀ page ∈ pages, page.truncated = true ↔
        full.rows.drop (page.offset + page.returnedCount) ≠ [] := by
  have hcall : ∀ o, ∃ page, callAt cls engine rowSize charBudget args o = some page ∧
      PageAt full.rows (parseDetail args) o page :=
    callAt_pageAt hpath hmode hgate hanswers
  have hserves : ∀ o ≤ full.rows.length,
      ∃ page, callAt cls engine rowSize charBudget args o = some page ∧
        pageView.Serves full.rows (shownRows (parseDetail args)) o page := by
    intro o ho
    obtain ⟨page, hpage, hat⟩ := hcall o
    exact ⟨page, hpage, hat.serves ho⟩
  obtain ⟨pages, hpages, hshown, hmem⟩ := Cursor.View.follow_serves
    (shownRows_append (parseDetail args)) hserves (full.rows.length + 1) 0 (Nat.zero_le _)
    (by omega)
  refine ⟨pages, hpages, hshown, fun page hp => ?_⟩
  obtain ⟨o, -, ho⟩ := hmem page hp
  obtain ⟨page', hpage', hat⟩ := hcall o
  obtain rfl : page = page' := Option.some.inj (ho.symm.trans hpage')
  rw [hat.truncated_eq, hat.offset_eq, decide_eq_true_eq, Ne, drop_eq_nil_iff, Nat.not_le]

/-! ### An engine that answers every statement with the same rows -/

/-- The bound of a statement that ends in a `LIMIT` on a line of its own. -/
def limitOf (statement : Text) : Option ℕ :=
  (breakOn "\nLIMIT ".toList statement).map fun (_, digits) => Nat.ofDigitChars 10 digits 0

def tableEngine (table : QueryResult) : Engine where
  graphPathExists := true
  executeReadOnlyQuery statement _ :=
    match limitOf statement with
    | none => .ok table
    | some n => .ok (table.truncate n)

def scanQuery : Text := "MATCH (n) RETURN n".toList

/-- A table longer than one window. -/
def longTable : QueryResult where
  columns := ["n".toList]
  rows := (List.range 1200).map fun i => [Nat.toDigits 10 i]
  rows_fit := by simp [isizeMax]

theorem mask_scanQuery : maskNonExecutable scanQuery = some scanQuery := by
  have hmask : maskBytes (Percent.utf8 scanQuery) = some (Percent.utf8 scanQuery) := by
    decide
  simp only [maskNonExecutable, hmask, Option.bind_eq_bind, Option.bind_some,
    Percent.fromUtf8_utf8]

theorem tableEngine_answers (table : QueryResult) :
    (tableEngine table).Answers scanQuery table := by
  have hwhole : executablePrefix scanQuery = scanQuery := by
    have hkept : (Percent.utf8 scanQuery).reverse.dropWhile isSeparator =
        (Percent.utf8 scanQuery).reverse := by decide
    have hhead : (Percent.utf8 scanQuery).reverse.head? ≠ some ';'.toUInt8 := by decide
    simp only [executablePrefix, mask_scanQuery, hkept, if_neg hhead, length_reverse,
      take_length, Percent.fromUtf8_utf8, Option.getD_some]
  refine ⟨rfl, fun n _ => ?_⟩
  have hlimit : limitOf (scanQuery ++ limitClause n) = some n := by
    have hbreak : breakOn "\nLIMIT ".toList (scanQuery ++ limitClause n) =
        some (scanQuery, Nat.toDigits 10 n) := rfl
    rw [limitOf, hbreak, Option.map_some]
    exact congrArg some (Nat.ofDigitChars_toDigits (by decide) (by decide))
  rw [hwhole]
  refine ⟨table.truncate n, by simp only [tableEngine, hlimit], ?_⟩
  rw [QueryResult.rows_truncate, take_take, Nat.min_self]

theorem gatedCypherRequest_scanQuery (table : QueryResult) :
    gatedCypherRequest .ascii (tableEngine table)
      { graphPath := some "graph".toList, query := some scanQuery } "graph".toList =
        .ok (scanQuery, 0) := by
  have hforbidden : forbiddenCypherKeyword scanQuery = none := by
    have hfind : forbiddenCypherKeywords.find?
        (fun kw => containsKeywordToken (toAsciiUppercase scanQuery) kw.toList) = none := by
      decide
    have hcall : carriesUnlistedProcedure (toAsciiUppercase scanQuery) = false := by
      decide
    simp only [forbiddenCypherKeyword, mask_scanQuery, hfind, hcall, Bool.false_eq_true, if_false]
  have hsingle : isMultiStatement .ascii scanQuery = false := by
    have hbreak : breakOn [';'] scanQuery = none := by decide
    simp only [isMultiStatement, mask_scanQuery, hbreak]
  simp only [gatedCypherRequest, hforbidden, hsingle, Bool.false_eq_true, if_false]
  rfl

theorem paging_visits_every_row_once_long :
    ∃ pages, pageView.follow (callAt .ascii (tableEngine longTable) List.length 3
        { graphPath := some "graph".toList, query := some scanQuery })
        (longTable.rows.length + 1) 0 = some pages ∧
      pages.flatMap QueryPage.rows = shownRows .full longTable.rows ∧
      ∀ page ∈ pages, page.truncated = true ↔
        longTable.rows.drop (page.offset + page.returnedCount) ≠ [] :=
  paging_visits_every_row_once rfl nofun (gatedCypherRequest_scanQuery longTable)
    (tableEngine_answers longTable)

end Run

end QueryGraph

end CodeGraph
