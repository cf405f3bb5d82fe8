import CodeGraph.Lib.Json
import CodeGraph.QueryGraph

/-!
# The text of a `query_graph` response

The page of `query_graph` as a JSON value, and the bytes of its compact text. The
budget counts each row of the page once. In the default form a row is paid twice,
once as an array of cells and once as a line of `result`, which is two bytes
shorter (`pageSize_eq`).
-/

namespace CodeGraph

open List

namespace QueryGraph

open Cypher ResponseBudget
open Json (bracketed strSize litSize escapedSize numSize boolSize fieldSize fieldsSize)

def rowValue (row : Row) : Json := .array (row.map .str)

/-- What the budget counts of a row. -/
def rowSize (row : Row) : ℕ := (rowValue row).size

def Shown.toJson : Shown → Json
  | .cells row => rowValue row
  | .id cell => .str cell

def optional (name : String) (value : Option Json) : List (String × Json) :=
  value.toList.map fun v => (name, v)

def QueryPage.toJson (elapsedMs : ℕ) (page : QueryPage) : Json :=
  .ordered (
    [("stage", .nat 3),
     ("status", .lit "ok"),
     ("tool", .lit "query_graph"),
     ("columns", .array (page.columns.map .str)),
     ("rows", .array (page.rows.map Shown.toJson)),
     ("elapsed_ms", .nat elapsedMs),
     ("total_count", .nat page.totalCount),
     ("returned_count", .nat page.returnedCount),
     ("offset", .nat page.offset),
     ("truncated", .bool page.truncated),
     ("order_stable", .bool page.orderStable),
     ("limit_injected", .bool page.limitInjected)] ++
    optional "result" (page.result.map .str) ++
    optional "row_limit" (page.rowLimit.map .nat) ++
    optional "next_offset" (page.nextOffset.map .nat) ++
    optional "detail" (page.detail.map .lit) ++
    optional "format" (page.format.map .lit))

/-! ## What a page costs -/

/-- The bytes of cells with bars between them. -/
def barredSize (cells : List Text) : ℕ := (cells.map escapedSize).sum + 3 * (cells.length - 1)

/-- The bytes of the rows of a page: the commas between them, and the rows. A line
of `result` takes two bytes less than the row, and two at least. -/
def rowsSize : Detail → Format → List Row → ℕ
  | .full, .json, rows =>
      (rows.length - 1) + (rows.map fun row => rowSize row + max (rowSize row - 2) 2).sum
  | .full, .tabular, rows => (rows.length - 1) + (rows.map rowSize).sum
  | .ids, _, rows =>
      let ids := rows.filterMap List.head?
      (ids.length - 1) + (ids.map strSize).sum

/-- What stands under a name in some of the shapes. -/
def optionalSize (name : String) (n : Option ℕ) : ℕ := fieldsSize (n.toList.map fun k => (name, k))

@[simp] theorem optionalSize_none (name : String) : optionalSize name none = 0 := rfl

@[simp] theorem optionalSize_some (name : String) (n : ℕ) :
    optionalSize name (some n) = fieldSize name n := rfl

section Page

variable (elapsedMs : ℕ) (args : Arguments) (qr : QueryResult) (info : QueryPageMeta)

/-- The rows of the page: the longest run from the offset on that fits. -/
def pageRows : List Row :=
  let rows := qr.rows.drop info.offset
  rows.take (fitting rowSize maxResponseChars rows)

/-- The index of the first row that the page leaves, if it leaves one. -/
def nextRow : Option ℕ :=
  let next := info.offset + (pageRows qr info).length
  if next < qr.rows.length then some next
  else if info.rowLimitReached then some qr.rows.length else none

/-- The bytes of a response without the rows. -/
def envelopeSize : ℕ :=
  let columns := match parseDetail args with
    | .ids => qr.columns.take 1
    | .full => qr.columns
  let shape := match parseDetail args, parseFormat args with
    | .ids, _ => [("detail", litSize "ids"), ("format", litSize "ids")]
    | .full, .tabular => [("detail", litSize "full"), ("format", litSize "tabular")]
    | .full, .json =>
        [("result", barredSize qr.columns + 2), ("detail", litSize "full"),
         ("format", litSize "json")]
  fieldsSize
    [("stage", numSize 3),
     ("status", litSize "ok"),
     ("tool", litSize "query_graph"),
     ("columns", bracketed (columns.map strSize)),
     ("rows", 2),
     ("elapsed_ms", numSize elapsedMs),
     ("total_count", numSize qr.rows.length),
     ("returned_count", numSize (pageRows qr info).length),
     ("offset", numSize info.offset),
     ("truncated", boolSize (decide (info.offset + (pageRows qr info).length < qr.rows.length) ||
        info.rowLimitReached)),
     ("order_stable", boolSize info.orderStable),
     ("limit_injected", boolSize info.limitInjected)] +
  optionalSize "row_limit"
    ((if info.limitInjected then some queryGraphRowLimit else none).map numSize) +
  optionalSize "next_offset" ((nextRow qr info).map numSize) + fieldsSize shape + 1

end Page

/-! ## The size of the response -/

theorem rowSize_eq (row : Row) : rowSize row = bracketed (row.map strSize) := by
  rw [rowSize, rowValue, Json.size_array, Json.map_size_str]

theorem escapedSize_bar : escapedSize " | ".toList = 3 := by decide

theorem escapedSize_joinWith : ∀ cells : List Text,
    escapedSize (joinWith " | ".toList cells) = barredSize cells
  | [] => rfl
  | [cell] => by simp [joinWith, barredSize]
  | cell :: cell' :: cells => by
      have ih := escapedSize_joinWith (cell' :: cells)
      have hjoin : joinWith " | ".toList (cell :: cell' :: cells) =
          cell ++ " | ".toList ++ joinWith " | ".toList (cell' :: cells) := by
        rw [joinWith]
        simp
      rw [hjoin, Json.escapedSize_append, Json.escapedSize_append, ih, escapedSize_bar]
      simp only [barredSize, map_cons, sum_cons, length_cons, Nat.add_sub_cancel]
      omega

theorem line_size (row : Row) : 2 + barredSize row = max (rowSize row - 2) 2 := by
  have hsum : ∀ cells : List Text,
      (cells.map strSize).sum = (cells.map escapedSize).sum + 2 * cells.length := by
    intro cells
    induction cells with
    | nil => rfl
    | cons cell cells ih =>
        rw [map_cons, sum_cons, ih, map_cons, sum_cons, length_cons,
          strSize]
        omega
  rw [rowSize_eq, bracketed, hsum, length_map, barredSize]
  cases row with
  | nil => rfl
  | cons cell cells =>
      rw [length_cons]
      omega

theorem strSize_formatQueryResult (columns : List Text) (rows : List Row) :
    strSize (formatQueryResult columns rows) =
      barredSize columns + 2 + (rows.map fun row => max (rowSize row - 2) 2).sum := by
  have hbreak : Json.byteLen (Json.escapeChar '\n') = 2 := by decide
  have hlines : ∀ rows : List Row,
      escapedSize (rows.flatMap fun row => '\n' :: joinWith " | ".toList row) =
        (rows.map fun row => max (rowSize row - 2) 2).sum := by
    intro rows
    induction rows with
    | nil => rfl
    | cons row rows ih =>
        rw [flatMap_cons, Json.escapedSize_append, ih, Json.escapedSize_cons, hbreak,
          escapedSize_joinWith, line_size, map_cons, sum_cons]
  rw [strSize, formatQueryResult, Json.escapedSize_append, escapedSize_joinWith, hlines]
  omega

theorem size_optional (name : String) (value : Option Json) :
    fieldsSize (Json.sized (optional name value)) = optionalSize name (value.map Json.size) := by
  cases value <;> rfl

theorem QueryPage.size_toJson (elapsedMs : ℕ) (page : QueryPage) :
    (page.toJson elapsedMs).size =
      fieldsSize
        [("stage", numSize 3),
         ("status", litSize "ok"),
         ("tool", litSize "query_graph"),
         ("columns", bracketed (page.columns.map strSize)),
         ("rows", bracketed (page.rows.map fun shown => shown.toJson.size)),
         ("elapsed_ms", numSize elapsedMs),
         ("total_count", numSize page.totalCount),
         ("returned_count", numSize page.returnedCount),
         ("offset", numSize page.offset),
         ("truncated", boolSize page.truncated),
         ("order_stable", boolSize page.orderStable),
         ("limit_injected", boolSize page.limitInjected)] +
      optionalSize "result" (page.result.map strSize) +
      optionalSize "row_limit" (page.rowLimit.map numSize) +
      optionalSize "next_offset" (page.nextOffset.map numSize) +
      optionalSize "detail" (page.detail.map litSize) +
      optionalSize "format" (page.format.map litSize) + 1 := by
  have hrows : (page.rows.map Shown.toJson).map Json.size =
      page.rows.map fun shown => shown.toJson.size := map_map
  have hresult : (page.result.map Json.str).map Json.size = page.result.map strSize := by
    rw [Option.map_map]
    exact Option.map_congr fun s _ => Json.size_str s
  have hnat : ∀ o : Option ℕ, (o.map Json.nat).map Json.size = o.map numSize := by
    intro o
    rw [Option.map_map]
    exact Option.map_congr fun n _ => Json.size_nat n
  have hlit : ∀ o : Option String, (o.map Json.lit).map Json.size = o.map litSize := by
    intro o
    rw [Option.map_map]
    exact Option.map_congr fun s _ => Json.size_lit s
  rw [QueryPage.toJson, Json.size_ordered (by simp)]
  simp only [Json.sized_append, Json.sized_cons, Json.sized_nil, Json.fieldsSize_append,
    size_optional, Json.size_lit, Json.size_nat, Json.size_bool, Json.size_array,
    Json.map_size_str, hrows, hresult, hnat, hlit]

section Page

variable {elapsedMs : ℕ} {args : Arguments} {qr : QueryResult} {info : QueryPageMeta}

/-- The page that shows the longest run of rows that fits. -/
def fittingPage (qr : QueryResult) (info : QueryPageMeta) : QueryPage where
  columns := qr.columns
  rows := (pageRows qr info).map .cells
  result := some (formatQueryResult qr.columns (pageRows qr info))
  totalCount := qr.rows.length
  returnedCount := (pageRows qr info).length
  offset := info.offset
  truncated := decide (info.offset + (pageRows qr info).length < qr.rows.length) ||
    info.rowLimitReached
  orderStable := info.orderStable
  limitInjected := info.limitInjected
  rowLimit := if info.limitInjected then some queryGraphRowLimit else none
  nextOffset := nextRow qr info

/-- Where each row fits the budget by itself, that page is the code's. -/
theorem pagedQueryResponse_eq (hfits : ∀ row ∈ qr.rows, rowSize row ≤ maxResponseChars) :
    pagedQueryResponse rowSize maxResponseChars qr info = fittingPage qr info := by
  have hlen : (pageRows qr info).length =
      fitting rowSize maxResponseChars (qr.rows.drop info.offset) := by
    rw [pageRows, length_take, Nat.min_eq_left (fitting_le _)]
  have hitems : (qr.rows.drop info.offset).take (pageRows qr info).length = pageRows qr info := by
    rw [hlen]
    rfl
  have hor : ∀ (p : Prop) [Decidable p] (n : ℕ) (o : Option ℕ),
      (if p then some n else none).or o = if p then some n else o := by
    intro p _ n o
    split_ifs <;> rfl
  have hpage := boundValuesPaged_fitting hfits info.offset
  simp only [← hlen, hitems] at hpage
  simp only [pagedQueryResponse, hpage, fittingPage, drop_min_length, hitems, nextRow, hor]

theorem shown_cells (rows : List Row) :
    bracketed ((rows.map Shown.cells).map fun shown => shown.toJson.size) =
      2 + rowsSize .full .tabular rows := by
  rw [map_map, bracketed, length_map, rowsSize]
  show (rows.map rowSize).sum + (rows.length - 1) + 2 = _
  omega

theorem shown_ids (format : Format) (rows : List Row) :
    bracketed (((rows.map Shown.cells).filterMap Shown.firstCell).map
      fun shown => shown.toJson.size) = 2 + rowsSize .ids format rows := by
  have hcells : (rows.map Shown.cells).filterMap Shown.firstCell =
      (rows.filterMap List.head?).map Shown.id := by
    rw [filterMap_map, map_filterMap]
    rfl
  have hsize : (fun shown : Shown => shown.toJson.size) ∘ Shown.id = strSize :=
    funext fun cell => Json.size_str cell
  rw [hcells, map_map, hsize, bracketed, length_map, rowsSize]
  omega

theorem rowsSize_json (rows : List Row) : rowsSize .full .json rows =
    rowsSize .full .tabular rows + (rows.map fun row => max (rowSize row - 2) 2).sum := by
  rw [rowsSize, rowsSize, sum_map_add]
  omega

theorem pageSize_eq (hfits : ∀ row ∈ qr.rows, rowSize row ≤ maxResponseChars) :
    ((shapeTokenSurface args (pagedQueryResponse rowSize maxResponseChars qr info)).toJson
      elapsedMs).size =
        rowsSize (parseDetail args) (parseFormat args) (pageRows qr info) +
          envelopeSize elapsedMs args qr info := by
  rw [pagedQueryResponse_eq hfits]
  cases hdetail : parseDetail args with
  | ids =>
      simp only [shapeTokenSurface, envelopeSize, hdetail, QueryPage.size_toJson, fittingPage,
        shown_ids (parseFormat args), Json.fieldsSize_cons, Json.fieldsSize_nil, Option.map_some,
        Option.map_none, optionalSize_some, optionalSize_none, fieldSize]
      omega
  | full =>
      cases hformat : parseFormat args with
      | tabular =>
          simp only [shapeTokenSurface, envelopeSize, hdetail, hformat, QueryPage.size_toJson,
            fittingPage, shown_cells, Json.fieldsSize_cons, Json.fieldsSize_nil, Option.map_some,
            Option.map_none, optionalSize_some, optionalSize_none, fieldSize]
          omega
      | json =>
          simp only [shapeTokenSurface, envelopeSize, hdetail, hformat, QueryPage.size_toJson,
            fittingPage, shown_cells, Json.fieldsSize_cons, Json.fieldsSize_nil, Option.map_some,
            optionalSize_some, strSize_formatQueryResult, rowsSize_json, fieldSize]
          omega

end Page

/-! ## A call -/

/-- The rows that a call pages of an answer of the engine, and what it says about
them. -/
def pagedAnswer (query : Text) (offset : ℕ) (qr : QueryResult) : QueryResult × QueryPageMeta :=
  let limitInjected := (injectLimitIfAbsent query (injectedFetchLimit offset)).2
  let (kept, rowLimitReached) :=
    if limitInjected then clipProbeRow qr offset else (qr, false)
  (kept, { offset, orderStable := hasOrderByClause query, limitInjected, rowLimitReached })

theorem runGatedCypher_eq {engine : Engine} {query : Text} {offset : ℕ} {qr : QueryResult}
    (hanswer : engine.executeReadOnlyQuery
      (injectLimitIfAbsent query (injectedFetchLimit offset)).1 readQueryTimeoutMs = .ok qr)
    (rowSize : Row → ℕ) (charBudget : ℕ) :
    runGatedCypher engine rowSize charBudget query offset =
      .ok (pagedQueryResponse rowSize charBudget (pagedAnswer query offset qr).1
        (pagedAnswer query offset qr).2) := by
  simp only [runGatedCypher, hanswer, pagedAnswer]

theorem mem_pagedAnswer {query : Text} {offset : ℕ} {qr : QueryResult} {row : Row}
    (h : row ∈ (pagedAnswer query offset qr).1.rows) : row ∈ qr.rows := by
  simp only [pagedAnswer] at h
  split_ifs at h
  · rw [clipProbeRow_kept] at h
    exact mem_of_mem_take h
  · exact h

end QueryGraph

end CodeGraph
