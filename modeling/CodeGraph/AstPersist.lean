import CodeGraph.AstCapture

/-!
# The stored syntax tree

`persist_ast_nodes` writes a row of `AstNode` for every captured row, the edge from the
file to the root, and an edge from the parent to every other node. The values travel as
Cypher literals that the bulk insert reads back into typed columns, so what is stored is
what was captured as long as the numbers fit in the signed 64 bits of a column.
-/

namespace CodeGraph

open List

namespace Ast

/-! ## Literals -/

/-- The characters `str::trim` takes off: the White_Space of Unicode. -/
def isWhiteSpace (c : Char) : Bool :=
  (9 ≤ c.toNat && c.toNat ≤ 13) || (0x2000 ≤ c.toNat && c.toNat ≤ 0x200a) ||
    [0x20, 0x85, 0xa0, 0x1680, 0x2028, 0x2029, 0x202f, 0x205f, 0x3000].contains c.toNat

/-- The column types of the two tables. -/
inductive ColumnType where
  | string
  | int64
  | bool
  deriving DecidableEq

inductive Value where
  | null (type : ColumnType)
  | string (s : Text)
  | int64 (n : ℤ)
  | bool (b : Bool)
  deriving DecidableEq

structure LiteralError where
  column : Text
  expected : ColumnType
  raw : Text
  deriving DecidableEq

def unescape : Text → Text
  | [] => []
  | '\\' :: '\\' :: rest => '\\' :: unescape rest
  | '\\' :: '\'' :: rest => '\'' :: unescape rest
  | c :: rest => c :: unescape rest

/-- Inverse of `cypherStr`; what is not quoted stays as it is. -/
def unwrapCypherString (s : Text) : Text :=
  if 2 ≤ s.length ∧ s.head? = some '\'' ∧ s.getLast? = some '\'' then
    unescape (s.drop 1).dropLast
  else s

/-- Whether the number is negative, and the text without its sign. -/
def splitSign : Text → Bool × Text
  | '-' :: rest => (true, rest)
  | '+' :: rest => (false, rest)
  | text => (false, text)

/-- `text.parse::<i64>()` -/
def parseI64 (text : Text) : Option ℤ :=
  let (negative, digits) := splitSign text
  if digits ≠ [] ∧ digits.all Char.isDigit then
    let n : ℤ := Nat.ofDigitChars 10 digits 0
    (some (if negative then -n else n)).filter fun n => -2 ^ 63 ≤ n ∧ n < 2 ^ 63
  else none

def literalToValue (lit : Option Text) (type : ColumnType) (column : Text) :
    Except LiteralError Value :=
  match lit with
  | none => .ok (.null type)
  | some raw =>
      let trimmed := trim ⟨isWhiteSpace, Char.isAlphanum⟩ raw
      if trimmed = [] then .ok (.null type)
      else
        match type with
        | .string => .ok (.string (unwrapCypherString trimmed))
        | .int64 =>
            match parseI64 trimmed with
            | some n => .ok (.int64 n)
            | none => .error ⟨column, .int64, raw⟩
        | .bool =>
            if trimmed.map Char.toLower = "true".toList then .ok (.bool true)
            else if trimmed.map Char.toLower = "false".toList then .ok (.bool false)
            else .error ⟨column, .bool, raw⟩

/-! ## The rows -/

abbrev Props := List (Text × Text)

abbrev Columns := List (Text × ColumnType)

def astNodeColumns : Columns :=
  [("id".toList, .string), ("file_id".toList, .string), ("kind".toList, .string),
    ("is_named".toList, .bool), ("start_byte".toList, .int64), ("end_byte".toList, .int64),
    ("start_line".toList, .int64), ("start_col".toList, .int64), ("end_line".toList, .int64),
    ("end_col".toList, .int64), ("field_name".toList, .string), ("child_index".toList, .int64),
    ("parent_id".toList, .string), ("language".toList, .string)]

def astChildColumns : Columns :=
  [("child_index".toList, .int64), ("field_name".toList, .string)]

def propOrder (rows : List Props) (schema : Columns) : Columns :=
  schema.filter fun column => rows.any fun row => (row.map Prod.fst).contains column.1

def structRow (order : Columns) (row : Props) : Except LiteralError (List (Text × Value)) :=
  order.mapM fun column => do
    let value ← literalToValue (row.lookup column.1) column.2 column.1
    return (column.1, value)

def boolText (b : Bool) : Text := if b then "true".toList else "false".toList

def nodeProps (relPath language : Text) (row : AstNodeRow) : Props :=
  [("id".toList, cypherStr row.id), ("file_id".toList, cypherStr relPath),
    ("kind".toList, cypherStr row.kind), ("is_named".toList, boolText row.isNamed),
    ("start_byte".toList, Nat.toDigits 10 row.startByte),
    ("end_byte".toList, Nat.toDigits 10 row.endByte),
    ("start_line".toList, Nat.toDigits 10 row.startLine),
    ("start_col".toList, Nat.toDigits 10 row.startCol),
    ("end_line".toList, Nat.toDigits 10 row.endLine),
    ("end_col".toList, Nat.toDigits 10 row.endCol),
    ("field_name".toList, cypherStr row.fieldName),
    ("child_index".toList, Nat.toDigits 10 row.childIndex),
    ("parent_id".toList, cypherStr row.parentId), ("language".toList, cypherStr language)]

def childProps (row : AstNodeRow) : Props :=
  [("child_index".toList, Nat.toDigits 10 row.childIndex),
    ("field_name".toList, cypherStr row.fieldName)]

/-- An edge with the values of its columns. -/
structure StoredEdge (α : Type) where
  src : Text
  dst : Text
  props : List (Text × α)
  deriving DecidableEq

/-- What a file leaves in `AstNode`, `Defines_File_AstNode` and `AstChild_AstNode_AstNode`. -/
structure AstTables where
  nodes : List (List (Text × Value))
  defines : Option (StoredEdge Text)
  children : List (StoredEdge Value)
  deriving DecidableEq

/-- The rows go in chunks of 500; a row that fails fails the file. -/
def bulkInsertNodes (rows : List Props) : Except LiteralError (List (List (Text × Value))) :=
  rows.mapM (structRow (propOrder rows astNodeColumns))

def bulkInsertEdges (edges : List (StoredEdge Text)) :
    Except LiteralError (List (StoredEdge Value)) :=
  edges.mapM fun edge => do
    let props ← structRow (propOrder (edges.map StoredEdge.props) astChildColumns) edge.props
    return ⟨edge.src, edge.dst, props⟩

def definesEdge (relPath rootId : Text) : StoredEdge Text :=
  ⟨relPath, rootId, [("confidence".toList, "1.0".toList),
    ("resolution_method".toList, cypherStr "direct-ast".toList)]⟩

def persistAstNodes (relPath language : Text) (rows : List AstNodeRow) :
    Except LiteralError AstTables :=
  match rows with
  | [] => .ok ⟨[], none, []⟩
  | root :: _ => do
      let nodes ← bulkInsertNodes (rows.map (nodeProps relPath language))
      let children ← bulkInsertEdges ((rows.filter (·.parentId ≠ [])).map fun row =>
        ⟨row.parentId, row.id, childProps row⟩)
      return ⟨nodes, some (definesEdge relPath root.id), children⟩

/-! ## Reading the store -/

def textAt (row : List (Text × Value)) (column : Text) : Option Text :=
  match row.lookup column with
  | some (.string s) => some s
  | _ => none

def numberAt (row : List (Text × Value)) (column : Text) : Option ℕ :=
  match row.lookup column with
  | some (.int64 n) => some n.toNat
  | _ => none

def boolAt (row : List (Text × Value)) (column : Text) : Option Bool :=
  match row.lookup column with
  | some (.bool b) => some b
  | _ => none

def readNode (row : List (Text × Value)) : Option AstNodeRow := do
  let id ← textAt row "id".toList
  let kind ← textAt row "kind".toList
  let isNamed ← boolAt row "is_named".toList
  let startByte ← numberAt row "start_byte".toList
  let endByte ← numberAt row "end_byte".toList
  let startLine ← numberAt row "start_line".toList
  let startCol ← numberAt row "start_col".toList
  let endLine ← numberAt row "end_line".toList
  let endCol ← numberAt row "end_col".toList
  let fieldName ← textAt row "field_name".toList
  let childIndex ← numberAt row "child_index".toList
  let parentId ← textAt row "parent_id".toList
  return { id, kind, isNamed, startByte, endByte, startLine, startCol, endLine, endCol
           fieldName, childIndex, parentId }

/-! ## A literal is read as it was written -/

theorem trim_eq_self {cc : CharClass} {text : Text}
    (hhead : ∀ c, text.head? = some c → cc.isWhitespace c = false)
    (hlast : ∀ c, text.getLast? = some c → cc.isWhitespace c = false) : trim cc text = text := by
  have hdrop : ∀ l : Text, (∀ c, l.head? = some c → cc.isWhitespace c = false) →
      l.dropWhile cc.isWhitespace = l := by
    intro l h
    cases l with
    | nil => rfl
    | cons c l => rw [dropWhile_cons_of_neg (by simp [h c rfl])]
  rw [trim, hdrop text hhead, hdrop text.reverse, reverse_reverse]
  intro c hc
  rw [head?_reverse] at hc
  exact hlast c hc

theorem unescape_escaped (s rest : Text) : unescape (s.flatMap (fun c =>
    if c = '\\' then ['\\', '\\'] else if c = '\'' then ['\\', '\''] else [c]) ++ rest) =
      s ++ unescape rest := by
  induction s with
  | nil => rfl
  | cons c s ih =>
      rw [flatMap_cons, append_assoc]
      split
      · next h => rw [h, cons_append, cons_append, nil_append, unescape, ih]; rfl
      · split
        · next h => rw [h, cons_append, cons_append, nil_append, unescape, ih]; rfl
        · next hback hquote =>
          rw [cons_append, nil_append, unescape, ih]
          · rfl
          all_goals
            intro _ h
            exact absurd h hback

theorem getLast?_cypherStr (s : Text) : (cypherStr s).getLast? = some '\'' := by
  rw [cypherStr, getLast?_concat]

theorem unwrapCypherString_cypherStr (s : Text) : unwrapCypherString (cypherStr s) = s := by
  have hescaped := unescape_escaped s []
  rw [append_nil, unescape, append_nil] at hescaped
  rw [unwrapCypherString, if_pos ⟨by simp [cypherStr], rfl, getLast?_cypherStr s⟩, cypherStr]
  simpa using hescaped

theorem literalToValue_string (s column : Text) :
    literalToValue (some (cypherStr s)) .string column = .ok (.string s) := by
  have htrim : trim ⟨isWhiteSpace, Char.isAlphanum⟩ (cypherStr s) = cypherStr s := by
    refine trim_eq_self (fun c hc => ?_) fun c hc => ?_
    · obtain rfl := Option.some.inj hc
      rfl
    · obtain rfl := Option.some.inj ((getLast?_cypherStr s).symm.trans hc)
      rfl
  have hne : cypherStr s ≠ [] := by simp [cypherStr]
  simp only [literalToValue, htrim, hne, if_false, unwrapCypherString_cypherStr]

theorem literalToValue_bool (b : Bool) (column : Text) :
    literalToValue (some (boolText b)) .bool column = .ok (.bool b) := by
  cases b <;> rfl

theorem isWhiteSpace_of_isDigit {c : Char} (h : c.isDigit) : isWhiteSpace c = false := by
  obtain ⟨hlow, hhigh⟩ : 48 ≤ c.toNat ∧ c.toNat ≤ 57 := Char.isDigit_iff_toNat.mp h
  simp only [isWhiteSpace, contains_eq_mem, mem_cons, not_mem_nil, or_false]
  simp only [Bool.or_eq_false_iff, Bool.and_eq_false_iff, decide_eq_false_iff_not]
  omega

theorem literalToValue_int64 {n : ℕ} (hn : n < 2 ^ 63) (column : Text) :
    literalToValue (some (Nat.toDigits 10 n)) .int64 column = .ok (.int64 n) := by
  have hdigits : ∀ c ∈ Nat.toDigits 10 n, c.isDigit = true := fun c hc =>
    Nat.isDigit_of_mem_toDigits (by decide) le_rfl hc
  have hne : Nat.toDigits 10 n ≠ [] := Nat.toDigits_ne_nil
  have htrim : trim ⟨isWhiteSpace, Char.isAlphanum⟩ (Nat.toDigits 10 n) = Nat.toDigits 10 n :=
    trim_eq_self (fun c hc => isWhiteSpace_of_isDigit (hdigits c (mem_of_mem_head? hc)))
      fun c hc => isWhiteSpace_of_isDigit (hdigits c (mem_of_getLast? hc))
  have hsign : splitSign (Nat.toDigits 10 n) = (false, Nat.toDigits 10 n) := by
    unfold splitSign
    split
    · next rest heq => exact absurd (hdigits '-' (heq ▸ mem_cons_self)) (by decide)
    · next rest heq => exact absurd (hdigits '+' (heq ▸ mem_cons_self)) (by decide)
    · rfl
  have hparse : parseI64 (Nat.toDigits 10 n) = some (n : ℤ) := by
    rw [parseI64, hsign]
    dsimp only
    rw [if_pos ⟨hne, all_eq_true.mpr hdigits⟩, Nat.ofDigitChars_ten_toDigits,
      if_neg Bool.false_ne_true, Option.filter_some, if_pos]
    exact decide_eq_true (by omega)
  simp only [literalToValue, htrim, hne, if_false, hparse]

/-! ## What is stored is what was captured -/

theorem structRow_cons {column : Text} {type : ColumnType} {order : Columns} {row : Props}
    {value : Value} {values : List (Text × Value)}
    (hvalue : literalToValue (row.lookup column) type column = .ok value)
    (hrest : structRow order row = .ok values) :
    structRow ((column, type) :: order) row = .ok ((column, value) :: values) := by
  rw [structRow] at hrest ⊢
  rw [mapM_cons, hrest, hvalue]
  rfl

/-- The numbers of a row are numbers of a column. -/
structure AstNodeRow.Fits (row : AstNodeRow) : Prop where
  startByte : row.startByte < 2 ^ 63
  endByte : row.endByte < 2 ^ 63
  startLine : row.startLine < 2 ^ 63
  startCol : row.startCol < 2 ^ 63
  endLine : row.endLine < 2 ^ 63
  endCol : row.endCol < 2 ^ 63
  childIndex : row.childIndex < 2 ^ 63

def nodeValues (relPath language : Text) (row : AstNodeRow) : List (Text × Value) :=
  [("id".toList, .string row.id), ("file_id".toList, .string relPath),
    ("kind".toList, .string row.kind), ("is_named".toList, .bool row.isNamed),
    ("start_byte".toList, .int64 row.startByte), ("end_byte".toList, .int64 row.endByte),
    ("start_line".toList, .int64 row.startLine), ("start_col".toList, .int64 row.startCol),
    ("end_line".toList, .int64 row.endLine), ("end_col".toList, .int64 row.endCol),
    ("field_name".toList, .string row.fieldName), ("child_index".toList, .int64 row.childIndex),
    ("parent_id".toList, .string row.parentId), ("language".toList, .string language)]

theorem structRow_nodeProps (relPath language : Text) {row : AstNodeRow} (h : AstNodeRow.Fits row) :
    structRow astNodeColumns (nodeProps relPath language row) =
      .ok (nodeValues relPath language row) := by
  refine structRow_cons (literalToValue_string _ _) ?_
  refine structRow_cons (literalToValue_string _ _) ?_
  refine structRow_cons (literalToValue_string _ _) ?_
  refine structRow_cons (literalToValue_bool _ _) ?_
  refine structRow_cons (literalToValue_int64 h.startByte _) ?_
  refine structRow_cons (literalToValue_int64 h.endByte _) ?_
  refine structRow_cons (literalToValue_int64 h.startLine _) ?_
  refine structRow_cons (literalToValue_int64 h.startCol _) ?_
  refine structRow_cons (literalToValue_int64 h.endLine _) ?_
  refine structRow_cons (literalToValue_int64 h.endCol _) ?_
  refine structRow_cons (literalToValue_string _ _) ?_
  refine structRow_cons (literalToValue_int64 h.childIndex _) ?_
  refine structRow_cons (literalToValue_string _ _) ?_
  exact structRow_cons (literalToValue_string _ _) rfl

theorem readNode_nodeValues (relPath language : Text) (row : AstNodeRow) :
    readNode (nodeValues relPath language row) = some row := rfl

def childValues (row : AstNodeRow) : List (Text × Value) :=
  [("child_index".toList, .int64 row.childIndex), ("field_name".toList, .string row.fieldName)]

theorem structRow_childProps {row : AstNodeRow} (h : row.childIndex < 2 ^ 63) :
    structRow astChildColumns (childProps row) = .ok (childValues row) :=
  structRow_cons (literalToValue_int64 h _) (structRow_cons (literalToValue_string _ _) rfl)

theorem propOrder_eq {rows : List Props} {schema : Columns} (hne : rows ≠ [])
    (h : ∀ row ∈ rows, row.map Prod.fst = schema.map Prod.fst) : propOrder rows schema = schema := by
  refine filter_eq_self.mpr fun column hcolumn => ?_
  obtain ⟨row, rows, rfl⟩ := exists_cons_of_ne_nil hne
  refine any_eq_true.mpr ⟨row, mem_cons_self, ?_⟩
  rw [h row mem_cons_self, contains_iff_mem]
  exact mem_map_of_mem hcolumn

theorem bulkInsertNodes_eq (relPath language : Text) {rows : List AstNodeRow}
    (hfits : ∀ row ∈ rows, AstNodeRow.Fits row) :
    bulkInsertNodes (rows.map (nodeProps relPath language)) =
      .ok (rows.map (nodeValues relPath language)) := by
  cases rows with
  | nil => rfl
  | cons root rows =>
      have horder : propOrder ((root :: rows).map (nodeProps relPath language)) astNodeColumns =
          astNodeColumns := by
        refine propOrder_eq (by simp) fun props hprops => ?_
        obtain ⟨row, -, rfl⟩ := mem_map.mp hprops
        rfl
      rw [bulkInsertNodes, horder, mapM_map]
      exact mapM_eq_pure fun row hrow => structRow_nodeProps relPath language (hfits row hrow)

theorem bulkInsertEdges_eq (rows : List AstNodeRow)
    (hfits : ∀ row ∈ rows, row.childIndex < 2 ^ 63) :
    bulkInsertEdges (rows.map fun row => ⟨row.parentId, row.id, childProps row⟩) =
      .ok (rows.map fun row => ⟨row.parentId, row.id, childValues row⟩) := by
  cases rows with
  | nil => rfl
  | cons root rows =>
      have horder : propOrder (((root :: rows).map fun row =>
          (⟨row.parentId, row.id, childProps row⟩ : StoredEdge Text)).map StoredEdge.props)
          astChildColumns = astChildColumns := by
        refine propOrder_eq (by simp) fun props hprops => ?_
        rw [map_map] at hprops
        obtain ⟨row, -, rfl⟩ := mem_map.mp hprops
        rfl
      rw [bulkInsertEdges, horder, mapM_map]
      refine mapM_eq_pure fun row hrow => ?_
      rw [Function.comp_apply, structRow_childProps (hfits row hrow)]
      rfl

/-- What a file leaves in the tables when every number fits. -/
theorem persistAstNodes_eq (relPath language : Text) {root : AstNodeRow} {rows : List AstNodeRow}
    (hfits : ∀ row ∈ root :: rows, AstNodeRow.Fits row) :
    persistAstNodes relPath language (root :: rows) =
      .ok ⟨(root :: rows).map (nodeValues relPath language), some (definesEdge relPath root.id),
        ((root :: rows).filter (·.parentId ≠ [])).map fun row =>
          ⟨row.parentId, row.id, childValues row⟩⟩ := by
  have hnodes := bulkInsertNodes_eq relPath language hfits
  have hedges := bulkInsertEdges_eq ((root :: rows).filter (·.parentId ≠ []))
    fun row hrow => (hfits row (mem_of_mem_filter hrow)).childIndex
  rw [persistAstNodes]
  simp only [hnodes, hedges]
  rfl

theorem mapM_readNode (relPath language : Text) {rows : List AstNodeRow}
    {stored : List (List (Text × Value))}
    (hperm : stored.Perm (rows.map (nodeValues relPath language))) :
    ∃ l, stored.mapM readNode = some l ∧ l.Perm rows := by
  have hread : ∀ row, readNode (nodeValues relPath language row) = some row :=
    readNode_nodeValues relPath language
  cases rows with
  | nil =>
      obtain rfl : stored = [] := hperm.eq_nil
      exact ⟨[], rfl, List.Perm.nil⟩
  | cons root rows =>
      let value (v : List (Text × Value)) : AstNodeRow := (readNode v).getD root
      refine ⟨stored.map value, mapM_eq_pure fun v hv => ?_, ?_⟩
      · obtain ⟨row, -, rfl⟩ := mem_map.mp (hperm.mem_iff.mp hv)
        simp only [value, hread]
        rfl
      · refine (hperm.map value).trans (List.Perm.of_eq ?_)
        rw [map_map]
        exact (map_congr_left fun row _ => by simp [value, hread]).trans (map_id _)

theorem fits_of_mem_rowsOf {fileId : Text} : ∀ {f : SyntaxForest} {parentId : Text}
    {childIndex counter : ℕ} {row : AstNodeRow}, childIndex + f.size ≤ 2 ^ 63 →
    row ∈ rowsOf fileId parentId childIndex counter f → AstNodeRow.Fits row
  | .nil, _, _, _, _, _, h => absurd h not_mem_nil
  | .cons field node children rest, parentId, childIndex, counter, row, hsize, h => by
      rw [Forest.size] at hsize
      have hword : ∀ w : UInt32, w.toNat + 1 < 2 ^ 63 := fun w => by
        have := w.toNat_lt
        omega
      rcases mem_cons.mp h with rfl | h
      · exact ⟨Nat.lt_of_succ_lt (hword _), Nat.lt_of_succ_lt (hword _), hword _,
          Nat.lt_of_succ_lt (hword _), hword _, Nat.lt_of_succ_lt (hword _),
          show childIndex < 2 ^ 63 by omega⟩
      · rcases mem_append.mp h with h | h
        · exact fits_of_mem_rowsOf (by omega) h
        · exact fits_of_mem_rowsOf (by omega) h

theorem parentId_ne_nil {fileId : Text} {f : SyntaxForest} {n childIndex counter : ℕ}
    {row : AstNodeRow} (h : row ∈ rowsOf fileId (nodeId fileId n) childIndex counter f) :
    row.parentId ≠ [] := by
  rcases parentId_of_mem_rowsOf h with hp | ⟨m, -, -, hp⟩
  · exact hp ▸ nodeId_ne_nil fileId n
  · exact hp ▸ nodeId_ne_nil fileId m

/-- A tree is captured one row a node, in preorder, each row under its own id and behind
its parent's; the rows in any order are the tree again, and so are the stored ones. -/
theorem ast_lossless (fileId language : Text) (tree : SyntaxTree) :
    ∃ root rows, captureWalk fileId tree = some (root :: rows)
      ∧ (tree.height ≤ maxTreeDepth →
          captureFullAst fileId tree = .ok (some (root :: rows)))
      ∧ (root :: rows).map (fun row => (fieldOf row.fieldName, nodeOf row)) =
          (tree.toForest none).preorder
      ∧ ((root :: rows).map AstNodeRow.id).Nodup
      ∧ root.parentId = [] ∧ (∀ row ∈ rows, row.parentId ≠ []) ∧ ParentsSeen [] (root :: rows)
      ∧ (∀ stored, stored.Perm (root :: rows) → rebuild stored = some tree)
      ∧ (tree.size ≤ 2 ^ 63 → ∃ tables,
          persistAstNodes fileId language (root :: rows) = .ok tables
          ∧ (∀ stored : List (List (Text × Value)), stored.Perm tables.nodes →
              (stored.mapM readNode).bind rebuild = some tree)
          ∧ tables.defines = some (definesEdge fileId root.id)
          ∧ tables.children.map (fun edge => (edge.src, edge.dst)) =
              rows.map fun row => (row.parentId, row.id)) := by
  set root := rowOf (nodeId fileId 0) [] 0 none tree.node with hroot
  set rows := rowsOf fileId (nodeId fileId 0) 0 1 tree.children with hrows
  have hall : rowsOf fileId [] 0 0 (tree.toForest none) = root :: rows := by
    rw [OrderedTree.toForest, rowsOf, rowsOf, append_nil]
  have hparents : ∀ row ∈ rows, row.parentId ≠ [] := fun row hrow => parentId_ne_nil hrow
  have hrebuild : ∀ stored, stored.Perm (root :: rows) → rebuild stored = some tree :=
    fun stored hperm => rebuild_rowsOf fileId tree (hall ▸ hperm)
  have hwalk : captureWalk fileId tree = some (root :: rows) := by rw [captureWalk_eq, hall]
  refine ⟨root, rows, hwalk, ?_, ?_, ?_, rfl, hparents, ?_, hrebuild, ?_⟩
  · intro hheight
    rw [captureFullAst_eq hheight, hwalk]
  · rw [← hall, map_nodeOf_rowsOf]
  · rw [← hall]
    exact nodup_ids_rowsOf fileId [] 0 0 (tree.toForest none)
  · rw [← hall]
    exact parentsSeen_rowsOf fileId (tree.toForest none) [] 0 0 [] (.inl rfl)
  · intro hsize
    have hfits : ∀ row ∈ root :: rows, AstNodeRow.Fits row := by
      intro row hrow
      refine @fits_of_mem_rowsOf fileId (tree.toForest none) [] 0 0 row ?_ (hall ▸ hrow)
      rw [OrderedTree.toForest, Forest.size, Forest.size]
      rw [OrderedTree.size] at hsize
      omega
    refine ⟨_, persistAstNodes_eq fileId language hfits, ?_, rfl, ?_⟩
    · intro stored hperm
      obtain ⟨l, hl, hlperm⟩ := mapM_readNode fileId language hperm
      rw [hl]
      exact hrebuild l hlperm
    · rw [filter_cons_of_neg (by simp [hroot]),
        filter_eq_self.mpr fun row hrow => decide_eq_true (hparents row hrow)]
      simp

end Ast

end CodeGraph
