import CodeGraph.Lib.Forest
import CodeGraph.Lib.SortDedup
import CodeGraph.Text
import Mathlib.Data.Prod.Lex

/-!
# The capture of a syntax tree

`walk` goes over a parse tree with one cursor, named and anonymous nodes alike, and
writes one row a node. The rows are numbered in the order of the visits, and a row
carries the id of its parent and its place among the children, so that the rows of a
file, in whatever order they are read, are the tree again (`rebuild_captureWalk`).
-/

namespace CodeGraph

open List

structure FieldName where
  name : Text
  nonempty : name ≠ []

instance : DecidableEq FieldName := fun a b =>
  decidable_of_iff (a.name = b.name) (by cases a; cases b; simp)

/-- A node of a parse tree. Offsets, rows and columns are the parser's 32-bit numbers. -/
structure SyntaxNode where
  kind : Text
  isNamed : Bool
  startByte : UInt32
  endByte : UInt32
  startRow : UInt32
  startColumn : UInt32
  endRow : UInt32
  endColumn : UInt32
  deriving DecidableEq

/-- The children of a node, each under the field it occupies. -/
abbrev SyntaxForest := Forest (Option FieldName) SyntaxNode

abbrev SyntaxTree := OrderedTree (Option FieldName) SyntaxNode

abbrev TreeCursor := Zipper (Option FieldName) SyntaxNode

namespace Ast

structure AstNodeRow where
  id : Text
  kind : Text
  isNamed : Bool
  startByte : ℕ
  endByte : ℕ
  startLine : ℕ
  startCol : ℕ
  endLine : ℕ
  endCol : ℕ
  fieldName : Text
  childIndex : ℕ
  parentId : Text
  deriving DecidableEq

/-- `{file_id}::ast::{counter}` -/
def nodeId (fileId : Text) (counter : ℕ) : Text :=
  fileId ++ "::ast::".toList ++ Nat.toDigits 10 counter

def fieldText (field : Option FieldName) : Text :=
  match field with
  | none => []
  | some f => f.name

/-- Lines count from 1. -/
def rowOf (id parentId : Text) (childIndex : ℕ) (field : Option FieldName) (node : SyntaxNode) :
    AstNodeRow where
  id
  kind := node.kind
  isNamed := node.isNamed
  startByte := node.startByte.toNat
  endByte := node.endByte.toNat
  startLine := node.startRow.toNat + 1
  startCol := node.startColumn.toNat
  endLine := node.endRow.toNat + 1
  endCol := node.endColumn.toNat
  fieldName := fieldText field
  childIndex
  parentId

/-- The cursor, the counter and the rows so far. -/
structure Walked where
  cursor : TreeCursor
  counter : ℕ
  out : List AstNodeRow

/-- `goto_first_child`, the walk from there, and `goto_parent`. -/
def intoChildren (walkChildren : Walked → Option Walked) (s : Walked) : Option Walked :=
  match s.cursor.firstChild with
  | none => some s
  | some child => do
      let s ← walkChildren { s with cursor := child }
      some { s with cursor := s.cursor.parent.getD s.cursor }

/-- Walks the current node and its siblings, and into each of them first. -/
def walk (fileId : Text) : ℕ → Text → ℕ → Walked → Option Walked
  | 0, _, _, _ => none
  | fuel + 1, parentId, childIndex, ⟨cursor, counter, out⟩ => do
      let id := nodeId fileId counter
      let row := rowOf id parentId childIndex (cursor.label none) cursor.focus.node
      let s ← intoChildren (walk fileId fuel id 0) ⟨cursor, counter + 1, out ++ [row]⟩
      match s.cursor.nextSibling with
      | none => some s
      | some next => walk fileId fuel parentId (childIndex + 1) { s with cursor := next }

/-- One step of fuel for every node. -/
def captureWalk (fileId : Text) (tree : SyntaxTree) : Option (List AstNodeRow) :=
  (walk fileId tree.size [] 0 ⟨.ofTree tree, 0, []⟩).map Walked.out

def maxTreeDepth : ℕ := 512

/-- Whether a node of the trees on the stack is below the limit; the top of the stack is
the head of the list. -/
def treeTooDeep (limit : ℕ) : List (SyntaxTree × ℕ) → Bool
  | [] => false
  | (tree, depth) :: stack =>
      if limit < depth then true
      else treeTooDeep limit ((tree.children.trees.map (·, depth + 1)).reverse ++ stack)
  termination_by stack => (stack.map fun e => e.1.size).sum
  decreasing_by
    have hsize := Forest.sum_size_trees tree.children
    simp only [map_append, map_reverse, map_map, sum_append, sum_reverse,
      map_cons, sum_cons, Function.comp_def] at hsize ⊢
    rw [hsize, OrderedTree.size]
    omega

def captureFullAst (fileId : Text) (tree : SyntaxTree) : Except Text (Option (List AstNodeRow)) :=
  if treeTooDeep maxTreeDepth [(tree, 1)] then
    .error ("ast_capture: parse_tree_too_deep: exceeds ".toList ++ Nat.toDigits 10 maxTreeDepth ++
      " levels".toList)
  else .ok (captureWalk fileId tree)

/-! ## The rows of a forest -/

/-- The rows of a row of siblings, numbered from `counter` on. -/
def rowsOf (fileId : Text) : Text → ℕ → ℕ → SyntaxForest → List AstNodeRow
  | _, _, _, .nil => []
  | parentId, childIndex, counter, .cons field node children rest =>
      rowOf (nodeId fileId counter) parentId childIndex field node ::
        (rowsOf fileId (nodeId fileId counter) 0 (counter + 1) children ++
          rowsOf fileId parentId (childIndex + 1) (counter + 1 + children.size) rest)

/-- What a walk over a forest does: it writes the rows and keeps the parent. -/
def Walks (fileId : Text) (f : SyntaxForest) : Prop :=
  ∀ (fuel : ℕ) (parentId : Text) (childIndex : ℕ) (s : Walked), s.cursor.ahead none = f →
    f.size ≤ fuel → ∃ cursor, walk fileId fuel parentId childIndex s =
        some ⟨cursor, s.counter + f.size, s.out ++ rowsOf fileId parentId childIndex s.counter f⟩ ∧
      cursor.parent = s.cursor.parent

theorem intoChildren_walk {fileId : Text} (s : Walked) (h : Walks fileId s.cursor.focus.children)
    (fuel : ℕ) (hfuel : s.cursor.focus.children.size ≤ fuel) (id : Text) :
    intoChildren (walk fileId fuel id 0) s =
      some ⟨s.cursor, s.counter + s.cursor.focus.children.size,
        s.out ++ rowsOf fileId id 0 s.counter s.cursor.focus.children⟩ := by
  unfold intoChildren
  cases hchild : s.cursor.firstChild with
  | none =>
      rw [Zipper.firstChild_eq_none.mp hchild]
      simp [Forest.size, rowsOf]
  | some child =>
      obtain ⟨last, hwalk, hparent⟩ :=
        h fuel id 0 { s with cursor := child } (Zipper.ahead_firstChild hchild none) hfuel
      simp only [hwalk, hparent, Zipper.parent_firstChild hchild, Option.bind_eq_bind,
        Option.bind_some, Option.getD_some]

theorem walks_cons {fileId : Text} {field : Option FieldName} {node : SyntaxNode}
    {children rest : SyntaxForest} (hchildren : Walks fileId children)
    (hrest : Walks fileId rest) : Walks fileId (.cons field node children rest) := by
  intro fuel parentId childIndex s hahead hfuel
  obtain ⟨cursor, counter, out⟩ := s
  rw [Forest.size] at hfuel
  obtain ⟨fuel, rfl⟩ : ∃ k, fuel = k + 1 := ⟨fuel - 1, by omega⟩
  obtain ⟨rfl, rfl, rfl, hright⟩ := Forest.cons.inj hahead
  dsimp only at hchildren hfuel hright ⊢
  let row := rowOf (nodeId fileId counter) parentId childIndex (cursor.label none) cursor.focus.node
  have hdown := intoChildren_walk ⟨cursor, counter + 1, out ++ [row]⟩ hchildren fuel
    (by dsimp only; omega) (nodeId fileId counter)
  rw [Forest.size, rowsOf, walk, hdown, Option.bind_eq_bind, Option.bind_some]
  cases hnext : cursor.nextSibling with
  | none =>
      rw [Zipper.nextSibling_eq_none.mp hnext] at hright
      subst hright
      refine ⟨cursor, ?_, rfl⟩
      simp [Forest.size, rowsOf, Nat.add_assoc, row]
  | some next =>
      obtain ⟨last, hwalk, hparent⟩ := hrest fuel parentId (childIndex + 1)
        ⟨next, counter + 1 + cursor.focus.children.size, out ++ [row] ++
          rowsOf fileId (nodeId fileId counter) 0 (counter + 1) cursor.focus.children⟩
        ((Zipper.ahead_nextSibling hnext none).trans hright) (by omega)
      refine ⟨last, hwalk.trans ?_, hparent.trans (Zipper.parent_nextSibling hnext)⟩
      simp [Nat.add_assoc, row]

theorem walks (fileId : Text) (f : SyntaxForest) : Walks fileId f := by
  induction f with
  | nil =>
      intro fuel parentId childIndex s h
      cases h
  | cons field node children rest hchildren hrest => exact walks_cons hchildren hrest

theorem captureWalk_eq (fileId : Text) (tree : SyntaxTree) :
    captureWalk fileId tree = some (rowsOf fileId [] 0 0 (tree.toForest none)) := by
  obtain ⟨cursor, hwalk, -⟩ := walks fileId (tree.toForest none) tree.size [] 0
    ⟨.ofTree tree, 0, []⟩ rfl le_rfl
  rw [captureWalk, hwalk]
  rfl

/-! ## Ids and parents -/

theorem nodeId_injective (fileId : Text) : Function.Injective (nodeId fileId) := by
  intro m n h
  rw [← @Nat.ofDigitChars_ten_toDigits m, append_cancel_left h, Nat.ofDigitChars_ten_toDigits]

theorem nodeId_ne_nil (fileId : Text) (n : ℕ) : nodeId fileId n ≠ [] := by
  simp [nodeId]

theorem map_id_rowsOf (fileId : Text) : ∀ (f : SyntaxForest) (parentId : Text)
    (childIndex counter : ℕ), (rowsOf fileId parentId childIndex counter f).map AstNodeRow.id =
      (List.range' counter f.size).map (nodeId fileId)
  | .nil, _, _, _ => rfl
  | .cons field node children rest, parentId, childIndex, counter => by
      rw [rowsOf, map_cons, map_append, map_id_rowsOf fileId children,
        map_id_rowsOf fileId rest, Forest.size, ← List.range'_append_1, ← List.range'_append_1]
      simp [rowOf, Nat.add_assoc]

theorem length_rowsOf (fileId parentId : Text) (childIndex counter : ℕ) (f : SyntaxForest) :
    (rowsOf fileId parentId childIndex counter f).length = f.size := by
  have h := congrArg List.length (map_id_rowsOf fileId f parentId childIndex counter)
  simpa using h

theorem nodup_ids_rowsOf (fileId parentId : Text) (childIndex counter : ℕ) (f : SyntaxForest) :
    ((rowsOf fileId parentId childIndex counter f).map AstNodeRow.id).Nodup := by
  rw [map_id_rowsOf]
  exact (nodup_range' 1).map (nodeId_injective fileId)

/-- The parent of every row is empty or among the ids seen before it. -/
def ParentsSeen : List Text → List AstNodeRow → Prop
  | _, [] => True
  | seen, row :: rows =>
      (row.parentId = [] ∨ row.parentId ∈ seen) ∧ ParentsSeen (row.id :: seen) rows

theorem ParentsSeen.append : ∀ {rows rows' : List AstNodeRow} {seen : List Text},
    ParentsSeen seen rows → (∀ seen', seen ⊆ seen' → ParentsSeen seen' rows') →
    ParentsSeen seen (rows ++ rows')
  | [], _, seen, _, h' => h' seen (List.Subset.refl seen)
  | _ :: _, _, _, h, h' =>
      ⟨h.1, h.2.append fun seen' hsub => h' seen' fun _ hid => hsub (mem_cons_of_mem _ hid)⟩

theorem parentsSeen_rowsOf (fileId : Text) : ∀ (f : SyntaxForest) (parentId : Text)
    (childIndex counter : ℕ) (seen : List Text), parentId = [] ∨ parentId ∈ seen →
    ParentsSeen seen (rowsOf fileId parentId childIndex counter f)
  | .nil, _, _, _, _, _ => trivial
  | .cons field node children rest, parentId, childIndex, counter, seen, h => by
      refine ⟨h, (parentsSeen_rowsOf fileId children _ _ _ _ (.inr mem_cons_self)).append ?_⟩
      intro seen' hsub
      exact parentsSeen_rowsOf fileId rest _ _ _ _
        (h.imp_right fun hmem => hsub (mem_cons_of_mem _ hmem))

theorem parentId_of_mem_rowsOf {fileId : Text} : ∀ {f : SyntaxForest} {parentId : Text}
    {childIndex counter : ℕ} {row : AstNodeRow},
    row ∈ rowsOf fileId parentId childIndex counter f →
    row.parentId = parentId ∨
      ∃ n, counter ≤ n ∧ n < counter + f.size ∧ row.parentId = nodeId fileId n
  | .nil, _, _, _, _, h => absurd h not_mem_nil
  | .cons field node children rest, parentId, childIndex, counter, row, h => by
      rw [Forest.size]
      rcases mem_cons.mp h with rfl | h
      · exact .inl rfl
      · rcases mem_append.mp h with h | h
        · rcases parentId_of_mem_rowsOf h with hp | ⟨n, hn, hlt, hp⟩
          · exact .inr ⟨counter, le_rfl, by omega, hp⟩
          · exact .inr ⟨n, by omega, by omega, hp⟩
        · rcases parentId_of_mem_rowsOf h with hp | ⟨n, hn, hlt, hp⟩
          · exact .inl hp
          · exact .inr ⟨n, by omega, by omega, hp⟩

/-! ## Reading the rows back -/

def fieldOf (text : Text) : Option FieldName :=
  if h : text = [] then none else some ⟨text, h⟩

def nodeOf (row : AstNodeRow) : SyntaxNode where
  kind := row.kind
  isNamed := row.isNamed
  startByte := UInt32.ofNat row.startByte
  endByte := UInt32.ofNat row.endByte
  startRow := UInt32.ofNat (row.startLine - 1)
  startColumn := UInt32.ofNat row.startCol
  endRow := UInt32.ofNat (row.endLine - 1)
  endColumn := UInt32.ofNat row.endCol

/-- The rows by parent, and by place under one parent. -/
def ordered (rows : List AstNodeRow) : List AstNodeRow :=
  SortDedup.sortByKey (fun row => toLex (row.parentId, row.childIndex)) rows

def childrenOf (rows : List AstNodeRow) (id : Text) : List AstNodeRow :=
  (ordered rows).filter (·.parentId = id)

/-- The children of an id, with what is below them. -/
def rebuildForest (rows : List AstNodeRow) : ℕ → Text → SyntaxForest
  | 0, _ => .nil
  | fuel + 1, id => (childrenOf rows id).foldr
      (fun row rest => .cons (fieldOf row.fieldName) (nodeOf row) (rebuildForest rows fuel row.id)
        rest) .nil

/-- The tree of the one row without a parent. -/
def rebuild (rows : List AstNodeRow) : Option SyntaxTree :=
  match rebuildForest rows rows.length [] with
  | .cons _ node children .nil => some ⟨node, children⟩
  | _ => none

theorem fieldOf_fieldText (field : Option FieldName) : fieldOf (fieldText field) = field := by
  cases field with
  | none => rfl
  | some f => exact dif_neg f.nonempty

theorem nodeOf_rowOf (id parentId : Text) (childIndex : ℕ) (field : Option FieldName)
    (node : SyntaxNode) : nodeOf (rowOf id parentId childIndex field node) = node := by
  simp [nodeOf, rowOf]

/-- The rows of the siblings alone. -/
def topRows (fileId : Text) : Text → ℕ → ℕ → SyntaxForest → List AstNodeRow
  | _, _, _, .nil => []
  | parentId, childIndex, counter, .cons field node children rest =>
      rowOf (nodeId fileId counter) parentId childIndex field node ::
        topRows fileId parentId (childIndex + 1) (counter + 1 + children.size) rest

theorem le_childIndex_of_mem_topRows {fileId : Text} : ∀ {f : SyntaxForest} {parentId : Text}
    {childIndex counter : ℕ} {row : AstNodeRow},
    row ∈ topRows fileId parentId childIndex counter f → childIndex ≤ row.childIndex
  | .nil, _, _, _, _, h => absurd h not_mem_nil
  | .cons field node children rest, parentId, childIndex, counter, row, h => by
      rcases mem_cons.mp h with rfl | h
      · exact le_rfl
      · have := le_childIndex_of_mem_topRows h
        omega

theorem pairwise_topRows (fileId : Text) : ∀ (f : SyntaxForest) (parentId : Text)
    (childIndex counter : ℕ), (topRows fileId parentId childIndex counter f).Pairwise
      fun a b => a.childIndex < b.childIndex
  | .nil, _, _, _ => List.Pairwise.nil
  | .cons _ _ _ rest, parentId, childIndex, _ =>
      pairwise_cons.mpr ⟨fun _ hrow => le_childIndex_of_mem_topRows hrow,
        pairwise_topRows fileId rest parentId (childIndex + 1) _⟩

theorem childrenOf_eq {rows l : List AstNodeRow} {id : Text}
    (hperm : (rows.filter (·.parentId = id)).Perm l)
    (hl : l.Pairwise fun a b => a.childIndex < b.childIndex) : childrenOf rows id = l := by
  have hperm' : (childrenOf rows id).Perm l :=
    ((perm_insertionSort _ rows).filter _).trans hperm
  have hsorted : (childrenOf rows id).Pairwise fun a b => a.childIndex ≤ b.childIndex := by
    refine (pairwise_filter.mpr ((SortDedup.pairwise_sortByKey _ rows).imp ?_))
    intro a b hle ha hb
    rcases Prod.Lex.toLex_le_toLex.mp hle with hlt | ⟨-, hle⟩
    · rw [of_decide_eq_true ha, of_decide_eq_true hb] at hlt
      exact absurd hlt (lt_irrefl _)
    · exact hle
  have hnodup : (l.map AstNodeRow.childIndex).Nodup := pairwise_map.mpr (hl.imp ne_of_lt)
  refine hperm'.eq_of_pairwise ?_ hsorted (hl.imp le_of_lt)
  intro a b ha hb hab hba
  exact inj_on_of_nodup_map hnodup (hperm'.mem_iff.mp ha) hb (le_antisymm hab hba)

/-- A parent outside the numbers from `counter` on. -/
def Before (fileId : Text) (counter : ℕ) (parentId : Text) : Prop :=
  ∀ n, counter ≤ n → parentId ≠ nodeId fileId n

theorem Before.mono {fileId parentId : Text} {m n : ℕ} (h : Before fileId m parentId)
    (hmn : m ≤ n) : Before fileId n parentId := fun k hk => h k (hmn.trans hk)

theorem before_nodeId (fileId : Text) (n : ℕ) : Before fileId (n + 1) (nodeId fileId n) := by
  intro m hm h
  have := nodeId_injective fileId h
  omega

theorem before_nil (fileId : Text) (n : ℕ) : Before fileId n [] :=
  fun m _ h => nodeId_ne_nil fileId m h.symm

theorem filter_rowsOf_of_ne {fileId parentId id : Text} {childIndex counter : ℕ}
    {f : SyntaxForest} (hne : parentId ≠ id)
    (hout : ∀ n, counter ≤ n → n < counter + f.size → nodeId fileId n ≠ id) :
    (rowsOf fileId parentId childIndex counter f).filter (·.parentId = id) = [] := by
  refine filter_eq_nil_iff.mpr fun row hrow => ?_
  rw [decide_eq_true_eq]
  rcases parentId_of_mem_rowsOf hrow with hp | ⟨n, hn, hlt, hp⟩
  · exact hp ▸ hne
  · exact hp ▸ hout n hn hlt

@[simp] theorem parentId_rowOf (id parentId : Text) (childIndex : ℕ) (field : Option FieldName)
    (node : SyntaxNode) : (rowOf id parentId childIndex field node).parentId = parentId := rfl

theorem filter_rowsOf_self {fileId : Text} : ∀ (f : SyntaxForest) {parentId : Text}
    (childIndex : ℕ) {counter : ℕ}, Before fileId counter parentId →
    (rowsOf fileId parentId childIndex counter f).filter (·.parentId = parentId) =
      topRows fileId parentId childIndex counter f
  | .nil, _, _, _, _ => rfl
  | .cons field node children rest, parentId, childIndex, counter, h => by
      rw [rowsOf, filter_cons_of_pos (by simp), filter_append,
        filter_rowsOf_of_ne (h counter le_rfl).symm fun n hn _ => (h n (by omega)).symm,
        filter_rowsOf_self rest (childIndex + 1) (h.mono (by omega)), nil_append, topRows]

/-- Among the rows of a forest, the children of its nodes are those of the forest. -/
def HoldsChildren (fileId : Text) (rows : List AstNodeRow) (parentId : Text)
    (childIndex counter : ℕ) (f : SyntaxForest) : Prop :=
  ∀ n, counter ≤ n → n < counter + f.size →
    (rows.filter (·.parentId = nodeId fileId n)).Perm
      ((rowsOf fileId parentId childIndex counter f).filter (·.parentId = nodeId fileId n))

section

variable {fileId parentId : Text} {rows : List AstNodeRow} {childIndex counter : ℕ}
  {field : Option FieldName} {node : SyntaxNode} {children rest : SyntaxForest}

theorem HoldsChildren.first
    (h : HoldsChildren fileId rows parentId childIndex counter (.cons field node children rest))
    (hp : Before fileId counter parentId) :
    childrenOf rows (nodeId fileId counter) =
      topRows fileId (nodeId fileId counter) 0 (counter + 1) children := by
  have hne := hp counter le_rfl
  refine childrenOf_eq ((h counter le_rfl (by rw [Forest.size]; omega)).trans ?_)
    (pairwise_topRows _ _ _ _ _)
  have hself := filter_rowsOf_self children 0 (before_nodeId fileId counter)
  have hrest : (rowsOf fileId parentId (childIndex + 1) (counter + 1 + children.size) rest).filter
      (·.parentId = nodeId fileId counter) = [] :=
    filter_rowsOf_of_ne hne fun n hn _ heq => by
      have := nodeId_injective fileId heq
      omega
  rw [rowsOf, filter_cons_of_neg (by rwa [decide_eq_true_eq]), filter_append, hself,
    hrest, append_nil]

theorem HoldsChildren.below
    (h : HoldsChildren fileId rows parentId childIndex counter (.cons field node children rest))
    (hp : Before fileId counter parentId) :
    HoldsChildren fileId rows (nodeId fileId counter) 0 (counter + 1) children := by
  intro n hn hlt
  have hne := hp n (by omega)
  refine (h n (by omega) (by rw [Forest.size]; omega)).trans (List.Perm.of_eq ?_)
  have hrest : (rowsOf fileId parentId (childIndex + 1) (counter + 1 + children.size) rest).filter
      (·.parentId = nodeId fileId n) = [] :=
    filter_rowsOf_of_ne hne fun m hm _ heq => by
      have := nodeId_injective fileId heq
      omega
  rw [rowsOf, filter_cons_of_neg (by rwa [decide_eq_true_eq]), filter_append, hrest,
    append_nil]

theorem HoldsChildren.behind
    (h : HoldsChildren fileId rows parentId childIndex counter (.cons field node children rest))
    (hp : Before fileId counter parentId) :
    HoldsChildren fileId rows parentId (childIndex + 1) (counter + 1 + children.size) rest := by
  intro n hn hlt
  have hne := hp n (by omega)
  refine (h n (by omega) (by rw [Forest.size]; omega)).trans (List.Perm.of_eq ?_)
  have hchildren : (rowsOf fileId (nodeId fileId counter) 0 (counter + 1) children).filter
      (·.parentId = nodeId fileId n) = [] :=
    filter_rowsOf_of_ne (before_nodeId fileId counter n (by omega)) fun m _ hm heq => by
      have := nodeId_injective fileId heq
      omega
  rw [rowsOf, filter_cons_of_neg (by rwa [decide_eq_true_eq]), filter_append, hchildren,
    nil_append]

end

theorem foldr_topRows {fileId : Text} {rows : List AstNodeRow} : ∀ (f : SyntaxForest)
    {fuel : ℕ} {parentId : Text} {childIndex counter : ℕ}, f.height ≤ fuel + 1 →
    Before fileId counter parentId → HoldsChildren fileId rows parentId childIndex counter f →
    (topRows fileId parentId childIndex counter f).foldr (fun row rest =>
      .cons (fieldOf row.fieldName) (nodeOf row) (rebuildForest rows fuel row.id) rest) .nil = f
  | .nil, _, _, _, _, _, _, _ => rfl
  | .cons field node children rest, fuel, parentId, childIndex, counter, hheight, hp, h => by
      rw [Forest.height] at hheight
      have hbelow : rebuildForest rows fuel (nodeId fileId counter) = children := by
        cases fuel with
        | zero =>
            cases children with
            | nil => rfl
            | cons =>
                rw [Forest.height] at hheight
                omega
        | succ fuel =>
            rw [rebuildForest, h.first hp]
            exact foldr_topRows children (by omega) (before_nodeId fileId counter) (h.below hp)
      rw [topRows, foldr_cons, foldr_topRows rest (by omega) (hp.mono (by omega)) (h.behind hp),
        nodeOf_rowOf]
      show Forest.cons (fieldOf (fieldText field)) node _ rest = _
      rw [fieldOf_fieldText]
      exact congrArg (Forest.cons field node · rest) hbelow

/-- Whatever order the rows come in, they are the tree. -/
theorem rebuild_rowsOf (fileId : Text) (tree : SyntaxTree) {rows : List AstNodeRow}
    (hperm : rows.Perm (rowsOf fileId [] 0 0 (tree.toForest none))) :
    rebuild rows = some tree := by
  have hp := before_nil fileId 0
  have hholds : HoldsChildren fileId rows [] 0 0 (tree.toForest none) :=
    fun n _ _ => hperm.filter _
  have htop : childrenOf rows [] = topRows fileId [] 0 0 (tree.toForest none) := by
    refine childrenOf_eq ((hperm.filter _).trans (List.Perm.of_eq ?_)) (pairwise_topRows _ _ _ _ _)
    exact filter_rowsOf_self _ 0 hp
  have hlen : rows.length = (tree.toForest none).size :=
    hperm.length_eq.trans (length_rowsOf _ _ _ _ _)
  have hforest : rebuildForest rows rows.length [] = tree.toForest none := by
    obtain ⟨fuel, hfuel⟩ : ∃ k, rows.length = k + 1 := by
      rw [hlen, OrderedTree.toForest, Forest.size]
      exact ⟨tree.children.size, by rw [Forest.size]; omega⟩
    rw [hfuel, rebuildForest, htop]
    refine foldr_topRows _ ?_ hp hholds
    rw [← hfuel, hlen]
    exact Forest.height_le_size _
  rw [rebuild, hforest]
  rfl

theorem map_nodeOf_rowsOf (fileId : Text) : ∀ (f : SyntaxForest) (parentId : Text)
    (childIndex counter : ℕ), (rowsOf fileId parentId childIndex counter f).map
      (fun row => (fieldOf row.fieldName, nodeOf row)) = f.preorder
  | .nil, _, _, _ => rfl
  | .cons field node children rest, parentId, childIndex, counter => by
      rw [rowsOf, map_cons, map_append, map_nodeOf_rowsOf fileId children,
        map_nodeOf_rowsOf fileId rest, nodeOf_rowOf, Forest.preorder]
      show (fieldOf (fieldText field), node) :: _ = _
      rw [fieldOf_fieldText]

/-! ## The depth limit -/

theorem treeTooDeep_eq_false_iff (limit : ℕ) (stack : List (SyntaxTree × ℕ)) :
    treeTooDeep limit stack = false ↔ ∀ e ∈ stack, e.2 + e.1.children.height ≤ limit := by
  fun_induction treeTooDeep with
  | case1 => simp
  | case2 tree depth stack hlt =>
      refine iff_of_false (by simp) fun h => ?_
      have := h (tree, depth) mem_cons_self
      dsimp only at this
      omega
  | case3 tree depth stack hle ih =>
      rw [ih, forall_mem_append, forall_mem_cons]
      refine and_congr_left fun _ => ?_
      have hheight : depth + tree.children.height ≤ limit ↔
          ∀ t ∈ tree.children.trees, depth + 1 + t.children.height ≤ limit := by
        have := Forest.height_le_iff (n := limit - depth) (f := tree.children)
        simp only [OrderedTree.height] at this
        constructor
        · intro h t ht
          have := this.mp (by omega) t ht
          omega
        · intro h
          have := this.mpr fun t ht => by have := h t ht; omega
          omega
      rw [hheight]
      simp

/-- A tree within the limit is captured as it is. -/
theorem captureFullAst_eq {tree : SyntaxTree} (h : tree.height ≤ maxTreeDepth) (fileId : Text) :
    captureFullAst fileId tree = .ok (captureWalk fileId tree) := by
  have hdeep : treeTooDeep maxTreeDepth [(tree, 1)] = false := by
    rw [treeTooDeep_eq_false_iff]
    simpa [OrderedTree.height] using h
  rw [captureFullAst, hdeep]
  rfl

end Ast

end CodeGraph
