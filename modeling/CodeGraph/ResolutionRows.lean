import CodeGraph.AmbiguityPolicy
import CodeGraph.GraphSchema
import CodeGraph.IndexGraph
import CodeGraph.Lib.Unmet

/-!
# Resolution rows

The rows the resolvers write behind an index, the tables these rows go to, and
the buffer in which a run stages them. The buffer writes a row once: not when
the store has its key, nor when the run has staged it (`queued_addAll`).
-/

namespace CodeGraph

namespace Resolver

open Schema AmbiguityPolicy Unmet

/-! ## Tables -/

/-- The labels of the nodes that the rows join. -/
inductive EndLabel where
  | file
  | stdlibSymbol
  | symbol (label : SymbolLabel)
  deriving DecidableEq

def EndLabel.nodeLabel : EndLabel → NodeLabel
  | file => .file
  | stdlibSymbol => .stdlibSymbol
  | symbol .module => .module
  | symbol .function => .function
  | symbol .method => .method
  | symbol .struct => .struct
  | symbol .enum => .enum
  | symbol .variant => .variant
  | symbol .trait => .trait
  | symbol .field => .field
  | symbol .constant => .constant
  | symbol .typeAlias => .typeAlias
  | symbol .imported => .imported
  | symbol .callSite => .callSite

def EndLabel.text (label : EndLabel) : Text := label.nodeLabel.text

inductive RelKind where
  | imports
  | calls
  | implements
  | extension
  | uses
  deriving DecidableEq

def RelKind.text : RelKind → Text
  | imports => "Imports".toList
  | calls => "Calls".toList
  | implements => "Implements".toList
  | extension => "Extends".toList
  | uses => "Uses".toList

/-- A table of resolution rows: what its rows say, and the labels of their ends. -/
structure Table where
  kind : RelKind
  fromLabel : EndLabel
  toLabel : EndLabel
  deriving DecidableEq

def Table.name (t : Table) : Text :=
  t.kind.text ++ '_' :: t.fromLabel.text ++ '_' :: t.toLabel.text

def isKnownRelTable (t : Table) : Bool := relTables.any fun d => d.name.toList = t.name

def callables : List EndLabel := [.symbol .function, .symbol .method]

def types : List EndLabel := [.symbol .struct, .symbol .enum, .symbol .trait, .symbol .typeAlias]

/-- The table of the caller's row, for a call by `callerLabel` of `targetLabel`. A
target that is a type is used, not called. -/
def callRelTable (callerLabel targetLabel : EndLabel) : Option Table :=
  if callerLabel ∈ callables then
    if targetLabel ∈ callables then some ⟨.calls, callerLabel, targetLabel⟩
    else if targetLabel ∈ types then some ⟨.uses, callerLabel, targetLabel⟩
    else none
  else none

/-- The labels of the targets a call site can hold a row of its own to. -/
def siteTargets : List EndLabel :=
  [.symbol .function, .symbol .method, .stdlibSymbol, .symbol .struct]

def callSiteRelTable (targetLabel : EndLabel) : Option Table :=
  if targetLabel ∈ siteTargets then some ⟨.calls, .symbol .callSite, targetLabel⟩ else none

/-- The tables that the resets of calls go through. -/
def Table.isCall (t : Table) : Bool := t.kind = .calls

def Table.isSite (t : Table) : Bool := t.isCall && t.fromLabel = .symbol .callSite

def Table.isMacro (t : Table) : Bool := t.isCall && t.toLabel = .stdlibSymbol

/-! ## Rows -/

abbrev RowKey := Table × Text × Text

structure RelRow where
  table : Table
  source : Text
  target : Text
  confidence : ℚ
  method : Text
  deriving DecidableEq

namespace RelRow

def key (r : RelRow) : RowKey := (r.table, r.source, r.target)

end RelRow

def resolutionLabel : Evidence → Text
  | .uniqueGlobal => "unique-match".toList
  | .receiverBound => "receiver-type".toList
  | .importMatch => "import-scope-lookup".toList
  | .receiverLocalBinding => "receiver-local-binding".toList
  | .receiverReturnType => "receiver-return-type".toList
  | .sameFileUnique => "same-file-unique".toList
  | .packageProximity => "package-proximity".toList
  | .macroExpansion => "macro-expansion".toList
  | .macroReceiverType => "macro-expansion-receiver-type".toList
  | .cfgSelected => "cfg-selected".toList

/-- The method of a row the language server gave. -/
def lspDefinition : Text := "lsp-definition".toList

/-- A node table has the id. The standard library's symbols are created before a
row to them is staged. -/
def HasNode (ns : Multiset Node) (label : EndLabel) (id : Text) : Prop :=
  match label with
  | .file => (.file, id) ∈ ns.map Keyed.key
  | .stdlibSymbol => True
  | .symbol label => (.symbol label, id) ∈ ns.map Keyed.key

instance (ns : Multiset Node) : (label : EndLabel) → (id : Text) → Decidable (HasNode ns label id)
  | .file, _ => inferInstanceAs (Decidable (_ ∈ _))
  | .stdlibSymbol, _ => inferInstanceAs (Decidable True)
  | .symbol _, _ => inferInstanceAs (Decidable (_ ∈ _))

/-- The table is declared and both ends of a row under the key are there: an insert
matches them first. -/
def Joins (ns : Multiset Node) (k : RowKey) : Prop :=
  isKnownRelTable k.1 ∧ HasNode ns k.1.fromLabel k.2.1 ∧ HasNode ns k.1.toLabel k.2.2

instance (ns : Multiset Node) (k : RowKey) : Decidable (Joins ns k) :=
  inferInstanceAs (Decidable (_ ∧ _))

/-- Creates the rows whose ends are there. -/
def insertEdges (ns : Multiset Node) (rows edges : List RelRow) : List RelRow :=
  rows ++ edges.filter fun r => Joins ns r.key

/-- Creates a row unless its key is there. -/
def insertEdgeIfAbsent (ns : Multiset Node) (rows : List RelRow) (r : RelRow) : List RelRow :=
  if r.key ∈ rows.map RelRow.key then rows else insertEdges ns rows [r]

/-! ## The buffer -/

inductive AddOutcome where
  | inserted
  | alreadyPersisted
  | duplicateInRun
  deriving DecidableEq

/-- The rows to write, the keys the store had when the run started and those
staged since. -/
structure EdgeBuffer where
  queued : List RelRow := []
  persisted : Finset RowKey
  staged : Finset RowKey := ∅

namespace EdgeBuffer

def add (buf : EdgeBuffer) (r : RelRow) : EdgeBuffer × AddOutcome :=
  if r.key ∈ buf.persisted then (buf, .alreadyPersisted)
  else if r.key ∈ buf.staged then (buf, .duplicateInRun)
  else
    ({ buf with queued := buf.queued ++ [r], staged := insert r.key buf.staged }, .inserted)

def addAll (buf : EdgeBuffer) (rows : List RelRow) : EdgeBuffer :=
  rows.foldl (fun buf r => (buf.add r).1) buf

/-- Writes the queued rows. -/
def flush (buf : EdgeBuffer) (ns : Multiset Node) (rows : List RelRow) : List RelRow :=
  insertEdges ns rows buf.queued

theorem queued_addAll (buf : EdgeBuffer) (rows : List RelRow) :
    (buf.addAll rows).queued =
      buf.queued ++ unmet RelRow.key rows (buf.persisted ∪ buf.staged) := by
  induction rows generalizing buf with
  | nil => simp [addAll, unmet]
  | cons r rows ih =>
      have hstep : buf.addAll (r :: rows) = (buf.add r).1.addAll rows := rfl
      rw [hstep, ih, unmet, add]
      by_cases hp : r.key ∈ buf.persisted
      · rw [if_pos hp, if_pos (Finset.mem_union_left _ hp)]
      · by_cases hs : r.key ∈ buf.staged
        · rw [if_neg hp, if_pos hs, if_pos (Finset.mem_union_right _ hs)]
        · have hnot : r.key ∉ buf.persisted ∪ buf.staged := by
            simp [hp, hs]
          rw [if_neg hp, if_neg hs, if_neg hnot]
          simp [Finset.union_insert]

end EdgeBuffer

/-! ## Which keys and rows are there -/

theorem mem_insertEdges {ns : Multiset Node} {rows edges : List RelRow} {r : RelRow} :
    r ∈ insertEdges ns rows edges ↔ r ∈ rows ∨ r ∈ edges ∧ Joins ns r.key := by
  simp [insertEdges]

def HasKey (rows : List RelRow) (k : RowKey) : Prop := ∃ r ∈ rows, r.key = k

theorem hasKey_insertEdges {ns : Multiset Node} {rows edges : List RelRow} {k : RowKey} :
    HasKey (insertEdges ns rows edges) k ↔ HasKey rows k ∨ HasKey edges k ∧ Joins ns k := by
  simp only [HasKey, mem_insertEdges]
  constructor
  · rintro ⟨r, hr | ⟨hr, hjoins⟩, rfl⟩
    · exact Or.inl ⟨r, hr, rfl⟩
    · exact Or.inr ⟨⟨r, hr, rfl⟩, hjoins⟩
  · rintro (⟨r, hr, rfl⟩ | ⟨⟨r, hr, rfl⟩, hjoins⟩)
    · exact ⟨r, Or.inl hr, rfl⟩
    · exact ⟨r, Or.inr ⟨hr, hjoins⟩, rfl⟩

theorem hasKey_insertEdgeIfAbsent {ns : Multiset Node} {rows : List RelRow} {r : RelRow}
    {k : RowKey} : HasKey (insertEdgeIfAbsent ns rows r) k ↔
      HasKey rows k ∨ k = r.key ∧ Joins ns k := by
  rw [insertEdgeIfAbsent]
  split
  next h =>
    refine (or_iff_left_of_imp ?_).symm
    rintro ⟨rfl, -⟩
    exact List.mem_map.mp h
  next h =>
    rw [hasKey_insertEdges]
    simp [HasKey, eq_comm]

end Resolver

end CodeGraph
