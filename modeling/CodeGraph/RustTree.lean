import CodeGraph.Lib.Scopes
import CodeGraph.Text

/-!
# The syntax tree of a Rust file

The node kinds and the fields of the grammar that the receiver passes read, and the nodes of
a parsed file. An anonymous node is a token of its own; every node covers a nonempty stretch
of the file, its children one after another.
-/

namespace CodeGraph

namespace RustScope

inductive Kind where
  | functionItem | functionSignatureItem | foreignModItem | declarationList
  | parameters | parameter | typeParameters | constParameter
  | closureExpression | closureParameters
  | block | expressionStatement | letDeclaration
  | forExpression | ifExpression | whileExpression | letCondition | letChain
  | matchArm | matchPattern
  | constItem | staticItem | structItem | orderedFieldDeclarationList | useDeclaration
  | identifier | shorthandFieldIdentifier | mutPattern | refPattern | referencePattern
  | tuplePattern | tupleStructPattern | structPattern | fieldPattern | slicePattern | orPattern
  | capturedPattern
  | typeIdentifier | scopedTypeIdentifier | referenceType | genericType
  | callExpression | tryExpression | fieldExpression | scopedIdentifier
  | macroInvocation | tokenTree
  | stringLiteral | rawStringLiteral | charLiteral
  /-- An anonymous node, which is its own kind. -/
  | token (text : Text)
  | other (kind : Text)
  deriving DecidableEq

def Kind.isToken : Kind → Bool
  | .token _ => true
  | _ => false

inductive Field where
  | pattern | type | value | body | condition | consequence | alternative
  | function | path | name | left | field | macroName | parameters | typeParameters
  | other (name : Text)
  deriving DecidableEq

structure RustNode where
  kind : Kind
  startByte : ℕ
  endByte : ℕ
  text : Text
  deriving DecidableEq

abbrev RustTree := OrderedTree (Option Field) RustNode

abbrev Node := Located (Option Field) RustNode

namespace Node

variable (n : Node)

def kind : Kind := n.tree.node.kind

def startByte : ℕ := n.tree.node.startByte

def endByte : ℕ := n.tree.node.endByte

/-- `node_text` -/
def text : Text := n.tree.node.text

def field : Option Field := n.label.join

def isNamed : Bool := !n.kind.isToken

def namedChildren : List Node := n.children.filter isNamed

def childByFieldName (f : Field) : Option Node := n.children.find? fun c => c.field = some f

theorem mem_children_of_field {n c : Node} {f : Field} (h : n.childByFieldName f = some c) :
    c.parent = some n ∧ c.field = some f := by
  have hfield := List.find?_some h
  exact ⟨Located.mem_children.mp (List.mem_of_find?_eq_some h), of_decide_eq_true hfield⟩

theorem namedChildren_subset : n.namedChildren ⊆ n.children := List.filter_subset_self _

theorem mem_namedChildren {n c : Node} :
    c ∈ n.namedChildren ↔ c.parent = some n ∧ c.isNamed = true := by
  rw [namedChildren, List.mem_filter, Located.mem_children]

end Node

/-- What every node of a parse tree meets: a token has no children, no loop, arm or condition
has a type written on it, and none of them is a parameter of a closure. -/
structure Grammatical (t : RustTree) : Prop where
  tokens : t.node.kind.isToken = true → t.children = .nil
  untyped : t.node.kind ∈ [Kind.forExpression, .letCondition, .matchArm] →
    ∀ e ∈ t.children.entries, e.1 ≠ some .type
  lists : t.node.kind = .closureParameters → ∀ c ∈ t.children.trees,
    c.node.kind ∉ [Kind.forExpression, .letCondition, .matchArm]

instance (t : RustTree) : Decidable (Grammatical t) :=
  decidable_of_iff ((t.node.kind.isToken = true → t.children = .nil) ∧
    (t.node.kind ∈ [Kind.forExpression, .letCondition, .matchArm] →
      ∀ e ∈ t.children.entries, e.1 ≠ some .type) ∧
    (t.node.kind = .closureParameters → ∀ c ∈ t.children.trees,
      c.node.kind ∉ [Kind.forExpression, .letCondition, .matchArm]))
    ⟨fun ⟨h₁, h₂, h₃⟩ => ⟨h₁, h₂, h₃⟩, fun h => ⟨h.tokens, h.untyped, h.lists⟩⟩

structure SourceFile where
  root : RustTree
  spaced : root.Every (OrderedTree.Spaced RustNode.startByte RustNode.endByte)
  grammatical : root.Every Grammatical

structure BodyNode (file : SourceFile) where
  node : Node
  root_eq : node.root = file.root
  inFunction : ∃ f ∈ node.ancestors, Node.kind f = .functionItem

end RustScope

end CodeGraph
