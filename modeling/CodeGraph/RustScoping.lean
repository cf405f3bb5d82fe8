import CodeGraph.RustScope
import Mathlib.Data.List.Flatten

/-!
# Rust's lexical scoping

What a name in a function denotes. On the way up from a node to its function, every `let`,
parameter list, loop, condition and match arm lays a rib of names, and every block one of its
items; the innermost rib that binds the name decides. A nested `fn` sees no rib of the
function around it.
-/

namespace CodeGraph

namespace RustScope

/-- What decides a name beside the tree of the function. A macro binds a local only under
an identifier it is handed. -/
structure Outside where
  /-- The constants, statics and unit structs around the function, which a pattern names
  instead of binding them. -/
  constants : List Text
  /-- The items that a `use` or a macro puts into its block. -/
  brings : Node → List Text
  /-- The locals that the expansion of a macro binds. -/
  expands : Node → List Text
  handed : ∀ invocation, expands invocation ⊆ macroNamesAt invocation

inductive Rib where
  /-- The names of patterns, each with its declaration, from `since` on. -/
  | names (since : ℕ) (bindings : List (Node × Node))
  | expansion (since : ℕ) (invocation : Node)
  | consts (since : ℕ) (parameters : Node)
  | items (block : Node)

namespace Rib

/-- Where the scope of the rib begins. -/
def since : Rib → ℕ
  | names since _ => since
  | expansion since _ => since
  | consts since _ => since
  | items block => block.startByte

def isItems : Rib → Prop
  | items _ => True
  | _ => False

end Rib

def letRib (s : Node) : List Rib :=
  (s.childByFieldName .pattern).toList.map fun pattern => .names s.endByte [(s, pattern)]

def conditionRibs (condition : Node) : List Rib :=
  match condition.kind with
  | .letCondition => letRib condition
  | .letChain => condition.children.reverse.flatMap fun c : Node =>
      if c.kind = .letCondition then letRib c else []
  | _ => []

def listBindings (list : Node) : List (Node × Node) :=
  list.namedChildren.flatMap fun c =>
    if c.kind = .parameter then (c.childByFieldName .pattern).toList.map fun pattern => (c, pattern)
    else if list.kind = .closureParameters ∧ c.kind ∉ bindingKinds then [(c, c)]
    else []

def listRibs (list : Node) : List Rib :=
  match list.kind with
  | .parameters | .closureParameters => [.names list.endByte (listBindings list)]
  | .typeParameters => [.consts list.endByte list]
  | _ => []

def armRibs (arm pattern : Node) : List Rib :=
  pattern.children.reverse.flatMap fun c =>
    if pattern.childByFieldName .condition = some c then conditionRibs c
    else if pattern.namedChildren.head? = some c then [.names c.endByte [(arm, pattern)]]
    else []

def statementMacro (s : Node) : Option Node :=
  if s.kind = .macroInvocation then some s
  else if s.kind = .expressionStatement then
    s.namedChildren.head?.filter fun c => c.kind = .macroInvocation
  else none

def statementRibs (s : Node) : List Rib :=
  if s.kind = .letDeclaration then letRib s
  else (statementMacro s).toList.map fun invocation => .expansion s.endByte invocation

/-- What the earlier sibling `s` brings into scope at `n`. -/
def brought (n s : Node) : List Rib :=
  match n.parent with
  | none => []
  | some (p : Node) =>
      match p.kind with
      | .block => statementRibs s
      | .functionItem =>
          if p.childByFieldName .body = some n ∧ s.kind ≠ .closureParameters then listRibs s
          else []
      | .closureExpression =>
          if p.childByFieldName .body = some n ∧ s.kind = .closureParameters then listRibs s else []
      | .forExpression =>
          if p.childByFieldName .body = some n ∧ p.childByFieldName .value = some s then
            (p.childByFieldName .pattern).toList.map fun pattern => .names s.endByte [(p, pattern)]
          else []
      | .ifExpression =>
          if p.childByFieldName .consequence = some n ∧ p.childByFieldName .condition = some s then
            conditionRibs s
          else []
      | .whileExpression =>
          if p.childByFieldName .body = some n ∧ p.childByFieldName .condition = some s then
            conditionRibs s
          else []
      | .letChain => if s.kind = .letCondition then letRib s else []
      | .matchArm =>
          if p.childByFieldName .value = some n ∧ p.childByFieldName .pattern = some s ∧
              s.kind = .matchPattern then
            armRibs p s
          else []
      | .matchPattern =>
          match p.parent with
          | none => []
          | some (arm : Node) =>
              if p.childByFieldName .condition = some n ∧ p.namedChildren.head? = some s ∧
                  arm.kind = .matchArm ∧ arm.childByFieldName .pattern = some p then
                [.names s.endByte [(arm, p)]]
              else []
      | .macroInvocation => if s.field = some .macroName then [.expansion s.endByte p] else []
      | _ => []

/-- The items of the block around `n`, which its every statement sees. -/
def held (n : Node) : List Rib :=
  (n.parent.filter fun p : Node => p.kind = .block).toList.map .items

inductive Outside.Binds (outside : Outside) : Node → Text → Prop where
  | leaf {n : Node} : n.kind ∈ bindingLeafKinds → n.text ≠ [] → n.text ∉ outside.constants →
      outside.Binds n n.text
  | expansion {n : Node} {name : Text} : n.kind = .macroInvocation → name ∈ outside.expands n →
      outside.Binds n name
  | within {n c : Node} {name : Text} :
      n.kind ∈ [Kind.mutPattern, .refPattern, .referencePattern, .tuplePattern, .fieldPattern,
        .slicePattern, .orPattern, .capturedPattern] →
      c ∈ n.namedChildren → outside.Binds c name → outside.Binds n name
  | constructor {n c : Node} {name : Text} : n.kind ∈ [Kind.tupleStructPattern, .structPattern] →
      c ∈ n.namedChildren → c.field ≠ some .type → outside.Binds c name → outside.Binds n name
  | arm {n c : Node} {name : Text} : n.kind = .matchPattern → n.namedChildren.head? = some c →
      outside.Binds c name → outside.Binds n name

/-- The name a definition carries. -/
def definedName (n : Node) : List Text := ((n.childByFieldName .name).map Node.text).toList

def isValueStruct (n : Node) : Bool :=
  n.kind = .structItem &&
    (n.childByFieldName .body).all fun b => b.kind = .orderedFieldDeclarationList

def Outside.itemNames (outside : Outside) (s : Node) : List Text :=
  if s.kind ∈ [Kind.functionItem, .constItem, .staticItem] ∨ isValueStruct s then definedName s
  else if s.kind = .foreignModItem then
    (s.childByFieldName .body).toList.flatMap fun b => b.namedChildren.flatMap definedName
  else if s.kind = .useDeclaration then outside.brings s
  else (statementMacro s).toList.flatMap outside.brings

def Rib.Binds (outside : Outside) (name : Text) : Rib → Prop
  | .names _ bindings => ∃ b ∈ bindings, outside.Binds b.2 name
  | .expansion _ invocation => name ∈ outside.expands invocation
  | .consts _ parameters => ∃ c ∈ parameters.namedChildren,
      c.kind = .constParameter ∧ name ∈ definedName c
  | .items block => ∃ s ∈ block.namedChildren, name ∈ outside.itemNames s

/-- The ribs in scope at a node of a function, innermost first. -/
def ribsAt (n : Node) : List Rib :=
  (n.ancestors.takeWhile fun a : Node => a.kind ≠ .functionItem).flatMap fun a =>
    a.before.reverse.flatMap (brought a) ++ held a

/-- The innermost rib that binds the name is one of patterns, and the declaration is there. -/
def Outside.Denotes (outside : Outside) (call : Node) (name : Text) (declaration pattern : Node) :
    Prop :=
  ∃ inner since bindings outer, ribsAt call = inner ++ .names since bindings :: outer ∧
    (∀ rib ∈ inner, ¬ rib.Binds outside name) ∧
    (declaration, pattern) ∈ bindings ∧ outside.Binds pattern name

/-! ## What a declaration says of the type -/

/-- A type, behind references and before its generic arguments, is the path `ty`. -/
inductive TypePath : Node → Text → Prop where
  | path {n : Node} : n.kind = .typeIdentifier ∨ n.kind = .scopedTypeIdentifier → TypePath n n.text
  | wrapped {n c : Node} {ty : Text} : n.kind = .referenceType ∨ n.kind = .genericType →
      n.childByFieldName .type = some c → TypePath c ty → TypePath n ty

/-- The path of an expression, before its generic arguments. -/
inductive ExprPath : Node → Text → Prop where
  | path {n : Node} : n.kind = .identifier ∨ n.kind = .scopedIdentifier → ExprPath n n.text
  | wrapped {n c : Node} {ty : Text} : n.kind = .genericType →
      n.childByFieldName .type = some c → ExprPath c ty → ExprPath n ty

/-- The type a declaration is annotated with, or the path `ty` of the `ty::assoc(..)` that a
`let` without annotation is initialised with. -/
inductive Declares (declaration : Node) : Declared → Prop where
  | annotated {typeNode : Node} {ty : Text} :
      declaration.childByFieldName .type = some typeNode → TypePath typeNode ty →
      Declares declaration ⟨ty, none⟩
  | constructed {value func path : Node} {ty : Text} :
      declaration.kind = .letDeclaration → declaration.childByFieldName .type = none →
      declaration.childByFieldName .value = some value → value.kind = .callExpression →
      value.childByFieldName .function = some func → func.kind = .scopedIdentifier →
      func.childByFieldName .path = some path → ExprPath path ty →
      Declares declaration ⟨ty, (func.childByFieldName .name).map Node.text⟩

/-- The name at the call denotes a local binding that is declared with the type. -/
def Outside.DenotesTyped (outside : Outside) (call : Node) (name : Text) (declared : Declared) :
    Prop :=
  ∃ declaration pattern, outside.Denotes call name declaration pattern ∧
    Declares declaration declared

end RustScope

end CodeGraph

/-!
## The order of the ribs

A rib that is brought into scope begins inside the sibling that brings it, after any rib
further out: `pairwise_ribsAt`. The binding with the latest binding point is therefore the
one on the innermost rib.
-/

namespace CodeGraph

namespace RustScope

open Located

abbrev Spaced (n : Node) : Prop := n.SpacedIn RustNode.startByte RustNode.endByte

/-- Ribs that begin inside a node, the latest first. -/
structure Inside (n : Node) (ribs : List Rib) : Prop where
  within : ∀ rib ∈ ribs, ¬ rib.isItems ∧ n.startByte < rib.since ∧ rib.since ≤ n.endByte
  later : ribs.Pairwise fun x y => y.since < x.since

theorem Inside.nil (n : Node) : Inside n [] := ⟨fun _ h => absurd h List.not_mem_nil, .nil⟩

theorem Inside.singleton {n : Node} {rib : Rib} (hitems : ¬ rib.isItems)
    (hlt : n.startByte < rib.since) (hle : rib.since ≤ n.endByte) : Inside n [rib] :=
  ⟨fun _ hr => List.mem_singleton.mp hr ▸ ⟨hitems, hlt, hle⟩, List.pairwise_singleton _ _⟩

theorem Inside.children {n : Node} (hn : Spaced n) {f : Node → List Rib}
    (hf : ∀ c ∈ n.children, Inside c (f c)) : Inside n (n.children.reverse.flatMap f) := by
  have hspan : ∀ c : Node, c ∈ n.children → n.startByte ≤ c.startByte ∧ c.endByte ≤ n.endByte :=
    fun c hc => by
      have hp := mem_children.mp hc
      exact (hn.descendant (parent_mem_ancestors hp)).within_parent hp
  constructor
  · intro rib hrib
    obtain ⟨c, hc, hrib⟩ := List.mem_flatMap.mp hrib
    have hc := List.mem_reverse.mp hc
    obtain ⟨hitems, hlt, hle⟩ := (hf c hc).within rib hrib
    have := hspan c hc
    exact ⟨hitems, by omega, by omega⟩
  · rw [List.pairwise_flatMap, List.pairwise_reverse]
    refine ⟨fun c hc => (hf c (List.mem_reverse.mp hc)).later, ?_⟩
    refine hn.pairwise_children.imp_of_mem fun {a b : Node} ha hb hab x hx y hy => ?_
    have hab : a.endByte ≤ b.startByte := hab
    have hx := ((hf b hb).within x hx).2.1
    have hy := ((hf a ha).within y hy).2.2
    omega

theorem inside_letRib {s : Node} (hs : Spaced s) : Inside s (letRib s) := by
  unfold letRib
  cases s.childByFieldName .pattern with
  | none => exact .nil s
  | some pattern => exact .singleton id hs.nonempty le_rfl

theorem inside_conditionRibs {s : Node} (hs : Spaced s) : Inside s (conditionRibs s) := by
  unfold conditionRibs
  split
  · exact inside_letRib hs
  · refine .children hs fun c hc => ?_
    have hsc := hs.descendant (parent_mem_ancestors (mem_children.mp hc))
    split
    · exact inside_letRib hsc
    · exact .nil c
  · exact .nil s

theorem inside_listRibs {s : Node} (hs : Spaced s) : Inside s (listRibs s) := by
  unfold listRibs
  split
  · exact .singleton id hs.nonempty le_rfl
  · exact .singleton id hs.nonempty le_rfl
  · exact .singleton id hs.nonempty le_rfl
  · exact .nil s

theorem inside_armRibs {arm s : Node} (hs : Spaced s) : Inside s (armRibs arm s) := by
  refine .children hs fun c hc => ?_
  have hsc := hs.descendant (parent_mem_ancestors (mem_children.mp hc))
  split
  · exact inside_conditionRibs hsc
  · split
    · exact .singleton id hsc.nonempty le_rfl
    · exact .nil c

theorem inside_statementRibs {s : Node} (hs : Spaced s) : Inside s (statementRibs s) := by
  unfold statementRibs
  split
  · exact inside_letRib hs
  · cases statementMacro s with
    | none => exact .nil s
    | some invocation => exact .singleton id hs.nonempty le_rfl

theorem inside_brought {n s : Node} (hs : Spaced s) : Inside s (brought n s) := by
  unfold brought
  split
  · exact .nil s
  · split
    · exact inside_statementRibs hs
    · split
      · exact inside_listRibs hs
      · exact .nil s
    · split
      · exact inside_listRibs hs
      · exact .nil s
    · split
      · cases Node.childByFieldName _ Field.pattern with
        | none => exact .nil s
        | some pattern => exact .singleton id hs.nonempty le_rfl
      · exact .nil s
    · split
      · exact inside_conditionRibs hs
      · exact .nil s
    · split
      · exact inside_conditionRibs hs
      · exact .nil s
    · split
      · exact inside_letRib hs
      · exact .nil s
    · split
      · exact inside_armRibs hs
      · exact .nil s
    · split
      · exact .nil s
      · split
        · exact .singleton id hs.nonempty le_rfl
        · exact .nil s
    · split
      · exact .singleton id hs.nonempty le_rfl
      · exact .nil s
    · exact .nil s

theorem mem_held {n : Node} {rib : Rib} :
    rib ∈ held n ↔ ∃ p, n.parent = some p ∧ Node.kind p = .block ∧ rib = .items p := by
  simp only [held, List.mem_map, Option.mem_toList, Option.filter_eq_some_iff, decide_eq_true_eq]
  constructor
  · rintro ⟨p, ⟨hp, hkind⟩, rfl⟩
    exact ⟨p, hp, hkind, rfl⟩
  · rintro ⟨p, hp, hkind, rfl⟩
    exact ⟨p, ⟨hp, hkind⟩, rfl⟩

/-- Ribs as entries that siblings bring into scope and blocks hold. -/
def ribs : Scoping (Option Field) RustNode Rib where
  start := RustNode.startByte
  stop := RustNode.endByte
  since := Rib.since
  fromStart := Rib.isItems
  brought := brought
  held := held
  brought_within n s x hs hn hx := by
    obtain ⟨p, hp, hsp⟩ := exists_parent_of_before hs
    have hsn := (hn.ancestor (parent_mem_ancestors hp)).descendant (parent_mem_ancestors hsp)
    exact (inside_brought hsn).within x hx
  brought_later n s hs hn := by
    obtain ⟨p, hp, hsp⟩ := exists_parent_of_before hs
    have hsn := (hn.ancestor (parent_mem_ancestors hp)).descendant (parent_mem_ancestors hsp)
    exact (inside_brought hsn).later
  held_at n x hx := by
    obtain ⟨p, hp, _, rfl⟩ := mem_held.mp hx
    exact ⟨trivial, p, hp, rfl⟩

theorem pairwise_ribsAt {n : Node} (hn : Spaced n) : (ribsAt n).Pairwise ribs.Later :=
  (ribs.pairwise_inScope hn).sublist ((List.takeWhile_sublist _).flatMap _)

end RustScope

end CodeGraph
