import CodeGraph.RustTree

/-!
# The type of a receiver from its binding

`parser/spec/rust_scope.rs` and its parts: the bindings of the function that a call stands
in, the names that an item or a macro may bind instead, the binding that is live at the call,
and the type that its declaration writes. A name is given a type where it is bound once in
the function, or where the latest of its bindings that reaches the call has one.
-/

namespace CodeGraph

namespace RustScope

/-! ## Bindings -/

def bindingKinds : List Kind := [.parameter, .letDeclaration]

def extraBindingKinds : List Kind := [.letCondition, .matchArm, .forExpression]

def bindingLeafKinds : List Kind := [.identifier, .shorthandFieldIdentifier]

def enclosingScopeFrom (outermostClosure : Option Node) : List Node → Option Node
  | [] => outermostClosure
  | current :: up =>
      match current.kind with
      | .functionItem => some current
      | .closureExpression => enclosingScopeFrom (some current) up
      | _ => enclosingScopeFrom outermostClosure up

def enclosingScope (call : Node) : Option Node := enclosingScopeFrom none call.ancestors

/-- What one node of the walk of `binding_patterns` adds. -/
def bindingsAt (everyForm : Bool) (node : Node) : List (Node × Node) :=
  (if node.kind ∈ bindingKinds ∨ (everyForm ∧ node.kind ∈ extraBindingKinds) then
    (node.childByFieldName .pattern).toList.map fun pattern => (node, pattern)
  else []) ++
  (if node.kind = .closureParameters then
    (node.namedChildren.filter fun child => child.kind ∉ bindingKinds).map fun child =>
      (child, child)
  else [])

def bindingPatterns (scope : Node) (everyForm : Bool) : List (Node × Node) :=
  (scope.below Node.namedChildren).flatMap (bindingsAt everyForm)

/-- A set of names, in the order of the walk. -/
def collectIdentifiers (pattern : Node) : List Text :=
  ((pattern.below Node.namedChildren).filter fun node : Node =>
    node.kind ∈ bindingLeafKinds ∧ node.text ≠ []).map Node.text

def simpleIdentifierName (pattern : Node) : Option Text :=
  match pattern.kind with
  | .identifier => some pattern.text
  | .mutPattern => (pattern.namedChildren.find? fun c => c.kind = .identifier).map Node.text
  | _ => none

/-! ## Names that items and macros bind -/

def namedItemKinds : List Kind := [.constItem, .staticItem, .constParameter]

/-- The words of a `use` declaration. -/
def words (cc : CharClass) (text : Text) : List Text :=
  (text.splitOnP fun c => !(cc.isAlphanumeric c || c = '_')).filter (· ≠ [])

def itemNamesAt (cc : CharClass) (node : Node) : List Text :=
  if node.kind ∈ namedItemKinds then ((node.childByFieldName .name).map Node.text).toList
  else if node.kind = .useDeclaration then words cc node.text
  else []

def pastUses (node : Node) : List Node :=
  if node.kind = .useDeclaration then [] else node.namedChildren

def namesItemsBind (cc : CharClass) (scope : Node) : List Text :=
  (scope.below pastUses).flatMap (itemNamesAt cc)

def nonBindingMacros : List Text :=
  ["assert".toList, "assert_eq".toList, "assert_ne".toList, "debug_assert".toList,
    "debug_assert_eq".toList, "debug_assert_ne".toList, "print".toList, "println".toList,
    "eprint".toList, "eprintln".toList, "format".toList, "format_args".toList,
    "write".toList, "writeln".toList, "panic".toList, "todo".toList,
    "unimplemented".toList, "unreachable".toList, "dbg".toList]

def pastLiterals (node : Node) : List Node :=
  if node.kind ∈ [Kind.stringLiteral, .rawStringLiteral, .charLiteral] then [] else node.children

def binderTokens : List Kind :=
  [.token "let".toList, .token "for".toList, .token "match".toList, .token "if".toList,
    .token "|".toList, .token "=>".toList]

def tokenTreeWords (tree : Node) : List Text × Bool :=
  (((tree.below pastLiterals).filter fun node : Node => node.kind = .identifier).map Node.text,
    (tree.below pastLiterals).any fun node : Node => node.kind ∈ binderTokens)

def macroNamesAt (node : Node) : List Text :=
  if node.kind ≠ .macroInvocation then []
  else
    let known := (node.childByFieldName .macroName).any fun m =>
      lastPiece "::".toList m.text ∈ nonBindingMacros
    match node.namedChildren.find? fun c => c.kind = .tokenTree with
    | none => []
    | some tree =>
        let (words, binds) := tokenTreeWords tree
        if !known || binds then words else []

def namesMacrosMayRebind (scope : Node) : List Text :=
  (scope.below Located.children).flatMap macroNamesAt

def otherBinders (cc : CharClass) (scope : Node) : List Text :=
  namesMacrosMayRebind scope ++ namesItemsBind cc scope

/-! ## The binding that is live -/

def isAncestor (ancestor node : Node) : Bool := ancestor ∈ node.ancestors

def declarationReaches (declaration call : Node) : Bool :=
  match declaration.parent.filter fun p : Node => p.kind = .block with
  | none => false
  | some block => isAncestor block call && declaration.endByte ≤ call.startByte

/-- The `if` or `while` expression a `let` condition belongs to. -/
def conditionOwner (condition : Node) : Option Node :=
  condition.ancestors.tail.find? fun node : Node =>
    node.kind ∈ [Kind.ifExpression, .whileExpression]

def parameterScope (declaration call : Node) : Option (Bool × ℕ) := do
  let list : Node ← declaration.parent
  let owner : Node ← list.parent
  if (list.kind = .parameters ∧ owner.kind = .functionItem) ∨
      (list.kind = .closureParameters ∧ owner.kind = .closureExpression) then
    let body ← owner.childByFieldName .body
    some (isAncestor body call && list.endByte ≤ call.startByte, list.endByte)
  else none

/-- Whether the binding reaches the call, and its binding point. -/
def scopeOf (declaration call : Node) : Option (Bool × ℕ) :=
  match declaration.kind with
  | .letDeclaration => do
      let block ← declaration.parent.filter fun p : Node => p.kind = .block
      let point := declaration.endByte
      some (isAncestor block call && point ≤ call.startByte, point)
  | .forExpression => do
      let body ← declaration.childByFieldName .body
      let value ← declaration.childByFieldName .value
      some (isAncestor body call && value.endByte ≤ call.startByte, value.endByte)
  | .letCondition => do
      let owner ← conditionOwner declaration
      let condition ← owner.childByFieldName .condition
      if isAncestor condition declaration then
        let thenField := if owner.kind = .ifExpression then Field.consequence else .body
        let «then» ← owner.childByFieldName thenField
        let point := declaration.endByte
        let inside := isAncestor condition call || isAncestor «then» call
        some (inside && point ≤ call.startByte, point)
      else none
  | .matchArm => do
      let pattern ← declaration.childByFieldName .pattern
      let inner := pattern.namedChildren.head?.getD pattern
      let point := inner.endByte
      some (isAncestor declaration call && point ≤ call.startByte, point)
  | _ => parameterScope declaration call

/-- The first of the sites with the latest binding point among those that reach the call. -/
def liveOfFrom (call : Node) (live : Option (ℕ × (Node × Node))) :
    List (Node × Node) → Option (Node × Node)
  | [] => live.map Prod.snd
  | (declaration, pattern) :: sites => do
      let (reaches, point) ← scopeOf declaration call
      if reaches && live.all fun best => best.1 < point then
        liveOfFrom call (some (point, (declaration, pattern))) sites
      else liveOfFrom call live sites

def liveOf (call : Node) (sites : List (Node × Node)) : Option (Node × Node) :=
  liveOfFrom call none sites

/-! ## The type of a declaration -/

/-- A type as written and, when it was read off `Type::assoc(..)`, the name of `assoc`. -/
structure Declared where
  ty : Text
  assoc : Option Text
  deriving DecidableEq

def typeNameFrom : ℕ → Node → Option Text
  | 0, _ => none
  | fuel + 1, node =>
      match node.kind with
      | .referenceType | .genericType => (node.childByFieldName .type).bind (typeNameFrom fuel)
      | .typeIdentifier | .scopedTypeIdentifier => some node.text
      | _ => none

def typeName (node : Node) : Option Text := typeNameFrom node.tree.height node

def exprPathNameFrom : ℕ → Node → Option Text
  | 0, _ => none
  | fuel + 1, node =>
      match node.kind with
      | .identifier | .scopedIdentifier => some node.text
      | .genericType => (node.childByFieldName .type).bind (exprPathNameFrom fuel)
      | _ => none

def exprPathName (node : Node) : Option Text := exprPathNameFrom node.tree.height node

def isGenericParameter (place : Node) (name : Text) : Bool :=
  place.ancestors.tail.any fun node : Node =>
    (node.childByFieldName .typeParameters).any fun params =>
      params.namedChildren.any fun p =>
        ([Field.name, .left].filterMap p.childByFieldName).any fun n => n.text = name

def knownConstructors : List Text :=
  ["new".toList, "create".toList, "create_new".toList, "open".toList, "with_capacity".toList,
    "connect".toList]

def resultUnwrappers : List Text := ["unwrap".toList, "expect".toList]

def unwrappedReceiver (call : Node) : Option Node := do
  let function ← call.childByFieldName .function
  if function.kind = .fieldExpression then
    let field ← function.childByFieldName .field
    if field.text ∈ resultUnwrappers then function.childByFieldName .value else none
  else none

def isKnownConstructor (func : Node) : Bool :=
  (func.childByFieldName .name).any fun n => n.text ∈ knownConstructors

/-- The call a `let` initialiser is, and whether a wrapper was looked through to find it. -/
def constructorCallFrom (throughResults : Bool) : ℕ → Bool → Node → Option (Node × Bool)
  | 0, _, _ => none
  | fuel + 1, unwrapped, node =>
      match node.kind with
      | .callExpression =>
          if throughResults then
            match unwrappedReceiver node with
            | some next => constructorCallFrom throughResults fuel true next
            | none => some (node, unwrapped)
          else some (node, unwrapped)
      | .tryExpression =>
          if throughResults then
            node.namedChildren.head?.bind (constructorCallFrom throughResults fuel true)
          else none
      | _ => none

def constructorCall (value : Node) (throughResults : Bool) : Option (Node × Bool) :=
  constructorCallFrom throughResults value.tree.height false value

def bindingDeclared (binding : Node) (throughResults : Bool) : Option Declared :=
  match binding.childByFieldName .type with
  | some annotation => do
      let ty ← typeName annotation
      if isGenericParameter binding ty then none else some ⟨ty, none⟩
  | none =>
      if binding.kind ≠ .letDeclaration then none
      else do
        let value ← binding.childByFieldName .value
        let (call, unwrapped) ← constructorCall value throughResults
        let func ← call.childByFieldName .function
        if func.kind ≠ .scopedIdentifier ∨ (unwrapped ∧ !isKnownConstructor func) then none
        else
          let path ← func.childByFieldName .path
          let ty ← exprPathName path
          some ⟨ty, (func.childByFieldName .name).map Node.text⟩

/-! ## Typed local bindings -/

def sitesOf (scope : Node) (name : Text) : List (Node × Node) :=
  (bindingPatterns scope true).filter fun site => name ∈ collectIdentifiers site.2

/-- `live_bindings` for one name. -/
def liveBinding (cc : CharClass) (call scope : Node) (name : Text) : Option (Node × Node) :=
  let sites := sitesOf scope name
  if 2 ≤ sites.length ∧ name ∉ otherBinders cc scope then liveOf call sites else none

/-- The entries `typed_local_map` makes for plain names that are declared with a type. -/
def typedNames (call scope : Node) (throughResults : Bool) : List (Text × Declared) :=
  (bindingPatterns scope true).filterMap fun (node, pattern) =>
    if node.kind ≠ .letDeclaration ∨ declarationReaches node call then do
      let simpleName ← simpleIdentifierName pattern
      let ty ← bindingDeclared node throughResults
      some (simpleName, ty)
    else none

/-- The map as the function that looks a name up; of entries under one name the last counts. -/
def typedLocalMap (cc : CharClass) (call : Node) (throughResults : Bool) (name : Text) :
    Option Declared := do
  let scope ← enclosingScope call
  let once := if (sitesOf scope name).length = 1 ∧ name ∉ otherBinders cc scope then
      (typedNames call scope throughResults).reverse.lookup name
    else none
  let live := (liveBinding cc call scope name).bind fun site =>
    if simpleIdentifierName site.2 = some name then bindingDeclared site.1 throughResults else none
  live <|> once

def typedLocalDeclared (cc : CharClass) (call : Node) (name : Text) : Option Declared :=
  typedLocalMap cc call false name

end RustScope

end CodeGraph
