import CodeGraph.CfgIds
import CodeGraph.IndexGraph

/-!
# The walk over a Rust file

`parse_with_spec_twins` and the emitters of `walkers/rust.rs` and `rust_types.rs`: a walk that
names every definition by its path and notes its gate, and a second walk that puts the gate
behind the names under which the first found more than one gate. Function bodies are left
out: what they declare is told apart by its line.
-/

namespace CodeGraph

namespace TwinWalk

/-- A text of the file, or its path. The mark of a twin is in none. -/
structure Name where
  text : Text
  unmarked : Unmarked text

/-- A field, a variant or a method, with the `cfg` attributes before it. -/
structure Member where
  name : Name
  cfgs : List CfgPredicate

/-- `inner` are the `cfg` attributes inside the braces of an item. -/
inductive Item where
  | function (name : Name) (cfgs : List CfgPredicate)
  | struct (name : Name) (cfgs : List CfgPredicate) (fields : List Member)
  | enum (name : Name) (cfgs : List CfgPredicate) (variants : List Member)
  | trait (name : Name) (cfgs inner : List CfgPredicate) (methods : List Member)
  | impl (type : Name) (cfgs inner : List CfgPredicate) (methods : List Member)
  | constant (name : Name) (cfgs : List CfgPredicate)
  | typeAlias (name : Name) (cfgs : List CfgPredicate)
  | mod (name : Name) (cfgs inner : List CfgPredicate) (items : List Item)

structure RustFile where
  path : Name
  inner : List CfgPredicate
  items : List Item

/-- A definition node, with the scope it is defined in and the gate of its item. -/
structure Node where
  label : SymbolLabel
  name : Text
  scope : Text
  qualifiedName : Text
  gate : Text
  deriving DecidableEq

/-- The gates of the members of a twin. -/
abbrev Twins := SymbolLabel → Text → Option (List Text)

def Twins.empty : Twins := fun _ _ => none

def qual (scope name : Text) : Text := scope ++ "::".toList ++ name

def twinQn (twins : Twins) (label : SymbolLabel) (gate plain : Text) : Text :=
  if (twins label plain).isSome then plain ++ twinSuffix gate else plain

def implOwnerLabels : List SymbolLabel := [.struct, .enum, .trait]

def implOwner (twins : Twins) (gate plain : Text) : Option Text :=
  match implOwnerLabels.findSome? fun label => twins label plain with
  | none => some plain
  | some memberGates =>
      if gate ≠ [] ∧ gate ∈ memberGates then some (plain ++ twinSuffix gate) else none

/-- `push_def` of an item with a name; `enclosing` is what reaches it from outside. -/
def pushDef (twins : Twins) (label : SymbolLabel) (scope : Text) (enclosing : List CfgPredicate)
    (name : Text) (cfgs : List CfgPredicate) : List Node :=
  if name = [] then []
  else
    let gate := effectiveGate (cfgs ++ enclosing)
    [⟨label, name, scope, twinQn twins label gate (qual scope name), gate⟩]

def pushMembers (twins : Twins) (label : SymbolLabel) (scope : Text)
    (enclosing : List CfgPredicate) (members : List Member) : List Node :=
  members.flatMap fun m => pushDef twins label scope enclosing m.name.text m.cfgs

/-- An item, and what it owns under the name it got. -/
def pushOwner (nodes : List Node) (owned : Text → List Node) : List Node :=
  nodes ++ nodes.flatMap fun node => owned node.qualifiedName

mutual

def walkItem (twins : Twins) (scope : Text) (enclosing : List CfgPredicate) : Item → List Node
  | .function name cfgs => pushDef twins .function scope enclosing name.text cfgs
  | .struct name cfgs fields =>
      pushOwner (pushDef twins .struct scope enclosing name.text cfgs) fun qn =>
        pushMembers twins .field qn enclosing fields
  | .enum name cfgs variants =>
      pushOwner (pushDef twins .enum scope enclosing name.text cfgs) fun qn =>
        pushMembers twins .variant qn enclosing variants
  | .trait name cfgs inner methods =>
      pushOwner (pushDef twins .trait scope enclosing name.text cfgs) fun qn =>
        pushMembers twins .method qn (inner ++ cfgs ++ enclosing) methods
  | .impl type cfgs inner methods =>
      if type.text = [] then []
      else
        let plain := qual scope type.text
        let owner := implOwner twins (effectiveGate (cfgs ++ enclosing)) plain
        pushMembers twins .method (owner.getD plain) (inner ++ cfgs ++ enclosing) methods
  | .constant name cfgs => pushDef twins .constant scope enclosing name.text cfgs
  | .typeAlias name cfgs => pushDef twins .typeAlias scope enclosing name.text cfgs
  | .mod name cfgs inner items =>
      pushOwner (pushDef twins .module scope enclosing name.text cfgs) fun qn =>
        walkItems twins qn (inner ++ cfgs ++ enclosing) items

def walkItems (twins : Twins) (scope : Text) (enclosing : List CfgPredicate) : List Item → List Node
  | [] => []
  | item :: items => walkItem twins scope enclosing item ++ walkItems twins scope enclosing items

end

def walkDefs (twins : Twins) (file : RustFile) : List Node :=
  walkItems twins file.path.text file.inner file.items

/-- The gates under which a walk emitted a name. -/
def memberGates (nodes : List Node) (label : SymbolLabel) (qn : Text) : List Text :=
  ((nodes.filter fun node => node.label = label ∧ node.qualifiedName = qn).map Node.gate).dedup

def twinKeys (nodes : List Node) : Twins := fun label qn =>
  if 1 < (memberGates nodes label qn).length then some (memberGates nodes label qn) else none

/-- The definition nodes of `parse_with_spec`. -/
def parseWithSpec (file : RustFile) : List Node :=
  let first := walkDefs .empty file
  if first.any fun node => (twinKeys first node.label node.qualifiedName).isSome then
    walkDefs (twinKeys first) file
  else first

end TwinWalk

end CodeGraph

/-!
## The names of twins

Every definition of a file has a path of owners, and its name is made along that path. A
name that has a gate in it is not looked up again: the gate of the outermost owner that is
a twin is the only one, whatever is a twin below it.
-/

namespace CodeGraph

namespace TwinWalk

/-- A module, a type or a trait above a definition, or the block of an `impl`. -/
structure Owner where
  label : Option SymbolLabel
  text : Text
  gate : Text

/-- A definition of a file with its owners, outermost first. -/
structure Definition where
  label : SymbolLabel
  name : Text
  gate : Text
  owners : List Owner

def define (label : SymbolLabel) (owners : List Owner) (enclosing : List CfgPredicate) (name : Text)
    (cfgs : List CfgPredicate) : List Definition :=
  if name = [] then [] else [⟨label, name, effectiveGate (cfgs ++ enclosing), owners⟩]

def defineMembers (label : SymbolLabel) (owners : List Owner) (enclosing : List CfgPredicate)
    (members : List Member) : List Definition :=
  members.flatMap fun m => define label owners enclosing m.name.text m.cfgs

/-- What is below an item. -/
def owning (label : SymbolLabel) (owners : List Owner) (enclosing : List CfgPredicate) (name : Text)
    (cfgs : List CfgPredicate) : List Owner :=
  owners ++ [⟨some label, name, effectiveGate (cfgs ++ enclosing)⟩]

mutual

def defineItem (owners : List Owner) (enclosing : List CfgPredicate) : Item → List Definition
  | .function name cfgs => define .function owners enclosing name.text cfgs
  | .struct name cfgs fields =>
      if name.text = [] then []
      else
        define .struct owners enclosing name.text cfgs ++
          defineMembers .field (owning .struct owners enclosing name.text cfgs) enclosing fields
  | .enum name cfgs variants =>
      if name.text = [] then []
      else
        define .enum owners enclosing name.text cfgs ++
          defineMembers .variant (owning .enum owners enclosing name.text cfgs) enclosing variants
  | .trait name cfgs inner methods =>
      if name.text = [] then []
      else
        define .trait owners enclosing name.text cfgs ++
          defineMembers .method (owning .trait owners enclosing name.text cfgs)
            (inner ++ cfgs ++ enclosing) methods
  | .impl type cfgs inner methods =>
      if type.text = [] then []
      else
        defineMembers .method (owners ++ [⟨none, type.text, effectiveGate (cfgs ++ enclosing)⟩])
          (inner ++ cfgs ++ enclosing) methods
  | .constant name cfgs => define .constant owners enclosing name.text cfgs
  | .typeAlias name cfgs => define .typeAlias owners enclosing name.text cfgs
  | .mod name cfgs inner items =>
      if name.text = [] then []
      else
        define .module owners enclosing name.text cfgs ++
          defineItems (owning .module owners enclosing name.text cfgs) (inner ++ cfgs ++ enclosing)
            items

def defineItems (owners : List Owner) (enclosing : List CfgPredicate) :
    List Item → List Definition
  | [] => []
  | item :: items => defineItem owners enclosing item ++ defineItems owners enclosing items

end

def RustFile.definitions (file : RustFile) : List Definition :=
  defineItems [] file.inner file.items

/-! ## A walk names the definitions -/

/-- The name of an owner whose scope is `scope`. -/
def Owner.enter (twins : Twins) (scope : Text) (owner : Owner) : Text :=
  match owner.label with
  | some label => twinQn twins label owner.gate (qual scope owner.text)
  | none => (implOwner twins owner.gate (qual scope owner.text)).getD (qual scope owner.text)

def scopeOf (twins : Twins) (path : Text) (owners : List Owner) : Text :=
  owners.foldl (Owner.enter twins) path

def Definition.node (twins : Twins) (path : Text) (d : Definition) : Node where
  label := d.label
  name := d.name
  scope := scopeOf twins path d.owners
  qualifiedName := twinQn twins d.label d.gate (qual (scopeOf twins path d.owners) d.name)
  gate := d.gate

section Walk

variable {twins : Twins} {path : Text} {owners : List Owner} {enclosing : List CfgPredicate}

theorem scopeOf_append (owner : Owner) :
    scopeOf twins path (owners ++ [owner]) = owner.enter twins (scopeOf twins path owners) := by
  rw [scopeOf, List.foldl_append]
  rfl

theorem pushDef_eq (label : SymbolLabel) (name : Text) (cfgs : List CfgPredicate) :
    pushDef twins label (scopeOf twins path owners) enclosing name cfgs =
      (define label owners enclosing name cfgs).map (Definition.node twins path) := by
  rw [pushDef, define]
  split <;> rfl

theorem pushMembers_eq (label : SymbolLabel) (members : List Member) :
    pushMembers twins label (scopeOf twins path owners) enclosing members =
      (defineMembers label owners enclosing members).map (Definition.node twins path) := by
  rw [pushMembers, defineMembers, List.map_flatMap]
  exact List.flatMap_congr fun m _ => pushDef_eq label m.name.text m.cfgs

theorem pushOwner_eq {label : SymbolLabel} {name : Text} {cfgs : List CfgPredicate}
    {owned : Text → List Node} {below : List Definition}
    (h : owned (scopeOf twins path (owning label owners enclosing name cfgs)) =
      below.map (Definition.node twins path)) :
    pushOwner (pushDef twins label (scopeOf twins path owners) enclosing name cfgs) owned =
      (if name = [] then [] else define label owners enclosing name cfgs ++ below).map
        (Definition.node twins path) := by
  by_cases hname : name = []
  · rw [if_pos hname, pushDef, if_pos hname]
    rfl
  · rw [if_neg hname, List.map_append, ← pushDef_eq, ← h, pushOwner, pushDef, if_neg hname, owning,
      scopeOf_append]
    exact congrArg _ (List.append_nil _)

mutual

theorem walkItem_eq : ∀ (owners : List Owner) (enclosing : List CfgPredicate) (item : Item),
    walkItem twins (scopeOf twins path owners) enclosing item =
      (defineItem owners enclosing item).map (Definition.node twins path)
  | _, _, .function _ _ => pushDef_eq _ _ _
  | _, _, .struct _ _ _ => by
      rw [walkItem, defineItem]
      exact pushOwner_eq (pushMembers_eq _ _)
  | _, _, .enum _ _ _ => by
      rw [walkItem, defineItem]
      exact pushOwner_eq (pushMembers_eq _ _)
  | _, _, .trait _ _ _ _ => by
      rw [walkItem, defineItem]
      exact pushOwner_eq (pushMembers_eq _ _)
  | owners, enclosing, .impl type cfgs inner methods => by
      rw [walkItem, defineItem]
      split
      · rfl
      · rw [← pushMembers_eq, scopeOf_append]
        rfl
  | _, _, .constant _ _ => pushDef_eq _ _ _
  | _, _, .typeAlias _ _ => pushDef_eq _ _ _
  | _, _, .mod _ _ _ items => by
      rw [walkItem, defineItem]
      exact pushOwner_eq (walkItems_eq _ _ items)

theorem walkItems_eq : ∀ (owners : List Owner) (enclosing : List CfgPredicate) (items : List Item),
    walkItems twins (scopeOf twins path owners) enclosing items =
      (defineItems owners enclosing items).map (Definition.node twins path)
  | _, _, [] => rfl
  | owners, enclosing, item :: items => by
      rw [walkItems, defineItems, List.map_append, walkItem_eq owners enclosing item,
        walkItems_eq owners enclosing items]

end

theorem walkDefs_eq (file : RustFile) :
    walkDefs twins file = file.definitions.map (Definition.node twins file.path.text) :=
  walkItems_eq [] file.inner file.items

end Walk

/-! ## What is well spelled in a file -/

structure Owner.Spelled (owner : Owner) : Prop where
  text : Unmarked owner.text
  gate : GateText owner.gate

structure Definition.Spelled (d : Definition) : Prop where
  name : Unmarked d.name
  gate : GateText d.gate
  owners : ∀ owner ∈ d.owners, owner.Spelled

section Spelled

variable {owners : List Owner} {enclosing : List CfgPredicate} {d : Definition}

theorem define_spelled (howners : ∀ owner ∈ owners, owner.Spelled) {label : SymbolLabel} {name : Name}
    {cfgs : List CfgPredicate} (h : d ∈ define label owners enclosing name.text cfgs) : d.Spelled := by
  rw [define] at h
  split at h
  · exact absurd h List.not_mem_nil
  · rw [List.mem_singleton.mp h]
    exact ⟨name.unmarked, gateText_effectiveGate _, howners⟩

theorem defineMembers_spelled (howners : ∀ owner ∈ owners, owner.Spelled) {label : SymbolLabel}
    {members : List Member} (h : d ∈ defineMembers label owners enclosing members) : d.Spelled := by
  obtain ⟨m, -, hm⟩ := List.mem_flatMap.mp h
  exact define_spelled howners hm

theorem owning_spelled (howners : ∀ owner ∈ owners, owner.Spelled) (label : Option SymbolLabel)
    (name : Name) (cfgs : List CfgPredicate) :
    ∀ owner ∈ owners ++ [⟨label, name.text, effectiveGate (cfgs ++ enclosing)⟩], owner.Spelled := by
  intro owner h
  rcases List.mem_append.mp h with h | h
  · exact howners owner h
  · rw [List.mem_singleton.mp h]
    exact ⟨name.unmarked, gateText_effectiveGate _⟩

theorem owned_spelled (howners : ∀ owner ∈ owners, owner.Spelled) {label : SymbolLabel} {name : Name}
    {cfgs : List CfgPredicate} {below : List Definition} (hbelow : ∀ d ∈ below, d.Spelled)
    (h : d ∈ if name.text = [] then []
      else define label owners enclosing name.text cfgs ++ below) : d.Spelled := by
  split at h
  · exact absurd h List.not_mem_nil
  · rcases List.mem_append.mp h with h | h
    · exact define_spelled howners h
    · exact hbelow d h

mutual

theorem defineItem_spelled : ∀ {owners : List Owner} {enclosing : List CfgPredicate} (item : Item),
    (∀ owner ∈ owners, owner.Spelled) → ∀ d ∈ defineItem owners enclosing item, d.Spelled
  | _, _, .function _ _, howners, _, h => define_spelled howners h
  | _, _, .struct name cfgs _, howners, _, h => owned_spelled howners
      (fun _ h => defineMembers_spelled (owning_spelled howners _ name cfgs) h) h
  | _, _, .enum name cfgs _, howners, _, h => owned_spelled howners
      (fun _ h => defineMembers_spelled (owning_spelled howners _ name cfgs) h) h
  | _, _, .trait name cfgs _ _, howners, _, h => owned_spelled howners
      (fun _ h => defineMembers_spelled (owning_spelled howners _ name cfgs) h) h
  | owners, enclosing, .impl type cfgs inner methods, howners, d, h => by
      rw [defineItem] at h
      split at h
      · exact absurd h List.not_mem_nil
      · exact defineMembers_spelled (owning_spelled howners none type cfgs) h
  | _, _, .constant _ _, howners, _, h => define_spelled howners h
  | _, _, .typeAlias _ _, howners, _, h => define_spelled howners h
  | _, _, .mod name cfgs _ items, howners, _, h => owned_spelled howners
      (defineItems_spelled items (owning_spelled howners _ name cfgs)) h

theorem defineItems_spelled : ∀ {owners : List Owner} {enclosing : List CfgPredicate}
    (items : List Item), (∀ owner ∈ owners, owner.Spelled) →
    ∀ d ∈ defineItems owners enclosing items, d.Spelled
  | _, _, [], _, _, h => absurd h List.not_mem_nil
  | _, _, item :: items, howners, d, h => by
      rw [defineItems] at h
      rcases List.mem_append.mp h with h | h
      · exact defineItem_spelled item howners d h
      · exact defineItems_spelled items howners d h

end

theorem RustFile.spelled {file : RustFile} (h : d ∈ file.definitions) : d.Spelled :=
  defineItems_spelled file.items (fun _ h => absurd h List.not_mem_nil) d h

end Spelled

end TwinWalk

end CodeGraph
