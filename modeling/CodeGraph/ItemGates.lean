import CodeGraph.CfgIds
import CodeGraph.FileWays
import CodeGraph.Lib.Located

/-!
# The gates of the items of a Rust file

`rust_item_gates`: what the functions and the enums of a file say of themselves, every one
under the line it is on. A gate is the text of all `cfg` attributes on the way up, so a text
that is empty, or the option a build sets, holds in that build (`holds_of_gate`).

The other side is what a build makes of an item: its attributes and those of everything
around it hold. A `cfg_attr` stands for the attributes it lists where its predicate holds.
-/

namespace CodeGraph

open List

namespace ItemGates

/-! ## Attributes -/

/-- A `cfg_attr` has its arguments as they are written, and the attributes they list. The
path of any other attribute is `none` where it is no chain of names. -/
inductive Attribute where
  | cfg (predicate : CfgPredicate) (wf : predicate.WellFormed)
  | cfgAttr (arguments : Option Text) (predicate : CfgPredicate) (attributes : List Attribute)
  | other (path : Option (List Text)) (hasArguments : Bool)

/-- The bracket depth and the string a text is read in. -/
structure PartState where
  depth : ℤ := 0
  inString : Bool := false
  escaped : Bool := false

def PartState.next (s : PartState) (c : Char) : PartState :=
  if s.inString then
    if s.escaped then { s with escaped := false }
    else if c = '\\' then { s with escaped := true }
    else if c = '"' then { s with inString := false }
    else s
  else if c = '"' then { s with inString := true }
  else if c = '(' ∨ c = '[' ∨ c = '\x7b' then { s with depth := s.depth + 1 }
  else if c = ')' ∨ c = ']' ∨ c = '\x7d' then { s with depth := s.depth - 1 }
  else s

/-- The parts of a text between its commas outside of brackets and strings; `part` is what
was read of the one under way. -/
def topLevelPartsFrom (s : PartState) (part : Text) : Text → List Text
  | [] => [part]
  | c :: text =>
      if c = ',' ∧ !s.inString ∧ s.depth = 0 then part :: topLevelPartsFrom s [] text
      else topLevelPartsFrom (s.next c) (part ++ [c]) text

def topLevelParts (text : Text) : List Text := topLevelPartsFrom {} [] text

/-- The arguments without their brackets. -/
def unbracketed (cc : CharClass) (arguments : Text) : Text :=
  match stripPrefix ['('] (trim cc arguments) with
  | some rest => if rest.getLast? = some ')' then rest.dropLast else arguments
  | none => arguments

/-- `arguments_add_cfg`, called inside itself `fuel` times at most. -/
def argumentsAddCfgFrom (cc : CharClass) : (fuel : ℕ) → Text → Bool
  | 0, _ => false
  | fuel + 1, arguments => ((topLevelParts (unbracketed cc arguments)).drop 1).any fun part =>
      match stripPrefix "cfg_attr".toList (trim cc part) with
      | some rest => argumentsAddCfgFrom cc fuel rest
      | none =>
          match stripPrefix "cfg".toList (trim cc part) with
          | some rest => (rest.dropWhile cc.isWhitespace).head? = some '('
          | none => false

/-- Every call inside is on a shorter text. -/
def argumentsAddCfg (cc : CharClass) (arguments : Text) : Bool :=
  argumentsAddCfgFrom cc (arguments.length + 1) arguments

example : argumentsAddCfg .ascii "(unix, inline, cfg(feature = \"a,b\"))".toList = true := by
  decide

example : argumentsAddCfg .ascii "(any(unix, windows), cfg_attr(test, inline))".toList = false := by
  decide

namespace Attribute

/-- `cfg_of` -/
def cfgOf : Attribute → Option CfgPredicate
  | .cfg predicate _ => some predicate
  | _ => none

/-- `cfg_attr_adds_cfg` -/
def addsCfg (cc : CharClass) : Attribute → Bool
  | .cfgAttr (some arguments) _ _ => argumentsAddCfg cc arguments
  | .cfgAttr none _ _ => true
  | _ => false

/-- What a function is marked as. -/
inductive Marker where
  | test
  | bench
  | proof
  deriving DecidableEq

def testNames : List Text := ["rstest", "test_case", "wasm_bindgen_test"].map String.toList

def testMacroCrates : List Text := ["tokio", "async_std", "actix_rt", "actix_web", "sqlx",
  "test_log", "futures_test", "smol_potat"].map String.toList

/-- `attribute_marker` -/
def marker : Attribute → Option Marker
  | .other (some [name]) hasArguments =>
      if name = "bench".toList ∧ !hasArguments then some .bench
      else if name = "test".toList ∨ name ∈ testNames then some .test
      else none
  | .other (some [krate, name]) hasArguments =>
      if krate = "kani".toList ∧ name = "proof".toList ∧ !hasArguments then some .proof
      else if name ∈ testNames ∧ krate = name then some .test
      else if name = "test".toList ∧ krate ∈ testMacroCrates then some .test
      else none
  | _ => none

def entryMarker (a : Attribute) : Option Marker := a.marker.filter (· ≠ .bench)

end Attribute

/-! ## Items -/

inductive ItemKind where
  | sourceFile
  | function
  | module
  | impl
  | trait
  | enum
  /-- Any other node with an attribute before it or an item inside, a constant for one. -/
  | other
  deriving DecidableEq

/-- A node of the tree of a file. The attributes before it stand nearest first, those inside
its braces in the order of the text; `variants` are the attributes of the variants of an
enum. -/
structure ItemNode where
  kind : ItemKind
  line : ℕ
  name : Text := []
  attributes : List Attribute := []
  inner : List Attribute := []
  variants : List (List Attribute) := []

abbrev ItemTree := OrderedTree Unit ItemNode

abbrev Item := Located Unit ItemNode

namespace Item

variable (n : Item)

def node : ItemNode := n.tree.node

def kind : ItemKind := n.node.kind

/-- What is around the item, nearest first. -/
def around : List Item := n.ancestors.tail

/-- Whether the braces are a `declaration_list`, or the node is the file. -/
def hasDeclarations : Bool := n.kind ∈ [.sourceFile, .module, .impl, .trait]

def isGatingAncestor : Bool := n.kind ∈ [.module, .impl, .trait, .function]

def outerCfgs : List CfgPredicate := n.node.attributes.filterMap Attribute.cfgOf

def innerCfgs : List CfgPredicate := n.node.inner.filterMap Attribute.cfgOf

def gatePredicates : List CfgPredicate := n.outerCfgs ++ n.around.flatMap fun a =>
  (if a.hasDeclarations then a.innerCfgs else []) ++ (if a.isGatingAncestor then a.outerCfgs else [])

def reachedByCfgAttr (cc : CharClass) : Bool := n.ancestors.any fun a : Item =>
  a.node.attributes.any (Attribute.addsCfg cc) ||
    (a.hasDeclarations && a.node.inner.any (Attribute.addsCfg cc))

end Item

/-- `items`: the nodes of a kind, in the order of the text. -/
def items (root : ItemTree) (kind : ItemKind) : List Item :=
  ((Located.ofTree root).below fun n => n.children.reverse).filter fun n => n.kind = kind

structure FunctionGate where
  line : ℕ
  gate : Text
  cfgAttr : Bool
  nested : Bool
  deriving DecidableEq

def functionGate (cc : CharClass) (n : Item) : FunctionGate where
  line := n.node.line
  gate := effectiveGate n.gatePredicates
  cfgAttr := n.reachedByCfgAttr cc
  nested := n.around.any fun a => a.kind = .function

def functionGates (cc : CharClass) (root : ItemTree) : List FunctionGate :=
  (items root .function).map (functionGate cc)

structure EnumShape where
  line : ℕ
  variants : ℕ
  gatedVariants : ℕ
  deriving DecidableEq

/-- `own_attributes_name_cfg` -/
def nameCfg (cc : CharClass) (attributes : List Attribute) : Bool :=
  attributes.any fun a => a.cfgOf.isSome || a.addsCfg cc

def enumShape (cc : CharClass) (n : Item) : EnumShape where
  line := n.node.line
  variants := n.node.variants.length
  gatedVariants := n.node.variants.countP (nameCfg cc)

def enumShapes (cc : CharClass) (root : ItemTree) : List EnumShape :=
  (items root .enum).map (enumShape cc)

/-! ## The entry points in the graph -/

/-- `function_entry_kind`: a proof wherever it is marked, else a test. -/
def functionEntryKindFrom (kind : Option Attribute.Marker) :
    List Attribute → Option Attribute.Marker
  | [] => kind
  | a :: attributes =>
      match a.entryMarker with
      | some .proof => some .proof
      | some marker => functionEntryKindFrom (some marker) attributes
      | none => functionEntryKindFrom kind attributes

/-- The walk of the definitions goes into the file and the modules with a name. -/
def isEntered (n : Item) : Bool := n.kind = .sourceFile ∨ n.kind = .module ∧ n.node.name ≠ []

/-- The functions that `walk_rust_defs` emits. The walk of a body emits those inside it with no
entry kind. -/
def definedFunctions (root : ItemTree) : List Item :=
  ((Located.ofTree root).below fun n => if isEntered n then n.children.reverse else []).filter
    fun n => n.kind = .function ∧ n.node.name ≠ []

def entryKind (n : Item) : Option Attribute.Marker := functionEntryKindFrom none n.node.attributes

/-! ## What a build makes of an item -/

namespace Attribute

mutual

/-- The attribute leaves its item in the build. -/
def holds (b : Build) : Attribute → Bool
  | .cfg predicate _ => b.holds predicate
  | .cfgAttr _ predicate attributes => !b.holds predicate || allHold b attributes
  | .other _ _ => true

def allHold (b : Build) : List Attribute → Bool
  | [] => true
  | a :: attributes => a.holds b && allHold b attributes

end

mutual

def marks (m : Marker) (b : Build) : Attribute → Bool
  | .cfg _ _ => false
  | .cfgAttr _ predicate attributes => b.holds predicate && anyMarks m b attributes
  | .other path hasArguments => (Attribute.other path hasArguments).marker = some m

def anyMarks (m : Marker) (b : Build) : List Attribute → Bool
  | [] => false
  | a :: attributes => a.marks m b || anyMarks m b attributes

end

mutual

/-- The attribute is a `cfg` in some build. -/
def listsCfg : Attribute → Bool
  | .cfg _ _ => true
  | .cfgAttr _ _ attributes => anyListsCfg attributes
  | .other _ _ => false

def anyListsCfg : List Attribute → Bool
  | [] => false
  | a :: attributes => a.listsCfg || anyListsCfg attributes

end

/-- The arguments say whether one of the attributes is a `cfg`. -/
def ReadRight (cc : CharClass) (a : Attribute) : Prop :=
  a.cfgOf = none → a.addsCfg cc = a.listsCfg

end Attribute

namespace Item

/-- The item is part of its file in the build. -/
def compiledIn (b : Build) (n : Item) : Bool := n.ancestors.all fun a : Item =>
  Attribute.allHold b a.node.attributes && Attribute.allHold b a.node.inner

/-- The harness collects the functions of a file and of the modules in it. -/
def collected (n : Item) : Bool :=
  n.kind = .function && n.around.all fun a => a.kind = .sourceFile || a.kind = .module

def variantsIn (b : Build) (n : Item) : ℕ := n.node.variants.countP (Attribute.allHold b)

end Item

/-! ## The text of a gate -/

section Gate

variable {b : Build}

/-- The profile that sets one option. -/
def setting (features : Finset Text) (key : Text) : BuildProfile where
  features := features
  options := fun name => if name = key then some true else none

theorem matches_setting {key : Text} (hb : b.bare key = true) :
    b.Matches (setting b.features key) where
  features := rfl
  options name value h := by
    obtain ⟨rfl, rfl⟩ : name = key ∧ true = value := by
      simpa only [setting, Option.ite_none_right_eq_some, Option.some.injEq] using h
    exact hb

theorem holds_of_gate {predicates : List CfgPredicate} (hwf : ∀ p ∈ predicates, p.WellFormed)
    {key : Text} (hplain : CfgPredicate.encode key = key) (hne : key ≠ [])
    (hgate : effectiveGate predicates = [] ∨ effectiveGate predicates = key)
    (hb : b.bare key = true) : ∀ p ∈ predicates, b.Holds p := by
  intro p hp
  have hsome : predicates ≠ [] := ne_nil_of_mem hp
  have hcanon := FileScope.wellFormed_all hwf
  rw [effectiveGate, if_neg hsome] at hgate
  have htext := hgate.resolve_left (FileScope.compact_ne hcanon).1
  have hoption : (CfgPredicate.option key none).compact = key := by
    rw [CfgPredicate.compact_eq]
    simpa [CfgPredicate.key, CfgPredicate.body, CfgPredicate.Body.text] using hplain
  have hoptionwf : (CfgPredicate.option key none).WellFormed :=
    CfgPredicate.wellFormed_option.mpr ⟨hne, fun h => absurd rfl h⟩
  have heq := CfgPredicate.compact_injective hcanon hoptionwf (htext.trans hoption.symm)
  -- the option is true in the profile that sets it, and so is what it is the canonical form of
  have htrue : (CfgPredicate.all predicates).evalIn (setting b.features key) = .true := by
    rw [CfgPredicate.evalIn, ← CfgPredicate.evalWith_canonical, heq]
    simp [CfgPredicate.evalWith, setting]
  have hall := (CfgPredicate.evalIn_models (matches_setting hb) _).1 htrue
  exact Build.holds_all.mp hall p hp

end Gate

/-! ## Attributes in a build -/

namespace Attribute

variable {b : Build}

theorem allHold_iff {attributes : List Attribute} :
    allHold b attributes = true ↔ ∀ a ∈ attributes, a.holds b = true := by
  induction attributes with
  | nil => simp [allHold]
  | cons a attributes ih => simp [allHold, ih]

theorem anyMarks_of_mem {m : Marker} {attributes : List Attribute} {a : Attribute}
    (ha : a ∈ attributes) (hmarks : a.marks m b = true) : anyMarks m b attributes = true := by
  induction attributes with
  | nil => cases ha
  | cons head attributes ih =>
      rw [anyMarks, Bool.or_eq_true]
      rcases mem_cons.mp ha with rfl | ha
      · exact .inl hmarks
      · exact .inr (ih ha)

mutual

/-- An attribute that is no `cfg` in any build leaves its item in all of them. -/
theorem holds_of_listsNone : ∀ {a : Attribute}, a.listsCfg = false → a.holds b = true
  | .cfg _ _, h => by cases h
  | .cfgAttr _ _ _, h => by
      rw [holds, allHold_of_listsNone h, Bool.or_true]
  | .other _ _, _ => rfl

theorem allHold_of_listsNone : ∀ {attributes : List Attribute},
    anyListsCfg attributes = false → allHold b attributes = true
  | [], _ => rfl
  | a :: attributes, h => by
      obtain ⟨hhead, htail⟩ := Bool.or_eq_false_iff.mp h
      rw [allHold, holds_of_listsNone hhead, allHold_of_listsNone htail, Bool.and_self]

end

theorem wellFormed_cfgOf {a : Attribute} {p : CfgPredicate} (h : a.cfgOf = some p) :
    p.WellFormed := by
  cases a with
  | cfg predicate wf =>
      obtain rfl := Option.some.inj h
      exact wf
  | cfgAttr | other => cases h

theorem holds_of_cfgOf {a : Attribute} {p : CfgPredicate} (h : a.cfgOf = some p) :
    a.holds b = b.holds p := by
  cases a with
  | cfg predicate wf =>
      obtain rfl := Option.some.inj h
      rfl
  | cfgAttr | other => cases h

theorem marks_of_marker {a : Attribute} {m : Marker} (h : a.marker = some m) :
    a.marks m b = true := by
  cases a with
  | other path hasArguments => exact decide_eq_true h
  | cfg | cfgAttr => cases h

end Attribute

/-! ## The functions of the walk -/

theorem mem_functionEntryKindFrom {kind : Option Attribute.Marker} {m : Attribute.Marker} :
    ∀ {attributes : List Attribute}, functionEntryKindFrom kind attributes = some m →
      kind = some m ∨ ∃ a ∈ attributes, a.entryMarker = some m := by
  intro attributes
  induction attributes generalizing kind with
  | nil => exact .inl
  | cons a attributes ih =>
      intro h
      rw [functionEntryKindFrom] at h
      split at h
      next hproof =>
        obtain rfl := Option.some.inj h
        exact .inr ⟨a, mem_cons_self, hproof⟩
      next marker _ hmarker =>
        rcases ih h with hkind | ⟨x, hx, hm⟩
        · exact .inr ⟨a, mem_cons_self, hmarker.trans hkind⟩
        · exact .inr ⟨x, mem_cons_of_mem _ hx, hm⟩
      next =>
        rcases ih h with hkind | ⟨x, hx, hm⟩
        · exact .inl hkind
        · exact .inr ⟨x, mem_cons_of_mem _ hx, hm⟩

theorem marks_of_entryKind {n : Item} {m : Attribute.Marker} (h : entryKind n = some m)
    (b : Build) : Attribute.anyMarks m b n.node.attributes = true := by
  rcases mem_functionEntryKindFrom h with hnone | ⟨a, ha, hmarker⟩
  · cases hnone
  · exact Attribute.anyMarks_of_mem ha
      (Attribute.marks_of_marker (Option.filter_eq_some_iff.mp hmarker).1)

theorem reverse_children_subset (n : Item) : n.children.reverse ⊆ n.children := fun _ h =>
  mem_reverse.mp h

/-- The walk gets to the item. -/
def isVisited (n : Item) : Bool := n.around.all isEntered

theorem definedFunctions_eq (root : ItemTree) : definedFunctions root =
    (items root .function).filter fun n => isVisited n && n.node.name ≠ [] := by
  have hstep : ∀ n c : Item, c.parent = some n → isVisited c = (isVisited n && isEntered n) := by
    intro n c hc
    rw [isVisited, Item.around, Located.ancestors_of_parent hc, tail_cons,
      n.ancestors_eq_cons, all_cons, Bool.and_comm]
    rfl
  have hroot : isVisited (Located.ofTree root) = true := by
    rw [isVisited, Item.around, Located.ancestors_of_root rfl]
    rfl
  rw [definedFunctions, Located.below,
    Located.walk_eq_filter hstep reverse_children_subset _ hroot, items, Located.below,
    filter_filter, filter_filter]
  refine filter_congr fun n _ => ?_
  rw [Bool.decide_and]
  ac_rfl

theorem kind_of_entered {n : Item} (h : isEntered n = true) :
    n.kind = .sourceFile ∨ n.kind = .module :=
  (of_decide_eq_true h).imp_right And.left

theorem around_of_visited {n : Item} (h : isVisited n = true) :
    ∀ a ∈ n.around, a.kind = .sourceFile ∨ a.kind = .module := fun a ha =>
  kind_of_entered (all_eq_true.mp h a ha)

theorem collected_of_visited {n : Item} (hkind : n.kind = .function) (h : isVisited n = true) :
    n.collected = true := by
  rw [Item.collected, Bool.and_eq_true, all_eq_true]
  refine ⟨decide_eq_true hkind, fun a ha => ?_⟩
  rw [Bool.or_eq_true, decide_eq_true_eq, decide_eq_true_eq]
  exact around_of_visited h a ha

theorem root_of_mem_items {root : ItemTree} {kind : ItemKind} {n : Item} (h : n ∈ items root kind) :
    n.root = root :=
  (Located.root_of_ancestor
    (Located.mem_ancestors_of_below reverse_children_subset (mem_filter.mp h).1)).symm

/-! ## What an item says of itself -/

theorem wellFormed_gatePredicates {n : Item} : ∀ p ∈ n.gatePredicates, p.WellFormed := by
  have hwf : ∀ {attributes : List Attribute}, ∀ p ∈ attributes.filterMap Attribute.cfgOf,
      p.WellFormed := fun p hp => by
    obtain ⟨a, -, ha⟩ := mem_filterMap.mp hp
    exact Attribute.wellFormed_cfgOf ha
  intro p hp
  rcases mem_append.mp hp with hp | hp
  · exact hwf p hp
  · obtain ⟨a, -, hp⟩ := mem_flatMap.mp hp
    rcases mem_append.mp hp with hp | hp
    · split at hp
      · exact hwf p hp
      · cases hp
    · split at hp
      · exact hwf p hp
      · cases hp

/-- The file itself has no attributes before it. -/
def Unheaded (t : ItemTree) : Prop := t.node.kind = .sourceFile → t.node.attributes = []

/-- What the two readings leave out: the braces of the function, and a `cfg_attr` whose
arguments are misread. -/
structure ReadWhole (cc : CharClass) (n : Item) : Prop where
  inner : ∀ a ∈ n.node.inner, a.listsCfg = false
  outer : ∀ m ∈ n.ancestors, ∀ a ∈ (Item.node m).attributes, a.ReadRight cc
  around : ∀ m ∈ n.around, ∀ a ∈ m.node.inner, a.ReadRight cc

section Compiled

variable {cc : CharClass} {b : Build} {n : Item}

theorem holds_of_read {a : Attribute} (hright : a.ReadRight cc) (hadds : a.addsCfg cc = false)
    (hcfg : ∀ p, a.cfgOf = some p → b.Holds p) : a.holds b = true := by
  cases hp : a.cfgOf with
  | some p =>
      rw [Attribute.holds_of_cfgOf hp]
      exact hcfg p hp
  | none => exact Attribute.holds_of_listsNone ((hright hp).symm.trans hadds)

/-- An item whose predicates hold and that no `cfg_attr` reaches is compiled, where all that
gates it is read. -/
theorem compiledIn_of_read (hroot : n.root.Every Unheaded) (hn : isVisited n = true)
    (hread : ReadWhole cc n)
    (hgate : ∀ p ∈ n.gatePredicates, b.Holds p) (hattr : n.reachedByCfgAttr cc = false) :
    n.compiledIn b = true := by
  have haround := around_of_visited hn
  have hnone : ∀ m ∈ n.ancestors, (∀ a ∈ (Item.node m).attributes, a.addsCfg cc = false) ∧
      (Item.hasDeclarations m = true → ∀ a ∈ (Item.node m).inner, a.addsCfg cc = false) := by
    intro m hm
    have h := any_eq_false.mp hattr m hm
    simp only [Bool.or_eq_true, Bool.and_eq_true, not_or, any_eq_true, not_exists, not_and,
      Bool.not_eq_true] at h
    exact ⟨fun a ha => h.1 a ha, fun hdecl a ha => h.2 hdecl a ha⟩
  rw [Item.compiledIn, all_eq_true]
  intro m hm
  rw [Bool.and_eq_true, Attribute.allHold_iff, Attribute.allHold_iff]
  obtain ⟨houter, hinner⟩ := hnone m hm
  rw [n.ancestors_eq_cons] at hm
  rcases mem_cons.mp hm with rfl | hm'
  · -- the function: its own attributes are read, its braces gate nothing
    refine ⟨fun a ha => ?_, fun a ha => Attribute.holds_of_listsNone (hread.inner a ha)⟩
    refine holds_of_read (hread.outer m m.self_mem_ancestors a ha) (houter a ha) fun p hp => ?_
    exact hgate p (mem_append_left _ (mem_filterMap.mpr ⟨a, ha, hp⟩))
  · have hmem : m ∈ n.ancestors := by
      rw [n.ancestors_eq_cons]
      exact mem_cons_of_mem _ hm'
    have hdecl : Item.hasDeclarations m = true := by
      rcases haround m hm' with hkind | hkind <;> rw [Item.hasDeclarations, hkind] <;> rfl
    have hreach : ∀ p, p ∈ Item.innerCfgs m ∨ Item.isGatingAncestor m = true ∧ p ∈ Item.outerCfgs m →
        b.Holds p := fun p hp => by
      refine hgate p (mem_append_right _ (mem_flatMap.mpr ⟨m, hm', ?_⟩))
      rw [if_pos hdecl]
      rcases hp with hp | ⟨hgating, hp⟩
      · exact mem_append_left _ hp
      · rw [if_pos hgating]
        exact mem_append_right _ hp
    refine ⟨fun a ha => ?_, fun a ha => ?_⟩
    · refine holds_of_read (hread.outer m hmem a ha) (houter a ha) fun p hp => ?_
      refine hreach p (.inr ⟨?_, mem_filterMap.mpr ⟨a, ha, hp⟩⟩)
      rcases haround m hm' with hkind | hkind
      · -- there is nothing before the file
        have hevery : m.tree.Every Unheaded := by
          refine Located.every_of_root ?_
          rwa [Located.root_of_ancestor hmem]
        rw [show (Item.node m).attributes = [] from hevery.1 hkind] at ha
        cases ha
      · rw [Item.isGatingAncestor, hkind]
        rfl
    · refine holds_of_read (hread.around m hm' a ha) (hinner hdecl a ha) fun p hp => ?_
      exact hreach p (.inl (mem_filterMap.mpr ⟨a, ha, hp⟩))

end Compiled

end ItemGates

end CodeGraph
