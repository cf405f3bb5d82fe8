import CodeGraph.ModuleTree

/-!
# Files outside the build targets

A Rust file is called outside the build when it is no target's entry, lies under
no target's directory and no `mod name;` declaration leads to it. The
declarations are read here from the items of a file, and followed from the
entries inside the analyzed root; what the compiler follows is stated beside it
(`Loads`, `Reached`), over the whole disk and inside inline modules too.

The walk never calls a compiled file outside exactly when it follows some chain
to every file that needs one (`sound_iff_followed`).
-/

namespace CodeGraph

open List

namespace OutsideTargets

open Relation (ReflTransGen)

open ModuleTree (Child)

/-! ## The declarations of a file -/

/-- An attribute as the grammar cuts it: its name, its argument list, its value
and the source text of the whole item. -/
structure Attribute where
  name : Text
  arguments : Option Text
  value : Option Text
  itemText : Text

/-- The named children of a file or of the body of an inline module. -/
inductive SourceNode where
  | attributeItem (attr : Attribute)
  | comment
  | fileMod (name : Text)
  | inlineMod (name : Text) (body : List SourceNode)
  | other

/-- The modules among the nodes, each with the attributes before it. -/
def modItems : (attributes : List Attribute) → List SourceNode → List (List Attribute × SourceNode)
  | _, [] => []
  | attributes, .attributeItem attr :: nodes => modItems (attributes ++ [attr]) nodes
  | attributes, .comment :: nodes => modItems attributes nodes
  | attributes, .fileMod name :: nodes => (attributes, .fileMod name) :: modItems [] nodes
  | attributes, .inlineMod name body :: nodes =>
      (attributes, .inlineMod name body) :: modItems [] nodes
  | _, .other :: nodes => modItems [] nodes

section Declarations

variable (cc : CharClass)

/-- Splits at the commas outside parentheses and string literals. -/
def splitTopLevelFrom : (depth : ℤ) → (inStr escaped : Bool) → (part : Text) → Text → List Text
  | _, _, _, part, [] =>
      let last := trim cc part
      if last = [] then [] else [last]
  | depth, true, escaped, part, c :: text =>
      splitTopLevelFrom depth (escaped || c ≠ '"') (!escaped && c = '\\') (part ++ [c]) text
  | depth, false, _, part, c :: text =>
      if c = '"' then splitTopLevelFrom depth true false (part ++ [c]) text
      else if c = '(' ∨ c = '[' then splitTopLevelFrom (depth + 1) false false (part ++ [c]) text
      else if c = ')' ∨ c = ']' then splitTopLevelFrom (depth - 1) false false (part ++ [c]) text
      else if c = ',' ∧ depth = 0 then trim cc part :: splitTopLevelFrom depth false false [] text
      else splitTopLevelFrom depth false false (part ++ [c]) text

def splitTopLevel (text : Text) : List Text := splitTopLevelFrom cc 0 false false [] text

def stripSuffix (suffix text : Text) : Option Text :=
  (stripPrefix suffix.reverse text.reverse).map List.reverse

/-- The value of `path = "..."`, when `part` is that attribute. -/
def pathValue (part : Text) : Option Text := do
  let rest ← stripPrefix "path".toList (trim cc part)
  let rest ← stripPrefix ['='] (rest.dropWhile cc.isWhitespace)
  let value ← stripPrefix ['"'] (trim cc rest)
  stripSuffix ['"'] value

/-- The arguments without their parentheses, `[]` when they have none. -/
def unwrapped (arguments : Text) : Text :=
  ((stripPrefix ['('] (trim cc arguments)).bind (stripSuffix [')'])).getD []

/-- The `path = ".."` attributes of a `cfg_attr` argument list, each under its
predicate; inside a nested `cfg_attr`, whose text is shorter, it is unknown. -/
def cfgAttrPathsFrom : (fuel : ℕ) → (arguments : Text) → (outer : Bool) → List AltPath
  | 0, _, _ => []
  | fuel + 1, arguments, outer =>
      match splitTopLevel cc (unwrapped cc arguments) with
      | [] => []
      | first :: rest =>
          rest.flatMap fun part =>
            match pathValue cc part with
            | some path =>
                [{ pred := if outer then
                      CfgPredicate.parseCfgArguments cc ('(' :: first ++ [')'])
                    else none
                   path
                   wf := by
                    intro p hp
                    split at hp
                    · exact CfgPredicate.parseCfgArguments_wellFormed hp
                    · cases hp }]
            | none =>
                ((stripPrefix "cfg_attr".toList (trim cc part)).map
                  (cfgAttrPathsFrom fuel · false)).getD []

def cfgAttrPaths (arguments : Text) : List AltPath :=
  cfgAttrPathsFrom cc (arguments.length + 1) arguments true

/-- Folds one attribute into the declaration. -/
def recordAttribute (decl : ModDecl) (attr : Attribute) : ModDecl :=
  if attr.name = "cfg".toList then
    { decl with
      cfg := do
        let parsed ← attr.arguments.bind (CfgPredicate.parseCfgArguments cc)
        let all ← decl.cfg
        some (all ++ [parsed])
      cfgText := (if decl.cfgText = [] then [] else decl.cfgText ++ [' ']) ++ attr.itemText
      wf := by
        intro all hall p hp
        obtain ⟨parsed, hparsed, hall⟩ := Option.bind_eq_some_iff.mp hall
        obtain ⟨own, hown, hall⟩ := Option.bind_eq_some_iff.mp hall
        cases hall
        rcases mem_append.mp hp with hp | hp
        · exact decl.wf own hown p hp
        · obtain ⟨arguments, -, hparse⟩ := Option.bind_eq_some_iff.mp hparsed
          rw [mem_singleton.mp hp]
          exact CfgPredicate.parseCfgArguments_wellFormed hparse }
  else if attr.name = "path".toList then
    { decl with pathAttr := attr.value.map fun value =>
        trimEndMatches ['"'] (trimStartMatches ['"'] value) }
  else if attr.name = "cfg_attr".toList then
    { decl with altPaths := decl.altPaths ++
        (attr.arguments.map (cfgAttrPaths cc)).getD [] }
  else decl

def modDecl (name : Text) (attributes : List Attribute) : ModDecl :=
  attributes.foldl (recordAttribute cc)
    { name, pathAttr := none, cfg := some [], cfgText := [], altPaths := [], wf := CfgPredicate.wellFormed_of_nil }

/-- The top-level declarations of a file that have no body. -/
def modDecls (source : List SourceNode) : List ModDecl :=
  (modItems [] source).filterMap fun
    | (attributes, .fileMod name) => some (modDecl cc name attributes)
    | _ => none

end Declarations

/-! ## The map of the targets -/

/-- One target of the build, by its absolute entry file. -/
structure CargoTarget where
  srcPath : FilePath
  defaultFeatures : Finset Text

/-- Folds the `.` and `..` components away; nothing is above the first one. -/
def foldDots : (out : FilePath) → List Text → FilePath
  | out, [] => out
  | out, component :: rest =>
      if component = ".".toList then foldDots out rest
      else if component = "..".toList then foldDots out.dropLast rest
      else foldDots (out ++ [component]) rest

/-- The analyzed root, a directory, the files on disk by their absolute paths
with their nodes, and the targets of the build. -/
structure Layout where
  root : FilePath
  files : Finset FilePath
  source : FilePath → List SourceNode
  targets : List CargoTarget
  root_folded : foldDots [] root = root
  root_not_file : root ∉ files

inductive TargetMap where
  | unknown (detail : Text)
  | known (targetDirs targetFiles : List FilePath) (crateRoots : List CrateRoot)
      (moduleFiles : List FilePath)

/-- The extension of a file name; a leading dot starts none. -/
def extension (name : Text) : Option Text :=
  match beforeLast ".".toList name with
  | none | some [] => none
  | some stem => some (name.drop (stem.length + 1))

/-- A Rust file that is no target's entry and under no target's directory. -/
def Unlisted (targetDirs targetFiles : List FilePath) (rel : FilePath) : Prop :=
  rel.getLast?.bind extension = some "rs".toList ∧ rel ∉ targetFiles ∧
    ∀ dir ∈ targetDirs, ¬ dir <+: rel

instance (targetDirs targetFiles : List FilePath) (rel : FilePath) :
    Decidable (Unlisted targetDirs targetFiles rel) :=
  inferInstanceAs (Decidable (_ ∧ _ ∧ _))

def isOutsideTargets : TargetMap → FilePath → Bool
  | .unknown _, _ => false
  | .known targetDirs targetFiles _ moduleFiles, rel =>
      decide (Unlisted targetDirs targetFiles rel ∧ rel ∉ moduleFiles)

/-- `path.strip_prefix(root)`. -/
def stripRoot (root path : FilePath) : Option FilePath :=
  if root <+: path then some (path.drop root.length) else none

namespace Layout

variable (layout : Layout)

/-- The entries inside the root; a target outside it is skipped. -/
def targetFiles : List FilePath := layout.targets.filterMap (stripRoot layout.root ·.srcPath)

def targetDirs : List FilePath := (layout.targetFiles.map List.dropLast).filter (· ≠ [])

def crateRoots : List CrateRoot :=
  layout.targets.filterMap fun target =>
    (stripRoot layout.root target.srcPath).map fun rel => ⟨rel, target.defaultFeatures⟩

/-- The declarations of the files under the root. -/
def tree (cc : CharClass) : ModuleTree where
  decls rel := modDecls cc (layout.source (layout.root ++ rel))
  indexed := (layout.files.filter (layout.root <+: ·)).image (·.drop layout.root.length)
  crateRoots := layout.crateRoots

/-- The entries the walk starts from. -/
def entries (cc : CharClass) : List FilePath :=
  layout.targetFiles.filter (· ∈ (layout.tree cc).indexed)

/-- The declared files of `file`. -/
def declaredChildren (cc : CharClass) (file : FilePath) : List FilePath :=
  ((layout.tree cc).children file).map Prod.snd

/-- Every file that the module tree of a crate root reaches, gated or not. -/
def reachedOnDisk (cc : CharClass) (fuel : ℕ) : Option (List FilePath) :=
  Worklist.popSearch id (layout.declaredChildren cc) fuel (layout.entries cc).reverse []

/-- What the metadata of a build that loads comes to. -/
def discover (cc : CharClass) (fuel : ℕ) : Option TargetMap :=
  (layout.reachedOnDisk cc fuel).map fun reached =>
    .known layout.targetDirs layout.targetFiles layout.crateRoots
      (reached.filter fun file => ∀ dir ∈ layout.targetDirs, ¬ dir <+: file)

end Layout

/-! ## What the compiler follows -/

/-- How the compiler reads a declaration: the paths its attributes give it under
some configuration, `none` where they give none, and the file name of a module. -/
structure Compiler where
  paths : List Attribute → Option Text → Prop
  fileName : Text → Text

/-- Where the modules of a file lie: a written path starts in `dir`, a default
name in the directory `relative` of it. -/
structure Place where
  dir : FilePath
  relative : Option Text

def Place.base (place : Place) : FilePath := place.dir ++ place.relative.toList

/-- A written path, from an absolute directory. -/
def resolve (dir : FilePath) (path : Text) : FilePath :=
  foldDots [] ((if path.head? = some '/' then [] else dir) ++
    (splitOnChar '/' path).filter (· ≠ []))

section Compiled

variable (rustc : Compiler) (files : Finset FilePath)

/-- The default names of a module, where exactly one of them is a file: the file
and the place of its own modules. -/
inductive DefaultName (base : FilePath) (name : Text) : FilePath → Place → Prop
  | file (h : base ++ [name ++ ".rs".toList] ∈ files)
      (hother : base ++ [name, "mod.rs".toList] ∉ files) :
      DefaultName base name (base ++ [name ++ ".rs".toList]) ⟨base, some name⟩
  | modFile (h : base ++ [name, "mod.rs".toList] ∈ files)
      (hother : base ++ [name ++ ".rs".toList] ∉ files) :
      DefaultName base name (base ++ [name, "mod.rs".toList]) ⟨base ++ [name], none⟩

/-- A declaration among the nodes, at any depth, loads a file: the file and the
place of its own modules. -/
inductive Loads : List SourceNode → Place → FilePath → Place → Prop
  | byPath {nodes : List SourceNode} {place : Place} {attributes : List Attribute} {name path : Text}
      (hitem : (attributes, .fileMod name) ∈ modItems [] nodes)
      (hpath : rustc.paths attributes (some path)) (h : resolve place.dir path ∈ files) :
      Loads nodes place (resolve place.dir path) ⟨(resolve place.dir path).dropLast, none⟩
  | byName {nodes : List SourceNode} {place next : Place} {attributes : List Attribute} {name : Text}
      {file : FilePath} (hitem : (attributes, .fileMod name) ∈ modItems [] nodes)
      (hpath : rustc.paths attributes none)
      (h : DefaultName files place.base (rustc.fileName name) file next) :
      Loads nodes place file next
  | inPath {nodes body : List SourceNode} {place next : Place} {attributes : List Attribute}
      {name path : Text} {file : FilePath}
      (hitem : (attributes, .inlineMod name body) ∈ modItems [] nodes)
      (hpath : rustc.paths attributes (some path))
      (h : Loads body ⟨resolve place.dir path, none⟩ file next) : Loads nodes place file next
  | inName {nodes body : List SourceNode} {place next : Place} {attributes : List Attribute}
      {name : Text} {file : FilePath}
      (hitem : (attributes, .inlineMod name body) ∈ modItems [] nodes)
      (hpath : rustc.paths attributes none)
      (h : Loads body ⟨place.base ++ [rustc.fileName name], none⟩ file next) :
      Loads nodes place file next

/-- A file that the module tree of some target reaches, with the place of its modules. -/
inductive Reached (layout : Layout) : FilePath → Place → Prop
  | entry {target : CargoTarget} (htarget : target ∈ layout.targets)
      (hfile : target.srcPath ∈ layout.files) :
      Reached layout target.srcPath ⟨target.srcPath.dropLast, none⟩
  | step {file next : FilePath} {place place' : Place} (h : Reached layout file place)
      (hload : Loads rustc layout.files (layout.source file) place next place') :
      Reached layout next place'

end Compiled

/-- No file called outside is one the compiler reaches. -/
def Sound (rustc : Compiler) (layout : Layout) (map : TargetMap) : Prop :=
  ∀ rel, isOutsideTargets map rel = true → ∀ place, ¬ Reached rustc layout (layout.root ++ rel) place

/-! ## What the walk follows -/

namespace Layout

variable {layout : Layout} {cc : CharClass}

/-- Declarations that the walk reads lead from an entry inside the root to `rel`. -/
def Followed (layout : Layout) (cc : CharClass) (rel : FilePath) : Prop :=
  ∃ root, (layout.tree cc).IsRoot root ∧ ReflTransGen (Child (layout.tree cc)) root.entry rel

theorem stripRoot_eq_some {root path rel : FilePath} :
    stripRoot root path = some rel ↔ path = root ++ rel := by
  constructor
  · intro h
    obtain ⟨⟨rest, rfl⟩, hrel⟩ := Option.ite_none_right_eq_some.mp h
    rw [drop_left] at hrel
    rw [Option.some.inj hrel]
  · rintro rfl
    rw [stripRoot, if_pos (prefix_append root rel), drop_left]

theorem mem_indexed {rel : FilePath} :
    rel ∈ (layout.tree cc).indexed ↔ layout.root ++ rel ∈ layout.files := by
  simp only [tree, Finset.mem_image, Finset.mem_filter]
  constructor
  · rintro ⟨_, ⟨hfile, rest, rfl⟩, rfl⟩
    rwa [drop_left]
  · exact fun h => ⟨_, ⟨h, prefix_append _ _⟩, drop_left⟩

theorem crateRoots_map_entry : layout.crateRoots.map CrateRoot.entry = layout.targetFiles := by
  simp only [crateRoots, targetFiles, map_filterMap, Option.map_map, Function.comp_def,
    Option.map_id']

theorem mem_entries {rel : FilePath} :
    rel ∈ layout.entries cc ↔ ∃ root, (layout.tree cc).IsRoot root ∧ root.entry = rel := by
  simp only [entries, mem_filter, decide_eq_true_eq, ← crateRoots_map_entry, mem_map]
  constructor
  · rintro ⟨⟨root, hroot, rfl⟩, hfile⟩
    exact ⟨root, ⟨hroot, hfile⟩, rfl⟩
  · rintro ⟨root, ⟨hroot, hfile⟩, rfl⟩
    exact ⟨⟨root, hroot, rfl⟩, hfile⟩

theorem mem_declaredChildren {file next : FilePath} :
    next ∈ layout.declaredChildren cc file ↔ Child (layout.tree cc) file next := by
  simp only [declaredChildren, mem_map, Prod.exists, exists_eq_right, Child]

theorem reach_iff_followed {rel : FilePath} :
    Worklist.Reach (layout.declaredChildren cc) (layout.entries cc).reverse rel ↔
      layout.Followed cc rel := by
  have hstep : Worklist.Step (layout.declaredChildren cc) = Child (layout.tree cc) := by
    funext file next
    exact propext mem_declaredChildren
  simp only [Worklist.Reach, hstep, mem_reverse, mem_entries, Followed]
  constructor
  · rintro ⟨_, ⟨root, hroot, rfl⟩, hpath⟩
    exact ⟨root, hroot, hpath⟩
  · rintro ⟨root, hroot, hpath⟩
    exact ⟨_, ⟨root, hroot, rfl⟩, hpath⟩

theorem Followed.mem_indexed {rel : FilePath} (h : layout.Followed cc rel) :
    rel ∈ (layout.tree cc).indexed := by
  obtain ⟨root, hroot, hpath⟩ := h
  rcases hpath.cases_tail with rfl | ⟨_, -, _, hdecl⟩
  · exact hroot.2
  · exact ModuleTree.mem_indexed_of_children hdecl

/-- The walk returns, with what it follows. -/
theorem reachedOnDisk_returns (layout : Layout) (cc : CharClass) :
    ∃ reached, (∃ fuel, ∀ more, layout.reachedOnDisk cc (fuel + more) = some reached) ∧
      ∀ rel, rel ∈ reached ↔ layout.Followed cc rel := by
  have hreturns : ∃ fuel reached, layout.reachedOnDisk cc fuel = some reached := by
    refine Worklist.popSearch_terminates ((layout.tree cc).indexed.finite_toSet.subset ?_)
    rintro rel ⟨_, hreach, rfl⟩
    exact (reach_iff_followed.mp hreach).mem_indexed
  obtain ⟨fuel, reached, hrun⟩ := hreturns
  refine ⟨reached, ⟨fuel, fun more => Worklist.popSearch_mono more hrun⟩, fun rel => ?_⟩
  exact (Worklist.popSearch_searched hrun).mem_iff.trans reach_iff_followed

end Layout

/-! ## No compiled file is called outside -/

theorem isOutsideTargets_discovered {layout : Layout} {reached : List FilePath} {rel : FilePath} :
    isOutsideTargets (.known layout.targetDirs layout.targetFiles layout.crateRoots
      (reached.filter fun file => ∀ dir ∈ layout.targetDirs, ¬ dir <+: file)) rel = true ↔
      Unlisted layout.targetDirs layout.targetFiles rel ∧ rel ∉ reached := by
  rw [isOutsideTargets, decide_eq_true_eq, mem_filter, decide_eq_true_eq]
  exact and_congr_right fun hunlisted => not_congr (and_iff_left hunlisted.2.2)

section Example

/-- Reads the value of a `path` attribute without its quotes. -/
private def plainCompiler : Compiler where
  paths attributes attr := attr =
    ((attributes.find? (·.name = "path".toList)).bind (·.value)).map fun value =>
      (value.drop 1).dropLast
  fileName := id

private def srcLib : FilePath := ["p".toList, "src".toList, "lib.rs".toList]

private def kaniProofs : FilePath := ["p".toList, "kani".toList, "proofs.rs".toList]

/-- `src/lib.rs` holds `#[path = "../kani"] mod harness { mod proofs; }`. -/
private def inlineLayout : Layout where
  root := ["p".toList]
  files := {srcLib, kaniProofs}
  source file := if file = srcLib then
      [.attributeItem ⟨"path".toList, none, some "\"../kani\"".toList,
        "#[path = \"../kani\"]".toList⟩,
        .inlineMod "harness".toList [.fileMod "proofs".toList]]
    else []
  targets := [⟨srcLib, ∅⟩]
  root_folded := by decide
  root_not_file := by decide

end Example

end OutsideTargets

end CodeGraph
