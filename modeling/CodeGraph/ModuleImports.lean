import Mathlib.Data.Finset.Basic
import CodeGraph.NodeIds
import CodeGraph.Segments

/-!
# The imports of a module

The `use` declarations of every Rust module, keyed by the module that declares
them, and the paths they write. A module path counts from the root of its
crate: the path of the file, then the inline modules in it.
-/

namespace CodeGraph

/-- The Cargo facts a path is read with. `targets` holds every target entry
file, with its crate name when the target is a library; `owners` the entry files
whose module tree reaches each file. -/
structure CrateEvidence where
  known : Bool
  crateNames : Finset Text
  targets : Text → Option (Option Text)
  owners : Text → Option (Finset Text)
  logicalModules : Text → Option (List Text)

/-! ## Written paths -/

def stripGenericGroupsFrom : (depth : Nat) → Text → Text
  | _, [] => []
  | depth, c :: text =>
      if c = '<' then stripGenericGroupsFrom (depth + 1) text
      else if c = '>' then stripGenericGroupsFrom (depth - 1) text
      else if depth = 0 then c :: stripGenericGroupsFrom depth text
      else stripGenericGroupsFrom depth text

/-- The text without its `<...>` groups. -/
def stripGenericGroups (text : Text) : Text := stripGenericGroupsFrom 0 text

def colons : Text := "::".toList

def pathSegments (cc : CharClass) (path : Text) : List Text :=
  (splitOn colons ((stripGenericGroups path).filter fun c => !cc.isWhitespace c)).filter (· ≠ [])

namespace CrateEvidence

variable (evidence : CrateEvidence)

/-- The part of a file's path that spells its module. -/
def belowSource (file : Text) : Text :=
  let unplaced := (["tests/", "benches/", "examples/"].findSome? fun dir =>
    stripPrefix dir.toList file).getD file
  match beforeLast "src/".toList file with
  | some before =>
      if before = [] ∨ before.getLast? = some '/' then lastPiece "src/".toList file else unplaced
  | none => unplaced

def fileModulePath (file : Text) : List Text :=
  match evidence.logicalModules file with
  | some logical => logical
  | none =>
      if (evidence.targets file).isSome ∨ basename file = "lib.rs".toList ∨
          basename file = "main.rs".toList then []
      else
        let segments :=
          (splitOnChar '/' (trimEndMatches ".rs".toList (belowSource file))).filter (· ≠ [])
        if segments.getLast? = some "mod".toList then segments.dropLast else segments

/-- The module path of a scope: its file's, then the inline modules after it. -/
def scopeModulePath (scope : Text) : List Text :=
  let file := extractFilePrefixOrSelf scope
  evidence.fileModulePath file ++
    (splitOn colons ((stripPrefix file scope).getD [])).filter (· ≠ [])

/-- A target of the library named `lib` reaches `file`. -/
def libraryOwns (lib file : Text) : Bool :=
  match evidence.owners file with
  | some owners => decide (∃ owner ∈ owners, evidence.targets owner = some (some lib))
  | none => false

/-- `file` belongs to the crate of `callerFile`, or the facts do not say. -/
def sameCrate (callerFile file : Text) : Bool :=
  if evidence.known then
    match evidence.owners callerFile, evidence.owners file with
    | some a, some b => decide (a ∩ b).Nonempty
    | _, _ => true
  else true

end CrateEvidence

/-! ## Imports -/

/-- One `use` leaf: the path as written, its `as` name (empty when none), and
whether it is a glob (the path then omits the `::*`). -/
structure ImportRow where
  path : Text
  asName : Text
  isGlob : Bool
  deriving DecidableEq

/-- The name the leaf binds: the alias, else the last segment of the path. -/
def ImportRow.binds (row : ImportRow) : Text :=
  if row.asName = [] then lastPiece colons row.path else row.asName

/-- The imports as they were inserted, each with the scope that declares it. -/
abbrev ModuleImports := List (Text × ImportRow)

namespace ModuleImports

variable (imports : ModuleImports)

/-- The imports `scope` declares. -/
def ofScope (scope : Text) : List ImportRow :=
  (imports.filter fun entry => entry.1 = scope).map Prod.snd

/-- The scopes whose module path, from the root of their crate, is `module`. -/
def scopesAt (evidence : CrateEvidence) (module : List Text) : List Text :=
  (imports.map Prod.fst).eraseDups.filter fun scope => evidence.scopeModulePath scope = module

end ModuleImports

end CodeGraph
