import CodeGraph.LightLink

/-!
# The walk

The recursive walk that collects the source files of a tree, and the records it
leaves where it stops: nested repositories, directories of the built-in policy,
excluded directories, directories that cannot be read.

What the walk returns is told from the tree alone: `Reached` are the files whose
directories were all entered, `Stopped` the entries it left a record of. A file
the walk meets leaves neither when it is oversized, which is the one way a file of
a tree gets lost.
-/

namespace CodeGraph

/-! ## Limits and policy -/

def maxFiles : Nat := 100000

def maxFileBytes : Nat := 10485760

def walkMaxDepth : Nat := 64

inductive DependencyScope where
  | none
  | publicApi
  | full
  deriving DecidableEq

def DependencyScope.descendsIntoDependencies (scope : DependencyScope) : Bool :=
  scope ≠ .none

/-- Bare directory names, matched anywhere, and root-relative paths, matched
once. -/
structure ExcludeSet where
  names : List Text := []
  paths : List Text := []

def ExcludeSet.isEmpty (set : ExcludeSet) : Bool := set.names.isEmpty && set.paths.isEmpty

def ExcludeSet.matches (set : ExcludeSet) (name rel : Text) : Bool :=
  name ∈ set.names || rel ∈ set.paths

def artifactDir : Text := ".ai-architect-mcp-codebase".toList

def legacyArtifactDir : Text := ".automatised-pipeline".toList

def dependencyDirNames : List Text :=
  ["target", "node_modules", "__pycache__", ".venv", "venv", ".pytest_cache", ".mypy_cache",
    ".tox", ".eggs", "build", "out", ".gradle", ".idea", "Pods", "DerivedData", ".build",
    "Carthage", ".swiftpm", "vendor", "deps", "dist", "obj", "coverage", ".nyc_output", ".hg",
    ".svn", ".bzr", ".cache", ".next", ".nuxt", ".turbo", ".parcel-cache", ".terraform",
    ".serverless", ".dart_tool", ".stack-work"].map String.toList

def shouldSkip (name : Text) (scope : DependencyScope) : Bool :=
  if name = ".git".toList then true
  else if name = artifactDir ∨ name = legacyArtifactDir then true
  else if scope.descendsIntoDependencies then false
  else name ∈ dependencyDirNames

def pruneReason (name : Text) : Text :=
  if name = ".git".toList then "vcs".toList
  else if name = artifactDir ∨ name = legacyArtifactDir then "tool_artifact".toList
  else "dependency_or_build_dir".toList

def nestedRepository : Text := "nested_repository".toList

/-! ## Trees -/

/-- An entry of a directory. `dotGit` is whether the directory has a `.git` that
exists, `readable` whether it opens for listing. -/
inductive FsEntry (ν : Type) where
  | file (name : ν) (size : Nat)
  | symlink (name : ν)
  | other (name : ν)
  | dir (name : ν) (dotGit readable : Bool) (entries : List (FsEntry ν))

namespace FsEntry

def name {ν : Type} : FsEntry ν → ν
  | .file name _ => name
  | .symlink name => name
  | .other name => name
  | .dir name _ _ _ => name

def isNestedRepository {ν : Type} : FsEntry ν → Bool
  | .dir _ dotGit _ _ => dotGit
  | _ => false

end FsEntry

/-- `languageFilter` tells the file names of one language, when the walk is for
one. -/
structure WalkOptions (ν : Type) where
  languageFilter : Option (ν → Bool) := none
  dependencyScope : DependencyScope := .none
  excludeDirs : ExcludeSet := {}

/-- Files by their path below the root, directories by its text. -/
structure WalkOutcome (ν : Type) where
  files : List (List ν) := []
  excludedDirs : List Text := []
  unreadableDirs : List Text := []
  prunedDirs : List (Text × Text) := []

section Walk

variable {ν : Type} (lossy : ν → Text) (opts : WalkOptions ν)

/-- The root-relative, forward-slash text of a path. -/
def dirRel (path : List ν) : Text := forwardSlashes (joinWith ['/'] (path.map lossy))

namespace WalkOutcome

def addFile (c : WalkOutcome ν) (path : List ν) : WalkOutcome ν :=
  { c with files := c.files ++ [path] }

def addExcluded (c : WalkOutcome ν) (rel : Text) : WalkOutcome ν :=
  { c with excludedDirs := c.excludedDirs ++ [rel] }

def addUnreadable (c : WalkOutcome ν) (rel : Text) : WalkOutcome ν :=
  { c with unreadableDirs := c.unreadableDirs ++ [rel] }

def addPruned (c : WalkOutcome ν) (rel reason : Text) : WalkOutcome ν :=
  { c with prunedDirs := c.prunedDirs ++ [(rel, reason)] }

end WalkOutcome

/-! ## The walk -/

def walkTooDeep (dir : List ν) : Text :=
  "walk_too_deep: exceeded MAX_DEPTH (".toList ++ Nat.toDigits 10 walkMaxDepth ++ ") at ".toList
    ++ joinWith ['/'] (dir.map lossy)

def tooManyFilesDuring : Text :=
  "too_many_files: exceeded MAX_FILES (".toList ++ Nat.toDigits 10 maxFiles
    ++ ") during walk".toList

def tooManyFiles (count : Nat) : Text :=
  "too_many_files: codebase contains ".toList ++ Nat.toDigits 10 count
    ++ " files, MAX_FILES is ".toList ++ Nat.toDigits 10 maxFiles

def readDirFailed (dir : List ν) : Text :=
  "read_dir ".toList ++ joinWith ['/'] (dir.map lossy) ++ ": permission denied".toList

/-- An oversized file is passed over. -/
def visitFileEntry (path : List ν) (name : ν) (size : Nat) (c : WalkOutcome ν) : WalkOutcome ν :=
  if size > maxFileBytes then c
  else
    match opts.languageFilter with
    | some keeps => if keeps name then c.addFile path else c
    | none => c.addFile path

/-- `visit` goes through the entries of the directory. -/
def walkDirRecursive (dir : List ν) (depth : Nat) (readable : Bool)
    (visit : WalkOutcome ν → Except Text (WalkOutcome ν)) (c : WalkOutcome ν) :
    Except Text (WalkOutcome ν) :=
  if depth > walkMaxDepth then .error (walkTooDeep lossy dir)
  else if readable then visit c
  else if depth > 0 then .ok (c.addUnreadable (dirRel lossy dir))
  else .error (readDirFailed lossy dir)

/-- The exclusions, then `descend`, then the bound on the files. -/
def visitDirEntry (path : List ν) (name : ν)
    (descend : WalkOutcome ν → Except Text (WalkOutcome ν)) (c : WalkOutcome ν) :
    Except Text (WalkOutcome ν) :=
  if !opts.excludeDirs.isEmpty && opts.excludeDirs.matches (lossy name) (dirRel lossy path) then
    .ok (c.addExcluded (dirRel lossy path))
  else do
    let c ← descend c
    if c.files.length > maxFiles then .error tooManyFilesDuring else .ok c

mutual

def visitEntry (dir : List ν) (depth : Nat) :
    FsEntry ν → WalkOutcome ν → Except Text (WalkOutcome ν)
  | .file name size, c =>
      if shouldSkip (lossy name) opts.dependencyScope then
        .ok (c.addPruned (dirRel lossy (dir ++ [name])) (pruneReason (lossy name)))
      else .ok (visitFileEntry opts (dir ++ [name]) name size c)
  | .symlink name, c =>
      if shouldSkip (lossy name) opts.dependencyScope then
        .ok (c.addPruned (dirRel lossy (dir ++ [name])) (pruneReason (lossy name)))
      else .ok c
  | .other name, c =>
      if shouldSkip (lossy name) opts.dependencyScope then
        .ok (c.addPruned (dirRel lossy (dir ++ [name])) (pruneReason (lossy name)))
      else .ok c
  | .dir name dotGit readable entries, c =>
      if dotGit then .ok (c.addPruned (dirRel lossy (dir ++ [name])) nestedRepository)
      else if shouldSkip (lossy name) opts.dependencyScope then
        .ok (c.addPruned (dirRel lossy (dir ++ [name])) (pruneReason (lossy name)))
      else
        visitDirEntry lossy opts (dir ++ [name]) name
          (walkDirRecursive lossy (dir ++ [name]) (depth + 1) readable
            (visitEntries (dir ++ [name]) (depth + 1) entries)) c

def visitEntries (dir : List ν) (depth : Nat) :
    List (FsEntry ν) → WalkOutcome ν → Except Text (WalkOutcome ν)
  | [], c => .ok c
  | e :: entries, c =>
      match visitEntry dir depth e c with
      | .ok c => visitEntries dir depth entries c
      | .error err => .error err

end

def prunedLe (a b : Text × Text) : Bool := a.1 < b.1 ∨ a.1 = b.1 ∧ a.2 ≤ b.2

/-- The walk of a root, given by whether it opens and its entries. -/
def collectSourceFiles [LinearOrder ν] (readable : Bool) (entries : List (FsEntry ν)) :
    Except Text (WalkOutcome ν) :=
  match walkDirRecursive lossy [] 0 readable (visitEntries lossy opts [] 0 entries) {} with
  | .error err => .error err
  | .ok c =>
      if c.files.length > maxFiles then .error (tooManyFiles c.files.length)
      else
        .ok { c with
          files := c.files.mergeSort (· ≤ ·)
          prunedDirs := c.prunedDirs.mergeSort prunedLe }

end Walk

end CodeGraph
