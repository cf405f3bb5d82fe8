import Mathlib.Data.Finmap
import Mathlib.Data.Finset.Sort
import CodeGraph.Text

/-!
# The manifest and the change set

What an incremental pass knows of the last one (the manifest), what it sees now
(the discovered files) and the partition of the two that the graph is updated
with.
-/

namespace CodeGraph

structure FileState where
  mtimeNs : Int
  size : Nat
  contentHash : Text
  deriving DecidableEq

structure FileManifest where
  schemaVersion : Nat
  files : Finmap fun _ : Text => FileState

def manifestSchemaVersion : Nat := 1

def FileManifest.new : FileManifest where
  schemaVersion := manifestSchemaVersion
  files := ∅

def FileManifest.insert (m : FileManifest) (rel : Text) (state : FileState) : FileManifest :=
  { m with files := m.files.insert rel state }

/-- A file discovered on disk: its root-relative id, its path, and the cheap
change signal. -/
structure Discovered where
  rel : Text
  abs : Text
  mtimeNs : Int
  size : Nat
  deriving DecidableEq

def Discovered.state (d : Discovered) (hash : Text) : FileState where
  mtimeNs := d.mtimeNs
  size := d.size
  contentHash := hash

structure Rename where
  oldRel : Text
  newFile : Discovered
  deriving DecidableEq

/-- The set of files to act on, however they were classified. -/
structure ChangeSet where
  changed : List Discovered := []
  added : List Discovered := []
  deleted : List Text := []
  renamed : List Rename := []
  deriving DecidableEq

/-- The change set, the unchanged files and the manifest to persist. -/
structure Plan where
  changeSet : ChangeSet
  unchanged : List Discovered
  nextManifest : FileManifest

section Classify

-- the hash of the file at a path, `none` when it cannot be read
variable (hashFile : Text → Option Text)

def hashOf (d : Discovered) : Text := (hashFile d.abs).getD []

/-- The files to be read again, the files not known before and the unchanged
ones. -/
structure CurrentDiff where
  changed : List Discovered
  addedCandidates : List Discovered
  unchanged : List Discovered
  next : FileManifest

def diffCurrentAgainstPrior (prior : FileManifest) : List Discovered → CurrentDiff → CurrentDiff
  | [], acc => acc
  | d :: current, acc =>
      diffCurrentAgainstPrior prior current <|
        match prior.files.lookup d.rel with
        | none => { acc with addedCandidates := acc.addedCandidates ++ [d] }
        | some prev =>
            if prev.mtimeNs = d.mtimeNs ∧ prev.size = d.size then
              { acc with
                unchanged := acc.unchanged ++ [d]
                next := acc.next.insert d.rel prev }
            else
              let hash := hashOf hashFile d
              let next := acc.next.insert d.rel (d.state hash)
              if hash ≠ [] ∧ hash = prev.contentHash then
                { acc with unchanged := acc.unchanged ++ [d], next := next }
              else { acc with changed := acc.changed ++ [d], next := next }

/-- The files known to the prior manifest only. -/
def deletedCandidates (prior : FileManifest) (current : List Discovered) : List Text :=
  (prior.files.keys.sort (· ≤ ·)).filter fun rel => rel ∉ current.map Discovered.rel

def deletedByHash (prior : FileManifest) (candidates : List Text) (hash : Text) : List Text :=
  candidates.filter fun rel =>
    match prior.files.lookup rel with
    | some state => state.contentHash ≠ [] ∧ state.contentHash = hash
    | none => false

structure Matched where
  renamed : List Rename
  added : List Discovered
  consumedDeleted : List Text
  next : FileManifest

def matchRenamesAndAdds (deletedByHash : Text → List Text) : List Discovered → Matched → Matched
  | [], acc => acc
  | d :: candidates, acc =>
      let hash := hashOf hashFile d
      let next := acc.next.insert d.rel (d.state hash)
      let matchedOld :=
        if hash = [] then none
        else (deletedByHash hash).find? fun old => old ∉ acc.consumedDeleted
      matchRenamesAndAdds deletedByHash candidates <|
        match matchedOld with
        | some oldRel =>
            { acc with
              renamed := acc.renamed ++ [⟨oldRel, d⟩]
              consumedDeleted := oldRel :: acc.consumedDeleted
              next := next }
        | none => { acc with added := acc.added ++ [d], next := next }

/-- Classifies the current files against the prior manifest. -/
def classify (prior : FileManifest) (current : List Discovered) : Plan :=
  let diff := diffCurrentAgainstPrior hashFile prior current
    { changed := [], addedCandidates := [], unchanged := [], next := .new }
  let candidates := deletedCandidates prior current
  let matched := matchRenamesAndAdds hashFile (deletedByHash prior candidates) diff.addedCandidates
    { renamed := [], added := [], consumedDeleted := [], next := diff.next }
  { changeSet :=
      { changed := diff.changed
        added := matched.added
        deleted := candidates.filter fun rel => rel ∉ matched.consumedDeleted
        renamed := matched.renamed }
    unchanged := diff.unchanged
    nextManifest := matched.next }

end Classify

end CodeGraph
