import CodeGraph.Classify

/-!
# The fill after a bootstrap

Brings a graph imported from an artifact up to the working tree. What changed
since the artifact's commit is read from two listings of git, or from the
content hashes of the bundled manifest when git cannot tell.
-/

namespace CodeGraph

/-- A line without the carriage return before its end. -/
def chompReturn (line : Text) : Text := if line.getLast? = some '\r' then line.dropLast else line

/-- `text.lines()`: the text after the last newline is a line unless it is empty. -/
def lines (text : Text) : List Text :=
  let pieces := splitOnChar '\n' text
  pieces.dropLast.map chompReturn ++ (pieces.getLast?.toList.filter (· ≠ []))

/-- The standard output of the git calls; `none` for a call that failed. -/
structure Git where
  showPrefix : Option Text
  catFile : Option Text
  diff : Option Text
  others : Option Text

namespace Bootstrap

/-- A plausible git object sha. -/
def isHexSha (sha : Text) : Bool :=
  !sha.isEmpty && sha.all fun c => (hexDigitValue c).isSome

/-- Strips the subtree prefix from a git path; `none` outside the subtree. -/
def stripPrefixPath (path subtree : Text) : Option Text :=
  if subtree = [] then some path else stripPrefix subtree path

/-- The discovered file of an id. -/
def byRel (current : List Discovered) (rel : Text) : Option Discovered :=
  current.reverse.find? (·.rel = rel)

/-- Reads one line of `git diff --name-status -M` into the change set. -/
def parseDiffLine (subtree : Text) (current : List Discovered) (line : Text) (cs : ChangeSet) :
    ChangeSet :=
  match splitOnChar '\t' line with
  | (code :: _) :: fields =>
      if code = 'R' ∨ code = 'C' then
        match fields with
        | old :: new :: _ =>
            match stripPrefixPath new subtree with
            | none => cs
            | some newRel =>
                match byRel current newRel with
                | some d =>
                    if code = 'R' then
                      match stripPrefixPath old subtree with
                      | some oldRel => { cs with renamed := cs.renamed ++ [⟨oldRel, d⟩] }
                      | none => { cs with added := cs.added ++ [d] }
                    else { cs with added := cs.added ++ [d] }
                | none =>
                    -- the new end is not indexed: the old end of a rename goes
                    if code = 'R' then
                      match stripPrefixPath old subtree with
                      | some oldRel => { cs with deleted := cs.deleted ++ [oldRel] }
                      | none => cs
                    else cs
        | _ => cs
      else
        match fields with
        | path :: _ =>
            match stripPrefixPath path subtree with
            | none => cs
            | some rel =>
                if code = 'D' then { cs with deleted := cs.deleted ++ [rel] }
                else
                  match byRel current rel with
                  | none => cs
                  | some d =>
                      if code = 'A' then { cs with added := cs.added ++ [d] }
                      else { cs with changed := cs.changed ++ [d] }
        | [] => cs
  | _ => cs

/-- A failed `git diff` leaves the change set as it is. -/
def collectTrackedChanges (subtree : Text) (current : List Discovered) (diff : Option Text)
    (cs : ChangeSet) : ChangeSet :=
  match diff with
  | none => cs
  | some out => (lines out).foldl (fun cs line => parseDiffLine subtree current line cs) cs

/-- Adds the untracked files that are not in the change set yet; so does a failed
`git ls-files`. -/
def collectUntrackedAdds (cc : CharClass) (subtree : Text) (current : List Discovered)
    (others : Option Text) (cs : ChangeSet) : ChangeSet :=
  match others with
  | none => cs
  | some out =>
      let already := cs.added.map Discovered.rel ++ cs.changed.map Discovered.rel
      let found := (lines out).filterMap fun line => do
        let rel ← stripPrefixPath (trim cc line) subtree
        if rel ∈ already then none else byRel current rel
      { cs with added := cs.added ++ found }

/-- The difference from the artifact's commit to the working tree, `none` when git
cannot be used. -/
def gitChanges (cc : CharClass) (git : Git) (artifactSha : Text) (current : List Discovered) :
    Option ChangeSet := do
  if !isHexSha artifactSha then none
  else
    let subtree := trim cc (← git.showPrefix)
    let _ ← git.catFile
    let cs := collectTrackedChanges subtree current git.diff {}
    some (collectUntrackedAdds cc subtree current git.others cs)

inductive FillMethod where
  | gitDiff
  | contentHash
  deriving DecidableEq

/-- What the fill applies to the graph and records as the tree it was filled to. -/
structure Fill where
  changes : ChangeSet
  unchanged : Nat
  nextManifest : FileManifest
  method : FillMethod

def manifestFromDiscovered (hashFile : Text → Option Text) (current : List Discovered) :
    FileManifest :=
  current.foldl (fun m d => m.insert d.rel (d.state (hashOf hashFile d))) .new

def noBaseline : Text :=
  "artifact fill: cannot diff (git unavailable AND no bundled manifest)".toList

/-- The classification the fill runs on: git's when it can be used, otherwise the
bundled manifest's. -/
def fillAfterBootstrap (cc : CharClass) (hashFile : Text → Option Text) (git : Git)
    (artifactSha : Text) (importedManifest : Option FileManifest) (current : List Discovered) :
    Except Text Fill :=
  match gitChanges cc git artifactSha current with
  | some cs =>
      .ok
        { changes := cs
          unchanged := current.length - (cs.changed.length + cs.added.length + cs.renamed.length)
          nextManifest := manifestFromDiscovered hashFile current
          method := .gitDiff }
  | none =>
      match importedManifest with
      | none => .error noBaseline
      | some prior =>
          let plan := classify hashFile prior current
          .ok
            { changes := plan.changeSet
              unchanged := plan.unchanged.length
              nextManifest := plan.nextManifest
              method := .contentHash }

end Bootstrap

end CodeGraph
