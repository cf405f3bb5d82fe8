import CodeGraph.CallReasons
import CodeGraph.WrittenPath

/-!
# The gate of path calls

`qualified_path_gate`: a Rust call written with a path is resolved among the candidates that
the path names. The path is compared with where the candidates sit; where it admits none, the
`impl` blocks of a type it names decide, and then whether it names anything of the
repository at all.
-/

namespace CodeGraph

namespace Resolver

open AmbiguityPolicy (Evidence confidenceFor Resolution)
open Reexport (anchorIn)

/-! ## The rule of a qualifier -/

inductive QualifierRule where
  | byName
  | path (path : WrittenPath) (fallback : Bool)
  | decline

/-- A resolution, and why the call was declined when it was. -/
abbrev Gated := Resolution SymbolEntry × Option Decline

namespace ResolveContext

variable (ctx : ResolveContext)

/-- The root of a crate names its module as written, with no `use` to follow. -/
def ownerPath (callerFile : Text) (anchor : Anchor) : WrittenPath :=
  (WrittenPath.following ctx.facts callerFile anchor).getD (.exact callerFile anchor)

/-- A path of several segments that begins with none of the anchors: from the caller's module. -/
def relativePath (callerFile : Text) (module segments : List Text) : QualifierRule :=
  .path (ctx.ownerPath callerFile (.crateRoot (module ++ segments))) true

def qualifierRule (callerQn qualifier : Text) (admitsAny : WrittenPath → Bool) : QualifierRule :=
  let segments := pathSegments ctx.facts.cc qualifier
  let callerFile := extractFilePrefixOrSelf callerQn
  let module := ctx.facts.evidence.scopeModulePath (callerScope ctx.idx callerQn)
  match segments with
  | [] => .byName
  | first :: rest =>
      if WrittenPath.isAnchored ctx.facts.evidence first then
        match anchorIn ctx.facts.evidence none module segments with
        | some anchor => .path (ctx.ownerPath callerFile anchor) false
        | none => .decline
      else if rest = [] then
        match ctx.bind callerQn first (fun _ => admitsAny) .typesAndModules with
        | .decline => .decline
        | .path _ path fallback => .path path fallback
        | .byName => ctx.relativePath callerFile module segments
      else ctx.relativePath callerFile module segments

/-! ## `impl` blocks -/

/-- `TYPE_LABELS` of `candidate_scope` -/
def implTypes : List Text := ["Struct", "Enum", "Union", "TypeAlias", "Trait"].map String.toList

structure NamedTypes where
  name : Text
  types : List SymbolEntry

def namedTypes (owners : WrittenPath) (owner : Text) : NamedTypes where
  name := owner
  types := (ctx.idx.byName owner).filter fun e => e.label ∈ implTypes && owners.names ctx.facts e

def localTypeIsNamed (scope : Text) (named : NamedTypes) : Bool :=
  let inScope := scope ++ colons ++ named.name
  (ctx.idx.byName named.name).any (fun e => e.qualifiedName = inScope) &&
    named.types.any fun t => t.qualifiedName = inScope

/-- Whether the owner of the candidate, read in its own file, is one of the types; none where
the owner does not sit under the scope of the file. -/
def implOwnerIsNamed (candidate : SymbolEntry) (named : NamedTypes) : Option Bool :=
  match beforeLast colons candidate.qualifiedName with
  | none => some false
  | some parent =>
      let owner := stripGenerics (lastPiece colons parent)
      if owner ≠ named.name then some false
      else do
        let scope := callerScope ctx.idx candidate.qualifiedName
        let written ← stripPrefix scope parent
        let written ← stripPrefix colons written
        let names (path : WrittenPath) : Bool := named.types.any (path.names ctx.facts)
        if (breakOn colons written).isSome then
          return (WrittenPath.ofHint ctx.facts ctx.idx candidate.qualifiedName written).any names
        else
          match ctx.bind candidate.qualifiedName owner (fun _ => names) .types with
          | .path _ path _ => return names path
          | .decline => return false
          | .byName => return ctx.localTypeIsNamed scope named

/-- A file that no module tree of a target reaches holds nothing a path can name. -/
def reached (candidate : SymbolEntry) : Bool :=
  let file := extractFilePrefixOrSelf candidate.qualifiedName
  !ctx.facts.evidence.known ||
    ((ctx.facts.evidence.owners file).isSome && !ctx.outsideTargets file)

/-! ## The gate -/

/-- The written path names no candidate of the repository. -/
def declined : Gated := (.notFound, some (.scope "written_path".toList))

/-- One candidate resolves, several stay ambiguous. -/
def named (kept : List SymbolEntry) : Gated :=
  match kept with
  | [target] => (.resolved target .importMatch (confidenceFor .importMatch), none)
  | kept => (.ambiguous kept, none)

/-- None where the path names no type; the inner none where an owner cannot be read. -/
def throughImpls (owners : WrittenPath) (candidates : List SymbolEntry) (owner : Text) :
    Option (Option Gated) :=
  let types := ctx.namedTypes owners owner
  if types.types = [] then none
  else if candidates.any fun c => (ctx.implOwnerIsNamed c types).isNone then some none
  else
    let matched := candidates.filter fun c => ctx.implOwnerIsNamed c types = some true && ctx.reached c
    some (some (if matched = [] then declined else named matched))

/-- A type of the repository of which no candidate is an item. -/
def lacksTheItem (candidates : List SymbolEntry) (owner : Text) : Bool :=
  (ctx.idx.byName owner).any (fun e => e.label ∈ implTypes) &&
    !candidates.any fun c => (beforeLast colons c.qualifiedName).any fun parent =>
      lastPiece colons parent = owner

def unadmitted (candidates : List SymbolEntry) (owners : WrittenPath) (owner : Text)
    (fallback : Bool) : Option Gated :=
  match ctx.throughImpls owners candidates owner with
  | some outcome => outcome
  | none =>
      if ctx.lacksTheItem candidates owner || (!fallback && ctx.leavesRepository owners) then
        some declined
      else none

def isPlainPath (qualifier : Text) : Bool :=
  qualifier ≠ [] && qualifier.head? ≠ some '<' &&
    !qualifier.any fun c => c ∈ ['.', '(', ')', '!', '[', '{']

/-- The qualifier and the name of a call written with a plain path. -/
def plainPath (callee : Text) : Option (Text × Text) := do
  let qualifier ← beforeLast colons callee
  if isPlainPath qualifier then some (qualifier, stripGenerics (lastPiece colons callee)) else none

/-- The rule of the qualifier of a call of `name`. -/
def ruleOf (callerQn qualifier name : Text) (candidates : List SymbolEntry) : QualifierRule :=
  ctx.qualifierRule callerQn qualifier fun owners =>
    candidates.any ((owners.itemNamed ctx.facts name).admits ctx.facts)

/-- The last segment of a qualifier. -/
def ownerName (qualifier : Text) : Text := stripGenerics (lastPiece colons qualifier)

def qualifiedPathGate (callerQn callee : Text) (candidates : List SymbolEntry) : Option Gated :=
  if ctx.language ≠ "rust".toList ∨ candidates = [] then none
  else do
    let (qualifier, name) ← plainPath callee
    match ctx.ruleOf callerQn qualifier name candidates with
    | .byName => none
    | .decline => some declined
    | .path owners fallback =>
        let admitted := candidates.filter ((owners.itemNamed ctx.facts name).admits ctx.facts)
        let kept := admitted.filter ctx.reached
        if kept ≠ [] then some (named kept)
        else if admitted ≠ [] then none
        else ctx.unadmitted candidates owners (ownerName qualifier) fallback

end ResolveContext

end Resolver

end CodeGraph
