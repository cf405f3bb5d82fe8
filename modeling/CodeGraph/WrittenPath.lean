import CodeGraph.Lib.SortDedup
import CodeGraph.Reexport
import CodeGraph.ResolveGraph
import CodeGraph.ResolvePhases

/-!
# Written paths

The owners that a path written in a call admits: the paths it leads to once `use`
declarations are followed, and the candidates that sit at one of them. A name of one
segment is read in the caller's module and, through `use super::*`, in the modules
around it (`bind`).
-/

namespace CodeGraph

/-- The path of the item `name` of this one. -/
def Anchor.child (name : Text) : Anchor → Anchor
  | .crateRoot segments => .crateRoot (segments ++ [name])
  | .library lib segments => .library lib (segments ++ [name])
  | .suffix segments => .suffix (segments ++ [name])

namespace Resolver

open Reexport (anchorIn follow)

/-- What a path is read with: the facts, the index, and the files, inline modules and enums that
are recorded as modules. -/
structure ResolveContext where
  facts : PathFacts
  idx : SymbolIndex
  modules : List Text
  outsideTargets : Text → Bool
  language : Text

/-! ## The paths followed -/

theorem follow_isSome (facts : PathFacts) (callerFile : Text) (start : Anchor) :
    ∃ fuel, (follow facts callerFile fuel start).isSome := by
  obtain ⟨fuel, out, hrun, -⟩ := Reexport.follow_returns facts callerFile start
  exact ⟨fuel, Option.isSome_iff_exists.mpr ⟨out, hrun 0⟩⟩

/-- The loop of `follow`, run for as long as it takes. -/
def followed (facts : PathFacts) (callerFile : Text) (start : Anchor) : List Anchor :=
  (follow facts callerFile (Nat.find (follow_isSome facts callerFile start)) start).getD []

theorem followFrom_mono {facts : PathFacts} {callerFile : Text} : ∀ {fuel : ℕ}
    {work seen out result : List Anchor},
    Reexport.followFrom facts callerFile fuel work seen out = some result →
    ∀ more, Reexport.followFrom facts callerFile (fuel + more) work seen out = some result
  | fuel, [], seen, out, result, h, more => by
      cases fuel <;> cases more <;> exact h
  | 0, _ :: _, _, _, _, h, _ => nomatch h
  | fuel + 1, anchor :: work, seen, out, result, h, more => by
      rw [Nat.add_right_comm]
      rw [Reexport.followFrom] at h ⊢
      split at h
      · next hseen =>
        rw [if_pos hseen]
        exact followFrom_mono h more
      · next hseen =>
        rw [if_neg hseen]
        exact followFrom_mono h more

theorem followed_eq {facts : PathFacts} {callerFile : Text} {start : Anchor} {fuel : ℕ}
    {out : List Anchor} (h : follow facts callerFile fuel start = some out) :
    followed facts callerFile start = out := by
  obtain ⟨found, hfound⟩ :=
    Option.isSome_iff_exists.mp (Nat.find_spec (follow_isSome facts callerFile start))
  have hsame : found = out := by
    have hmore := followFrom_mono hfound fuel
    rw [Nat.add_comm] at hmore
    exact Option.some.inj (hmore.symm.trans (followFrom_mono h _))
  rw [followed, hfound, Option.getD_some, hsame]

theorem mem_followed {facts : PathFacts} {callerFile : Text} {start anchor : Anchor} :
    anchor ∈ followed facts callerFile start ↔
      Relation.ReflTransGen (Reexport.Leads facts callerFile) start anchor ∧
        Reexport.Stays facts callerFile anchor := by
  obtain ⟨fuel, out, hrun, hout⟩ := Reexport.follow_returns facts callerFile start
  rw [followed_eq (hrun 0), hout]

/-! ## Modules -/

/-- The module path of the item `qn` names. -/
def modulePathOf (facts : PathFacts) (qn : Text) : List Text :=
  let file := extractFilePrefixOrSelf qn
  facts.evidence.fileModulePath file ++ pathSegments facts.cc ((stripPrefix file qn).getD [])

/-- The leading segments that name modules. -/
def inlineFrom (idx : SymbolIndex) : (qn : Text) → List Text → List Text
  | _, [] => []
  | qn, segment :: segments =>
      let qn := qn ++ colons ++ segment
      if (idx.byQn qn).any fun e => e.label = "Module".toList then
        segment :: inlineFrom idx qn segments
      else []

def inlineModules (idx : SymbolIndex) (callerQn : Text) : List Text :=
  let file := extractFilePrefixOrSelf callerQn
  let segments := (splitOn colons ((stripPrefix file callerQn).getD [])).filter (· ≠ [])
  inlineFrom idx file segments.dropLast

/-- The scope that the caller's own `use` declarations live in. -/
def callerScope (idx : SymbolIndex) (callerQn : Text) : Text :=
  (inlineModules idx callerQn).foldl (fun scope module => scope ++ colons ++ module)
    (extractFilePrefixOrSelf callerQn)

/-! ## Written paths -/

/-- The owners a path admits, or with `item`, the items it names. -/
structure WrittenPath where
  callerFile : Text
  anchors : List Anchor
  item : Bool

namespace WrittenPath

variable (facts : PathFacts)

def exact (callerFile : Text) (anchor : Anchor) : WrittenPath := ⟨callerFile, [anchor], false⟩

def following (callerFile : Text) (anchor : Anchor) : Option WrittenPath :=
  if anchor.written = [] then none
  else some ⟨callerFile, followed facts callerFile anchor, false⟩

/-- The path that a `use` of `module` writes, read from that module. -/
def imported (callerFile : Text) (module : List Text) (path : Text) : Option WrittenPath := do
  let anchor ← anchorIn facts.evidence none module (pathSegments facts.cc path)
  following facts callerFile anchor

def isAnchored (evidence : CrateEvidence) (first : Text) : Bool :=
  first ∈ ["crate", "self", "super"].map String.toList || first ∈ evidence.crateNames

/-- A path of two segments or more, written in `callerQn`. -/
def ofHint (idx : SymbolIndex) (callerQn hint : Text) : Option WrittenPath := do
  let segments := pathSegments facts.cc hint
  let first ← segments.head?
  let module := facts.evidence.scopeModulePath (callerScope idx callerQn)
  let anchor ← if isAnchored facts.evidence first then anchorIn facts.evidence none module segments
    else some (.suffix segments)
  following facts (extractFilePrefixOrSelf callerQn) anchor

variable (path : WrittenPath)

def itemNamed (name : Text) : WrittenPath where
  callerFile := path.callerFile
  anchors := path.anchors.flatMap fun owner => followed facts path.callerFile (owner.child name)
  item := true

/-- An anchor is the place of an owner. -/
def isAt (owner : Text) : Anchor → Bool
  | .crateRoot written => facts.evidence.sameCrate path.callerFile (extractFilePrefixOrSelf owner) &&
      modulePathOf facts owner = written
  | .suffix written => facts.evidence.sameCrate path.callerFile (extractFilePrefixOrSelf owner) &&
      written.isSuffixOf (modulePathOf facts owner)
  | .library lib segments => facts.evidence.libraryOwns lib (extractFilePrefixOrSelf owner) &&
      modulePathOf facts owner = segments

def admits (candidate : SymbolEntry) : Bool :=
  if path.item then path.anchors.any (path.isAt facts candidate.qualifiedName)
  else
    match beforeLast colons candidate.qualifiedName with
    | some owner => path.anchors.any (path.isAt facts owner)
    | none => false

def names (entry : SymbolEntry) : Bool := admits facts { path with item := true } entry

end WrittenPath

namespace ResolveContext

variable (ctx : ResolveContext)

/-- The files that hold a module at `module`. -/
def moduleFiles (module : List Text) : List Text :=
  (ctx.modules.filter fun qn => ctx.facts.evidence.scopeModulePath qn = module).map
    extractFilePrefixOrSelf

/-- Every path runs through a module that the repository does not hold. -/
def leavesRepository (path : WrittenPath) : Bool :=
  path.anchors.all fun anchor =>
    match anchor.exactSplit with
    | some (module, _) => module ≠ [] && ctx.moduleFiles module = []
    | none => false

end ResolveContext

/-! ## What a name of a module is bound to -/

inductive Binding where
  | byName
  | path (hint : Text) (path : WrittenPath) (fallback : Bool)
  | decline

/-- One module the rules are read in, and the scopes that declare its `use`s. -/
structure Level where
  module : List Text
  scopes : List Text

inductive Defines where
  | types
  | typesAndModules
  deriving DecidableEq

namespace ResolveContext

variable (ctx : ResolveContext) (callerFile : Text)

def sameCrate (file : Text) : Bool := ctx.facts.evidence.sameCrate callerFile file

/-- `TYPE_LABELS` of `binding` -/
def bindingTypes : List Text := ["Struct", "Enum", "Union", "TypeAlias"].map String.toList

def definedInScope (scope name : Text) : Bool :=
  (ctx.idx.byName name).any fun e => e.label ∈ bindingTypes &&
    beforeLast colons e.qualifiedName = some scope

def definedAt (module : List Text) (name : Text) : Bool :=
  (ctx.idx.byName name).any fun e =>
    let path := modulePathOf ctx.facts e.qualifiedName
    e.label ∈ bindingTypes && (path ≠ [] && path.dropLast = module) &&
      ctx.sameCrate callerFile (extractFilePrefixOrSelf e.qualifiedName)

def definesModule (module : List Text) (name : Text) : Bool :=
  (ctx.moduleFiles (module ++ [name])).any (ctx.sameCrate callerFile)

def distinct (rows : List ImportRow) : List Text := SortDedup.sortDedup id (rows.map ImportRow.path)

/-- Without Cargo facts the path may name this very crate by its package name. -/
def mayBeThisCrate (path : Text) : Bool :=
  !ctx.facts.evidence.known &&
    ((splitOn colons path).head?).getD [] ∉ ["crate", "self", "super"].map String.toList

def readUse (module : List Text) (hint : Text) : Binding :=
  match WrittenPath.imported ctx.facts callerFile module hint with
  | some path => .path hint path (ctx.mayBeThisCrate hint)
  | none => .decline

def inRepository (module : List Text) (glob : Text) : Bool :=
  match anchorIn ctx.facts.evidence none module (pathSegments ctx.facts.cc glob) with
  | some (.crateRoot path) => (ctx.moduleFiles path).any (ctx.sameCrate callerFile)
  | some (.library lib segments) =>
      (ctx.moduleFiles segments).any (ctx.facts.evidence.libraryOwns lib)
  | some (.suffix _) | none => false

def throughGlobs (module : List Text) (name : Text) (globs : List Text)
    (admitsAny : Text → WrittenPath → Bool) : Binding :=
  let hits := globs.filterMap fun glob =>
    let written := glob ++ colons ++ name
    ((WrittenPath.imported ctx.facts callerFile module written).filter (admitsAny written)).map
      (written, ·)
  match hits with
  | [] =>
      if !ctx.facts.evidence.known || globs.all (ctx.inRepository callerFile module) then .byName
      else .decline
  | [(hint, path)] => .path hint path (ctx.mayBeThisCrate hint)
  | _ :: _ :: _ => .decline

/-- The scope around an inline module. -/
def inlineParent (level : Level) : Option Text :=
  match level.scopes with
  | [scope] => (beforeLast colons scope).filter fun parent =>
      (extractFilePrefixOrSelf scope).length ≤ parent.length
  | _ => none

/-- The module above, none above the root of the crate. -/
def up (level : Level) : Option Level :=
  if level.module = [] then none
  else
    let parent := level.module.dropLast
    some ⟨parent, match inlineParent level with
      | some scope => [scope]
      | none => (ctx.facts.imports.scopesAt ctx.facts.evidence parent).filter fun scope =>
          ctx.sameCrate callerFile (extractFilePrefixOrSelf scope)⟩

theorem up_module {level above : Level} (h : ctx.up callerFile level = some above) :
    above.module.length < level.module.length := by
  rw [up] at h
  split at h
  · cases h
  · next hne =>
    cases h
    rw [List.length_dropLast]
    have := List.length_pos_iff.mpr hne
    omega

/-- The rules at a level and, through `use super::*`, above it. -/
def bindAt (name : Text) (admitsAny : Text → WrittenPath → Bool) (modules top : Bool)
    (level : Level) : Binding :=
  if !top && (ctx.definedAt callerFile level.module name ||
      (modules && ctx.definesModule callerFile level.module name)) then
    .path name (.exact callerFile (.crateRoot (level.module ++ [name]))) false
  else
    let rows := level.scopes.flatMap ctx.facts.imports.ofScope
    match distinct (rows.filter fun r => !r.isGlob && r.binds = name) with
    | [path] => ctx.readUse callerFile level.module path
    | _ :: _ :: _ => .decline
    | [] =>
        let globs := distinct (rows.filter ImportRow.isGlob)
        if globs = [] then .byName
        else if globs.all (· = "super".toList) then
          match _h : ctx.up callerFile level with
          | none => .decline
          | some above => bindAt name admitsAny modules false above
        else ctx.throughGlobs callerFile level.module name globs admitsAny
termination_by level.module.length
decreasing_by exact ctx.up_module callerFile _h

/-- What a name of the caller's module refers to. `admitsAny` is asked of a hint and its path. -/
def bind (callerQn name : Text) (admitsAny : Text → WrittenPath → Bool) (defines : Defines) :
    Binding :=
  let callerFile := extractFilePrefixOrSelf callerQn
  let scope := callerScope ctx.idx callerQn
  let level : Level := ⟨ctx.facts.evidence.scopeModulePath scope, [scope]⟩
  let modules := defines = .typesAndModules
  if ctx.definedInScope scope name || (modules && ctx.definesModule callerFile level.module name) then
    .byName
  else ctx.bindAt callerFile name admitsAny modules true level

end ResolveContext

end Resolver

end CodeGraph
