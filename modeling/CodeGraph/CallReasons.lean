import CodeGraph.ModuleImports
import CodeGraph.ResolveEvents
import CodeGraph.ResolvePhases

/-!
# Why a call is left open

The reason of a call that no edge is staged for, the first that applies of a closed
set (`classify`). A callee outside the repository is never told by absence alone:
`externalOrigin` asks for a root of the standard library, a name of its prelude, or
a crate the Cargo facts list as no library of the repository.
-/

namespace CodeGraph

namespace Resolver

open AmbiguityPolicy

/-! ## The closed set -/

/-- Reasons that no static resolver should turn into an edge. -/
def byConstruction : List Text :=
  ["outside_compiled_targets", "macro_site", "not_a_call", "cfg_twins", "external_callee",
    "indirect_call"].map String.toList

/-- The reasons of open sites. -/
def closedReasons : List Text := byConstruction ++ Store.improvable

/-! ## Spellings -/

def stripGenerics (text : Text) : Text := text.takeWhile (· ≠ '<')

def calleePathSegments (callee : Text) : Option (List Text) :=
  if (breakOn colons callee).isNone ∨ callee.any (· ∈ ['.', '(', '[']) then none
  else
    let segments := ((splitOn colons callee).map stripGenerics).filter (· ≠ [])
    if 2 ≤ segments.length then some segments else none

/-- The type or module a path callee names before its last segment. -/
def calleeNamesType (callee : Text) : Option Text :=
  (calleePathSegments callee).bind fun segments => segments.dropLast.getLast?

/-- The identifier that a call looks up. -/
def calledName (callee : Text) : Text := lastPiece colons (lastPiece ['.'] callee)

def typeOfHint (hint : Text) : Text := lastPiece colons (stripGenerics hint)

def firstSegment (path : Text) : Text := ((splitOn colons path).head?).getD path

def isPlainIdent (text : Text) : Bool :=
  let isIdent (c : Char) := c.isAlphanum || c = '_'
  text.head?.any (fun c => c.isAlpha || c = '_') && text.all isIdent

def withoutSuffix (suffix text : Text) : Text :=
  ((stripPrefix suffix.reverse text.reverse).map List.reverse).getD text

/-! ## What is known -/

def stdRoots : List Text := ["std", "core", "alloc"].map String.toList

/-- The names of the Rust prelude. -/
def prelude : List Text :=
  ["Copy", "Send", "Sized", "Sync", "Unpin", "Drop", "Fn", "FnMut", "FnOnce", "drop", "Box",
    "ToOwned", "Clone", "PartialEq", "PartialOrd", "Eq", "Ord", "AsRef", "AsMut", "Into", "From",
    "Default", "Iterator", "Extend", "IntoIterator", "DoubleEndedIterator", "ExactSizeIterator",
    "Option", "Some", "None", "Result", "Ok", "Err", "String", "ToString", "Vec", "TryFrom",
    "TryInto", "FromIterator"].map String.toList

def primitives : List Text :=
  ["bool", "char", "str", "u8", "u16", "u32", "u64", "u128", "usize", "i8", "i16", "i32", "i64",
    "i128", "isize", "f32", "f64"].map String.toList

structure ReasonFacts where
  index : SymbolIndex
  hasVariant : Text → Bool
  outsideTargets : Text → Bool
  /-- The Cargo facts are recorded. -/
  known : Bool
  crateNames : Text → Bool
  fileImports : Text → List Text
  /-- How a language spells a receiver of the caller's own type. -/
  selfValuePrefix : Text → Option Text
  selfTypePrefix : Text → Option Text
  /-- The receiver types of the standard library's table. -/
  stdReceiverType : Text → Bool

namespace ReasonFacts

variable (facts : ReasonFacts) (site : CallSite)

def repoDefines (name : Text) : Bool := !(facts.index.byName name).isEmpty

def repoDefinesType (name : Text) : Bool :=
  (facts.index.byName name).any fun e => e.label ∈ types.map EndLabel.text

/-- A type of the standard library that the repository does not define. -/
def stdType (name : Text) : Bool :=
  (name ∈ primitives || name ∈ prelude || facts.stdReceiverType name) && !facts.repoDefines name

def isRust : Bool := site.language = "rust".toList

/-- The receiver is the caller's own value or type. -/
def selfValue : Bool :=
  match (facts.selfValuePrefix site.language).bind (stripPrefix · site.calleeName) with
  | some method => isPlainIdent method
  | none =>
      match (facts.selfTypePrefix site.language).bind (stripPrefix · site.calleeName) with
      | some method => isPlainIdent method
      | none => false

def namesRepoVariant : Bool :=
  isRust site &&
    match (calleePathSegments site.calleeName).map List.reverse with
    | some (variant :: owner :: _) =>
        let isVariantOf (qn : Text) := facts.hasVariant (qn ++ colons ++ variant)
        if owner = "Self".toList then (beforeLast colons site.caller).any isVariantOf
        else (facts.index.byName owner).any fun e =>
          e.label = EndLabel.text (.symbol .enum) && isVariantOf e.qualifiedName
    | _ => false

/-- The name stands in the repository, for some other call. -/
def nameIsKnown : Bool :=
  facts.selfValue site || facts.repoDefines (calledName site.calleeName) ||
    site.receiverHint ≠ [] && facts.repoDefinesType (typeOfHint site.receiverHint)

def importedOrigin (fileId name : Text) : Option Text :=
  (facts.fileImports fileId).findSome? fun path =>
    let path := withoutSuffix "::self".toList path
    if lastPiece colons path = name ∧ (breakOn colons path).isSome then some (firstSegment path)
    else none

/-- Where a path callee leads out of the repository. -/
def pathOrigin (fileId callee : Text) : Option Text :=
  (calleePathSegments callee).bind fun segments =>
    let root := segments.headD []
    if root ∈ ["crate", "self", "super", "Self"].map String.toList then none
    else
      let imported := facts.importedOrigin fileId root
      let origin := imported.getD root
      if origin ∈ stdRoots then some origin
      else if origin ∈ ["crate", "self", "super"].map String.toList || facts.crateNames origin then
        none
      else if imported.isNone && segments.length = 2 &&
          (calleeNamesType callee).any facts.stdType then some "std".toList
      else
        let writtenCrate := origin.head?.any Char.isLower
        if facts.known && !facts.repoDefines origin && (imported.isSome || writtenCrate) then
          some origin
        else none

/-- Where a receiver of a hinted type leads out of the repository. -/
def hintedOrigin : Option Text :=
  let hint := stripGenerics site.receiverHint
  if hint = [] then none
  else
    let root := firstSegment hint
    if root ∈ stdRoots then some root
    else if facts.stdType (typeOfHint hint) then some "std".toList
    else none

def externalOrigin (fileId : Text) (decline : Option Decline) : Option Text :=
  if !isRust site then none
  else if decline = some .foreignReturnType then
    stripPrefix "return-type-import:".toList site.receiverHintVia
  else if '.' ∈ site.calleeName then facts.hintedOrigin site
  else if (breakOn colons site.calleeName).isSome then facts.pathOrigin fileId site.calleeName
  else if site.calleeName ∈ prelude ∧ !facts.repoDefines site.calleeName then some "std".toList
  else none

end ReasonFacts

/-! ## The reason -/

def Failure.decline : Failure → Option Decline
  | .notFound decline => decline
  | _ => none

def Failure.isTwins : Failure → Bool
  | .ambiguous _ twins => twins
  | _ => false

def noRelTableReason (label : Text) : Reason :=
  if label ∈ ["Function", "Method", "Struct"].map String.toList then
    ("not_found".toList, "no_rel_table:".toList ++ label)
  else ("not_a_call".toList, "names_".toList ++ label)

def lastReason (facts : ReasonFacts) (site : CallSite) : Reason :=
  if ReasonFacts.isRust site && '.' ∈ site.calleeName && site.receiverHint = [] &&
      !facts.selfValue site then
    ("no_receiver_type".toList, [])
  else if facts.nameIsKnown site then ("not_found".toList, [])
  else ("unknown_callee".toList, [])

/-- The reason of a call whose callee leads nowhere out of the repository. -/
def declinedReason (facts : ReasonFacts) (site : CallSite) : Failure → Reason
  | .notFound (some (.scope rule)) => ("declined_by_scope".toList, rule)
  | .notFound (some .declarationOnly) => ("not_found".toList, "declaration_only".toList)
  | .ambiguous count _ => ("ambiguous_candidates".toList, (toString count).toList)
  | _ => lastReason facts site

def unfoundReason (facts : ReasonFacts) (site : CallSite) (fileId : Text) (failure : Failure) :
    Reason :=
  if facts.namesRepoVariant site then ("not_a_call".toList, "enum_variant".toList)
  else if failure.isTwins then ("cfg_twins".toList, [])
  else
    match facts.externalOrigin site fileId failure.decline with
    | some origin => ("external_callee".toList, origin)
    | none => declinedReason facts site failure

def classify (facts : ReasonFacts) (site : CallSite) (failure : Failure) : Reason :=
  let fileId := extractFilePrefixOrSelf site.caller
  if facts.outsideTargets fileId then ("outside_compiled_targets".toList, [])
  else
    match failure with
    | .notFound (some (.pointerCall shape)) => ("indirect_call".toList, shape)
    | .notFound (some .noReceiverType) => ("no_receiver_type".toList, [])
    | .noRelTable label => noRelTableReason label
    | failure => unfoundReason facts site fileId failure

/-! ## One of the set -/

theorem mem_closedReasons (name : String)
    (h : name ∈ ["outside_compiled_targets", "macro_site", "not_a_call", "cfg_twins",
      "external_callee", "indirect_call"] ++ ["declined_by_scope", "ambiguous_candidates",
      "no_receiver_type", "not_found", "unknown_callee"]) : name.toList ∈ closedReasons := by
  rw [closedReasons, byConstruction, Store.improvable, ← List.map_append]
  exact List.mem_map_of_mem h

theorem noRelTableReason_mem (label : Text) : (noRelTableReason label).1 ∈ closedReasons := by
  rw [noRelTableReason]
  split <;> exact mem_closedReasons _ (by simp)

theorem lastReason_mem (facts : ReasonFacts) (site : CallSite) :
    (lastReason facts site).1 ∈ closedReasons := by
  rw [lastReason]
  split
  · exact mem_closedReasons _ (by simp)
  split <;> exact mem_closedReasons _ (by simp)

theorem declinedReason_mem (facts : ReasonFacts) (site : CallSite) (failure : Failure) :
    (declinedReason facts site failure).1 ∈ closedReasons := by
  cases failure with
  | ambiguous count twins => exact mem_closedReasons "ambiguous_candidates" (by simp)
  | noRelTable label => exact lastReason_mem facts site
  | notFound decline =>
      cases decline with
      | none => exact lastReason_mem facts site
      | some decline =>
          cases decline with
          | scope rule => exact mem_closedReasons "declined_by_scope" (by simp)
          | declarationOnly => exact mem_closedReasons "not_found" (by simp)
          | foreignReturnType => exact lastReason_mem facts site
          | pointerCall shape => exact lastReason_mem facts site
          | noReceiverType => exact lastReason_mem facts site

theorem unfoundReason_mem (facts : ReasonFacts) (site : CallSite) (fileId : Text)
    (failure : Failure) : (unfoundReason facts site fileId failure).1 ∈ closedReasons := by
  rw [unfoundReason]
  split
  · exact mem_closedReasons _ (by simp)
  split
  · exact mem_closedReasons _ (by simp)
  split
  · exact mem_closedReasons _ (by simp)
  · exact declinedReason_mem facts site failure

/-- The reason of an open call is one of the set. -/
theorem classify_mem (facts : ReasonFacts) (site : CallSite) (failure : Failure) :
    (classify facts site failure).1 ∈ closedReasons := by
  unfold classify
  dsimp only
  split
  · exact mem_closedReasons _ (by simp)
  split
  · exact mem_closedReasons _ (by simp)
  · exact mem_closedReasons _ (by simp)
  · exact noRelTableReason_mem _
  · exact unfoundReason_mem facts site _ _

end Resolver

end CodeGraph
