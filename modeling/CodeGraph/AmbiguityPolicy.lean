import Mathlib.Data.List.Basic
import Mathlib.Data.Rat.Defs
import CodeGraph.Segments

/-!
# The ambiguity policy

Decides which of the symbols that bear a callee's name a call means, and on
what evidence. Every tier of evidence asks for a lone match: a candidate that
stands in the tier's relation to the caller while no other does.

The relations are decided by prefixes and suffixes of texts. What the tiers
claim is about whole path segments (`Stands`); the two differ where a name goes
on in the middle of a segment, and `resolve_honest_iff` says exactly when that
matters.
-/

namespace CodeGraph

open List

namespace AmbiguityPolicy

/-- Evidence tiers, the strongest first. -/
inductive Evidence where
  | uniqueGlobal
  | receiverBound
  | importMatch
  | receiverLocalBinding
  | receiverReturnType
  | sameFileUnique
  | packageProximity
  | macroExpansion
  | macroReceiverType
  | cfgSelected
  deriving DecidableEq

/-- Ordinal trust, not a measured probability. -/
def confidenceFor : Evidence → ℚ
  | .uniqueGlobal => 95 / 100
  | .receiverBound => 93 / 100
  | .importMatch => 90 / 100
  | .receiverLocalBinding => 87 / 100
  | .receiverReturnType => 85 / 100
  | .sameFileUnique => 85 / 100
  | .packageProximity => 70 / 100
  | .macroExpansion => 85 / 100
  | .macroReceiverType => 80 / 100
  | .cfgSelected => 85 / 100

/-- Outcome of the policy for one callee. -/
inductive Resolution (α : Type*) where
  | resolved (target : α) (evidence : Evidence) (confidence : ℚ)
  | ambiguous (candidates : List α)
  | notFound
  deriving DecidableEq

/-- The evidence at a call site: the import paths in scope, the caller's file,
and the caller's package when it is known. -/
structure Context where
  importsInScope : List Text
  callerFile : Text
  callerPackage : Option Text

/-- `text.replace("::", "/")`. -/
def colonsToSlash : Text → Text
  | ':' :: ':' :: rest => '/' :: colonsToSlash rest
  | c :: rest => c :: colonsToSlash rest
  | [] => []

/-- `text.replace('.', "/")`. -/
def dotsToSlash (text : Text) : Text := text.map fun c => if c = '.' then '/' else c

/-- The one candidate that satisfies `pred`, if there is exactly one; `found` is
the match met so far. -/
def uniqueMatchFrom {α : Type*} (pred : α → Bool) : Option α → List α → Option α
  | found, [] => found
  | found, c :: candidates =>
      if pred c then
        match found with
        | some _ => none
        | none => uniqueMatchFrom pred (some c) candidates
      else uniqueMatchFrom pred found candidates

def uniqueMatch {α : Type*} (candidates : List α) (pred : α → Bool) : Option α :=
  uniqueMatchFrom pred none candidates

/-- The text of the name ends in the text of an import, or the import's in the
name's, both written with slashes. -/
def importMatches (importsInScope : List Text) (qualifiedName : Text) : Bool :=
  let cSegs := colonsToSlash qualifiedName
  importsInScope.any fun imp =>
    let impSegs := dotsToSlash (colonsToSlash imp)
    impSegs.isSuffixOf cSegs || cSegs.isSuffixOf impSegs

def resolvedBy {α : Type*} (target : α) (evidence : Evidence) : Resolution α :=
  .resolved target evidence (confidenceFor evidence)

variable {α : Type*}

/-- The weakest tier, tried when the caller's package is known. -/
def resolveByPackage (qualifiedName : α → Text) (candidates : List α) : Option Text → Resolution α
  | some pkg =>
      match uniqueMatch candidates fun c => pkg.isPrefixOf (qualifiedName c) with
      | some target => resolvedBy target .packageProximity
      | none => .ambiguous candidates
  | none => .ambiguous candidates

/-- Tries the tiers in turn on the candidates for one callee. -/
def resolve (qualifiedName : α → Text) (candidates : List α) (ctx : Context) : Resolution α :=
  match candidates with
  | [] => .notFound
  | [only] => resolvedBy only .uniqueGlobal
  | _ =>
      match uniqueMatch candidates fun c => importMatches ctx.importsInScope (qualifiedName c) with
      | some target => resolvedBy target .importMatch
      | none =>
          match uniqueMatch candidates fun c => ctx.callerFile.isPrefixOf (qualifiedName c) with
          | some target => resolvedBy target .sameFileUnique
          | none => resolveByPackage qualifiedName candidates ctx.callerPackage

/-! ## Lone matches -/

theorem uniqueMatchFrom_eq (pred : α → Bool) : ∀ (found : Option α) (candidates : List α),
    uniqueMatchFrom pred found candidates =
      match found.toList ++ candidates.filter pred with
      | [only] => some only
      | _ => none
  | none, [] => rfl
  | some _, [] => rfl
  | none, c :: candidates => by
      rw [uniqueMatchFrom]
      split
      · next hc => rw [uniqueMatchFrom_eq pred (some c), filter_cons_of_pos hc]; rfl
      · next hc => rw [uniqueMatchFrom_eq pred none, filter_cons_of_neg hc]
  | some a, c :: candidates => by
      rw [uniqueMatchFrom]
      split
      · next hc => rw [filter_cons_of_pos hc]; rfl
      · next hc => rw [uniqueMatchFrom_eq pred (some a), filter_cons_of_neg hc]

theorem uniqueMatch_eq_some {candidates : List α} {pred : α → Bool} {target : α} :
    uniqueMatch candidates pred = some target ↔ candidates.filter pred = [target] := by
  rw [uniqueMatch, uniqueMatchFrom_eq]
  show (match candidates.filter pred with | [only] => some only | _ => none) = some target ↔ _
  match candidates.filter pred with
  | [] => simp
  | [only] => simp
  | _ :: _ :: _ => simp

theorem uniqueMatch_eq_none {candidates : List α} {pred : α → Bool} :
    uniqueMatch candidates pred = none ↔ ∀ c, candidates.filter pred ≠ [c] := by
  rw [Option.eq_none_iff_forall_ne_some]
  exact forall_congr' fun c => not_congr uniqueMatch_eq_some

/-! ## What the tiers claim -/

/-- A path or an import, by its segments. -/
def nameSegments (qualifiedName : Text) : List Text :=
  splitOnChar '/' (colonsToSlash qualifiedName)

def importSegments (imp : Text) : List Text :=
  splitOnChar '/' (dotsToSlash (colonsToSlash imp))

/-- `text` is `path`, or goes on after it with a separator. -/
def Within (separators : List Text) (path text : Text) : Prop :=
  text = path ∨ ∃ separator ∈ separators, path ++ separator <+: text

/-- What a tier claims of the candidate it picks. The tiers the policy does not
decide claim nothing here. -/
def Stands (ctx : Context) (qualifiedName : Text) : Evidence → Prop
  | .uniqueGlobal => True
  | .importMatch => ∃ imp ∈ ctx.importsInScope, importSegments imp <:+ nameSegments qualifiedName ∨
      nameSegments qualifiedName <:+ importSegments imp
  | .sameFileUnique => Within ["::".toList] ctx.callerFile qualifiedName
  | .packageProximity => ∃ pkg ∈ ctx.callerPackage,
      Within ["::".toList, "/".toList] pkg qualifiedName
  | _ => False

/-- Whatever `resolve` answers, its target is the only candidate that stands in
the relation of the evidence it names. -/
def Honest (qualifiedName : α → Text) (candidates : List α) (ctx : Context) : Prop :=
  ∀ target evidence confidence,
    resolve qualifiedName candidates ctx = .resolved target evidence confidence →
    ∃ before after, candidates = before ++ target :: after ∧
      Stands ctx (qualifiedName target) evidence ∧
      ∀ c ∈ before ++ after, ¬ Stands ctx (qualifiedName c) evidence

/-- The match of the first tier that has a lone one is a match on whole
segments. -/
structure Aligned (qualifiedName : α → Text) (candidates : List α) (ctx : Context) : Prop where
  imports : ∀ c,
    candidates.filter (fun c => importMatches ctx.importsInScope (qualifiedName c)) = [c] →
    ∃ imp ∈ ctx.importsInScope, importSegments imp <:+ nameSegments (qualifiedName c) ∨
      nameSegments (qualifiedName c) <:+ importSegments imp
  file : (∀ c,
      candidates.filter (fun c => importMatches ctx.importsInScope (qualifiedName c)) ≠ [c]) →
    ∀ c, candidates.filter (fun c => ctx.callerFile.isPrefixOf (qualifiedName c)) = [c] →
    Within ["::".toList] ctx.callerFile (qualifiedName c)
  package : (∀ c,
      candidates.filter (fun c => importMatches ctx.importsInScope (qualifiedName c)) ≠ [c]) →
    (∀ c, candidates.filter (fun c => ctx.callerFile.isPrefixOf (qualifiedName c)) ≠ [c]) →
    ∀ pkg ∈ ctx.callerPackage,
    ∀ c, candidates.filter (fun c => pkg.isPrefixOf (qualifiedName c)) = [c] →
    Within ["::".toList, "/".toList] pkg (qualifiedName c)

/-! ## A match on segments is a match of texts -/

theorem suffix_of_segments {a b : Text} (h : splitOnChar '/' a <:+ splitOnChar '/' b) : a <:+ b := by
  rcases suffix_splitOnChar.mpr h with rfl | htail
  · exact suffix_rfl
  · exact (suffix_cons _ _).trans htail

theorem importMatches_of_stands {ctx : Context} {qualifiedName : Text}
    (h : Stands ctx qualifiedName .importMatch) :
    importMatches ctx.importsInScope qualifiedName = true := by
  obtain ⟨imp, himp, h⟩ := h
  refine any_eq_true.mpr ⟨imp, himp, ?_⟩
  rw [Bool.or_eq_true, isSuffixOf_iff_suffix, isSuffixOf_iff_suffix]
  exact h.imp suffix_of_segments suffix_of_segments

theorem Within.isPrefixOf {separators : List Text} {path text : Text}
    (h : Within separators path text) : path.isPrefixOf text = true := by
  rw [ isPrefixOf_iff_prefix]
  rcases h with rfl | ⟨separator, -, h⟩
  · exact prefix_rfl
  · exact (prefix_append path separator).trans h

theorem exists_lone {pred : α → Bool} (rel : α → Prop) (hrel : ∀ c, rel c → pred c = true)
    {candidates : List α} {target : α} (h : candidates.filter pred = [target]) (htarget : rel target) :
    ∃ before after, candidates = before ++ target :: after ∧ rel target ∧
      ∀ c ∈ before ++ after, ¬ rel c := by
  obtain ⟨before, after, rfl, hbefore, -, hafter⟩ := filter_eq_cons_iff.mp h
  refine ⟨before, after, rfl, htarget, fun c hc hrc => ?_⟩
  rcases mem_append.mp hc with hc | hc
  · exact hbefore c hc (hrel c hrc)
  · exact filter_eq_nil_iff.mp hafter c hc (hrel c hrc)

/-! ## What `resolve` does -/

variable (qualifiedName : α → Text) (candidates : List α) (ctx : Context)

/-- The candidates an import names, by their texts. -/
abbrev importMatched : List α :=
  candidates.filter fun c => importMatches ctx.importsInScope (qualifiedName c)

/-- The candidates whose name starts with the text of `path`. -/
abbrev startingWith (path : Text) : List α :=
  candidates.filter fun c => path.isPrefixOf (qualifiedName c)

/-- The tiers `resolve` went through, for two candidates or more. -/
inductive Outcome : Resolution α → Prop
  | imports {target : α} (h : importMatched qualifiedName candidates ctx = [target]) :
      Outcome (resolvedBy target .importMatch)
  | file {target : α} (himports : ∀ c, importMatched qualifiedName candidates ctx ≠ [c])
      (h : startingWith qualifiedName candidates ctx.callerFile = [target]) :
      Outcome (resolvedBy target .sameFileUnique)
  | package {target : α} {pkg : Text}
      (himports : ∀ c, importMatched qualifiedName candidates ctx ≠ [c])
      (hfile : ∀ c, startingWith qualifiedName candidates ctx.callerFile ≠ [c])
      (hpkg : ctx.callerPackage = some pkg)
      (h : startingWith qualifiedName candidates pkg = [target]) :
      Outcome (resolvedBy target .packageProximity)
  | ambiguous (himports : ∀ c, importMatched qualifiedName candidates ctx ≠ [c])
      (hfile : ∀ c, startingWith qualifiedName candidates ctx.callerFile ≠ [c])
      (hpkg : ∀ pkg ∈ ctx.callerPackage, ∀ c, startingWith qualifiedName candidates pkg ≠ [c]) :
      Outcome (.ambiguous candidates)

theorem resolve_outcome (h : 2 ≤ candidates.length) :
    Outcome qualifiedName candidates ctx (resolve qualifiedName candidates ctx) := by
  match candidates, h with
  | a :: b :: rest, _ =>
      simp only [resolve]
      split
      · next target himports => exact .imports (uniqueMatch_eq_some.mp himports)
      · next himports =>
        rw [uniqueMatch_eq_none] at himports
        split
        · next target hfile => exact .file himports (uniqueMatch_eq_some.mp hfile)
        · next hfile =>
          rw [uniqueMatch_eq_none] at hfile
          unfold resolveByPackage
          split
          · next pkg hpkg =>
            split
            · next target h => exact .package himports hfile hpkg (uniqueMatch_eq_some.mp h)
            · next h =>
              refine .ambiguous himports hfile ?_
              intro p hp
              obtain rfl := Option.some.inj (hpkg.symm.trans hp)
              exact uniqueMatch_eq_none.mp h
          · next hpkg =>
            exact .ambiguous himports hfile fun p hp => by
              rw [hpkg] at hp
              cases hp

variable {qualifiedName candidates ctx}

theorem honest_of_length (h : candidates.length ≤ 1) : Honest qualifiedName candidates ctx := by
  intro target evidence confidence hrun
  match candidates, h with
  | [], _ => cases hrun
  | [only], _ =>
      cases hrun
      exact ⟨[], [], rfl, trivial, nofun⟩

theorem Aligned.honest (h : 2 ≤ candidates.length) (haligned : Aligned qualifiedName candidates ctx) :
    Honest qualifiedName candidates ctx := by
  intro target evidence confidence hrun
  have houtcome := resolve_outcome qualifiedName candidates ctx h
  rw [hrun] at houtcome
  cases houtcome with
  | imports hlone =>
      exact exists_lone (fun c => Stands ctx (qualifiedName c) .importMatch)
        (fun _ => importMatches_of_stands) hlone (haligned.imports _ hlone)
  | file himports hlone =>
      exact exists_lone (fun c => Stands ctx (qualifiedName c) .sameFileUnique)
        (fun _ => Within.isPrefixOf) hlone (haligned.file himports _ hlone)
  | @package _ pkg himports hfile hpkg hlone =>
      refine exists_lone (fun c => Stands ctx (qualifiedName c) .packageProximity)
        (fun c hc => ?_) hlone ⟨pkg, hpkg, haligned.package himports hfile pkg hpkg _ hlone⟩
      obtain ⟨p, hp, hwithin⟩ := hc
      obtain rfl := Option.some.inj (hpkg.symm.trans hp)
      exact hwithin.isPrefixOf

theorem Honest.stands (h : Honest qualifiedName candidates ctx) {target : α} {evidence : Evidence}
    (hrun : resolve qualifiedName candidates ctx = resolvedBy target evidence) :
    Stands ctx (qualifiedName target) evidence := by
  obtain ⟨-, -, -, hstands, -⟩ := h target evidence _ hrun
  exact hstands

theorem Honest.aligned (h : 2 ≤ candidates.length) (hhonest : Honest qualifiedName candidates ctx) :
    Aligned qualifiedName candidates ctx := by
  have houtcome := resolve_outcome qualifiedName candidates ctx h
  generalize hrun : resolve qualifiedName candidates ctx = answer at houtcome
  cases houtcome with
  | imports hlone =>
      refine ⟨fun c hc => ?_, fun hnone => absurd hlone (hnone _), fun hnone => absurd hlone (hnone _)⟩
      obtain rfl := singleton_inj.mp (hlone.symm.trans hc)
      exact hhonest.stands hrun
  | file himports hlone =>
      refine ⟨fun c hc => absurd hc (himports c), fun _ c hc => ?_,
        fun _ hnone => absurd hlone (hnone _)⟩
      obtain rfl := singleton_inj.mp (hlone.symm.trans hc)
      exact hhonest.stands hrun
  | package himports hfile hpkg hlone =>
      refine ⟨fun c hc => absurd hc (himports c), fun _ c hc => absurd hc (hfile c),
        fun _ _ pkg hp c hc => ?_⟩
      obtain rfl := Option.some.inj (hpkg.symm.trans hp)
      obtain rfl := singleton_inj.mp (hlone.symm.trans hc)
      obtain ⟨p, hp', hwithin⟩ := hhonest.stands hrun
      obtain rfl := Option.some.inj (hpkg.symm.trans hp')
      exact hwithin
  | ambiguous himports hfile hpkg =>
      exact ⟨fun c hc => absurd hc (himports c), fun _ c hc => absurd hc (hfile c),
        fun _ _ pkg hp c hc => absurd hc (hpkg pkg hp c)⟩

/-- The policy claims no evidence that does not hold exactly when the first tier
with a lone match of texts has a match on whole segments. -/
theorem resolve_honest_iff (qualifiedName : α → Text) (candidates : List α) (ctx : Context) :
    Honest qualifiedName candidates ctx ↔
      candidates.length ≤ 1 ∨ Aligned qualifiedName candidates ctx := by
  by_cases h : candidates.length ≤ 1
  · exact iff_of_true (honest_of_length h) (Or.inl h)
  · rw [or_iff_right h]
    exact ⟨Honest.aligned (by omega), Aligned.honest (by omega)⟩

/-- `a.pyi` starts with `a.py`: the stub's function is claimed to be in the
caller's own file. -/
theorem stub_file_taken_for_the_callers :
    resolve id ["a.pyi::f".toList, "b.py::f".toList] ⟨[], "a.py".toList, none⟩ =
        resolvedBy "a.pyi::f".toList .sameFileUnique ∧
      ¬ Honest id ["a.pyi::f".toList, "b.py::f".toList] ⟨[], "a.py".toList, none⟩ := by
  have hrun : resolve id ["a.pyi::f".toList, "b.py::f".toList] ⟨[], "a.py".toList, none⟩ =
      resolvedBy "a.pyi::f".toList .sameFileUnique := by decide +kernel
  refine ⟨hrun, fun hhonest => ?_⟩
  have hwithin : Within ["::".toList] "a.py".toList "a.pyi::f".toList := hhonest.stands hrun
  have hnot : ¬ ("a.pyi::f".toList = "a.py".toList ∨
      ("a.py".toList ++ "::".toList).isPrefixOf "a.pyi::f".toList = true) := by decide +kernel
  refine hnot (hwithin.imp id ?_)
  rintro ⟨separator, hseparator, hprefix⟩
  rw [mem_singleton.mp hseparator] at hprefix
  exact isPrefixOf_iff_prefix.mpr hprefix

end AmbiguityPolicy

end CodeGraph
