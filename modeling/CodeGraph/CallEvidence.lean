import Mathlib.Data.List.Perm.Basic
import CodeGraph.AmbiguityPolicy
import CodeGraph.NodeIds

/-!
# Call evidence

A callee is looked up twice under the one ambiguity policy: first with the
candidates keyed by their package, then keyed by their file. The first pass is
for languages that write the package in an import; for the others it must not
decide anything.
-/

namespace CodeGraph

open List

namespace AmbiguityPolicy

variable {α β : Type*}

/-! ## The order of the candidates -/

namespace Resolution

/-- The same answer up to the order in which ambiguous candidates are listed. -/
inductive Same : Resolution α → Resolution α → Prop
  | resolved {target : α} {evidence : Evidence} {confidence : ℚ} :
      Same (.resolved target evidence confidence) (.resolved target evidence confidence)
  | ambiguous {candidates candidates' : List α} (h : candidates.Perm candidates') :
      Same (.ambiguous candidates) (.ambiguous candidates')
  | notFound : Same .notFound .notFound

/-- The answer about the candidates behind the ones that were matched. -/
def map (f : α → β) : Resolution α → Resolution β
  | .resolved target evidence confidence => .resolved (f target) evidence confidence
  | .ambiguous candidates => .ambiguous (candidates.map f)
  | .notFound => .notFound

theorem Same.map {r r' : Resolution α} (h : Same r r') (f : α → β) : Same (r.map f) (r'.map f) := by
  cases h with
  | resolved => exact .resolved
  | ambiguous h => exact .ambiguous (h.map f)
  | notFound => exact .notFound

end Resolution

theorem uniqueMatch_perm {candidates candidates' : List α} (h : candidates.Perm candidates')
    (pred : α → Bool) : uniqueMatch candidates pred = uniqueMatch candidates' pred := by
  refine Option.ext ?_
  intro target
  rw [uniqueMatch_eq_some, uniqueMatch_eq_some]
  have hfilter := h.filter pred
  constructor
  · intro hlone
    exact perm_singleton.mp (hlone ▸ hfilter.symm)
  · intro hlone
    exact perm_singleton.mp (hlone ▸ hfilter)

theorem resolveByPackage_perm (qualifiedName : α → Text) {candidates candidates' : List α}
    (h : candidates.Perm candidates') (pkg : Option Text) :
    (resolveByPackage qualifiedName candidates pkg).Same
      (resolveByPackage qualifiedName candidates' pkg) := by
  cases pkg with
  | none => exact .ambiguous h
  | some pkg =>
      simp only [resolveByPackage, uniqueMatch_perm h]
      split
      · exact .resolved
      · exact .ambiguous h

/-- The policy does not depend on the order of the candidates. -/
theorem resolve_perm (qualifiedName : α → Text) {candidates candidates' : List α}
    (h : candidates.Perm candidates') (ctx : Context) :
    (resolve qualifiedName candidates ctx).Same (resolve qualifiedName candidates' ctx) := by
  match candidates, candidates', h with
  | [], candidates', h =>
      obtain rfl := nil_perm.mp h
      exact .notFound
  | [only], candidates', h =>
      obtain rfl := perm_singleton.mp h.symm
      exact .resolved
  | a :: b :: rest, [], h => cases h.length_eq
  | a :: b :: rest, [only], h => cases h.length_eq
  | a :: b :: rest, a' :: b' :: rest', h =>
      simp only [resolve, uniqueMatch_perm h]
      split
      · exact .resolved
      · split
        · exact .resolved
        · exact resolveByPackage_perm qualifiedName h ctx.callerPackage

end AmbiguityPolicy

namespace CallEvidence

open AmbiguityPolicy

/-- A qualified name without the `#<digits>` that tells overloads apart. -/
def stripSeqSuffix (qn : Text) : Text :=
  match beforeLast ['#'] qn with
  | some head =>
      let tail := qn.drop (head.length + 1)
      if tail ≠ [] ∧ tail.all fun c => '0' ≤ c && c ≤ '9' then head else qn
  | none => qn

def bareName (qn : Text) : Text := stripSeqSuffix (lastPiece "::".toList qn)

/-- Evidence at a call site: the import paths in scope, or a qualified callee's
own spelling, and the caller's file. -/
structure Evidence where
  importsHint : List Text
  callerFile : Text

structure KeyedCandidate (α : Type*) where
  target : α
  key : Text
  deriving DecidableEq

def kotlinPackageOf (fileId : Text) : Option Text := (beforeLast ['/'] fileId).filter (· ≠ [])

variable {α : Type*} (qnOf fileOf : α → Text) (packageOf : Text → Option Text)

def packageKeyed (c : α) : KeyedCandidate α :=
  let name := bareName (qnOf c)
  match packageOf (fileOf c) with
  | some pkg => ⟨c, pkg ++ "::".toList ++ name⟩
  | none => ⟨c, name⟩

def fileKeyed (c : α) : KeyedCandidate α := ⟨c, stripSeqSuffix (qnOf c)⟩

/-- The first pass: only what an import names counts, so the caller's file and
package are left out. -/
def tryPackagePass (candidates : List α) (ev : Evidence) : Option (Resolution α) :=
  match resolve KeyedCandidate.key (candidates.map (packageKeyed qnOf fileOf packageOf))
      ⟨ev.importsHint, [], none⟩ with
  | .resolved target evidence confidence => some (.resolved target.target evidence confidence)
  | _ => none

/-- The second pass: the policy on the candidates keyed by their files. -/
def filePass (candidates : List α) (ev : Evidence) : Resolution α :=
  (resolve KeyedCandidate.key (candidates.map (fileKeyed qnOf))
    ⟨ev.importsHint, ev.callerFile, packageOf ev.callerFile⟩).map KeyedCandidate.target

def resolveTwoPass (candidates : List α) (ev : Evidence) : Resolution α :=
  match tryPackagePass qnOf fileOf packageOf candidates ev with
  | some resolution => resolution
  | none => filePass qnOf packageOf candidates ev

variable {qnOf fileOf packageOf} {candidates candidates' : List α} {ev : Evidence}

theorem tryPackagePass_perm (h : candidates.Perm candidates') :
    tryPackagePass qnOf fileOf packageOf candidates ev =
      tryPackagePass qnOf fileOf packageOf candidates' ev := by
  have hsame := resolve_perm KeyedCandidate.key (h.map (packageKeyed qnOf fileOf packageOf))
    ⟨ev.importsHint, [], none⟩
  unfold tryPackagePass
  revert hsame
  generalize resolve _ (candidates.map _) _ = r
  generalize resolve _ (candidates'.map _) _ = r'
  intro hsame
  cases hsame <;> rfl

/-- The answer does not depend on the order of the candidates. -/
theorem resolveTwoPass_perm (h : candidates.Perm candidates') :
    (resolveTwoPass qnOf fileOf packageOf candidates ev).Same
      (resolveTwoPass qnOf fileOf packageOf candidates' ev) := by
  unfold resolveTwoPass
  rw [tryPackagePass_perm h]
  cases tryPackagePass qnOf fileOf packageOf candidates' ev with
  | some resolution =>
      show resolution.Same resolution
      cases resolution with
      | resolved => exact .resolved
      | ambiguous candidates => exact .ambiguous (.refl _)
      | notFound => exact .notFound
  | none => exact (resolve_perm KeyedCandidate.key (h.map _) _).map _

/-- Two Kotlin files of one name: the import names the package of the second. -/
example : resolveTwoPass id extractFilePrefixOrSelf kotlinPackageOf
    ["pkg/a/File.kt::process#1".toList, "pkg/b/File.kt::process#2".toList]
    ⟨["pkg.b.process".toList], "pkg/c/Caller.kt".toList⟩ =
      resolvedBy "pkg/b/File.kt::process#2".toList .importMatch := by decide +kernel

/-! ## A language without packages -/

def SharedNames (qnOf : α → Text) (candidates : List α) : Prop :=
  ∀ c ∈ candidates, 2 ≤ (candidates.filter fun d => bareName (qnOf d) = bareName (qnOf c)).length

/-- Without packages the first pass keys every candidate by its bare name: a
shared name is not matched alone, and the empty file starts every name. -/
theorem tryPackagePass_eq_none (hpackage : ∀ c ∈ candidates, packageOf (fileOf c) = none)
    (hshared : SharedNames qnOf candidates) :
    tryPackagePass qnOf fileOf packageOf candidates ev = none := by
  have hkeyed : candidates.map (packageKeyed qnOf fileOf packageOf) =
      candidates.map fun c => ⟨c, bareName (qnOf c)⟩ :=
    map_congr_left fun c hc => by rw [packageKeyed, hpackage c hc]
  unfold tryPackagePass
  rw [hkeyed]
  rcases eq_or_ne candidates [] with rfl | hne
  · rfl
  obtain ⟨first, hfirst⟩ := exists_mem_of_ne_nil _ hne
  have hlength : 2 ≤ candidates.length :=
    (hshared first hfirst).trans (length_filter_le _ _)
  have houtcome := resolve_outcome KeyedCandidate.key
    (candidates.map fun c => ⟨c, bareName (qnOf c)⟩) ⟨ev.importsHint, [], none⟩
    (by rwa [length_map])
  revert houtcome
  generalize resolve KeyedCandidate.key (candidates.map fun c => ⟨c, bareName (qnOf c)⟩)
    ⟨ev.importsHint, [], none⟩ = answer
  intro houtcome
  cases houtcome with
  | @imports target hlone =>
      -- what matches one candidate of a name matches the others
      obtain ⟨c, hc, rfl⟩ := mem_map.mp
        (mem_filter.mp (hlone ▸ mem_singleton_self target)).1
      have hmatch := (mem_filter.mp (hlone ▸ mem_singleton_self _)).2
      have hcount : 2 ≤ (importMatched KeyedCandidate.key
          (candidates.map fun c => ⟨c, bareName (qnOf c)⟩) ⟨ev.importsHint, [], none⟩).length := by
        refine (hshared c hc).trans ?_
        rw [importMatched, filter_map, length_map, ← countP_eq_length_filter,
          ← countP_eq_length_filter]
        refine countP_mono_left ?_
        intro d _ hd
        show importMatches _ (bareName (qnOf d)) = true
        rw [of_decide_eq_true hd]
        exact hmatch
      rw [hlone] at hcount
      simp at hcount
  | file _ hlone =>
      have hall : startingWith KeyedCandidate.key
          (candidates.map fun c => (⟨c, bareName (qnOf c)⟩ : KeyedCandidate α)) [] =
          candidates.map fun c => ⟨c, bareName (qnOf c)⟩ := by simp
      have hone := congrArg List.length (hall.symm.trans hlone)
      rw [length_map, length_singleton] at hone
      omega
  | package _ _ hpkg _ => cases hpkg
  | ambiguous _ _ _ => rfl

end CallEvidence

end CodeGraph
