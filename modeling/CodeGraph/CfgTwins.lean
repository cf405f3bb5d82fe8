import CodeGraph.CfgCanonical
import CodeGraph.CfgRoundTrip

/-!
# Builds

A build decides every option: `Build.Holds` is the classical meaning of a
predicate, the one the compiler gives it. A profile decides some of them, and a
build *matches* it when it agrees on those. The three-valued evaluation answers
only what every matching build agrees on (`evalIn_models`), and it answers more
when the profile decides more (`eval_refines_evalIn`).
-/

namespace CodeGraph

open Kleene (Truth)

/-- One total assignment of the options: the enabled features, the bare options
that are set, and the key-value options that are. -/
structure Build where
  features : Finset Text
  bare : Text → Bool
  keyValue : Text → Text → Bool

namespace Build

/-- The build agrees with what the profile decides. -/
structure Matches (build : Build) (profile : BuildProfile) : Prop where
  features : build.features = profile.features
  options : ∀ key value, profile.options key = some value → build.bare key = value

mutual

/-- Whether the build satisfies the predicate. -/
def holds (build : Build) : CfgPredicate → Bool
  | .feature name => name ∈ build.features
  | .option key none => build.bare key
  | .option key (some v) => build.keyValue key v
  | .all items => build.holdsAll items
  | .any items => build.holdsAny items
  | .not inner => !build.holds inner

def holdsAll (build : Build) : List CfgPredicate → Bool
  | [] => true
  | item :: items => build.holds item && build.holdsAll items

def holdsAny (build : Build) : List CfgPredicate → Bool
  | [] => false
  | item :: items => build.holds item || build.holdsAny items

end

/-- `holds`, as a proposition. -/
def Holds (build : Build) (p : CfgPredicate) : Prop := build.holds p = true

@[simp] theorem holds_all {build : Build} {items : List CfgPredicate} :
    build.Holds (.all items) ↔ ∀ p ∈ items, build.Holds p := by
  have hall : ∀ items, build.holdsAll items = true ↔ ∀ p ∈ items, build.Holds p := by
    intro items
    induction items with
    | nil => simp [holdsAll]
    | cons p items ih => simp [holdsAll, ih, Holds]
  simpa [Holds, holds] using hall items

@[simp] theorem holds_any {build : Build} {items : List CfgPredicate} :
    build.Holds (.any items) ↔ ∃ p ∈ items, build.Holds p := by
  have hany : ∀ items, build.holdsAny items = true ↔ ∃ p ∈ items, build.Holds p := by
    intro items
    induction items with
    | nil => simp [holdsAny]
    | cons p items ih => simp [holdsAny, ih, Holds]
  simpa [Holds, holds] using hany items

@[simp] theorem holds_not {build : Build} {p : CfgPredicate} :
    build.Holds (.not p) ↔ ¬ build.Holds p := by
  simp [Holds, holds]

end Build

namespace CfgPredicate

open Build

/-- Soundness of the evaluation: where it answers, every build that matches the
profile gives the same answer. -/
theorem evalIn_models {profile : BuildProfile} {build : Build} (h : build.Matches profile)
    (p : CfgPredicate) : (p.evalIn profile).Models (build.Holds p) := by
  have hgroup : ∀ (isAll : Bool) (items : List CfgPredicate),
      (group isAll items).evalIn profile =
        Truth.connect isAll (items.map fun p => p.evalIn profile) := fun isAll items =>
    evalWith_group _ _ isAll items
  induction p using groupInduction with
  | feature name =>
      have heq : (CfgPredicate.feature name).evalIn profile =
          Truth.ofBool (decide (name ∈ build.features)) := by
        rw [evalIn, evalWith, ← h.features]
        by_cases hin : name ∈ build.features <;> simp [hin, Truth.ofBool]
      rw [heq]
      exact Truth.models_ofBool Iff.rfl
  | option key value =>
      cases value with
      | some v => exact Truth.Models.unknown _
      | none =>
          cases hopt : profile.options key with
          | none =>
              have heq : (CfgPredicate.option key none).evalIn profile = .unknown := by
                simp [evalIn, evalWith, hopt]
              exact heq ▸ Truth.Models.unknown _
          | some value =>
              have heq : (CfgPredicate.option key none).evalIn profile = Truth.ofBool value := by
                cases value <;> simp [evalIn, evalWith, hopt, Truth.ofBool]
              rw [heq]
              refine Truth.models_ofBool ?_
              rw [← h.options key value hopt]
              rfl
  | group isAll items ih =>
      rw [hgroup]
      cases isAll with
      | true =>
          rw [group_true, holds_all]
          exact Truth.Models.conj ih
      | false =>
          rw [group_false, holds_any]
          exact Truth.Models.disj ih
  | not inner ih =>
      rw [evalIn, evalWith_not, holds_not]
      exact ih.neg

/-- Deciding no option answers less: the reading of `feature_gated` is refined
by every profile with the same features. -/
theorem eval_refines_evalIn (profile : BuildProfile) (p : CfgPredicate) :
    (p.eval profile.features).Refines (p.evalIn profile) := by
  induction p using groupInduction with
  | feature name => exact Truth.Refines.refl _
  | option key value => cases value <;> exact Or.inl rfl
  | group isAll items ih =>
      rw [eval, evalIn, evalWith_group, evalWith_group]
      cases isAll with
      | true => exact Truth.Refines.conj ih
      | false => exact Truth.Refines.disj ih
  | not inner ih =>
      rw [eval, evalIn, evalWith_not, evalWith_not]
      exact Truth.Refines.neg ih

end CfgPredicate

end CodeGraph

/-!
## Twin ids

Two items of one name under different `#[cfg]` predicates are told apart by a
suffix of the id, `src/lib.rs::pick#cfg(not(feature=fast))`. This module reads
the suffixes out of an id and says what they mean: the gates in an id are a
conjunction, over the builds that have the item.
-/

namespace CodeGraph

/-- Opens the suffix of a twin id. -/
def twinMark : Text := "#cfg(".toList

/-- The texts inside and after a group already opened `depth` times. -/
def closingParen : (depth : Nat) → Text → Option (Text × Text)
  | _, [] => none
  | depth, c :: text =>
      if c = '(' then (closingParen (depth + 1) text).map fun (inside, rest) => (c :: inside, rest)
      else if c = ')' then
        if depth - 1 = 0 then some ([], text)
        else (closingParen (depth - 1) text).map fun (inside, rest) => (c :: inside, rest)
      else (closingParen depth text).map fun (inside, rest) => (c :: inside, rest)

theorem closingParen_rest_lt : ∀ {depth : Nat} {text inside rest : Text},
    closingParen depth text = some (inside, rest) → rest.length < text.length
  | _, [], _, _, h => by simp [closingParen] at h
  | depth, c :: text, inside, rest, h => by
      have hrec : ∀ {depth : Nat}, (closingParen depth text).map
          (fun (inside, rest) => (c :: inside, rest)) = some (inside, rest) →
          rest.length < (c :: text).length := by
        intro depth h
        obtain ⟨⟨inside', rest'⟩, hclose, heq⟩ := Option.map_eq_some_iff.mp h
        cases heq
        exact (closingParen_rest_lt hclose).trans (Nat.lt_succ_self _)
      rw [closingParen] at h
      split at h
      · exact hrec h
      · split at h
        · split at h
          · cases h
            exact Nat.lt_succ_self _
          · exact hrec h
        · exact hrec h

/-- The text before the first twin suffix, the gate of the suffix, and the rest
of the id. A suffix that never closes is none. -/
def firstGate (qn : Text) : Option (Text × Text × Text) := do
  let (before, after) ← breakOn twinMark qn
  let (gate, rest) ← closingParen 1 after
  some (before, gate, rest)

theorem firstGate_rest_lt {qn before gate rest : Text}
    (h : firstGate qn = some (before, gate, rest)) : rest.length < qn.length := by
  obtain ⟨⟨before', after⟩, hbreak, h⟩ := Option.bind_eq_some_iff.mp h
  obtain ⟨⟨gate', rest'⟩, hclose, heq⟩ := Option.bind_eq_some_iff.mp h
  cases heq
  have hlt := closingParen_rest_lt hclose
  have hlen := congrArg List.length (breakOn_eq hbreak)
  simp only [List.length_append] at hlen
  omega

/-- The compact gates written in an id, one per suffix, in path order. -/
def cfgGatesIn (qn : Text) : List Text :=
  match _h : firstGate qn with
  | none => []
  | some (_, gate, rest) => gate :: cfgGatesIn rest
termination_by qn.length
decreasing_by exact firstGate_rest_lt _h

/-- An id without its twin suffixes: the name every twin of an item shares. -/
def stripCfgGates (qn : Text) : Text :=
  match _h : firstGate qn with
  | none => qn
  | some (before, _, rest) => before ++ stripCfgGates rest
termination_by qn.length
decreasing_by exact firstGate_rest_lt _h

/-- True when an id carries a twin suffix anywhere in its path. -/
def hasCfgGate (qn : Text) : Bool := (breakOn twinMark qn).isSome

example : cfgGatesIn "src/lib.rs::m#cfg(unix)::f#cfg(any(a,b))".toList =
    ["unix".toList, "any(a,b)".toList] := by decide +kernel

/-! ## What a gate says -/

namespace Build

/-- The build satisfies a gate; a gate that does not parse is satisfied by none. -/
def GateHolds (build : Build) (gate : Text) : Prop :=
  ∃ p, CfgPredicate.parseCompact gate = some p ∧ build.Holds p

/-- The build contradicts a gate; a gate that does not parse is contradicted by
none. -/
def GateFails (build : Build) (gate : Text) : Prop :=
  ∃ p, CfgPredicate.parseCompact gate = some p ∧ ¬ build.Holds p

def GatesHold (build : Build) (id : Text) : Prop := ∀ gate ∈ cfgGatesIn id, build.GateHolds gate

/-- Some gate written in the id is false. -/
def GatesFail (build : Build) (id : Text) : Prop := ∃ gate ∈ cfgGatesIn id, build.GateFails gate

end Build

end CodeGraph
