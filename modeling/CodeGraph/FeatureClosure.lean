import CodeGraph.Lib.Worklist
import CodeGraph.Text
import Mathlib.Order.Bounds.Basic

/-!
# The features a default build enables

`default_closure` follows the `[features]` table of a package from `default`. What it returns
is the least set with `default` that is closed under what the entries of the table turn on,
cycles or not; without a `default` feature it is empty.
-/

namespace CodeGraph

open List

namespace CargoFeatures

/-- The features of a package with the entries of each. -/
abbrev FeatureTable := List (Text × List Text)

/-- The feature of this package an entry of a feature's list turns on, if any. -/
def enabledFeature (entry : Text) : Option Text :=
  if "dep:".toList.isPrefixOf entry then none
  else if '/' ∈ entry then
    let dep := entry.takeWhile (· ≠ '/')
    if dep.getLast? = some '?' then none else some dep
  else some entry

def isFeature (features : FeatureTable) (name : Text) : Bool := (features.lookup name).isSome

def entriesOf (features : FeatureTable) (name : Text) : List Text :=
  (features.lookup name).getD []

def turnsOn (features : FeatureTable) (entry : Text) : Option Text :=
  (enabledFeature entry).filter fun name => isFeature features name

/-- The loop over the pending entries, the last one pushed first. -/
def closureLoop (features : FeatureTable) : ℕ → (pending enabled : List Text) → Option (List Text)
  | _, [], enabled => some enabled
  | 0, _ :: _, _ => none
  | fuel + 1, entry :: pending, enabled =>
      match turnsOn features entry with
      | none => closureLoop features fuel pending enabled
      | some name =>
          if name ∈ enabled then closureLoop features fuel pending enabled
          else closureLoop features fuel ((entriesOf features name).reverse ++ pending)
            (name :: enabled)

/-- Turns enough for every entry to be pushed once for each feature. -/
def closureFuel (features : FeatureTable) : ℕ :=
  (features.length + 1) * (features.flatMap Prod.snd).length

def defaultName : Text := "default".toList

def defaultClosure (features : FeatureTable) : Option (List Text) :=
  closureLoop features (closureFuel features) (entriesOf features defaultName).reverse
    (if isFeature features defaultName then [defaultName] else [])

/-! ## What the loop finds -/

def successors (features : FeatureTable) (name : Text) : List Text :=
  (entriesOf features name).filterMap (turnsOn features)

open Worklist (popSearch Reach)

theorem popSearch_of_closureLoop {features : FeatureTable} :
    ∀ {fuel : ℕ} {pending enabled result : List Text},
      closureLoop features fuel pending enabled = some result →
      popSearch id (successors features) fuel (pending.filterMap (turnsOn features)) enabled =
        some result
  | fuel, [], enabled, result, h => by
      rw [filterMap_nil, Worklist.popSearch_nil]
      cases fuel <;> exact h
  | 0, _ :: _, _, _, h => by cases h
  | fuel + 1, entry :: pending, enabled, result, h => by
      rw [closureLoop] at h
      split at h
      · next hnone =>
        rw [filterMap_cons_none hnone]
        exact Worklist.popSearch_mono 1 (popSearch_of_closureLoop h)
      · next name hname =>
        rw [filterMap_cons_some hname, popSearch, map_id, id]
        split at h
        · next hin => rw [if_pos hin, popSearch_of_closureLoop h]
        · next hnew =>
          rw [if_neg hnew, ← popSearch_of_closureLoop h, filterMap_append,
            filterMap_reverse, successors]

theorem turnsOn_isFeature {features : FeatureTable} {entry name : Text}
    (h : turnsOn features entry = some name) : name ∈ features.map Prod.fst := by
  obtain ⟨-, hfeature⟩ := Option.filter_eq_some_iff.mp h
  obtain ⟨entries, hlookup⟩ := Option.isSome_iff_exists.mp hfeature
  obtain ⟨pre, post, rfl, -⟩ := lookup_eq_some_iff.mp hlookup
  simp

theorem length_entriesOf_le (features : FeatureTable) (name : Text) :
    (entriesOf features name).length ≤ (features.flatMap Prod.snd).length := by
  rw [entriesOf]
  cases hlookup : features.lookup name with
  | none => exact Nat.zero_le _
  | some entries =>
      obtain ⟨pre, post, rfl, -⟩ := lookup_eq_some_iff.mp hlookup
      rw [flatMap_append, flatMap_cons, length_append, length_append,
        Option.getD_some]
      exact (Nat.le_add_right _ _).trans (Nat.le_add_left _ _)

/-- The loop returns: every turn that does not shorten the pending entries enables one more
feature of the table. -/
theorem closureLoop_returns (features : FeatureTable) :
    ∀ {fuel : ℕ} {pending enabled : List Text}, enabled.Nodup →
      enabled ⊆ features.map Prod.fst →
      pending.length + (features.length - enabled.length) * (features.flatMap Prod.snd).length ≤
        fuel →
      ∃ result, closureLoop features fuel pending enabled = some result
  | fuel, [], enabled, _, _, _ => ⟨enabled, by cases fuel <;> rfl⟩
  | 0, _ :: _, _, _, _, hfuel => by
      rw [length_cons] at hfuel
      omega
  | fuel + 1, entry :: pending, enabled, hnodup, hsub, hfuel => by
      rw [length_cons] at hfuel
      rw [closureLoop]
      split
      · exact closureLoop_returns features hnodup hsub (by omega)
      · next name hname =>
        split
        · exact closureLoop_returns features hnodup hsub (by omega)
        · next hnew =>
          have hnodup' : (name :: enabled).Nodup := nodup_cons.mpr ⟨hnew, hnodup⟩
          have hsub' : name :: enabled ⊆ features.map Prod.fst :=
            cons_subset.mpr ⟨turnsOn_isFeature hname, hsub⟩
          have hroom : (name :: enabled).length ≤ features.length := by
            have := (subperm_of_subset hnodup' hsub').length_le
            rwa [length_map] at this
          have hentries := length_entriesOf_le features name
          have hturns : (features.length - (name :: enabled).length) *
              (features.flatMap Prod.snd).length + (features.flatMap Prod.snd).length =
              (features.length - enabled.length) * (features.flatMap Prod.snd).length := by
            rw [length_cons, ← Nat.succ_mul]
            rw [length_cons] at hroom
            congr 1
            omega
          refine closureLoop_returns features hnodup' hsub' ?_
          rw [length_append, length_reverse]
          omega

/-- A set of features that holds `default`, if the package has it, and what the entries of
its members turn on. -/
structure Closed (features : FeatureTable) (enabled : Set Text) : Prop where
  default_mem : isFeature features defaultName → defaultName ∈ enabled
  turned_on : ∀ feature ∈ enabled, ∀ entry ∈ entriesOf features feature,
    ∀ name, turnsOn features entry = some name → name ∈ enabled

theorem searched_of_defaultClosure {features : FeatureTable} {enabled : List Text}
    (h : defaultClosure features = some enabled) :
    enabled.Nodup ∧ ∀ name, name ∈ enabled ↔
      isFeature features defaultName ∧ Reach (successors features) [defaultName] name := by
  rw [defaultClosure] at h
  by_cases hdefault : isFeature features defaultName
  · rw [if_pos hdefault] at h
    have hsearch : popSearch id (successors features) (closureFuel features + 1) [defaultName] [] =
        some enabled := by
      rw [popSearch, map_nil, if_neg not_mem_nil, append_nil, successors,
        ← filterMap_reverse]
      exact popSearch_of_closureLoop h
    have hfound := Worklist.popSearch_searched hsearch
    refine ⟨by simpa using hfound.nodup, fun name => ?_⟩
    rw [hfound.mem_iff, and_iff_right hdefault]
  · have hnone : features.lookup defaultName = none := by
      rwa [isFeature, Bool.not_eq_true, Option.isSome_eq_false_iff, Option.isNone_iff_eq_none]
        at hdefault
    have hentries : entriesOf features defaultName = [] := by
      rw [entriesOf, hnone, Option.getD_none]
    rw [if_neg hdefault, hentries, reverse_nil] at h
    have hnil := popSearch_of_closureLoop h
    rw [filterMap_nil, Worklist.popSearch_nil] at hnil
    obtain rfl := Option.some.inj hnil
    exact ⟨.nil, fun name => ⟨fun h => absurd h not_mem_nil, fun h => absurd h.1 hdefault⟩⟩

/-- The default features, each once, are the least closed set. -/
theorem defaultClosure_least (features : FeatureTable) :
    ∃ enabled, defaultClosure features = some enabled ∧ enabled.Nodup ∧
      IsLeast {s : Set Text | Closed features s} {name | name ∈ enabled} := by
  have hreturns : ∃ enabled, defaultClosure features = some enabled := by
    have hentries := length_entriesOf_le features defaultName
    have hfuel : (features.flatMap Prod.snd).length +
        features.length * (features.flatMap Prod.snd).length = closureFuel features := by
      rw [closureFuel, Nat.succ_mul, Nat.add_comm]
    rw [defaultClosure]
    split
    · next hdefault =>
      obtain ⟨entries, hlookup⟩ := Option.isSome_iff_exists.mp hdefault
      obtain ⟨pre, post, hfeatures, -⟩ := lookup_eq_some_iff.mp hlookup
      refine closureLoop_returns features (nodup_singleton _) ?_ ?_
      · rw [hfeatures]
        simp
      · rw [length_reverse]
        have := Nat.mul_le_mul_right (features.flatMap Prod.snd).length
          (Nat.sub_le features.length [defaultName].length)
        omega
    · refine closureLoop_returns features nodup_nil (nil_subset _) ?_
      rw [length_reverse, length_nil, Nat.sub_zero]
      omega
  obtain ⟨enabled, hrun⟩ := hreturns
  obtain ⟨hnodup, hmem⟩ := searched_of_defaultClosure hrun
  refine ⟨enabled, hrun, hnodup,
    ⟨fun hdefault => ?_, fun feature hfeature entry hentry name hname => ?_⟩,
    fun s hs name hname => ?_⟩
  · exact (hmem _).mpr ⟨hdefault, .start (mem_singleton_self _)⟩
  · obtain ⟨hdefault, hreach⟩ := (hmem feature).mp hfeature
    exact (hmem name).mpr
      ⟨hdefault, hreach.step (mem_filterMap.mpr ⟨entry, hentry, hname⟩)⟩
  · obtain ⟨hdefault, hreach⟩ := (hmem name).mp hname
    refine hreach.induct (P := fun name => name ∈ s) (fun start hstart => ?_)
      fun feature _ hfeature next hnext => ?_
    · rw [mem_singleton.mp hstart]
      exact hs.default_mem hdefault
    · obtain ⟨entry, hentry, hturns⟩ := mem_filterMap.mp hnext
      exact hs.turned_on feature hfeature entry hentry next hturns

/-- `default` itself, and closed under the entries that are a feature by name. -/
structure PlainClosed (features : FeatureTable) (enabled : Set Text) : Prop where
  default_mem : defaultName ∈ enabled
  turned_on : ∀ feature ∈ enabled, ∀ entry ∈ entriesOf features feature,
    ¬ "dep:".toList.isPrefixOf entry → '/' ∉ entry → isFeature features entry → entry ∈ enabled

/-- An entry `x/y` turns on `x` as well. -/
def slashTable : FeatureTable := [("default".toList, ["x/y".toList]), ("x".toList, [])]

theorem defaultClosure_notPlain :
    ¬ ∀ features, ∃ enabled, defaultClosure features = some enabled ∧
      IsLeast {s : Set Text | PlainClosed features s} {name | name ∈ enabled} := by
  intro h
  obtain ⟨enabled, hrun, -, hleast⟩ := h slashTable
  have hrun' : defaultClosure slashTable = some ["x".toList, "default".toList] := by decide
  obtain rfl := Option.some.inj (hrun.symm.trans hrun')
  have hplain : PlainClosed slashTable {defaultName} := by
    refine ⟨rfl, fun feature hfeature entry hentry _ _ hfeat => ?_⟩
    obtain rfl : feature = defaultName := hfeature
    obtain rfl : entry = "x/y".toList := mem_singleton.mp hentry
    exact absurd hfeat (by decide)
  have hx : "x".toList = defaultName := hleast hplain mem_cons_self
  exact absurd hx (by decide)

end CargoFeatures

end CodeGraph
