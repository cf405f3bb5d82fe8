import CodeGraph.CfgTwins
import CodeGraph.FeatureGated
import CodeGraph.NodeIds

/-!
# The verdict on a twin

Whether the default build compiles a `#[cfg]` twin, from the gates in its id
and what is known of the features its file is compiled with.
-/

namespace CodeGraph

/-- The `cfg_active` column. -/
inductive CfgActive where
  | active
  | inactive
  | unknown
  deriving DecidableEq

/-- The `#[cfg]` facts of one file: its logical module path, empty when it is
reached in more than one way, the conjunction of the gates that lead to it, and
the verdict of the default build. -/
structure FileCfg where
  modulePath : Text
  gate : Text
  active : CfgActive
  deriving DecidableEq

namespace CfgActive

/-- The predicates of a list of gates, `none` when one does not parse. -/
def parseGates : List Text → Option (List CfgPredicate)
  | [] => some []
  | gate :: gates => do
      let p ← CfgPredicate.parseCompact gate
      let ps ← parseGates gates
      some (p :: ps)

def ofTruth : Kleene.Truth → CfgActive
  | .true => .active
  | .false => .inactive
  | .unknown => .unknown

@[simp] theorem ofTruth_eq_active {t : Kleene.Truth} : ofTruth t = .active ↔ t = .true := by
  cases t <;> simp [ofTruth]

@[simp] theorem ofTruth_eq_inactive {t : Kleene.Truth} : ofTruth t = .inactive ↔ t = .false := by
  cases t <;> simp [ofTruth]

def evaluate (id : Text) (profile : BuildProfile) : CfgActive :=
  match parseGates (cfgGatesIn id) with
  | none => .unknown
  | some conjuncts => ofTruth ((CfgPredicate.all conjuncts).evalIn profile)

/-- The verdict for the twin `id`, whose file is compiled with `features`. -/
def decide (id : Text) : Option FileFeatures → CfgActive
  | none => .unknown
  | some .disagree => .unknown
  | some .compiledOut => .inactive
  | some (.enabled features) => evaluate id (.withFeatures features)

theorem mem_parseGates : ∀ {gates : List Text} {ps : List CfgPredicate},
    parseGates gates = some ps →
    (∀ gate ∈ gates, ∃ p ∈ ps, CfgPredicate.parseCompact gate = some p) ∧
      ∀ p ∈ ps, ∃ gate ∈ gates, CfgPredicate.parseCompact gate = some p
  | [], ps, h => by
      cases h
      exact ⟨nofun, nofun⟩
  | gate :: gates, ps, h => by
      obtain ⟨p, hp, h⟩ := Option.bind_eq_some_iff.mp h
      obtain ⟨ps', hps, h⟩ := Option.bind_eq_some_iff.mp h
      cases h
      obtain ⟨hfor, hback⟩ := mem_parseGates hps
      refine ⟨fun g hg => ?_, fun q hq => ?_⟩
      · rcases List.mem_cons.mp hg with rfl | hg
        · exact ⟨p, by simp, hp⟩
        · obtain ⟨q, hq, hparse⟩ := hfor g hg
          exact ⟨q, List.mem_cons_of_mem _ hq, hparse⟩
      · rcases List.mem_cons.mp hq with rfl | hq
        · exact ⟨gate, by simp, hp⟩
        · obtain ⟨g, hg, hparse⟩ := hback q hq
          exact ⟨g, List.mem_cons_of_mem _ hg, hparse⟩

/-- The evaluation of an id's gates is sound: `active` in a profile means that
every matching build satisfies all of them, `inactive` that every matching
build contradicts one. -/
theorem evaluate_sound {id : Text} {profile : BuildProfile} {build : Build}
    (h : build.Matches profile) :
    (evaluate id profile = .active → build.GatesHold id) ∧
      (evaluate id profile = .inactive → build.GatesFail id) := by
  unfold evaluate
  cases hparse : parseGates (cfgGatesIn id) with
  | none => exact ⟨nofun, nofun⟩
  | some conjuncts =>
      obtain ⟨hfor, hback⟩ := mem_parseGates hparse
      obtain ⟨htrue, hfalse⟩ := CfgPredicate.evalIn_models h (.all conjuncts)
      rw [Build.holds_all] at htrue hfalse
      refine ⟨fun hactive gate hgate => ?_, fun hinactive => ?_⟩
      · have hall := htrue (ofTruth_eq_active.mp hactive)
        obtain ⟨p, hp, hgate⟩ := hfor gate hgate
        exact ⟨p, hgate, hall p hp⟩
      · have hnot := hfalse (ofTruth_eq_inactive.mp hinactive)
        simp only [not_forall] at hnot
        obtain ⟨p, hp, hnot⟩ := hnot
        obtain ⟨gate, hgate, hparse⟩ := hback p hp
        exact ⟨gate, hgate, p, hparse, hnot⟩

end CfgActive

/-- The three-valued evaluation answers only what every matching build agrees
on. The verdict does the same for the gates in a twin's id: `active` and, unless
the file itself is compiled out, `inactive` are true of every build that matches
the default profile of the features the file is compiled with. -/
theorem cfg_evaluation_sound :
    (∀ (profile : BuildProfile) (build : Build) (p : CfgPredicate), build.Matches profile →
      (p.evalIn profile = .true → build.Holds p) ∧
        (p.evalIn profile = .false → ¬ build.Holds p)) ∧
    ∀ (id : Text) (features : Option FileFeatures),
      (CfgActive.decide id features = .active → ∃ enabled, features = some (.enabled enabled) ∧
        ∀ build : Build, build.Matches (.withFeatures enabled) → build.GatesHold id) ∧
      (CfgActive.decide id features = .inactive → features = some .compiledOut ∨
        ∃ enabled, features = some (.enabled enabled) ∧
          ∀ build : Build, build.Matches (.withFeatures enabled) → build.GatesFail id) := by
  refine ⟨fun profile build p h => CfgPredicate.evalIn_models h p, fun id features => ?_⟩
  cases features with
  | none => exact ⟨nofun, nofun⟩
  | some features =>
      cases features with
      | disagree => exact ⟨nofun, nofun⟩
      | compiledOut => exact ⟨nofun, fun _ => Or.inl rfl⟩
      | enabled enabled =>
          refine ⟨fun h => ⟨enabled, rfl, fun build hb => ?_⟩,
            fun h => Or.inr ⟨enabled, rfl, fun build hb => ?_⟩⟩
          · exact (CfgActive.evaluate_sound hb).1 h
          · exact (CfgActive.evaluate_sound hb).2 h

/-- A twin of a compiled-out file is `inactive` though its own gate,
`not(kani)`, holds in every default build. -/
theorem compiledOut_twin_with_true_gate :
    CfgActive.decide "src/x.rs::f#cfg(not(kani))".toList (some .compiledOut) = .inactive ∧
      ∀ (features : Finset Text) (build : Build), build.Matches (.withFeatures features) →
        build.GatesHold "src/x.rs::f#cfg(not(kani))".toList := by
  refine ⟨rfl, fun features build h => ?_⟩
  have hgates : cfgGatesIn "src/x.rs::f#cfg(not(kani))".toList = ["not(kani)".toList] := by
    decide +kernel
  have hparse : CfgPredicate.parseCompact "not(kani)".toList =
      some (.not (.option "kani".toList none)) := by
    decide +kernel
  have hnever : "kani".toList ∈ neverSetByAPlainBuild := by simp [neverSetByAPlainBuild]
  have hkani : build.bare "kani".toList = false :=
    h.options _ false (BuildProfile.withFeatures_options hnever)
  intro gate hgate
  rw [hgates, List.mem_singleton] at hgate
  refine ⟨_, hgate ▸ hparse, ?_⟩
  rw [Build.holds_not, Build.Holds, Build.holds, hkani]
  exact Bool.false_ne_true

end CodeGraph

/-!
## Choosing among twins

Which twin of an item a call reaches, from the caller's own gates and from the
columns the indexer wrote for the default profile.

The check between gates is syntactic: a twin is compiled when every conjunct of
its gates is a conjunct the caller holds, compiled out when the caller holds
the negation of one. `verdict_sound` is what that says about builds, for a view
whose columns are sound (`TwinView.Sound`).
-/

namespace CodeGraph

/-! ## The view -/

/-- The `cfg_active` column of every twin, the facts of every file under a gate
or compiled out, and the callables under a gate their id does not spell. -/
structure TwinView where
  active : Text → Option CfgActive
  files : Text → Option FileCfg
  gatedCallers : Text → Bool

namespace TwinView

def file (view : TwinView) (id : Text) : Option FileCfg := extractFilePrefix id >>= view.files

/-- Whether the file of `id` sits under a gate it inherits. -/
def fileIsGated (view : TwinView) (id : Text) : Bool :=
  (view.file id).any fun f => f.gate ≠ []

/-- `id` as its module path spells it, `none` when its file has none. -/
def logicalId (view : TwinView) (id : Text) : Option Text := do
  let file ← extractFilePrefix id
  let facts ← view.files file
  if facts.modulePath = [] then none
  else do
    let rest ← stripPrefix file id
    let rest ← stripPrefix "::".toList rest
    some (facts.modulePath ++ "::".toList ++ rest)

end TwinView

inductive Verdict where
  | compiled
  | notCompiled
  | undecided
  deriving DecidableEq

/-! ## Conjuncts -/

def gateParts : CfgPredicate → List CfgPredicate
  | .all items => items
  | single => [single]

/-- Adds the conjuncts of a gate that are not there yet. -/
def addParts (out : List CfgPredicate) (p : CfgPredicate) : List CfgPredicate :=
  (gateParts p).foldl (fun out part => if part ∈ out then out else out ++ [part]) out

def conjunctsFrom : (out : List CfgPredicate) → List Text → Option (List CfgPredicate)
  | out, [] => some out
  | out, gate :: gates => do
      let p ← CfgPredicate.parseCompact gate
      conjunctsFrom (addParts out p) gates

/-- The conjuncts of the gates written in `qn`, `none` when one does not parse. -/
def conjuncts (qn : Text) : Option (List CfgPredicate) := conjunctsFrom [] (cfgGatesIn qn)

def negation : CfgPredicate → CfgPredicate
  | .not inner => inner
  | other => .not other

/-- The gates written in `qn` joined with the gate its file inherits. -/
def conjunctsInFile (view : TwinView) (qn : Text) : Option (List CfgPredicate) := do
  let out ← conjuncts qn
  let fileGate := ((view.file qn).map FileCfg.gate).getD []
  if fileGate = [] then some out
  else do
    let p ← CfgPredicate.parseCompact fileGate
    some (addParts out p)

/-! ## The verdict -/

/-- What is known of the gates a caller holds: the conjuncts its id and its
file spell, and whether it sits under a gate of its own that neither spells. -/
structure CallerGates where
  held : List CfgPredicate
  unspelled : Bool

def callerGates (view : TwinView) (caller : Text) : CallerGates where
  held := (conjunctsInFile view caller).getD []
  unspelled := view.gatedCallers (extractCallerFromCallsiteId caller)

/-- The answer of the caller's gates alone. -/
def syntacticVerdict (view : TwinView) (held : List CfgPredicate) (qn : Text) : Option Verdict :=
  match conjunctsInFile view qn with
  | none => none
  | some gate =>
      if gate ≠ [] ∧ ∀ c ∈ gate, c ∈ held then some .compiled
      else if ∃ c ∈ gate, negation c ∈ held then some .notCompiled
      else none

def columnVerdict (view : TwinView) (id qn : Text) : Verdict :=
  let fileActive := (view.file id).map FileCfg.active
  if fileActive = some .inactive then .notCompiled
  else
    match view.active id with
    | some .active => .compiled
    | some .inactive => .notCompiled
    | _ => if fileActive = some .active ∧ cfgGatesIn qn = [] then .compiled else .undecided

/-- Whether the build compiles the node `id`, whose qualified name is `qn`, for
a caller holding `caller`. -/
def verdict (view : TwinView) (caller : CallerGates) (id qn : Text) : Verdict :=
  match syntacticVerdict view caller.held qn with
  | some v => v
  | none => if caller.unspelled then .undecided else columnVerdict view id qn

/-! ## Selection -/

/-- A candidate of a call. The indexer writes one value to both columns. -/
structure SymbolEntry where
  id : Text
  label : Text
  qualifiedName : Text
  same : qualifiedName = id
  deriving DecidableEq

/-- The name all twins of an item share, read through the file's module path
when the file has one. -/
def twinName (view : TwinView) (c : SymbolEntry) : Text :=
  stripCfgGates ((view.logicalId c.qualifiedName).getD c.qualifiedName)

def isGated (view : TwinView) (c : SymbolEntry) : Bool :=
  hasCfgGate c.qualifiedName || view.fileIsGated c.qualifiedName

/-- Two or more twins of one item: one label, every one gated, and one name
once the suffixes are stripped. -/
def areTwinsOfOneItem (view : TwinView) (candidates : List SymbolEntry) : Bool :=
  match candidates with
  | [] | [_] => false
  | first :: _ => candidates.all fun c =>
      c.label = first.label && isGated view c && twinName view c = twinName view first

/-- The one twin the build compiles, when the build decides it. -/
def select (view : TwinView) (callerQn : Text) (twins : List SymbolEntry) : Option SymbolEntry :=
  let caller := callerGates view callerQn
  match twins.filter fun t => verdict view caller t.id t.qualifiedName ≠ .notCompiled with
  | [twin] =>
      if verdict view caller twin.id twin.qualifiedName = .compiled then some twin else none
  | _ => none

/-- The twin a call to `candidates` reaches, when they are twins of one item. -/
def choose (view : TwinView) (callerQn : Text) (candidates : List SymbolEntry) :
    Option SymbolEntry :=
  if areTwinsOfOneItem view candidates then select view callerQn candidates else none

/-! ## What the conjuncts mean -/

theorem mem_addParts {out : List CfgPredicate} {p c : CfgPredicate} :
    c ∈ addParts out p ↔ c ∈ out ∨ c ∈ gateParts p := by
  have hfold : ∀ (parts out : List CfgPredicate),
      c ∈ parts.foldl (fun out part => if part ∈ out then out else out ++ [part]) out ↔
        c ∈ out ∨ c ∈ parts := by
    intro parts
    induction parts with
    | nil => simp
    | cons part parts ih =>
        intro out
        rw [List.foldl_cons, ih, List.mem_cons]
        by_cases hin : part ∈ out
        · rw [if_pos hin]
          refine ⟨Or.imp_right Or.inr, ?_⟩
          rintro (h | rfl | h)
          · exact Or.inl h
          · exact Or.inl hin
          · exact Or.inr h
        · simp [if_neg hin, or_assoc]
  exact hfold _ _

theorem holds_gateParts {build : Build} {p : CfgPredicate} :
    (∀ c ∈ gateParts p, build.Holds c) ↔ build.Holds p := by
  cases p <;> simp [gateParts]

theorem mem_conjunctsFrom {c : CfgPredicate} : ∀ {gates : List Text} {out cs : List CfgPredicate},
    conjunctsFrom out gates = some cs →
    (∀ gate ∈ gates, ∃ p, CfgPredicate.parseCompact gate = some p) ∧
      (c ∈ cs ↔ c ∈ out ∨ ∃ gate ∈ gates, ∃ p, CfgPredicate.parseCompact gate = some p ∧
        c ∈ gateParts p)
  | [], out, cs, h => by
      cases h
      simp
  | gate :: gates, out, cs, h => by
      obtain ⟨p, hp, h⟩ := Option.bind_eq_some_iff.mp h
      obtain ⟨hparse, hmem⟩ := mem_conjunctsFrom h
      refine ⟨List.forall_mem_cons.mpr ⟨⟨p, hp⟩, hparse⟩, ?_⟩
      rw [hmem, mem_addParts, or_assoc]
      simp [hp]

def TwinView.FileGate (view : TwinView) (id : Text) (p : CfgPredicate) : Prop :=
  ∃ facts, view.file id = some facts ∧ facts.gate ≠ [] ∧
    CfgPredicate.parseCompact facts.gate = some p

/-- The conjuncts of an id in its file are those of its gates, which all parse,
and those of the file's gate. -/
theorem mem_conjunctsInFile {view : TwinView} {qn : Text} {cs : List CfgPredicate}
    (h : conjunctsInFile view qn = some cs) :
    (∀ gate ∈ cfgGatesIn qn, ∃ p, CfgPredicate.parseCompact gate = some p) ∧
      ∀ c, c ∈ cs ↔
        (∃ gate ∈ cfgGatesIn qn, ∃ p, CfgPredicate.parseCompact gate = some p ∧
          c ∈ gateParts p) ∨ ∃ p, view.FileGate qn p ∧ c ∈ gateParts p := by
  obtain ⟨out, hout, h⟩ := Option.bind_eq_some_iff.mp h
  have hmem : ∀ c, c ∈ out ↔ ∃ gate ∈ cfgGatesIn qn, ∃ p,
      CfgPredicate.parseCompact gate = some p ∧ c ∈ gateParts p := fun c => by
    simpa using (mem_conjunctsFrom (c := c) hout).2
  refine ⟨(mem_conjunctsFrom (c := .all []) hout).1, fun c => ?_⟩
  dsimp only at h
  cases hfile : view.file qn with
  | none =>
      rw [hfile] at h
      cases h
      simp [hmem, TwinView.FileGate, hfile]
  | some facts =>
      rw [hfile] at h
      simp only [Option.map_some, Option.getD_some] at h
      by_cases hgate : facts.gate = []
      · rw [if_pos hgate] at h
        cases h
        simp [hmem, TwinView.FileGate, hfile, hgate]
      · rw [if_neg hgate] at h
        obtain ⟨p, hp, h⟩ := Option.bind_eq_some_iff.mp h
        cases h
        simp [mem_addParts, hmem, TwinView.FileGate, hfile, hgate, hp]

theorem holds_negation {build : Build} {p : CfgPredicate} (h : build.Holds (negation p)) :
    ¬ build.Holds p := by
  cases p <;> simp_all [negation]

end CodeGraph
