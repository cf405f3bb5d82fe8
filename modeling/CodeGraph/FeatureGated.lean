import Mathlib.Data.Finset.Prod
import CodeGraph.ModuleTree

/-!
# Files compiled out by a feature

Walks every crate's module tree under the package's default features and
reports which files the features compile out, and with which features every
other file is compiled.

What the later passes rely on is `compiledOut_pathFalse`: a file reported as
compiled out is false along every declaration path that leads to it.
-/

namespace CodeGraph

open List

open Kleene (Truth)

/-- What the default build knows about the features one file is compiled with:
every way in is compiled out, every crate root that reaches the file enables
exactly these features, or the roots disagree. -/
inductive FileFeatures where
  | compiledOut
  | enabled (features : Finset Text)
  | disagree
  deriving DecidableEq

/-- The compiled targets `cargo metadata` reports, when it could be read. -/
inductive TargetMap where
  | unknown
  | known (crateRoots : List CrateRoot)

namespace FeatureGated

open ModuleTree Worklist

/-- A file, with the features of the crate root it is reached from. -/
abbrev LiveFile := FilePath × Finset Text

/-- The coverage detail of a file a declaration of `file` compiles out. -/
def gateDetail (decl : ModDecl) (file : FilePath) : Text :=
  "compiled out under the package's default features (cargo metadata): ".toList ++
    decl.cfgText ++ " on `mod ".toList ++ decl.name ++ ";` in ".toList ++ idOf file ++
    " is false; declarations are indexed, calls in it cannot be resolved by the language server".toList

variable (tree : ModuleTree)

/-- The files a live file declares under a gate the features do not make false. -/
def liveNext (s : LiveFile) : List LiveFile :=
  (tree.children s.1).filterMap fun (decl, target) =>
    if gate decl s.2 = .false then none else some (target, s.2)

/-- The declarations of a live file that the features compile out. -/
def liveSeeds (s : LiveFile) : List (FilePath × Text) :=
  (tree.children s.1).filterMap fun (decl, target) =>
    if gate decl s.2 = .false then some (target, gateDetail decl s.1) else none

/-- Marks every file `root` compiles as live with its features, and collects the
declarations they compile out. A file already reached with the same features is
not walked again. -/
def walkLive (fuel : Nat) (root : CrateRoot) (live : List LiveFile)
    (seeds : List (FilePath × Text)) : Option (List LiveFile × List (FilePath × Text)) :=
  let entry := (root.entry, root.defaultFeatures)
  if root.entry ∈ tree.indexed ∧ entry ∉ live then
    pushSearch (liveNext tree) (liveSeeds tree) fuel [entry] (entry :: live) seeds
  else some (live, seeds)

def walkRoots (fuel : Nat) : List CrateRoot → List LiveFile → List (FilePath × Text) →
    Option (List LiveFile × List (FilePath × Text))
  | [], live, seeds => some (live, seeds)
  | root :: roots, live, seeds => do
      let (live, seeds) ← walkLive tree fuel root live seeds
      walkRoots fuel roots live seeds

def isLive (live : List LiveFile) (file : FilePath) : Bool := live.any (·.1 = file)

/-- What a gated file declares is compiled out with it; a live file is passed
over. -/
def gatedNext (live : List LiveFile) (s : FilePath × Text) : List (FilePath × Text) :=
  if isLive live s.1 then []
  else (tree.children s.1).map fun (_, target) =>
    (target, "declared in ".toList ++ idOf s.1 ++ ", itself ".toList ++ s.2)

/-- The seeds and everything they declare, unless some other path made it live. -/
def propagateGated (fuel : Nat) (seeds : List (FilePath × Text)) (live : List LiveFile) :
    Option (List (FilePath × Text)) :=
  (popSearch Prod.fst (gatedNext tree live) fuel seeds.reverse []).map
    (·.filter fun s => !isLive live s.1)

/-- The two answers one walk gives: the gated files with the coverage detail,
and what is known of the features of every file. -/
structure FeatureAnalysis where
  gated : List (FilePath × Text)
  features : FilePath → Option FileFeatures

/-- The feature sets a live file is reached with, as one answer; a gated file is
compiled out. -/
def fileFeatures (live : List LiveFile) (gated : List (FilePath × Text)) (file : FilePath) :
    Option FileFeatures :=
  if file ∈ gated.map Prod.fst then some .compiledOut
  else
    match live.filter (·.1 = file) with
    | [] => none
    | [only] => some (.enabled only.2)
    | _ => some .disagree

/-- The analysis of a known target map. -/
def analyseTree (fuel : Nat) : Option FeatureAnalysis := do
  let (live, seeds) ← walkRoots tree fuel tree.crateRoots [] []
  let gated ← propagateGated tree fuel seeds live
  some { gated := gated, features := fileFeatures live gated }

/-- Nothing is known of any file when the target map is not. -/
def analyse (fuel : Nat) (decls : FilePath → List ModDecl) (map : TargetMap)
    (indexed : Finset FilePath) : Option FeatureAnalysis :=
  match map with
  | .unknown => some { gated := [], features := fun _ => none }
  | .known crateRoots => analyseTree ⟨decls, indexed, crateRoots⟩ fuel

variable {tree}

/-! ## What the walk makes live -/

theorem mem_liveNext {a b : LiveFile} : b ∈ liveNext tree a ↔
    b.2 = a.2 ∧ ∃ decl, (decl, b.1) ∈ tree.children a.1 ∧ gate decl a.2 ≠ .false := by
  obtain ⟨file, features⟩ := b
  simp only [liveNext, mem_filterMap, Prod.exists]
  constructor
  · rintro ⟨decl, target, hmem, h⟩
    split at h
    · cases h
    · next hgate =>
      cases h
      exact ⟨rfl, decl, hmem, hgate⟩
  · rintro ⟨rfl, decl, hmem, hgate⟩
    exact ⟨decl, file, hmem, by rw [if_neg hgate]⟩

/-- The live files are closed: between two roots nothing is pending. -/
def Closed (tree : ModuleTree) (live : List LiveFile) : Prop := PushInv (liveNext tree) [] live

theorem closed_nil : Closed tree [] where
  met := fun _ hs => absurd hs not_mem_nil
  closed := fun _ hs => absurd hs not_mem_nil

variable {live : List LiveFile}

theorem Closed.mem_of_declares (h : Closed tree live) {a b : FilePath}
    {features : Finset Text} {ds : List ModDecl} (hab : Declares tree a ds b)
    (ha : (a, features) ∈ live) (hgate : ∀ d ∈ ds, gate d features ≠ .false) :
    (b, features) ∈ live := by
  induction hab with
  | here _ => exact ha
  | step hd _ ih =>
      refine ih ?_ fun d hd => hgate d (mem_cons_of_mem _ hd)
      have hnext := (h.closed _ ha).resolve_left not_mem_nil
      exact hnext _ (mem_liveNext.mpr ⟨rfl, _, hd, hgate _ mem_cons_self⟩)

variable {fuel : Nat} {root : CrateRoot} {seeds : List (FilePath × Text)}

theorem walkLive_closed {live' : List LiveFile}
    {seeds' : List (FilePath × Text)} (h : Closed tree live)
    (hrun : walkLive tree fuel root live seeds = some (live', seeds')) :
    Closed tree live' ∧ (∀ s ∈ live, s ∈ live') ∧
      (root.entry ∈ tree.indexed → (root.entry, root.defaultFeatures) ∈ live') := by
  unfold walkLive at hrun
  dsimp only at hrun
  split at hrun
  · have hspread := (PushInv.restart h (root.entry, root.defaultFeatures)).spread hrun
    refine ⟨⟨nofun, fun s hs => Or.inr (hspread.closed s hs)⟩, fun s hs => ?_, fun _ => ?_⟩
    · exact hspread.keeps s (mem_cons_of_mem _ hs)
    · exact hspread.keeps _ mem_cons_self
  · next hskip =>
    cases hrun
    refine ⟨h, fun _ hs => hs, fun hin => ?_⟩
    by_contra hnot
    exact hskip ⟨hin, hnot⟩

theorem walkRoots_closed : ∀ {roots : List CrateRoot} {live live' : List LiveFile}
    {seeds seeds' : List (FilePath × Text)}, Closed tree live →
    walkRoots tree fuel roots live seeds = some (live', seeds') →
    Closed tree live' ∧ (∀ s ∈ live, s ∈ live') ∧ ∀ root ∈ roots, root.entry ∈ tree.indexed →
      (root.entry, root.defaultFeatures) ∈ live'
  | [], live, live', _, _, h, hrun => by
      cases hrun
      exact ⟨h, fun _ hs => hs, nofun⟩
  | root :: roots, live, live', _, _, h, hrun => by
      obtain ⟨⟨mid, seeds⟩, hroot, hrun⟩ := Option.bind_eq_some_iff.mp hrun
      obtain ⟨hmid, hkeep, hentry⟩ := walkLive_closed h hroot
      obtain ⟨hend, hkeep', hentries⟩ := walkRoots_closed hmid hrun
      refine ⟨hend, fun s hs => hkeep' s (hkeep s hs), fun r hr hin => ?_⟩
      rcases mem_cons.mp hr with rfl | hr
      · exact hkeep' _ (hentry hin)
      · exact hentries r hr hin

theorem isLive_of_mem {file : FilePath} {features : Finset Text}
    (h : (file, features) ∈ live) : isLive live file = true :=
  any_eq_true.mpr ⟨_, h, by simp⟩

/-- A file reported as compiled out is false along every declaration path that
leads to it from a crate root. -/
theorem compiledOut_pathFalse {analysis : FeatureAnalysis}
    (h : analyseTree tree fuel = some analysis) {file : FilePath}
    (hout : analysis.features file = some .compiledOut)
    (hroot : tree.IsRoot root) {ds : List ModDecl} (hds : Declares tree root.entry ds file) :
    PathFalse (.withFeatures root.defaultFeatures) ds := by
  obtain ⟨⟨live, seeds⟩, hwalk, h⟩ := Option.bind_eq_some_iff.mp h
  obtain ⟨gated, hgated, h⟩ := Option.bind_eq_some_iff.mp h
  cases h
  have hmem : file ∈ gated.map Prod.fst := by
    by_contra hnot
    simp only [fileFeatures, if_neg hnot] at hout
    split at hout <;> cases hout
  have hdead : isLive live file = false := by
    obtain ⟨found, -, rfl⟩ := Option.map_eq_some_iff.mp hgated
    obtain ⟨s, hs, rfl⟩ := mem_map.mp hmem
    simpa using (mem_filter.mp hs).2
  obtain ⟨hclosed, -, hentries⟩ := walkRoots_closed closed_nil hwalk
  by_contra hnot
  have hlive := hclosed.mem_of_declares hds (hentries root hroot.1 hroot.2) fun d hd hfalse =>
    hnot ⟨d, hd, evalIn_false_of_gate_false hfalse⟩
  exact Bool.noConfusion ((isLive_of_mem hlive).symm.trans hdead)

/-! ## The walks return

Both walks visit files, not paths, so a cycle of declarations does not keep
them going. -/

/-- The indexed files with the feature sets of the crate roots: what the live
walk can meet. -/
def liveStates (tree : ModuleTree) : Finset LiveFile :=
  tree.indexed ×ˢ (tree.crateRoots.map CrateRoot.defaultFeatures).toFinset

theorem liveNext_mem_liveStates : ∀ s ∈ liveStates tree, ∀ t ∈ liveNext tree s,
    t ∈ liveStates tree := by
  intro s hs t ht
  obtain ⟨hfeatures, decl, hmem, -⟩ := mem_liveNext.mp ht
  simp only [liveStates, Finset.mem_product] at hs ⊢
  exact ⟨mem_indexed_of_children hmem, hfeatures ▸ hs.2⟩

/-- What holds of the walk between two roots: every live file is one the walk can
meet, met once, and every seed names an indexed file. -/
structure WalkInv (tree : ModuleTree) (live : List LiveFile) (seeds : List (FilePath × Text)) :
    Prop where
  closed : Closed tree live
  sub : ∀ s ∈ live, s ∈ liveStates tree
  nodup : live.Nodup
  seeds : ∀ s ∈ seeds, s.1 ∈ tree.indexed

theorem mem_indexed_of_liveSeeds {s : LiveFile} {seed : FilePath × Text}
    (h : seed ∈ liveSeeds tree s) : seed.1 ∈ tree.indexed := by
  obtain ⟨⟨decl, target⟩, hmem, h⟩ := mem_filterMap.mp h
  dsimp only at h
  split at h
  · cases h
    exact mem_indexed_of_children hmem
  · cases h

theorem WalkInv.walkLive (h : WalkInv tree live seeds) (hroot : root ∈ tree.crateRoots)
    (hfuel : (liveStates tree).card < fuel) : ∃ live' seeds',
      walkLive tree fuel root live seeds = some (live', seeds') ∧ WalkInv tree live' seeds' := by
  unfold FeatureGated.walkLive
  dsimp only
  by_cases hwalk : root.entry ∈ tree.indexed ∧ (root.entry, root.defaultFeatures) ∉ live
  · have hentry : (root.entry, root.defaultFeatures) ∈ liveStates tree := by
      simp only [liveStates, Finset.mem_product, mem_toFinset]
      exact ⟨hwalk.1, mem_map_of_mem hroot⟩
    have hinv := PushInv.restart h.closed (root.entry, root.defaultFeatures)
    have hsub : ∀ s ∈ (root.entry, root.defaultFeatures) :: live, s ∈ liveStates tree :=
      forall_mem_cons.mpr ⟨hentry, h.sub⟩
    have hnodup := nodup_cons.mpr ⟨hwalk.2, h.nodup⟩
    obtain ⟨live', seeds', hrun⟩ : ∃ live' seeds', pushSearch (liveNext tree) (liveSeeds tree)
        fuel [(root.entry, root.defaultFeatures)] ((root.entry, root.defaultFeatures) :: live)
        seeds = some (live', seeds') :=
      pushSearch_terminates liveNext_mem_liveStates fuel seeds hinv hsub hnodup (by
        simp only [length_cons, length_nil]
        omega)
    obtain ⟨hnodup', hemit⟩ := pushSearch_nodup hnodup hrun
    have hspread := hinv.spread hrun
    refine ⟨live', seeds', by rw [if_pos hwalk, hrun], ⟨nofun, fun s hs => Or.inr ?_⟩, ?_, hnodup',
      fun s hs => (hemit s hs).elim (h.seeds s) fun ⟨_, hs⟩ => mem_indexed_of_liveSeeds hs⟩
    · exact hspread.closed s hs
    · intro s hs
      refine (hspread.sound s hs).elim (hsub s) ?_
      intro hreach
      refine hreach.induct (fun r hr => ?_) fun r _ hr t ht => liveNext_mem_liveStates r hr t ht
      exact mem_singleton.mp hr ▸ hentry
  · exact ⟨live, seeds, by rw [if_neg hwalk], h⟩

theorem WalkInv.walkRoots (hfuel : (liveStates tree).card < fuel) :
    ∀ {roots : List CrateRoot} {live : List LiveFile} {seeds : List (FilePath × Text)},
      WalkInv tree live seeds → (∀ root ∈ roots, root ∈ tree.crateRoots) → ∃ live' seeds',
        walkRoots tree fuel roots live seeds = some (live', seeds') ∧ WalkInv tree live' seeds'
  | [], live, seeds, h, _ => ⟨live, seeds, rfl, h⟩
  | root :: roots, live, seeds, h, hroots => by
      obtain ⟨live', seeds', hrun, hmid⟩ := h.walkLive (hroots root mem_cons_self) hfuel
      obtain ⟨live'', seeds'', hrest, hend⟩ := hmid.walkRoots hfuel fun r hr =>
        hroots r (mem_cons_of_mem _ hr)
      exact ⟨live'', seeds'', by simp only [FeatureGated.walkRoots, hrun, Option.bind_eq_bind,
        Option.bind_some, hrest], hend⟩

theorem propagateGated_terminates (live : List LiveFile) (h : ∀ s ∈ seeds, s.1 ∈ tree.indexed) :
    ∃ fuel gated, ∀ more, propagateGated tree (fuel + more) seeds live = some gated := by
  have hfin : {file | ∃ s, Reach (gatedNext tree live) seeds.reverse s ∧ s.1 = file}.Finite := by
    refine tree.indexed.finite_toSet.subset ?_
    rintro _ ⟨s, hs, rfl⟩
    refine hs.induct (P := fun s => s.1 ∈ tree.indexed) (fun r hr => h r (mem_reverse.mp hr))
      fun r _ _ t ht => ?_
    unfold gatedNext at ht
    split at ht
    · cases ht
    · obtain ⟨⟨decl, target⟩, hmem, rfl⟩ := mem_map.mp ht
      exact mem_indexed_of_children hmem
  obtain ⟨fuel, found, hrun⟩ := popSearch_terminates hfin
  exact ⟨fuel, _, fun more => by rw [propagateGated, popSearch_mono more hrun, Option.map_some]⟩

theorem walkLive_mono {result : List LiveFile × List (FilePath × Text)} (more : Nat)
    (h : walkLive tree fuel root live seeds = some result) :
    walkLive tree (fuel + more) root live seeds = some result := by
  unfold walkLive at h ⊢
  dsimp only at h ⊢
  split at h
  · next hwalk =>
    rw [if_pos hwalk]
    exact pushSearch_mono more h
  · next hwalk => rw [if_neg hwalk, h]

theorem walkRoots_mono (more : Nat) : ∀ {roots : List CrateRoot}
    {live : List LiveFile} {seeds : List (FilePath × Text)}
    {result : List LiveFile × List (FilePath × Text)},
    walkRoots tree fuel roots live seeds = some result →
    walkRoots tree (fuel + more) roots live seeds = some result
  | [], _, _, _, h => h
  | root :: roots, live, seeds, result, h => by
      obtain ⟨mid, hmid, hrest⟩ := Option.bind_eq_some_iff.mp h
      simp only [walkRoots, walkLive_mono more hmid, Option.bind_eq_bind, Option.bind_some,
        walkRoots_mono more hrest]

/-- The analysis returns on every table of declarations, cyclic ones included. -/
theorem analyseTree_terminates (tree : ModuleTree) :
    ∃ fuel analysis, ∀ more, analyseTree tree (fuel + more) = some analysis := by
  have hstart : WalkInv tree [] [] := ⟨closed_nil, nofun, nodup_nil, nofun⟩
  obtain ⟨live, seeds, hwalk, hinv⟩ := hstart.walkRoots (Nat.lt_succ_self _) fun _ hr => hr
  obtain ⟨fuel, gated, hgated⟩ := propagateGated_terminates live hinv.seeds
  refine ⟨(liveStates tree).card + 1 + fuel, ⟨gated, fileFeatures live gated⟩, fun more => ?_⟩
  rw [analyseTree, Nat.add_assoc, walkRoots_mono (fuel + more) hwalk, Option.bind_eq_bind,
    Option.bind_some, Nat.add_left_comm]
  simp only [hgated, Option.bind_eq_bind, Option.bind_some]

end FeatureGated

end CodeGraph
