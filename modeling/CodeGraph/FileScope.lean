import CodeGraph.CfgVerdict

/-!
# The scope of a file

The module path and the gate a file gets from the declarations that lead to
it. The walk follows declaration *paths* from every crate root and marks what
it met by file and module path; the module path grows along every declaration.

Two things follow from that key. A file that declares itself or an ancestor
never stops growing module paths, so the walk returns exactly when no file it
reaches is on a cycle (`walk_terminates_iff`). And two declarations of one name
that lead to one file are one visit, whatever their gates.
-/

namespace CodeGraph

open Kleene (Truth)
open List ModuleTree Worklist Relation

namespace FileScope

/-- Gate text for a conjunction one member of which did not parse. -/
def unparsedGate : Text := "?".toList

structure FileReach where
  modulePath : Text
  gate : Text
  truth : Nat
  placed : Bool
  deriving DecidableEq

/-- One way in, while the walk descends; `gates` is `none` once a gate on the
way did not parse. -/
structure Way where
  file : FilePath
  modulePath : Text
  gates : Option (List CfgPredicate)
  placed : Bool

def childPath (modulePath name : Text) : Text := modulePath ++ "::".toList ++ name

/-- The way into the file `target` that `decl` declares. -/
def Way.child (way : Way) (decl : ModDecl) (target : FilePath) : Way where
  file := target
  modulePath := childPath way.modulePath decl.name
  gates := gatedBy way.gates decl.cfg
  placed := way.placed || decl.pathAttr.isSome || !decl.altPaths.isEmpty

/-- What the walk marks as seen. -/
def Way.key (way : Way) : FilePath × Text := (way.file, way.modulePath)

def start (root : CrateRoot) : Way where
  file := root.entry
  modulePath := idOf root.entry
  gates := some []
  placed := false

def next (tree : ModuleTree) (way : Way) : List Way :=
  (tree.children way.file).map fun (decl, target) => way.child decl target

/-- The ways one crate root reaches files, as the walk met them. -/
def walk (tree : ModuleTree) (fuel : Nat) (root : CrateRoot) : Option (List Way) :=
  popSearch Way.key (next tree) fuel [start root] []

def gateText : Option (List CfgPredicate) → Text
  | none => unparsedGate
  | some [] => []
  | some all => (CfgPredicate.all all).canonical.compact

def gateTruth (enabled : Finset Text) : Option (List CfgPredicate) → Truth
  | none => .unknown
  | some [] => .true
  | some all => (CfgPredicate.all all).evalIn (.withFeatures enabled)

def rank : Truth → Nat
  | .true => 2
  | .unknown => 1
  | .false => 0

/-- What is recorded of a way. -/
def reach (enabled : Finset Text) (way : Way) : FileReach where
  modulePath := way.modulePath
  gate := gateText way.gates
  truth := rank (gateTruth enabled way.gates)
  placed := way.placed

def walks (tree : ModuleTree) (fuel : Nat) : List CrateRoot → Option (List (CrateRoot × List Way))
  | [] => some []
  | root :: roots =>
      if root.entry ∈ tree.indexed then do
        let ways ← walk tree fuel root
        let rest ← walks tree fuel roots
        some ((root, ways) :: rest)
      else walks tree fuel roots

/-- The set of ways a file is reached, over all walks. -/
def reachesOf (found : List (CrateRoot × List Way)) (file : FilePath) : List FileReach :=
  (found.flatMap fun (root, ways) =>
    (ways.filter (·.file = file)).map (reach root.defaultFeatures)).dedup

/-- The facts of a file from every way it is reached. -/
def scope (reaches : List FileReach) (compiledOut : Bool) : FileCfg :=
  let best := (reaches.map FileReach.truth).max?.getD 1
  let verdict : CfgActive :=
    if compiledOut || best = 0 then .inactive else if best = 2 then .active else .unknown
  match reaches with
  | [only] => { modulePath := only.modulePath, gate := only.gate, active := verdict }
  | _ => { modulePath := [], gate := [], active := verdict }

/-- The facts of a file: of those under a gate, placed by a `#[path]` or
compiled out. -/
def fileCfg (found : List (CrateRoot × List Way)) (features : FilePath → Option FileFeatures)
    (file : FilePath) : Option FileCfg :=
  let reaches := reachesOf found file
  if reaches = [] then none
  else
    let facts := scope reaches (features file = some .compiledOut)
    let placed := reaches.length = 1 ∧ reaches.all FileReach.placed
    if placed ∨ facts.gate ≠ [] ∨ facts.active = .inactive then some facts else none

def analyseTree (tree : ModuleTree) (fuel : Nat) (features : FilePath → Option FileFeatures) :
    Option (FilePath → Option FileCfg) := do
  let found ← walks tree fuel tree.crateRoots
  some (fileCfg found features)

/-- The facts of every file, by path; none when the target map is not known. -/
def analyse (fuel : Nat) (decls : FilePath → List ModDecl) (map : TargetMap)
    (indexed : Finset FilePath) (features : FilePath → Option FileFeatures) :
    Option (FilePath → Option FileCfg) :=
  match map with
  | .unknown => some fun _ => none
  | .known crateRoots => analyseTree ⟨decls, indexed, crateRoots⟩ fuel features

/-! ## Ways are declaration paths -/

def modulePathAlong (modulePath : Text) : List ModDecl → Text
  | [] => modulePath
  | decl :: ds => modulePathAlong (childPath modulePath decl.name) ds

def gatesAlong (gates : Option (List CfgPredicate)) : List ModDecl → Option (List CfgPredicate)
  | [] => gates
  | decl :: ds => gatesAlong (gatedBy gates decl.cfg) ds

variable {tree : ModuleTree}

theorem mem_next {way way' : Way} : way' ∈ next tree way ↔
    ∃ decl target, (decl, target) ∈ tree.children way.file ∧ way' = way.child decl target := by
  simp only [next, mem_map, Prod.exists]
  constructor
  · rintro ⟨decl, target, h, rfl⟩
    exact ⟨decl, target, h, rfl⟩
  · rintro ⟨decl, target, h, rfl⟩
    exact ⟨decl, target, h, rfl⟩

theorem exists_way_of_declares {a b : FilePath} {ds : List ModDecl} (h : Declares tree a ds b) :
    ∀ way : Way, way.file = a → ∃ way', ReflTransGen (Step (next tree)) way way' ∧
      way'.file = b ∧ way'.modulePath = modulePathAlong way.modulePath ds ∧
      way'.gates = gatesAlong way.gates ds := by
  induction h with
  | here file => exact fun way hfile => ⟨way, .refl, hfile, rfl, rfl⟩
  | @step file target last decl ds hd _ ih =>
      intro way hfile
      obtain ⟨way', hreach, hlast, hpath, hgates⟩ := ih (way.child decl target) rfl
      have hstep : Step (next tree) way (way.child decl target) :=
        mem_next.mpr ⟨decl, target, hfile ▸ hd, rfl⟩
      exact ⟨way', .head hstep hreach, hlast, hpath, hgates⟩

theorem declares_of_reachable {way way' : Way} (h : ReflTransGen (Step (next tree)) way way') :
    ∃ ds, Declares tree way.file ds way'.file ∧
      way'.modulePath = modulePathAlong way.modulePath ds ∧
      way'.gates = gatesAlong way.gates ds := by
  induction h using ReflTransGen.head_induction_on with
  | refl => exact ⟨[], .here _, rfl, rfl⟩
  | head hstep _ ih =>
      obtain ⟨decl, target, hd, rfl⟩ := mem_next.mp hstep
      obtain ⟨ds, hds, hpath, hgates⟩ := ih
      exact ⟨decl :: ds, .step hd hds, hpath, hgates⟩

theorem keyRespects_next : KeyRespects Way.key (next tree) := by
  intro a b hkey t ht
  obtain ⟨decl, target, hd, rfl⟩ := mem_next.mp ht
  have hfile : a.file = b.file := congrArg Prod.fst hkey
  have hpath : a.modulePath = b.modulePath := congrArg Prod.snd hkey
  refine ⟨b.child decl target, mem_next.mpr ⟨decl, target, hfile ▸ hd, rfl⟩, ?_⟩
  simp only [Way.key, Way.child, hpath]

/-! ## Termination -/

theorem child_of_step {way way' : Way} (h : Step (next tree) way way') :
    tree.Child way.file way'.file ∧ way.modulePath.length < way'.modulePath.length := by
  obtain ⟨decl, target, hd, rfl⟩ := mem_next.mp h
  refine ⟨⟨decl, hd⟩, ?_⟩
  have hsep : 0 < "::".toList.length := by decide
  simp only [Way.child, childPath, length_append]
  omega

theorem exists_step_of_child {way : Way} {b : FilePath} (h : tree.Child way.file b) :
    ∃ way', Step (next tree) way way' ∧ way'.file = b := by
  obtain ⟨decl, hd⟩ := h
  exact ⟨way.child decl b, mem_next.mpr ⟨decl, b, hd, rfl⟩, rfl⟩

theorem finite_ways {root : CrateRoot}
    (hno : ∀ file, ReflTransGen tree.Child root.entry file → ¬ TransGen tree.Child file file) :
    {k | ∃ way, Reach (next tree) [start root] way ∧ way.key = k}.Finite := by
  have hacc : Acc (fun b a => Step (next tree) a b) (start root) := by
    have hfiles : Acc (fun b a => tree.Child a b) (start root).file :=
      acc_of_no_cycle (finite_reachable root.entry) hno
    exact Subrelation.accessible (fun h => (child_of_step h).1) (InvImage.accessible Way.file hfiles)
  refine ((finite_of_acc hacc).image Way.key).subset ?_
  rintro _ ⟨way, ⟨r, hr, hway⟩, rfl⟩
  rw [mem_singleton.mp hr] at hway
  exact ⟨way, hway, rfl⟩

theorem exists_longer_way {way : Way} (h : TransGen tree.Child way.file way.file) :
    ∃ way', ReflTransGen (Step (next tree)) way way' ∧ way'.file = way.file ∧
      way.modulePath.length < way'.modulePath.length := by
  have hlift : ∀ {a b : FilePath}, TransGen tree.Child a b → ∀ way : Way, way.file = a →
      ∃ way', ReflTransGen (Step (next tree)) way way' ∧ way'.file = b ∧
        way.modulePath.length < way'.modulePath.length := by
    intro a b hab
    induction hab with
    | single hab =>
        intro way hfile
        obtain ⟨way', hstep, hfile'⟩ := exists_step_of_child (hfile ▸ hab : tree.Child way.file _)
        exact ⟨way', .single hstep, hfile', (child_of_step hstep).2⟩
    | tail _ hbc ih =>
        intro way hfile
        obtain ⟨mid, hmid, hfile', hlt⟩ := ih way hfile
        obtain ⟨way', hstep, hfile''⟩ := exists_step_of_child (hfile' ▸ hbc : tree.Child mid.file _)
        exact ⟨way', hmid.tail hstep, hfile'', hlt.trans (child_of_step hstep).2⟩
  exact hlift h way rfl

theorem exists_way_of_reachable {root : CrateRoot} {file : FilePath}
    (h : ReflTransGen tree.Child root.entry file) :
    ∃ way, Reach (next tree) [start root] way ∧ way.file = file := by
  induction h with
  | refl => exact ⟨start root, .start (mem_singleton_self _), rfl⟩
  | tail _ hbc ih =>
      obtain ⟨way, hway, hfile⟩ := ih
      obtain ⟨way', hstep, hfile'⟩ := exists_step_of_child (hfile ▸ hbc : tree.Child way.file _)
      exact ⟨way', hway.step hstep, hfile'⟩

/-- The walk of a crate root returns exactly when no file it reaches is on a
cycle of declarations. -/
theorem walk_terminates_iff {root : CrateRoot} : (∃ fuel ways, walk tree fuel root = some ways) ↔
    ∀ file, ReflTransGen tree.Child root.entry file → ¬ TransGen tree.Child file file := by
  constructor
  · rintro ⟨fuel, ways, hrun⟩ file hfile hcycle
    have hfin := (popSearch_searched hrun).finite keyRespects_next
    -- the longest module path the file is reached with can be made longer
    obtain ⟨bound, hbound⟩ : ∃ bound, ∀ way, Reach (next tree) [start root] way →
        way.modulePath.length ≤ bound := by
      obtain ⟨bound, hb⟩ := (hfin.image fun k => k.2.length).bddAbove
      exact ⟨bound, fun way hway => hb ⟨way.key, ⟨way, hway, rfl⟩, rfl⟩⟩
    have hgrow : ∀ n, ∃ way, Reach (next tree) [start root] way ∧ way.file = file ∧
        n ≤ way.modulePath.length := by
      intro n
      induction n with
      | zero =>
          obtain ⟨way, hway, hat⟩ := exists_way_of_reachable hfile
          exact ⟨way, hway, hat, Nat.zero_le _⟩
      | succ n ih =>
          obtain ⟨way, ⟨r, hr, hway⟩, hat, hlen⟩ := ih
          obtain ⟨way', hreach, hat', hlt⟩ := exists_longer_way (by rwa [hat] : TransGen tree.Child way.file way.file)
          exact ⟨way', ⟨r, hr, hway.trans hreach⟩, hat'.trans hat, by omega⟩
    obtain ⟨way, hway, -, hlen⟩ := hgrow (bound + 1)
    have := hbound way hway
    omega
  · intro hno
    exact popSearch_terminates (finite_ways hno)

theorem walk_mono {fuel : Nat} {root : CrateRoot} {ways : List Way} (more : Nat)
    (h : walk tree fuel root = some ways) : walk tree (fuel + more) root = some ways :=
  popSearch_mono more h

theorem walks_terminates : ∀ {roots : List CrateRoot},
    (∀ root ∈ roots, root.entry ∈ tree.indexed → ∃ fuel ways, walk tree fuel root = some ways) →
    ∃ fuel found, ∀ more, walks tree (fuel + more) roots = some found
  | [], _ => ⟨0, [], fun _ => rfl⟩
  | root :: roots, h => by
      obtain ⟨fuel, found, hrest⟩ := walks_terminates fun r hr => h r (mem_cons_of_mem _ hr)
      by_cases hin : root.entry ∈ tree.indexed
      · obtain ⟨fuel', ways, hrun⟩ := h root mem_cons_self hin
        refine ⟨fuel + fuel', (root, ways) :: found, fun more => ?_⟩
        have hwalk := walk_mono (fuel + more) hrun
        rw [show fuel' + (fuel + more) = fuel + fuel' + more by omega] at hwalk
        have hfound := hrest (fuel' + more)
        rw [← Nat.add_assoc] at hfound
        simp only [walks, if_pos hin, hwalk, hfound, Option.bind_eq_bind, Option.bind_some]
      · exact ⟨fuel, found, fun more => by rw [walks, if_neg hin, hrest]⟩

theorem mem_walks : ∀ {fuel : Nat} {roots : List CrateRoot}
    {found : List (CrateRoot × List Way)}, walks tree fuel roots = some found →
    (∀ root ∈ roots, root.entry ∈ tree.indexed → ∃ ways, (root, ways) ∈ found) ∧
      ∀ root ways, (root, ways) ∈ found →
        root ∈ roots ∧ root.entry ∈ tree.indexed ∧ walk tree fuel root = some ways
  | _, [], _, h => by
      cases h
      exact ⟨nofun, nofun⟩
  | fuel, root :: roots, found, h => by
      rw [walks] at h
      split at h
      · next hin =>
        obtain ⟨ways, hways, h⟩ := Option.bind_eq_some_iff.mp h
        obtain ⟨rest, hrest, h⟩ := Option.bind_eq_some_iff.mp h
        cases h
        obtain ⟨hall, hback⟩ := mem_walks hrest
        refine ⟨fun r hr hr' => ?_, fun r ws hrw => ?_⟩
        · rcases mem_cons.mp hr with rfl | hr
          · exact ⟨ways, mem_cons_self⟩
          · obtain ⟨ws, hws⟩ := hall r hr hr'
            exact ⟨ws, mem_cons_of_mem _ hws⟩
        · rcases mem_cons.mp hrw with heq | hrw
          · cases heq
            exact ⟨mem_cons_self, hin, hways⟩
          · obtain ⟨hr, hr', hw⟩ := hback r ws hrw
            exact ⟨mem_cons_of_mem _ hr, hr', hw⟩
      · next hin =>
        obtain ⟨hall, hback⟩ := mem_walks h
        refine ⟨fun r hr hr' => ?_, fun r ws hrw => ?_⟩
        · rcases mem_cons.mp hr with rfl | hr
          · exact absurd hr' hin
          · exact hall r hr hr'
        · obtain ⟨hr, hr', hw⟩ := hback r ws hrw
          exact ⟨mem_cons_of_mem _ hr, hr', hw⟩

theorem walks_terminates_iff : (∃ fuel found, walks tree fuel tree.crateRoots = some found) ↔
    tree.Acyclic := by
  constructor
  · rintro ⟨fuel, found, h⟩ root ⟨hroot, hin⟩
    obtain ⟨hall, hback⟩ := mem_walks h
    obtain ⟨ways, hways⟩ := hall root hroot hin
    exact walk_terminates_iff.mp ⟨fuel, ways, (hback root ways hways).2.2⟩
  · intro hno
    obtain ⟨fuel, found, h⟩ := walks_terminates fun root hroot hin =>
      walk_terminates_iff.mpr (hno root ⟨hroot, hin⟩)
    exact ⟨fuel, found, h 0⟩

/-- The analysis returns exactly when no file it reaches from an indexed crate
root declares itself, directly or through others. -/
theorem analyse_terminates_iff (decls : FilePath → List ModDecl) (crateRoots : List CrateRoot)
    (indexed : Finset FilePath) (features : FilePath → Option FileFeatures) :
    (∃ fuel result, analyse fuel decls (.known crateRoots) indexed features = some result) ↔
      ModuleTree.Acyclic ⟨decls, indexed, crateRoots⟩ := by
  rw [← walks_terminates_iff]
  constructor
  · rintro ⟨fuel, result, h⟩
    obtain ⟨found, hfound, -⟩ := Option.bind_eq_some_iff.mp h
    exact ⟨fuel, found, hfound⟩
  · rintro ⟨fuel, found, hfound⟩
    exact ⟨fuel, fileCfg found features, by
      simp only [analyse, analyseTree, hfound, Option.bind_eq_bind, Option.bind_some]⟩

/-- `src/lib.rs` with `#[path = "lib.rs"] mod m;`. -/
def selfDeclaringTable (file : FilePath) : List ModDecl :=
  if file = ["src".toList, "lib.rs".toList] then
    [{ name := "m".toList, pathAttr := some "lib.rs".toList, cfg := some [], cfgText := [],
       altPaths := [], wf := CfgPredicate.wellFormed_of_nil }]
  else []

/-- A crate root that declares itself under a `#[path]` is walked for ever. -/
theorem self_declaring_root_never_returns : ¬ ∃ fuel result,
    analyse fuel selfDeclaringTable (.known [⟨["src".toList, "lib.rs".toList], ∅⟩])
      {["src".toList, "lib.rs".toList]} (fun _ => none) = some result := by
  rintro ⟨fuel, result, h⟩
  obtain ⟨found, hfound, -⟩ := Option.bind_eq_some_iff.mp h
  have hacyclic := walks_terminates_iff.mp ⟨fuel, found, hfound⟩
  have hchild : ["src".toList, "lib.rs".toList] ∈
      (ModuleTree.children ⟨selfDeclaringTable, {["src".toList, "lib.rs".toList]},
        [⟨["src".toList, "lib.rs".toList], ∅⟩]⟩ ["src".toList, "lib.rs".toList]).map Prod.snd := by
    decide +kernel
  obtain ⟨⟨decl, target⟩, hmem, rfl⟩ := mem_map.mp hchild
  exact hacyclic ⟨_, ∅⟩ ⟨mem_singleton_self _, Finset.mem_singleton_self _⟩ _ .refl
    (.single ⟨decl, hmem⟩)

end FileScope

end CodeGraph
