import CodeGraph.FileScope

/-!
# The ways into a file

What the facts of a file promise about the declaration paths that lead to it: a
module path and a gate are those of its only way in, and a file is inactive only
when every way in is false under the default build.

The walk marks a file by its module path and forgets the gates, so the promise
stands exactly when the gates add nothing: no crate root reaches a file along
two declaration paths of one module path and different gates (`OneGate`).
-/

namespace CodeGraph

open Kleene (Truth)
open List ModuleTree Worklist Relation

namespace FileScope

variable {tree : ModuleTree}

/-! ## The truth of a gate is in its text -/

def GatesWellFormed (gates : Option (List CfgPredicate)) : Prop :=
  ∀ all ∈ gates, ∀ p ∈ all, p.WellFormed

theorem gatesAlong_wf : ∀ (ds : List ModDecl) {gates : Option (List CfgPredicate)},
    GatesWellFormed gates → GatesWellFormed (gatesAlong gates ds)
  | [], _, h => h
  | decl :: ds, _, h => gatesAlong_wf ds (gatedBy_wf h decl.wf)

theorem gatesAlong_start_wf (ds : List ModDecl) : GatesWellFormed (gatesAlong (some []) ds) :=
  gatesAlong_wf ds fun all hall p hp => by
    obtain rfl := Option.mem_some.mp hall
    cases hp

theorem wellFormed_all {all : List CfgPredicate} (h : ∀ p ∈ all, p.WellFormed) :
    (CfgPredicate.all all).canonical.WellFormed :=
  CfgPredicate.WellFormed.canonical fun leaf hleaf => by
    rw [CfgPredicate.leaves, CfgPredicate.leavesOf_eq] at hleaf
    obtain ⟨p, hp, hleaf⟩ := mem_flatMap.mp hleaf
    exact h p hp leaf hleaf

theorem compact_ne {p : CfgPredicate} (h : p.WellFormed) :
    p.compact ≠ [] ∧ p.compact ≠ unparsedGate := by
  have hword := CfgPredicate.not_stops_compact_append h []
  rw [append_nil] at hword
  refine ⟨fun he => hword (by rw [he]; exact nofun), fun he => hword ?_⟩
  rw [he]
  intro c hc
  exact by
    obtain rfl : '?' = c := Option.some.inj hc
    show ¬ CfgPredicate.IsWordChar '?'
    unfold CfgPredicate.IsWordChar
    decide

theorem gateTruth_eq_of_gateText {gates gates' : Option (List CfgPredicate)}
    (hwf : GatesWellFormed gates) (hwf' : GatesWellFormed gates')
    (h : gateText gates = gateText gates') (enabled : Finset Text) :
    gateTruth enabled gates = gateTruth enabled gates' := by
  have hparsed : ∀ {p : CfgPredicate} {ps : List CfgPredicate}, GatesWellFormed (some (p :: ps)) →
      (CfgPredicate.all (p :: ps)).canonical.WellFormed := fun hps =>
    wellFormed_all (hps _ rfl)
  have hnone : unparsedGate ≠ [] := by decide
  rcases gates with _ | _ | ⟨p, ps⟩ <;> rcases gates' with _ | _ | ⟨q, qs⟩
  · rfl
  · exact absurd h hnone
  · exact absurd h.symm (compact_ne (hparsed hwf')).2
  · exact absurd h.symm hnone
  · rfl
  · exact absurd h.symm (compact_ne (hparsed hwf')).1
  · exact absurd h (compact_ne (hparsed hwf)).2
  · exact absurd h (compact_ne (hparsed hwf)).1
  · -- equal texts are equal canonical forms, and a form has the truth of its predicate
    have hcanon := CfgPredicate.compact_injective (hparsed hwf) (hparsed hwf') h
    show CfgPredicate.evalWith _ _ _ = CfgPredicate.evalWith _ _ _
    rw [← CfgPredicate.evalWith_canonical, hcanon, CfgPredicate.evalWith_canonical]

theorem evalIn_all_eq_false_iff {all : List CfgPredicate} {profile : BuildProfile} :
    (CfgPredicate.all all).evalIn profile = .false ↔ ∃ p ∈ all, p.evalIn profile = .false := by
  show (CfgPredicate.group true all).evalWith _ _ = .false ↔ _
  rw [CfgPredicate.evalWith_group]
  show Truth.conj _ = .false ↔ _
  rw [Truth.conj_eq_false, mem_map]
  rfl

/-- The conjuncts gathered along a path come from the start or from one of its
declarations. -/
theorem mem_gatesAlong : ∀ {ds : List ModDecl} {gates : Option (List CfgPredicate)}
    {all : List CfgPredicate}, gatesAlong gates ds = some all → ∀ p ∈ all,
      (∃ start, gates = some start ∧ p ∈ start) ∨ ∃ decl ∈ ds, ∃ own, decl.cfg = some own ∧ p ∈ own
  | [], _, _, h, p, hp => Or.inl ⟨_, h, hp⟩
  | decl :: ds, gates, all, h, p, hp => by
      have htail : gatesAlong (gatedBy gates decl.cfg) ds = some all := h
      rcases mem_gatesAlong htail p hp with ⟨joined, hjoined, hp⟩ | ⟨d, hd, own, hown, hp⟩
      · obtain ⟨start, hstart, hjoined⟩ := Option.bind_eq_some_iff.mp hjoined
        obtain ⟨own, hown, hjoined⟩ := Option.bind_eq_some_iff.mp hjoined
        cases hjoined
        rcases mem_append.mp hp with hp | hp
        · exact Or.inl ⟨start, hstart, hp⟩
        · exact Or.inr ⟨decl, mem_cons_self, own, hown, hp⟩
      · exact Or.inr ⟨d, mem_cons_of_mem _ hd, own, hown, hp⟩

variable {ds : List ModDecl}

theorem pathFalse_of_gateTruth {enabled : Finset Text}
    (h : gateTruth enabled (gatesAlong (some []) ds) = .false) :
    PathFalse (.withFeatures enabled) ds := by
  obtain ⟨all, hall, hfalse⟩ : ∃ all, gatesAlong (some []) ds = some all ∧
      (CfgPredicate.all all).evalIn (.withFeatures enabled) = .false := by
    unfold gateTruth at h
    split at h
    · cases h
    · cases h
    · next all _ hall => exact ⟨all, hall, h⟩
  obtain ⟨p, hp, hpfalse⟩ := evalIn_all_eq_false_iff.mp hfalse
  rcases mem_gatesAlong hall p hp with ⟨start, hstart, hp⟩ | ⟨decl, hdecl, own, hown, hp⟩
  · cases hstart
    cases hp
  · exact ⟨decl, hdecl, own, hown, evalIn_all_eq_false_iff.mpr ⟨p, hp, hpfalse⟩⟩

/-! ## What the facts of a file promise -/

/-- The module path and the gate a declaration path from `root` spells. -/
def spelled (root : CrateRoot) (ds : List ModDecl) : Text × Text :=
  (modulePathAlong (idOf root.entry) ds, gateText (gatesAlong (some []) ds))

/-- The ways into a file: what the declaration paths from the crate roots spell. -/
def waysInto (tree : ModuleTree) (file : FilePath) : Set (Text × Text) :=
  {way | ∃ root ds, tree.IsRoot root ∧ Declares tree root.entry ds file ∧ spelled root ds = way}

/-- What the result of the analysis promises. -/
structure Sound (tree : ModuleTree) (fuel : Nat) (result : FilePath → Option FileCfg) : Prop where
  /-- A module path or a gate is that of the only way into the file. -/
  unique : ∀ file facts, result file = some facts → facts.modulePath ≠ [] ∨ facts.gate ≠ [] →
    waysInto tree file = {(facts.modulePath, facts.gate)}
  /-- An inactive file is false along every declaration path to it. -/
  inactive : ∀ file facts, result file = some facts → facts.active = .inactive →
    ∀ root, tree.IsRoot root → ∀ ds, Declares tree root.entry ds file →
      PathFalse (.withFeatures root.defaultFeatures) ds
  /-- Every declaration path is counted among the ways of its crate root. -/
  counted : ∀ root, tree.IsRoot root → ∀ ways, walk tree fuel root = some ways →
    ∀ file ds, Declares tree root.entry ds file → ∃ way ∈ ways, way.file = file ∧
      (way.modulePath, gateText way.gates) = spelled root ds

/-- No crate root reaches a file along two declaration paths of one module path
and different gates. -/
def OneGate (tree : ModuleTree) : Prop :=
  ∀ root, tree.IsRoot root → ∀ file ds ds', Declares tree root.entry ds file →
    Declares tree root.entry ds' file →
    modulePathAlong (idOf root.entry) ds = modulePathAlong (idOf root.entry) ds' →
    gateText (gatesAlong (some []) ds) = gateText (gatesAlong (some []) ds')

variable {fuel : Nat} {root : CrateRoot} {ways : List Way}

theorem declares_of_mem_walk (h : walk tree fuel root = some ways) {way : Way} (hway : way ∈ ways) :
    ∃ ds, Declares tree root.entry ds way.file ∧
      way.modulePath = modulePathAlong (idOf root.entry) ds ∧
      way.gates = gatesAlong (some []) ds := by
  obtain ⟨r, hr, hreach⟩ := (popSearch_searched h).sound way hway
  rw [mem_singleton.mp hr] at hreach
  exact declares_of_reachable hreach

variable {file : FilePath}

theorem exists_mem_walk (h : walk tree fuel root = some ways)
    (hds : Declares tree root.entry ds file) :
    ∃ way ∈ ways, way.file = file ∧ way.modulePath = modulePathAlong (idOf root.entry) ds := by
  obtain ⟨met, hreach, hfile, hpath, -⟩ := exists_way_of_declares hds (start root) rfl
  have hkey := (popSearch_searched h).key_mem keyRespects_next
    ⟨_, mem_singleton_self _, hreach⟩
  obtain ⟨way, hway, hkey⟩ := mem_map.mp hkey
  have hfile' : way.file = met.file := congrArg Prod.fst hkey
  have hpath' : way.modulePath = met.modulePath := congrArg Prod.snd hkey
  exact ⟨way, hway, hfile'.trans hfile, hpath'.trans hpath⟩

theorem OneGate.exists_mem_walk (hone : OneGate tree)
    (hroot : tree.IsRoot root) (h : walk tree fuel root = some ways) (hds : Declares tree root.entry ds file) :
    ∃ way ∈ ways, way.file = file ∧ (way.modulePath, gateText way.gates) = spelled root ds ∧
      ∀ enabled, gateTruth enabled way.gates = gateTruth enabled (gatesAlong (some []) ds) := by
  obtain ⟨way, hway, hfile, hpath⟩ := FileScope.exists_mem_walk h hds
  obtain ⟨ds', hds', hpath', hgates⟩ := declares_of_mem_walk h hway
  have htext := hone root hroot file ds' ds (hfile ▸ hds') hds (hpath'.symm.trans hpath)
  refine ⟨way, hway, hfile, Prod.ext hpath (by rw [hgates]; exact htext), fun enabled => ?_⟩
  rw [hgates]
  exact gateTruth_eq_of_gateText (gatesAlong_start_wf _) (gatesAlong_start_wf _) htext enabled

/-! ## The facts of a file -/

theorem mem_reachesOf {found : List (CrateRoot × List Way)} {r : FileReach} :
    r ∈ reachesOf found file ↔ ∃ root ways, (root, ways) ∈ found ∧
      ∃ way ∈ ways, way.file = file ∧ reach root.defaultFeatures way = r := by
  simp only [reachesOf, mem_dedup, mem_flatMap, Prod.exists, mem_map,
    mem_filter, decide_eq_true_eq, and_assoc]

theorem scope_unique {reaches : List FileReach} {compiledOut : Bool}
    (h : (scope reaches compiledOut).modulePath ≠ [] ∨ (scope reaches compiledOut).gate ≠ []) :
    ∃ only, reaches = [only] ∧ (scope reaches compiledOut).modulePath = only.modulePath ∧
      (scope reaches compiledOut).gate = only.gate := by
  match reaches with
  | [] => exact absurd h (by simp [scope])
  | [only] => exact ⟨only, rfl, rfl, rfl⟩
  | _ :: _ :: _ => exact absurd h (by simp [scope])

theorem scope_inactive {reaches : List FileReach} {compiledOut : Bool} (hne : reaches ≠ [])
    (h : (scope reaches compiledOut).active = .inactive) :
    compiledOut = true ∨ ∀ r ∈ reaches, r.truth = 0 := by
  have hactive : (scope reaches compiledOut).active =
      (let best := (reaches.map FileReach.truth).max?.getD 1
      if compiledOut || best = 0 then .inactive else if best = 2 then .active else .unknown) := by
    unfold scope
    split <;> rfl
  rw [hactive] at h
  dsimp only at h
  split at h
  · next hout =>
    rcases Bool.or_eq_true_iff.mp hout with hout | hbest
    · exact Or.inl hout
    · refine Or.inr ?_
      intro r hr
      have hmem := mem_map_of_mem (f := FileReach.truth) hr
      obtain ⟨best, hmax⟩ := Option.isSome_iff_exists.mp
        (isSome_max?_of_mem hmem)
      rw [hmax] at hbest
      have hle := (max?_eq_some_iff.mp hmax).2 _ hmem
      have hzero : best = 0 := by simpa using hbest
      omega
  · split at h <;> cases h

variable {features : FilePath → Option FileFeatures} {result : FilePath → Option FileCfg}

theorem exists_walks (h : analyseTree tree fuel features = some result) :
    ∃ found, walks tree fuel tree.crateRoots = some found ∧ result = fileCfg found features := by
  obtain ⟨found, hfound, h⟩ := Option.bind_eq_some_iff.mp h
  exact ⟨found, hfound, (Option.some.inj h).symm⟩

theorem facts_of_fileCfg {found : List (CrateRoot × List Way)} {facts : FileCfg}
    (h : fileCfg found features file = some facts) : reachesOf found file ≠ [] ∧
      scope (reachesOf found file) (Decidable.decide (features file = some .compiledOut)) = facts := by
  unfold fileCfg at h
  dsimp only at h
  split at h
  · cases h
  · next hne =>
    split at h
    · exact ⟨hne, Option.some.inj h⟩
    · cases h

theorem OneGate.sound (hone : OneGate tree) {n : Nat} {analysis : FeatureGated.FeatureAnalysis} (hfeatures : FeatureGated.analyseTree tree n = some analysis)
    (h : analyseTree tree fuel analysis.features = some result) : Sound tree fuel result := by
  obtain ⟨found, hfound, rfl⟩ := exists_walks h
  obtain ⟨hall, hback⟩ := mem_walks hfound
  -- every declaration path is recorded, with what it spells and its truth
  have hrecorded : ∀ root, tree.IsRoot root → ∀ file ds, Declares tree root.entry ds file →
      ∃ r ∈ reachesOf found file, (r.modulePath, r.gate) = spelled root ds ∧
        r.truth = rank (gateTruth root.defaultFeatures (gatesAlong (some []) ds)) := by
    intro root hroot file ds hds
    obtain ⟨ways, hways⟩ := hall root hroot.1 hroot.2
    obtain ⟨way, hway, hfile, hspelled, htruth⟩ :=
      hone.exists_mem_walk hroot (hback root ways hways).2.2 hds
    exact ⟨_, mem_reachesOf.mpr ⟨root, ways, hways, way, hway, hfile, rfl⟩, hspelled,
      congrArg rank (htruth _)⟩
  refine ⟨fun file facts hfacts hwritten => ?_, fun file facts hfacts hinactive => ?_,
    fun root hroot ways hways file ds hds => ?_⟩
  · obtain ⟨-, rfl⟩ := facts_of_fileCfg hfacts
    obtain ⟨only, honly, hpath, hgate⟩ := scope_unique hwritten
    rw [hpath, hgate]
    refine Set.eq_singleton_iff_unique_mem.mpr ⟨?_, ?_⟩
    · have hmem : only ∈ reachesOf found file := honly ▸ mem_singleton_self _
      obtain ⟨root, ways, hways, way, hway, hfile, rfl⟩ := mem_reachesOf.mp hmem
      obtain ⟨hroot, hin, hwalk⟩ := hback root ways hways
      obtain ⟨ds, hds, hmp, hgates⟩ := declares_of_mem_walk hwalk hway
      refine ⟨root, ds, ⟨hroot, hin⟩, hfile ▸ hds, ?_⟩
      show _ = (way.modulePath, gateText way.gates)
      rw [hmp, hgates]
      rfl
    · rintro _ ⟨root, ds, hroot, hds, rfl⟩
      obtain ⟨r, hr, hspelled, -⟩ := hrecorded root hroot file ds hds
      rw [honly] at hr
      rw [mem_singleton.mp hr] at hspelled
      exact hspelled.symm
  · obtain ⟨hne, rfl⟩ := facts_of_fileCfg hfacts
    intro root hroot ds hds
    rcases scope_inactive hne hinactive with hout | hzero
    · exact FeatureGated.compiledOut_pathFalse hfeatures (of_decide_eq_true hout) hroot hds
    · obtain ⟨r, hr, -, htruth⟩ := hrecorded root hroot file ds hds
      have hrank := htruth.symm.trans (hzero r hr)
      refine pathFalse_of_gateTruth ?_
      cases htruth : gateTruth root.defaultFeatures (gatesAlong (some []) ds) with
      | false => rfl
      | true => rw [htruth] at hrank; cases hrank
      | unknown => rw [htruth] at hrank; cases hrank
  · obtain ⟨way, hway, hfile, hspelled, -⟩ := hone.exists_mem_walk hroot hways hds
    exact ⟨way, hway, hfile, hspelled⟩

/-- Ways are met once per module path, so two counted gates of one are equal. -/
theorem Sound.oneGate (h : analyseTree tree fuel features = some result)
    (hsound : Sound tree fuel result) : OneGate tree := by
  intro root hroot file ds ds' hds hds' hpath
  obtain ⟨found, hfound, -⟩ := exists_walks h
  obtain ⟨hall, hback⟩ := mem_walks hfound
  obtain ⟨ways, hways⟩ := hall root hroot.1 hroot.2
  have hwalk := (hback root ways hways).2.2
  obtain ⟨way, hway, hfile, hspelled⟩ := hsound.counted root hroot ways hwalk file ds hds
  obtain ⟨way', hway', hfile', hspelled'⟩ := hsound.counted root hroot ways hwalk file ds' hds'
  have hkey : way.key = way'.key := Prod.ext (hfile.trans hfile'.symm)
    ((congrArg Prod.fst hspelled).trans (hpath.trans (congrArg Prod.fst hspelled').symm))
  have hsame := inj_on_of_nodup_map (popSearch_searched hwalk).nodup hway hway' hkey
  rw [← hsame] at hspelled'
  exact (congrArg Prod.snd hspelled).symm.trans (congrArg Prod.snd hspelled')

/-- Every run that returns: the facts keep their promise exactly when no crate
root reaches a file along two declaration paths of one module path and different
gates. -/
theorem analyse_sound_iff {decls : FilePath → List ModDecl} {crateRoots : List CrateRoot}
    {indexed : Finset FilePath} {n fuel : Nat} {analysis : FeatureGated.FeatureAnalysis}
    {result : FilePath → Option FileCfg}
    (hfeatures : FeatureGated.analyse n decls (.known crateRoots) indexed = some analysis)
    (h : analyse fuel decls (.known crateRoots) indexed analysis.features = some result) :
    Sound ⟨decls, indexed, crateRoots⟩ fuel result ↔ OneGate ⟨decls, indexed, crateRoots⟩ :=
  ⟨fun hsound => hsound.oneGate h, fun hone => hone.sound hfeatures h⟩

/-! ## One name twice -/

/-- `#[cfg(..)] mod imp;`, gated by one bare option. -/
def gatedImp (name : Text) (h : name ≠ []) : ModDecl where
  name := "imp".toList
  pathAttr := none
  cfg := some [.option name none]
  cfgText := "#[cfg(".toList ++ name ++ ")]".toList
  altPaths := []
  wf := by simpa [CfgPredicate.wellFormed_option] using h

def libFile : FilePath := ["src".toList, "lib.rs".toList]

def impFile : FilePath := ["src".toList, "imp.rs".toList]

/-- `src/lib.rs` with the declarations `decls`, beside `src/imp.rs`. -/
def libTree (decls : List ModDecl) : ModuleTree where
  decls := fun file => if file = libFile then decls else []
  indexed := {libFile, impFile}
  crateRoots := [⟨libFile, ∅⟩]

/-- `#[cfg(unix)] mod imp;` then `#[cfg(windows)] mod imp;`. -/
def twinDecls : List ModDecl :=
  [gatedImp "unix".toList (by decide), gatedImp "windows".toList (by decide)]

def analysed (tree : ModuleTree) (fuel : Nat) :
    Option (FeatureGated.FeatureAnalysis × (FilePath → Option FileCfg)) := do
  let map := TargetMap.known tree.crateRoots
  let analysis ← FeatureGated.analyse fuel tree.decls map tree.indexed
  let result ← analyse fuel tree.decls map tree.indexed analysis.features
  some (analysis, result)

theorem analysed_eq {found : FeatureGated.FeatureAnalysis × (FilePath → Option FileCfg)}
    (h : analysed tree fuel = some found) :
    FeatureGated.analyse fuel tree.decls (.known tree.crateRoots) tree.indexed = some found.1 ∧
      analyse fuel tree.decls (.known tree.crateRoots) tree.indexed found.1.features =
        some found.2 := by
  obtain ⟨analysis, hanalysis, h⟩ := Option.bind_eq_some_iff.mp h
  obtain ⟨result, hresult, h⟩ := Option.bind_eq_some_iff.mp h
  cases h
  exact ⟨hanalysis, hresult⟩

theorem analyse_sound_iff_of_twin_declarations : ∃ analysis result,
    FeatureGated.analyse 4 (libTree twinDecls).decls (.known (libTree twinDecls).crateRoots)
        (libTree twinDecls).indexed = some analysis ∧
      analyse 4 (libTree twinDecls).decls (.known (libTree twinDecls).crateRoots)
        (libTree twinDecls).indexed analysis.features = some result ∧
      (Sound (libTree twinDecls) 4 result ↔ OneGate (libTree twinDecls)) := by
  have hrun : (analysed (libTree twinDecls) 4).isSome = true := by decide +kernel
  obtain ⟨found, hfound⟩ := Option.isSome_iff_exists.mp hrun
  obtain ⟨hanalysis, hresult⟩ := analysed_eq hfound
  exact ⟨_, _, hanalysis, hresult, analyse_sound_iff hanalysis hresult⟩

theorem mem_waysInto (hroot : tree.IsRoot root) {way : Text × Text}
    (h : (file, way) ∈ (tree.children root.entry).map fun c => (c.2, spelled root [c.1])) :
    way ∈ waysInto tree file := by
  obtain ⟨⟨decl, target⟩, hmem, heq⟩ := mem_map.mp h
  cases heq
  exact ⟨root, [decl], hroot, .step hmem (.here _), rfl⟩

/-- The second declaration of one name hides the first: the file is read as the
`windows` module only, though it is the `unix` module too. -/
theorem twin_declarations_keep_one_gate : ∃ analysis result,
    FeatureGated.analyse 4 (libTree twinDecls).decls (.known (libTree twinDecls).crateRoots)
        (libTree twinDecls).indexed = some analysis ∧
      analyse 4 (libTree twinDecls).decls (.known (libTree twinDecls).crateRoots)
        (libTree twinDecls).indexed analysis.features = some result ∧
      result impFile = some ⟨"src/lib.rs::imp".toList, "windows".toList, .unknown⟩ ∧
      ("src/lib.rs::imp".toList, "unix".toList) ∈ waysInto (libTree twinDecls) impFile ∧
      ¬ Sound (libTree twinDecls) 4 result := by
  have hrun : (analysed (libTree twinDecls) 4).bind (fun found => found.2 impFile) =
      some ⟨"src/lib.rs::imp".toList, "windows".toList, .unknown⟩ := by decide +kernel
  obtain ⟨found, hfound, hfacts⟩ := Option.bind_eq_some_iff.mp hrun
  obtain ⟨hanalysis, hresult⟩ := analysed_eq hfound
  have hunix : ("src/lib.rs::imp".toList, "unix".toList) ∈ waysInto (libTree twinDecls) impFile :=
    mem_waysInto ⟨mem_singleton_self _, by decide +kernel⟩ (by decide +kernel)
  refine ⟨_, _, hanalysis, hresult, hfacts, hunix, fun hsound => ?_⟩
  have honly := hsound.unique impFile _ hfacts (Or.inr (by decide +kernel))
  rw [honly] at hunix
  have hne : "unix".toList ≠ "windows".toList := by decide +kernel
  exact hne (congrArg Prod.snd (Set.mem_singleton_iff.mp hunix))

end FileScope

end CodeGraph
