import CodeGraph.FeatureGated

/-!
# What the default features compile out, as reachability

`FeatureGated` walks the module trees twice, once for the live files and once
for what the gated declarations name. Here the two answers are stated without
the walks: a file is compiled by a crate root that leads to it through
declarations the root's features do not make false (`CompiledBy`), and it is
gated when some indexed crate root leads to it but none compiles it (`Gated`).

Both walks start from the crate roots whose entry is indexed. A crate root that
is not indexed compiles nothing here, see `unindexed_root_compiles_nothing`.
-/

namespace CodeGraph

open List

namespace FeatureGated

open ModuleTree Worklist

open Relation (ReflTransGen)

/-- `b` is declared in `a`, under a gate the features do not make false. -/
def LiveChild (tree : ModuleTree) (features : Finset Text) (a b : FilePath) : Prop :=
  ∃ decl, (decl, b) ∈ tree.children a ∧ gate decl features ≠ .false

/-- The crate root compiles `file`: it is indexed, and leads to the file through
declarations that its features do not make false. -/
def CompiledBy (tree : ModuleTree) (root : CrateRoot) (file : FilePath) : Prop :=
  tree.IsRoot root ∧ ReflTransGen (LiveChild tree root.defaultFeatures) root.entry file

/-- Some indexed crate root leads to `file`, and none compiles it. -/
def Gated (tree : ModuleTree) (file : FilePath) : Prop :=
  (∃ root, tree.IsRoot root ∧ ReflTransGen tree.Child root.entry file) ∧
    ∀ root, ¬ CompiledBy tree root file

variable {tree : ModuleTree}

/-! ## The live walk -/

variable {features : Finset Text}

theorem reach_liveNext {entry : FilePath} {s : LiveFile} :
    Reach (liveNext tree) [(entry, features)] s ↔
      s.2 = features ∧ ReflTransGen (LiveChild tree features) entry s.1 := by
  constructor
  · refine fun h => Reach.induct (P := fun s => s.2 = features ∧
      ReflTransGen (LiveChild tree features) entry s.1) (fun r hr => ?_) (fun s _ hs t ht => ?_) h
    · obtain rfl := mem_singleton.mp hr
      exact ⟨rfl, .refl⟩
    · obtain ⟨hsame, decl, hdecl, hgate⟩ := mem_liveNext.mp ht
      exact ⟨hsame.trans hs.1, hs.2.tail ⟨decl, hdecl, hs.1 ▸ hgate⟩⟩
  · obtain ⟨file, _⟩ := s
    rintro ⟨rfl, h : ReflTransGen (LiveChild tree _) entry file⟩
    induction h with
    | refl => exact .start (mem_singleton_self _)
    | tail _ hchild ih =>
        obtain ⟨decl, hdecl, hgate⟩ := hchild
        exact ih.step (mem_liveNext.mpr ⟨rfl, decl, hdecl, hgate⟩)

/-- What the walk of the crate roots `done` has found: the files they compile,
each with the features it is compiled with, and the declarations compiled out. -/
structure Walked (tree : ModuleTree) (done : List CrateRoot) (live : List LiveFile)
    (seeds : List (FilePath × Text)) : Prop where
  closed : Closed tree live
  nodup : live.Nodup
  met : ∀ s, s ∈ live ↔ ∃ root ∈ done, root.entry ∈ tree.indexed ∧
    Reach (liveNext tree) [(root.entry, root.defaultFeatures)] s
  emitted : ∀ seed, seed ∈ seeds ↔ ∃ s ∈ live, seed ∈ liveSeeds tree s

theorem Walked.nil : Walked tree [] [] [] where
  closed := closed_nil
  nodup := nodup_nil
  met := by simp
  emitted := by simp

variable {root : CrateRoot} {live : List LiveFile}

theorem mem_live_append {done : List CrateRoot} {live' : List LiveFile}
    (h : ∀ s, s ∈ live ↔ ∃ root ∈ done, root.entry ∈ tree.indexed ∧
      Reach (liveNext tree) [(root.entry, root.defaultFeatures)] s)
    (h' : ∀ s, s ∈ live' ↔ s ∈ live ∨ (root.entry ∈ tree.indexed ∧
      Reach (liveNext tree) [(root.entry, root.defaultFeatures)] s)) (s : LiveFile) :
    s ∈ live' ↔ ∃ r ∈ done ++ [root], r.entry ∈ tree.indexed ∧
      Reach (liveNext tree) [(r.entry, r.defaultFeatures)] s := by
  simp only [h', h, mem_append, mem_singleton, or_and_right, exists_or, exists_eq_left]

variable {seeds : List (FilePath × Text)} {fuel : Nat}

/-- One crate root. It is walked when it is indexed and was not met before; when
it was met, what it leads to was met with it. -/
theorem Walked.walkLive {done : List CrateRoot} {live' : List LiveFile}
    {seeds' : List (FilePath × Text)} (h : Walked tree done live seeds) (hrun : walkLive tree fuel root live seeds = some (live', seeds')) :
    Walked tree (done ++ [root]) live' seeds' := by
  unfold FeatureGated.walkLive at hrun
  dsimp only at hrun
  split at hrun
  · next hwalk =>
    have hinv := PushInv.restart h.closed (root.entry, root.defaultFeatures)
    have hspread := hinv.spread hrun
    have hemits := hinv.emits hrun
    have hnodup := (pushSearch_nodup (nodup_cons.mpr ⟨hwalk.2, h.nodup⟩) hrun).1
    have hentry : (root.entry, root.defaultFeatures) ∈ live' :=
      hspread.keeps _ mem_cons_self
    have hkeeps : ∀ s ∈ live, s ∈ live' := fun s hs =>
      hspread.keeps s (mem_cons_of_mem _ hs)
    refine ⟨⟨nofun, fun s hs => Or.inr (hspread.closed s hs)⟩, hnodup,
      mem_live_append h.met fun s => ⟨fun hs => ?_, ?_⟩, fun seed => ⟨fun hseed => ?_, ?_⟩⟩
    · rcases hspread.sound s hs with hmet | hreach
      · rcases mem_cons.mp hmet with rfl | hmet
        · exact Or.inr ⟨hwalk.1, .start (mem_singleton_self _)⟩
        · exact Or.inl hmet
      · exact Or.inr ⟨hwalk.1, hreach⟩
    · rintro (hs | ⟨-, r, hr, hrs⟩)
      · exact hkeeps s hs
      · exact hspread.mem (mem_singleton.mp hr ▸ hentry) hrs
    · rcases hemits.sound seed hseed with hseed | hfrom
      · obtain ⟨s, hs, hfrom⟩ := (h.emitted seed).mp hseed
        exact ⟨s, hkeeps s hs, hfrom⟩
      · exact hfrom
    · rintro ⟨s, hs, hfrom⟩
      rcases hemits.complete s hs with ⟨hmet, hnot⟩ | hall
      · have hold := (mem_cons.mp hmet).resolve_left fun he =>
          hnot (he ▸ mem_singleton_self _)
        exact hemits.keeps seed ((h.emitted seed).mpr ⟨s, hold, hfrom⟩)
      · exact hall seed hfrom
  · next hskip =>
    cases hrun
    refine ⟨h.closed, h.nodup, mem_live_append h.met fun s => ⟨Or.inl, ?_⟩, h.emitted⟩
    rintro (hs | ⟨hin, r, hr, hrs⟩)
    · exact hs
    · have hmet : (root.entry, root.defaultFeatures) ∈ live := by
        by_contra hnot
        exact hskip ⟨hin, hnot⟩
      have hclosed : ∀ s ∈ live, ∀ t ∈ liveNext tree s, t ∈ live := fun s hs =>
        (h.closed.closed s hs).resolve_left not_mem_nil
      refine Reach.induct (P := (· ∈ live)) (fun r hr => ?_) (fun s _ hs => hclosed s hs)
        ⟨r, hr, hrs⟩
      exact mem_singleton.mp hr ▸ hmet

theorem Walked.walkRoots : ∀ {roots done : List CrateRoot}
    {live live' : List LiveFile} {seeds seeds' : List (FilePath × Text)},
    Walked tree done live seeds → walkRoots tree fuel roots live seeds = some (live', seeds') →
    Walked tree (done ++ roots) live' seeds'
  | [], done, _, _, _, _, h, hrun => by
      cases hrun
      rwa [append_nil]
  | root :: roots, done, _, _, _, _, h, hrun => by
      obtain ⟨⟨mid, midSeeds⟩, hroot, hrun⟩ := Option.bind_eq_some_iff.mp hrun
      have hrest := (h.walkLive hroot).walkRoots hrun
      rwa [append_assoc, singleton_append] at hrest

theorem Walked.live_iff (h : Walked tree tree.crateRoots live seeds) {file : FilePath} :
    (file, features) ∈ live ↔
      ∃ root, CompiledBy tree root file ∧ root.defaultFeatures = features := by
  rw [h.met]
  simp only [reach_liveNext]
  constructor
  · rintro ⟨root, hroot, hin, rfl, hlive⟩
    exact ⟨root, ⟨⟨hroot, hin⟩, hlive⟩, rfl⟩
  · rintro ⟨root, ⟨⟨hroot, hin⟩, hlive⟩, rfl⟩
    exact ⟨root, hroot, hin, rfl, hlive⟩

theorem Walked.isLive_iff (h : Walked tree tree.crateRoots live seeds) {file : FilePath} :
    isLive live file = true ↔ ∃ root, CompiledBy tree root file := by
  constructor
  · intro hlive
    obtain ⟨⟨_, features⟩, hs, heq⟩ := any_eq_true.mp hlive
    obtain rfl := of_decide_eq_true heq
    obtain ⟨root, hroot, -⟩ := h.live_iff.mp hs
    exact ⟨root, hroot⟩
  · rintro ⟨root, hroot⟩
    exact isLive_of_mem (h.live_iff.mpr ⟨root, hroot, rfl⟩)

/-! ## The gated walk -/

theorem mem_liveSeeds {s : LiveFile} {file : FilePath} :
    (∃ detail, (file, detail) ∈ liveSeeds tree s) ↔
      ∃ decl, (decl, file) ∈ tree.children s.1 ∧ gate decl s.2 = .false := by
  simp only [liveSeeds, mem_filterMap, Prod.exists]
  constructor
  · rintro ⟨detail, decl, target, hmem, h⟩
    split at h
    · next hgate =>
      cases h
      exact ⟨decl, hmem, hgate⟩
    · cases h
  · rintro ⟨decl, hmem, hgate⟩
    exact ⟨_, decl, file, hmem, by rw [if_pos hgate]⟩

theorem mem_gatedNext {s : FilePath × Text} {file : FilePath} :
    (∃ detail, (file, detail) ∈ gatedNext tree live s) ↔
      Outside tree.Child (isLive live · = true) s.1 file := by
  unfold gatedNext Outside Child
  split
  · next hlive => simp [hlive]
  · next hlive => simp [hlive]

theorem keyRespects_gatedNext (live : List LiveFile) :
    KeyRespects Prod.fst (gatedNext tree live) := by
  rintro ⟨a, detail⟩ ⟨_, detail'⟩ rfl ⟨target, told⟩ ht
  have hout := mem_gatedNext.mp ⟨told, ht⟩
  obtain ⟨told', ht'⟩ := (mem_gatedNext (s := (a, detail'))).mpr hout
  exact ⟨_, ht', rfl⟩

theorem exists_reach_gatedNext
    {file : FilePath} : (∃ s, Reach (gatedNext tree live) seeds s ∧ s.1 = file) ↔
      ∃ seed ∈ seeds, ReflTransGen (Outside tree.Child (isLive live · = true)) seed.1 file := by
  constructor
  · rintro ⟨s, ⟨seed, hseed, hreach⟩, rfl⟩
    refine ⟨seed, hseed, ?_⟩
    induction hreach with
    | refl => exact .refl
    | tail _ hstep ih => exact ih.tail (mem_gatedNext.mp ⟨_, hstep⟩)
  · rintro ⟨seed, hseed, hreach⟩
    induction hreach with
    | refl => exact ⟨seed, .start hseed, rfl⟩
    | tail _ hstep ih =>
        obtain ⟨s, hs, rfl⟩ := ih
        obtain ⟨detail, hnext⟩ := mem_gatedNext.mpr hstep
        exact ⟨_, hs.step hnext, rfl⟩

variable {gated : List (FilePath × Text)}

theorem mem_propagateGated
    (h : propagateGated tree fuel seeds live = some gated) {file : FilePath} :
    file ∈ gated.map Prod.fst ↔ isLive live file ≠ true ∧ ∃ seed ∈ seeds,
      ReflTransGen (Outside tree.Child (isLive live · = true)) seed.1 file := by
  obtain ⟨found, hfound, rfl⟩ := Option.map_eq_some_iff.mp h
  have hsearched := popSearch_searched hfound
  have hmet : file ∈ found.map Prod.fst ↔
      ∃ s, Reach (gatedNext tree live) seeds.reverse s ∧ s.1 = file := by
    constructor
    · intro hfile
      obtain ⟨s, hs, rfl⟩ := mem_map.mp hfile
      exact ⟨s, hsearched.sound s hs, rfl⟩
    · rintro ⟨s, hs, rfl⟩
      exact hsearched.key_mem (keyRespects_gatedNext live) hs
  have hfilter : file ∈ (found.filter fun s => !isLive live s.1).map Prod.fst ↔
      isLive live file ≠ true ∧ file ∈ found.map Prod.fst := by
    simp only [mem_map, mem_filter, Bool.not_eq_true', Bool.not_eq_true]
    constructor
    · rintro ⟨s, ⟨hs, hdead⟩, rfl⟩
      exact ⟨hdead, s, hs, rfl⟩
    · rintro ⟨hdead, s, hs, rfl⟩
      exact ⟨s, ⟨hs, hdead⟩, rfl⟩
  rw [hfilter, hmet, exists_reach_gatedNext]
  simp only [mem_reverse]

theorem LiveChild.child {a b : FilePath} (h : LiveChild tree features a b) :
    tree.Child a b := h.imp fun _ hdecl => hdecl.1

/-- A path from a crate root to a file that is not live leaves the live files
along a gated declaration: what that declaration names is a seed. -/
theorem Walked.mem_gated (h : Walked tree tree.crateRoots live seeds)
    (hgated : propagateGated tree fuel seeds live = some gated) {file : FilePath} :
    file ∈ gated.map Prod.fst ↔ Gated tree file := by
  rw [mem_propagateGated hgated, ne_eq, h.isLive_iff, not_exists, Gated, and_comm]
  refine and_congr_left fun hdead => ⟨?_, ?_⟩
  · rintro ⟨⟨target, detail⟩, hseed, hpath⟩
    obtain ⟨⟨a, features⟩, ha, hseed⟩ := (h.emitted _).mp hseed
    obtain ⟨decl, hdecl, -⟩ := mem_liveSeeds.mp ⟨detail, hseed⟩
    obtain ⟨root, ⟨hroot, hlive⟩, -⟩ := h.live_iff.mp ha
    refine ⟨root, hroot, ?_⟩
    have hto : ReflTransGen tree.Child root.entry a :=
      ReflTransGen.mono (fun _ _ => LiveChild.child) _ _ hlive
    have hfrom : ReflTransGen tree.Child target file :=
      ReflTransGen.mono (fun _ _ hstep => hstep.1) _ _ hpath
    exact (hto.tail ⟨decl, hdecl⟩).trans hfrom
  · rintro ⟨root, hroot, hpath⟩
    have hentry : isLive live root.entry = true := h.isLive_iff.mpr ⟨root, hroot, .refl⟩
    have hnot : ¬ isLive live file = true := fun hlive =>
      (h.isLive_iff.mp hlive).elim fun root hroot => hdead root hroot
    obtain ⟨a, b, -, ha, ⟨decl, hdecl⟩, hb, hrest⟩ :=
      exists_last_exit (isLive live · = true) hpath hentry hnot
    obtain ⟨⟨_, features⟩, hmem, heq⟩ := any_eq_true.mp ha
    obtain rfl := of_decide_eq_true heq
    have hfalse : gate decl features = .false := by
      by_contra hgate
      refine hb (@isLive_of_mem live b features ?_)
      have hnext := (h.closed.closed _ hmem).resolve_left not_mem_nil
      exact hnext _ (mem_liveNext.mpr ⟨rfl, decl, hdecl, hgate⟩)
    obtain ⟨detail, hseed⟩ := mem_liveSeeds.mpr ⟨decl, hdecl, hfalse⟩
    exact ⟨(b, detail), (h.emitted _).mpr ⟨_, hmem, hseed⟩, hrest⟩

/-! ## The answers -/

/-- What is known of the features of a file, without the walks. -/
def Answer (tree : ModuleTree) (file : FilePath) : FileFeatures → Prop
  | .compiledOut => Gated tree file
  | .enabled features => (∃ root, CompiledBy tree root file) ∧
      ∀ root, CompiledBy tree root file → root.defaultFeatures = features
  | .disagree => ∃ root root', CompiledBy tree root file ∧ CompiledBy tree root' file ∧
      root.defaultFeatures ≠ root'.defaultFeatures

section Answer

variable {file : FilePath} {answer : FileFeatures}

theorem answer_iff_of_gated (h : Gated tree file) :
    Answer tree file answer ↔ FileFeatures.compiledOut = answer := by
  cases answer with
  | compiledOut => exact iff_of_true h rfl
  | enabled _ => exact iff_of_false (fun ⟨⟨root, hroot⟩, _⟩ => h.2 root hroot) nofun
  | disagree => exact iff_of_false (fun ⟨root, _, hroot, _⟩ => h.2 root hroot) nofun

theorem not_answer_of_none (hgated : ¬ Gated tree file) (hnone : ∀ root, ¬ CompiledBy tree root file) :
    ¬ Answer tree file answer := by
  cases answer with
  | compiledOut => exact hgated
  | enabled _ => exact fun ⟨⟨root, hroot⟩, _⟩ => hnone root hroot
  | disagree => exact fun ⟨root, _, hroot, _⟩ => hnone root hroot

theorem answer_iff_of_one (hgated : ¬ Gated tree file) (hroot : CompiledBy tree root file)
    (hall : ∀ root, CompiledBy tree root file → root.defaultFeatures = features) :
    Answer tree file answer ↔ FileFeatures.enabled features = answer := by
  cases answer with
  | compiledOut => exact iff_of_false hgated nofun
  | enabled other =>
      constructor
      · rintro ⟨-, hother⟩
        rw [← hall root hroot, hother root hroot]
      · intro heq
        cases heq
        exact ⟨⟨root, hroot⟩, hall⟩
  | disagree =>
      refine iff_of_false ?_ nofun
      rintro ⟨r, r', hr, hr', hne⟩
      exact hne ((hall r hr).trans (hall r' hr').symm)

theorem answer_iff_of_two (hgated : ¬ Gated tree file) {root' : CrateRoot}
    (hroot : CompiledBy tree root file) (hroot' : CompiledBy tree root' file)
    (hne : root.defaultFeatures ≠ root'.defaultFeatures) :
    Answer tree file answer ↔ FileFeatures.disagree = answer := by
  cases answer with
  | compiledOut => exact iff_of_false hgated nofun
  | enabled features =>
      refine iff_of_false ?_ nofun
      rintro ⟨-, hall⟩
      exact hne ((hall root hroot).trans (hall root' hroot').symm)
  | disagree => exact iff_of_true ⟨root, root', hroot, hroot', hne⟩ rfl

end Answer

theorem Walked.fileFeatures_iff (h : Walked tree tree.crateRoots live seeds)
    (hgated : ∀ file, file ∈ gated.map Prod.fst ↔ Gated tree file) {file : FilePath}
    {answer : FileFeatures} :
    fileFeatures live gated file = some answer ↔ Answer tree file answer := by
  unfold fileFeatures
  by_cases hmem : file ∈ gated.map Prod.fst
  · rw [if_pos hmem, answer_iff_of_gated ((hgated file).mp hmem), Option.some_inj]
  rw [if_neg hmem]
  have hnot : ¬ Gated tree file := fun hfile => hmem ((hgated file).mpr hfile)
  have hof : ∀ features, (file, features) ∈ live.filter (·.1 = file) ↔
      ∃ root, CompiledBy tree root file ∧ root.defaultFeatures = features := fun features => by
    rw [mem_filter, ← h.live_iff]
    exact and_iff_left (decide_eq_true rfl)
  have hname : ∀ s ∈ live.filter (·.1 = file), s = (file, s.2) := fun s hs =>
    Prod.ext (of_decide_eq_true (mem_filter.mp hs).2) rfl
  have hnodup := h.nodup.filter (·.1 = file)
  revert hof hname hnodup
  generalize live.filter (·.1 = file) = sets
  intro hof hname hnodup
  match sets with
  | [] =>
      have hnone : ∀ root, ¬ CompiledBy tree root file := fun root hroot =>
        absurd ((hof _).mpr ⟨root, hroot, rfl⟩) not_mem_nil
      exact iff_of_false nofun (not_answer_of_none hnot hnone)
  | [only] =>
      have hall : ∀ root, CompiledBy tree root file → root.defaultFeatures = only.2 := by
        intro root hroot
        have hmem := mem_singleton.mp ((hof _).mpr ⟨root, hroot, rfl⟩)
        exact congrArg Prod.snd hmem
      obtain ⟨root, hroot, -⟩ := (hof only.2).mp
        (mem_singleton.mpr (hname only (mem_singleton_self _)).symm)
      rw [answer_iff_of_one hnot hroot hall]
      exact Option.some_inj
  | first :: second :: rest =>
      have hfirst := hname first mem_cons_self
      have hsecond := hname second (mem_cons_of_mem _ mem_cons_self)
      obtain ⟨r, hr, hrf⟩ := (hof first.2).mp (hfirst ▸ mem_cons_self)
      obtain ⟨r', hr', hrf'⟩ := (hof second.2).mp
        (hsecond ▸ mem_cons_of_mem _ mem_cons_self)
      have hne : first.2 ≠ second.2 := fun heq =>
        (nodup_cons.mp hnodup).1
          (hfirst.trans (heq ▸ hsecond.symm) ▸ mem_cons_self)
      have hdiffer : r.defaultFeatures ≠ r'.defaultFeatures := by rwa [hrf, hrf']
      rw [answer_iff_of_two hnot hr hr' hdiffer]
      exact Option.some_inj

theorem analyseTree_answers {analysis : FeatureAnalysis}
    (h : analyseTree tree fuel = some analysis) :
    (∀ file, file ∈ analysis.gated.map Prod.fst ↔ Gated tree file) ∧
      ∀ file answer, analysis.features file = some answer ↔ Answer tree file answer := by
  obtain ⟨⟨live, seeds⟩, hwalk, h⟩ := Option.bind_eq_some_iff.mp h
  obtain ⟨gated, hgated, h⟩ := Option.bind_eq_some_iff.mp h
  cases h
  have hwalked : Walked tree tree.crateRoots live seeds := Walked.nil.walkRoots hwalk
  have hmem : ∀ file, file ∈ gated.map Prod.fst ↔ Gated tree file := fun _ =>
    hwalked.mem_gated hgated
  exact ⟨hmem, fun _ _ => hwalked.fileFeatures_iff hmem⟩

/-! ## The order of the crate roots -/

variable {decls : FilePath → List ModDecl} {indexed : Finset FilePath}
  {roots roots' : List CrateRoot}

theorem children_perm (h : roots.Perm roots') :
    ModuleTree.children ⟨decls, indexed, roots⟩ = ModuleTree.children ⟨decls, indexed, roots'⟩ := by
  funext file
  unfold ModuleTree.children
  simp only [(h.map CrateRoot.entry).mem_iff]
  rfl

theorem isRoot_perm (h : roots.Perm roots') :
    ModuleTree.IsRoot ⟨decls, indexed, roots⟩ = ModuleTree.IsRoot ⟨decls, indexed, roots'⟩ := by
  funext root
  simp only [ModuleTree.IsRoot, h.mem_iff]

theorem compiledBy_perm (h : roots.Perm roots') :
    CompiledBy ⟨decls, indexed, roots⟩ = CompiledBy ⟨decls, indexed, roots'⟩ := by
  unfold CompiledBy LiveChild
  rw [children_perm h, isRoot_perm h]

theorem gated_perm (h : roots.Perm roots') :
    Gated ⟨decls, indexed, roots⟩ = Gated ⟨decls, indexed, roots'⟩ := by
  unfold Gated ModuleTree.Child
  rw [children_perm h, isRoot_perm h, compiledBy_perm h]

theorem answer_perm (h : roots.Perm roots') :
    Answer ⟨decls, indexed, roots⟩ = Answer ⟨decls, indexed, roots'⟩ := by
  funext file answer
  cases answer with
  | compiledOut => exact congrFun (gated_perm h) file
  | enabled _ => unfold Answer; rw [compiledBy_perm h]
  | disagree => unfold Answer; rw [compiledBy_perm h]

/-- The analysis returns, also on cyclic declarations, and says of every file
exactly what the crate roots that lead to it make of it; the order of the crate
roots plays no part. -/
theorem analyse_exact (decls : FilePath → List ModDecl) (indexed : Finset FilePath)
    (crateRoots : List CrateRoot) : ∃ analysis,
    (∃ fuel, ∀ more, analyse (fuel + more) decls (.known crateRoots) indexed = some analysis) ∧
    (∀ file, file ∈ analysis.gated.map Prod.fst ↔ Gated ⟨decls, indexed, crateRoots⟩ file) ∧
    (∀ file, analysis.features file = some .compiledOut ↔
      Gated ⟨decls, indexed, crateRoots⟩ file) ∧
    (∀ file features, analysis.features file = some (.enabled features) ↔
      (∃ root, CompiledBy ⟨decls, indexed, crateRoots⟩ root file) ∧
        ∀ root, CompiledBy ⟨decls, indexed, crateRoots⟩ root file →
          root.defaultFeatures = features) ∧
    (∀ file, analysis.features file = some .disagree ↔
      ∃ root root', CompiledBy ⟨decls, indexed, crateRoots⟩ root file ∧
        CompiledBy ⟨decls, indexed, crateRoots⟩ root' file ∧
        root.defaultFeatures ≠ root'.defaultFeatures) ∧
    ∀ roots' : List CrateRoot, roots'.Perm crateRoots → ∃ analysis',
      (∃ fuel, ∀ more, analyse (fuel + more) decls (.known roots') indexed = some analysis') ∧
      (∀ file, file ∈ analysis'.gated.map Prod.fst ↔ file ∈ analysis.gated.map Prod.fst) ∧
      analysis'.features = analysis.features := by
  obtain ⟨fuel, analysis, hrun⟩ := analyseTree_terminates ⟨decls, indexed, crateRoots⟩
  obtain ⟨hgated, hanswer⟩ := analyseTree_answers (hrun 0)
  refine ⟨analysis, ⟨fuel, hrun⟩, hgated, fun file => hanswer file .compiledOut,
    fun file features => hanswer file (.enabled features), fun file => hanswer file .disagree,
    fun roots' hperm => ?_⟩
  obtain ⟨fuel', analysis', hrun'⟩ := analyseTree_terminates ⟨decls, indexed, roots'⟩
  obtain ⟨hgated', hanswer'⟩ := analyseTree_answers (hrun' 0)
  refine ⟨analysis', ⟨fuel', hrun'⟩, fun file => ?_, funext fun file => Option.ext fun answer => ?_⟩
  · rw [hgated', hgated, gated_perm hperm]
  · rw [hanswer', hanswer, answer_perm hperm]

/-! ## A crate root that is not indexed -/

/-- `#[cfg(feature = "net")] mod net;` -/
def gatedNet : ModDecl where
  name := "net".toList
  pathAttr := none
  cfg := some [.feature "net".toList]
  cfgText := "#[cfg(feature = \"net\")]".toList
  altPaths := []
  wf := fun _ hall p hp => by
    cases hall
    exact mem_singleton.mp hp ▸ CfgPredicate.wellFormed_feature _

/-- `#[path = "../src/net.rs"] mod net;` -/
def pathNet : ModDecl where
  name := "net".toList
  pathAttr := some "../src/net.rs".toList
  cfg := some []
  cfgText := []
  altPaths := []
  wf := CfgPredicate.wellFormed_of_nil

def libRoot : CrateRoot := ⟨["src".toList, "lib.rs".toList], ∅⟩

def genRoot : CrateRoot := ⟨["gen".toList, "main.rs".toList], ∅⟩

def netFile : FilePath := ["src".toList, "net.rs".toList]

/-- `src/lib.rs` gates `mod net;` and the generated `gen/main.rs`, which is not
indexed, declares the same file with no gate. -/
def netTree : ModuleTree where
  decls := fun file =>
    if file = libRoot.entry then [gatedNet] else if file = genRoot.entry then [pathNet] else []
  indexed := {libRoot.entry, netFile}
  crateRoots := [libRoot, genRoot]

/-- The second crate root compiles `src/net.rs`, but its entry is not indexed, so
it is not walked and the file is reported as compiled out. -/
theorem unindexed_root_compiles_nothing : ∃ analysis,
    analyse 4 netTree.decls (.known netTree.crateRoots) netTree.indexed = some analysis ∧
      netFile ∈ analysis.gated.map Prod.fst ∧ analysis.features netFile = some .compiledOut ∧
      genRoot ∈ netTree.crateRoots ∧
      ReflTransGen (LiveChild netTree genRoot.defaultFeatures) genRoot.entry netFile := by
  have hrun : (analyse 4 netTree.decls (.known netTree.crateRoots) netTree.indexed).map
      (fun analysis => (analysis.gated.map Prod.fst, analysis.features netFile)) =
        some ([netFile], some .compiledOut) := by decide
  obtain ⟨analysis, hanalysis, hanswer⟩ := Option.map_eq_some_iff.mp hrun
  obtain ⟨hgated, hfeatures⟩ := Prod.mk.inj hanswer
  refine ⟨analysis, hanalysis, hgated ▸ mem_singleton_self _, hfeatures,
    mem_cons_of_mem _ (mem_singleton_self _), .single ?_⟩
  obtain ⟨⟨decl, target⟩, hmem, hdecl⟩ : ∃ child ∈ netTree.children genRoot.entry,
      child.2 = netFile ∧ gate child.1 genRoot.defaultFeatures ≠ .false := by
    decide
  exact ⟨decl, hdecl.1 ▸ hmem, hdecl.2⟩

end FeatureGated

end CodeGraph
