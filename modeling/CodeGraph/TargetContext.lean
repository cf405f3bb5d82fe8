import CodeGraph.FeatureReach

/-!
# What a file is compiled for

Walks every target's module tree and carries the class of the way: the kind of the
target, until a declaration requires `test` or `kani`. A file reached by several ways is
production code when one of the ways is, and otherwise of the class they agree on.

The same walk, carrying the entry file of the target, says which targets own a file.
-/

namespace CodeGraph

open List

inductive TargetKind where
  | production
  | test
  | bench
  | example
  deriving DecidableEq

structure Target extends CrateRoot where
  kind : TargetKind

namespace TargetContext

open ModuleTree Worklist Relation

/-! ## The class of a way -/

inductive Class where
  | production
  | test
  | bench
  | example
  | proof
  deriving DecidableEq

namespace Class

def of : TargetKind → Class
  | .production => .production
  | .test => .test
  | .bench => .bench
  | .example => .example

def name : Class → Text
  | .production => "production".toList
  | .test => "test".toList
  | .bench => "bench".toList
  | .example => "example".toList
  | .proof => "proof".toList

end Class

mutual

/-- Whether the predicate holds only if the bare option `key` is set. -/
def requiresOptionOf (key : Text) : CfgPredicate → Bool
  | .option k none => k = key
  | .all items => anyRequires key items
  | _ => false

def anyRequires (key : Text) : List CfgPredicate → Bool
  | [] => false
  | item :: items => requiresOptionOf key item || anyRequires key items

end

/-- A declaration whose `cfg` did not parse requires nothing. -/
def requiresOption (cfg : Option (List CfgPredicate)) (key : Text) : Bool :=
  match cfg with
  | some all => requiresOptionOf key (.all all)
  | none => false

def below (decl : ModDecl) (above : Class) : Class :=
  if requiresOption decl.cfg "test".toList then .test
  else if requiresOption decl.cfg "kani".toList then .proof
  else above

/-! ## The walk -/

section

variable {τ : Type} [DecidableEq τ] (tree : ModuleTree) (below : ModDecl → τ → τ)
  (start : Target → τ)

/-- The files declared in a file, with what the way carries below the declaration. -/
def next (s : FilePath × τ) : List (FilePath × τ) :=
  (tree.children s.1).map fun (decl, target) => (target, below decl s.2)

/-- Walks the tree of each target whose entry is indexed; what a target before it reached
with the same tag is not walked again. -/
def walkTargets (fuel : ℕ) : List Target → List (FilePath × τ) → Option (List (FilePath × τ))
  | [], reached => some reached
  | target :: targets, reached =>
      if target.entry ∈ tree.indexed then do
        let reached ← popSearch id (next tree below) fuel [(target.entry, start target)] reached
        walkTargets fuel targets reached
      else walkTargets fuel targets reached

def tagsOf (reached : List (FilePath × τ)) (file : FilePath) : List τ :=
  (reached.filter (·.1 = file)).map Prod.snd

end

/-- The tree of the targets `cargo metadata` reports. -/
def treeOf (decls : FilePath → List ModDecl) (indexed : Finset FilePath) (targets : List Target) :
    ModuleTree :=
  ⟨decls, indexed, targets.map Target.toCrateRoot⟩

/-- The order of `BTreeSet<Class>`. -/
def classOrder : List Class := [.production, .test, .bench, .example, .proof]

/-- Any production way wins; otherwise the classes must agree. -/
def decide (classes : Finset Class) : Option Class :=
  if .production ∈ classes then some .production
  else
    match classOrder.filter (· ∈ classes) with
    | [only] => some only
    | _ => none

def classesOf (reached : List (FilePath × Class)) (file : FilePath) : Finset Class :=
  (tagsOf reached file).toFinset

def reachedClasses (fuel : ℕ) (decls : FilePath → List ModDecl) (indexed : Finset FilePath)
    (targets : List Target) : Option (List (FilePath × Class)) :=
  walkTargets (treeOf decls indexed targets) below (fun target => Class.of target.kind) fuel
    targets []

/-- The context of every file; nothing when the target map is not known. -/
def analyse (fuel : ℕ) (decls : FilePath → List ModDecl) (indexed : Finset FilePath)
    (targets : Option (List Target)) : Option (FilePath → Option Text) :=
  match targets with
  | none => some fun _ => none
  | some targets => do
      let reached ← reachedClasses fuel decls indexed targets
      some fun file => (decide (classesOf reached file)).map Class.name

/-! ## What the walk reaches -/

section

variable {τ : Type} {tree : ModuleTree} {below : ModDecl → τ → τ} {start : Target → τ}

/-- What a way carries at its end. -/
def carried (below : ModDecl → τ → τ) (tag : τ) (ds : List ModDecl) : τ :=
  ds.foldl (fun tag decl => below decl tag) tag

theorem reach_iff_declares {a b : FilePath} {tag tag' : τ} :
    ReflTransGen (Step (next tree below)) (a, tag) (b, tag') ↔
      ∃ ds, Declares tree a ds b ∧ carried below tag ds = tag' := by
  constructor
  · intro h
    generalize hs : (a, tag) = s at h
    generalize ht : (b, tag') = t at h
    induction h using ReflTransGen.head_induction_on generalizing a tag with
    | refl =>
        cases hs.trans ht.symm
        exact ⟨[], .here _, rfl⟩
    | head hstep _ ih =>
        subst hs
        obtain ⟨⟨decl, target⟩, hchild, rfl⟩ := mem_map.mp hstep
        obtain ⟨ds, hds, htag⟩ := ih rfl
        exact ⟨decl :: ds, .step hchild hds, htag⟩
  · rintro ⟨ds, hds, rfl⟩
    induction hds generalizing tag with
    | here => exact .refl
    | step hchild _ ih => exact .head (mem_map.mpr ⟨_, hchild, rfl⟩) ih

/-- The states the walk starts from. -/
def startsOf (tree : ModuleTree) (start : Target → τ) (targets : List Target) :
    List (FilePath × τ) :=
  (targets.filter (·.entry ∈ tree.indexed)).map fun target => (target.entry, start target)

theorem mem_startsOf {targets : List Target} {s : FilePath × τ} : s ∈ startsOf tree start targets ↔
    ∃ target ∈ targets, target.entry ∈ tree.indexed ∧ (target.entry, start target) = s := by
  simp [startsOf, and_assoc]

theorem finite_reach {tags : Finset τ} {starts : List (FilePath × τ)}
    (hbelow : ∀ decl, ∀ tag ∈ tags, below decl tag ∈ tags)
    (hstarts : ∀ s ∈ starts, s.1 ∈ tree.indexed ∧ s.2 ∈ tags) :
    {k | ∃ s, Reach (next tree below) starts s ∧ id s = k}.Finite := by
  refine (tree.indexed ×ˢ tags).finite_toSet.subset ?_
  rintro _ ⟨s, hs, rfl⟩
  refine Finset.mem_coe.mpr (Finset.mem_product.mpr ?_)
  refine hs.induct hstarts ?_
  rintro s - ⟨-, htag⟩ t ht
  obtain ⟨⟨decl, target⟩, hchild, rfl⟩ := mem_map.mp ht
  exact ⟨mem_indexed_of_children hchild, hbelow decl _ htag⟩

variable [DecidableEq τ]

theorem searched_walkTargets {fuel : ℕ} : ∀ {targets : List Target}
    {starts reached result : List (FilePath × τ)}, Searched id (next tree below) starts reached →
    walkTargets tree below start fuel targets reached = some result →
    ∃ starts', Searched id (next tree below) starts' result ∧
      ∀ s, s ∈ starts' ↔ s ∈ startsOf tree start targets ∨ s ∈ starts
  | [], starts, reached, result, h, hrun => by
      obtain rfl := Option.some.inj hrun
      exact ⟨starts, h, fun s => by simp [startsOf]⟩
  | target :: targets, starts, reached, result, h, hrun => by
      rw [walkTargets] at hrun
      split at hrun
      · next hindexed =>
        obtain ⟨reached', hsearch, hrun⟩ := Option.bind_eq_some_iff.mp hrun
        obtain ⟨starts', hresult, hstarts⟩ := searched_walkTargets ((h.restart _).searched hsearch) hrun
        refine ⟨starts', hresult, fun s => ?_⟩
        rw [hstarts, startsOf, startsOf, filter_cons_of_pos (by simpa using hindexed),
          map_cons, mem_cons, mem_cons]
        tauto
      · next hindexed =>
        obtain ⟨starts', hresult, hstarts⟩ := searched_walkTargets h hrun
        refine ⟨starts', hresult, fun s => ?_⟩
        rw [hstarts, startsOf, startsOf, filter_cons_of_neg (by simpa using hindexed)]

theorem mem_tagsOf {fuel : ℕ} {targets : List Target} {reached : List (FilePath × τ)}
    (h : walkTargets tree below start fuel targets [] = some reached) {file : FilePath} {tag : τ} :
    tag ∈ tagsOf reached file ↔ ∃ target ∈ targets, target.entry ∈ tree.indexed ∧
      ∃ ds, Declares tree target.entry ds file ∧ carried below (start target) ds = tag := by
  obtain ⟨starts, hsearched, hstarts⟩ := searched_walkTargets Searched.nil h
  have hmem : tag ∈ tagsOf reached file ↔ (file, tag) ∈ reached := by simp [tagsOf]
  rw [hmem, hsearched.mem_iff]
  constructor
  · rintro ⟨s, hs, hreach⟩
    obtain ⟨target, htarget, hindexed, rfl⟩ :=
      mem_startsOf.mp (((hstarts s).mp hs).resolve_right not_mem_nil)
    exact ⟨target, htarget, hindexed, reach_iff_declares.mp hreach⟩
  · rintro ⟨target, htarget, hindexed, hds⟩
    exact ⟨_, (hstarts _).mpr (.inl (mem_startsOf.mpr ⟨target, htarget, hindexed, rfl⟩)),
      reach_iff_declares.mpr hds⟩

/-! ## The walk returns -/

/-- The tags the walk can carry. -/
structure Carries (below : ModDecl → τ → τ) (start : Target → τ) (tags : Finset τ)
    (targets : List Target) : Prop where
  start : ∀ target ∈ targets, start target ∈ tags
  below : ∀ decl, ∀ tag ∈ tags, below decl tag ∈ tags

theorem walkTargets_terminates {tags : Finset τ} : ∀ {targets : List Target}
    {starts reached : List (FilePath × τ)}, Carries below start tags targets →
    (∀ s ∈ starts, s.1 ∈ tree.indexed ∧ s.2 ∈ tags) →
    Searched id (next tree below) starts reached →
    ∃ fuel result, ∀ more, walkTargets tree below start (fuel + more) targets reached = some result
  | [], _, reached, _, _, _ => ⟨0, reached, fun _ => rfl⟩
  | target :: targets, starts, reached, hcarries, hstarts, h => by
      have hrest : Carries below start tags targets :=
        ⟨fun t ht => hcarries.start t (mem_cons_of_mem _ ht), hcarries.below⟩
      by_cases hindexed : target.entry ∈ tree.indexed
      · have hstarts' : ∀ s ∈ (target.entry, start target) :: starts,
            s.1 ∈ tree.indexed ∧ s.2 ∈ tags :=
          forall_mem_cons.mpr ⟨⟨hindexed, hcarries.start _ mem_cons_self⟩, hstarts⟩
        obtain ⟨fuel, reached', hsearch⟩ := PopInv.terminates
          (finite_reach hcarries.below hstarts') _ _ _ (h.restart _) le_rfl
        obtain ⟨fuel', result, hwalk⟩ :=
          walkTargets_terminates hrest hstarts' ((h.restart _).searched hsearch)
        refine ⟨fuel + fuel', result, fun more => ?_⟩
        rw [walkTargets, if_pos hindexed, Nat.add_assoc, popSearch_mono (fuel' + more) hsearch,
          Option.bind_eq_bind, Option.bind_some, Nat.add_left_comm]
        exact hwalk (fuel + more)
      · obtain ⟨fuel, result, hwalk⟩ := walkTargets_terminates hrest hstarts h
        refine ⟨fuel, result, fun more => ?_⟩
        rw [walkTargets, if_neg hindexed]
        exact hwalk more

end

/-! ## The classes of a file -/

/-- The option a declaration requires decides the class below it. -/
def requiredBy (decl : ModDecl) : Option Class :=
  if requiresOption decl.cfg "test".toList then some .test
  else if requiresOption decl.cfg "kani".toList then some .proof
  else none

/-- The class of a way: that of the nearest declaration that requires an option, and of
the target when none does. -/
def pathClass (target : Target) (ds : List ModDecl) : Class :=
  (ds.reverse.findSome? requiredBy).getD (Class.of target.kind)

theorem below_eq (decl : ModDecl) (above : Class) : below decl above = (requiredBy decl).getD above := by
  unfold below requiredBy
  split
  · rfl
  · split <;> rfl

theorem carried_eq_pathClass (target : Target) (ds : List ModDecl) :
    carried below (Class.of target.kind) ds = pathClass target ds := by
  induction ds using List.reverseRecOn with
  | nil => rfl
  | append_singleton ds decl ih =>
      have hfold : carried below (Class.of target.kind) (ds ++ [decl]) =
          below decl (carried below (Class.of target.kind) ds) := foldl_concat _ _ _ _
      rw [hfold, ih, below_eq, pathClass, pathClass, reverse_concat, findSome?_cons]
      cases requiredBy decl <;> rfl

theorem requiredBy_ne_production (decl : ModDecl) : requiredBy decl ≠ some .production := by
  unfold requiredBy
  split
  · nofun
  · split <;> nofun

theorem pathClass_eq_production_iff {target : Target} {ds : List ModDecl} :
    pathClass target ds = .production ↔
      target.kind = .production ∧ ∀ decl ∈ ds, requiredBy decl = none := by
  have hkind : Class.of target.kind = .production ↔ target.kind = .production := by
    cases target.kind <;> simp [Class.of]
  unfold pathClass
  cases hfind : ds.reverse.findSome? requiredBy with
  | none =>
      have hnone := findSome?_eq_none_iff.mp hfind
      rw [Option.getD_none, hkind]
      exact ⟨fun h => ⟨h, fun decl hdecl => hnone decl (mem_reverse.mpr hdecl)⟩, And.left⟩
  | some c =>
      obtain ⟨decl, hdecl, hc⟩ := exists_of_findSome?_eq_some hfind
      rw [Option.getD_some]
      refine iff_of_false (fun h => requiredBy_ne_production decl (h ▸ hc)) fun h => ?_
      rw [h.2 decl (mem_reverse.mp hdecl)] at hc
      cases hc

theorem mem_classOrder (c : Class) : c ∈ classOrder := by
  cases c <;> simp [classOrder]

theorem nodup_classOrder : classOrder.Nodup := by decide

theorem decide_eq_some_iff {classes : Finset Class} {c : Class} :
    TargetContext.decide classes = some c ↔ c ∈ classes ∧ (c = .production ∨ classes = {c}) := by
  unfold TargetContext.decide
  split
  · next hproduction =>
    constructor
    · intro h
      obtain rfl := Option.some.inj h
      exact ⟨hproduction, .inl rfl⟩
    · rintro ⟨-, rfl | hsingle⟩
      · rfl
      · rw [hsingle, Finset.mem_singleton] at hproduction
        rw [hproduction]
  · next hproduction =>
    have hmem : ∀ d, d ∈ classOrder.filter (· ∈ classes) ↔ d ∈ classes := fun d => by
      simp [mem_classOrder]
    split
    · next only heq =>
      have hsingle : classes = {only} := Finset.ext fun d => by
        rw [← hmem, heq, mem_singleton, Finset.mem_singleton]
      rw [hsingle, Option.some_inj]
      constructor
      · rintro rfl
        exact ⟨Finset.mem_singleton_self _, .inr rfl⟩
      · rintro ⟨hc, -⟩
        exact (Finset.mem_singleton.mp hc).symm
    · next hmany =>
      refine iff_of_false nofun ?_
      rintro ⟨hc, rfl | hsingle⟩
      · exact hproduction hc
      · refine hmany c ?_
        have hperm : (classOrder.filter (· ∈ classes)).Perm [c] :=
          (perm_ext_iff_of_nodup (nodup_classOrder.filter _) (nodup_singleton c)).mpr
            fun d => by rw [hmem, hsingle, Finset.mem_singleton, mem_singleton]
        exact perm_singleton.mp hperm

/-! ## What the analysis says -/

def pathClasses (decls : FilePath → List ModDecl) (indexed : Finset FilePath)
    (targets : List Target) (file : FilePath) : Set Class :=
  {c | ∃ target ∈ targets, target.entry ∈ indexed ∧
    ∃ ds, Declares (treeOf decls indexed targets) target.entry ds file ∧ pathClass target ds = c}

variable {decls : FilePath → List ModDecl} {indexed : Finset FilePath} {targets : List Target}

theorem mem_classesOf {fuel : ℕ} {reached : List (FilePath × Class)}
    (h : reachedClasses fuel decls indexed targets = some reached) {file : FilePath} {c : Class} :
    c ∈ classesOf reached file ↔ c ∈ pathClasses decls indexed targets file := by
  rw [classesOf, mem_toFinset, mem_tagsOf h]
  simp only [carried_eq_pathClass]
  rfl

theorem declares_of_children_eq {tree tree' : ModuleTree} (h : tree.children = tree'.children)
    {a b : FilePath} {ds : List ModDecl} (hds : Declares tree a ds b) : Declares tree' a ds b := by
  induction hds with
  | here => exact .here _
  | step hchild _ ih => exact .step (h ▸ hchild) ih

theorem declares_treeOf_perm {targets' : List Target} (h : targets'.Perm targets) {a b : FilePath}
    {ds : List ModDecl} : Declares (treeOf decls indexed targets') a ds b ↔
      Declares (treeOf decls indexed targets) a ds b := by
  have hchildren : (treeOf decls indexed targets').children =
      (treeOf decls indexed targets).children :=
    FeatureGated.children_perm (h.map Target.toCrateRoot)
  exact ⟨declares_of_children_eq hchildren, declares_of_children_eq hchildren.symm⟩

theorem pathClasses_perm {targets' : List Target} (h : targets'.Perm targets) :
    pathClasses decls indexed targets' = pathClasses decls indexed targets := by
  funext file
  ext c
  simp only [pathClasses, Set.mem_ofPred_eq, h.mem_iff, declares_treeOf_perm h]

theorem reachedClasses_terminates (decls : FilePath → List ModDecl) (indexed : Finset FilePath)
    (targets : List Target) : ∃ fuel reached, ∀ more,
      reachedClasses (fuel + more) decls indexed targets = some reached := by
  refine @walkTargets_terminates Class (treeOf decls indexed targets) below
    (fun target => Class.of target.kind) _ classOrder.toFinset targets [] []
    ⟨fun _ _ => ?_, fun _ _ _ => ?_⟩ (fun _ h => absurd h not_mem_nil) Searched.nil
  · exact mem_toFinset.mpr (mem_classOrder _)
  · exact mem_toFinset.mpr (mem_classOrder _)

theorem name_injective : Function.Injective Class.name := by
  intro a b h
  cases a <;> cases b <;> first | rfl | exact absurd h (by decide)

/-- What a file is compiled for, from the classes of the ways to it. -/
def contextOf (reached : List (FilePath × Class)) (file : FilePath) : Option Text :=
  (TargetContext.decide (classesOf reached file)).map Class.name

theorem analyse_eq {fuel : ℕ} {reached : List (FilePath × Class)}
    (h : reachedClasses fuel decls indexed targets = some reached) :
    analyse fuel decls indexed (some targets) = some (contextOf reached) := by
  rw [analyse, h]
  rfl

theorem contextOf_eq_some_iff {fuel : ℕ} {reached : List (FilePath × Class)}
    (h : reachedClasses fuel decls indexed targets = some reached) {file : FilePath} {c : Class} :
    contextOf reached file = some c.name ↔ c ∈ pathClasses decls indexed targets file ∧
      (c = .production ∨ pathClasses decls indexed targets file = {c}) := by
  have hsingle : classesOf reached file = {c} ↔ pathClasses decls indexed targets file = {c} := by
    rw [Finset.ext_iff, Set.ext_iff]
    simp only [mem_classesOf h, Finset.mem_singleton, Set.mem_singleton_iff]
  rw [contextOf, Option.map_eq_some_iff, ← mem_classesOf h, ← hsingle, ← decide_eq_some_iff]
  constructor
  · rintro ⟨d, hd, hname⟩
    rw [hd, name_injective hname]
  · intro hc
    exact ⟨c, hc, rfl⟩

/-- The analysis returns, also on cyclic declarations. The classes of a file are those of
the declaration paths to it; it is production code when a way from a production target
requires no option, and otherwise of the class its ways agree on. The order of the
targets plays no part. -/
theorem targetContext_exact (decls : FilePath → List ModDecl) (indexed : Finset FilePath)
    (targets : List Target) : ∃ reached context,
    (∃ fuel, ∀ more, reachedClasses (fuel + more) decls indexed targets = some reached ∧
      analyse (fuel + more) decls indexed (some targets) = some context) ∧
    (∀ file c, c ∈ classesOf reached file ↔ c ∈ pathClasses decls indexed targets file) ∧
    (∀ file, context file = some Class.production.name ↔
      ∃ target ∈ targets, target.entry ∈ indexed ∧ target.kind = .production ∧
        ∃ ds, Declares (treeOf decls indexed targets) target.entry ds file ∧
          ∀ decl ∈ ds, requiredBy decl = none) ∧
    (∀ file c, context file = some (Class.name c) ↔
      c ∈ pathClasses decls indexed targets file ∧
        (c = .production ∨ pathClasses decls indexed targets file = {c})) ∧
    ∀ targets' : List Target, targets'.Perm targets → ∃ reached',
      (∃ fuel, ∀ more, reachedClasses (fuel + more) decls indexed targets' = some reached' ∧
        analyse (fuel + more) decls indexed (some targets') = some context) ∧
      ∀ file, classesOf reached' file = classesOf reached file := by
  obtain ⟨fuel, reached, hrun⟩ := reachedClasses_terminates decls indexed targets
  have hcontext := @contextOf_eq_some_iff decls indexed targets _ _ (hrun 0)
  refine ⟨reached, contextOf reached, ⟨fuel, fun more => ⟨hrun more, analyse_eq (hrun more)⟩⟩,
    fun file c => mem_classesOf (hrun 0), fun file => ?_, fun file c => hcontext,
    fun targets' hperm => ?_⟩
  · rw [hcontext]
    simp only [pathClasses, Set.mem_ofPred_eq, pathClass_eq_production_iff, true_or, and_true]
    refine exists_congr fun target => and_congr_right fun _ => and_congr_right fun _ => ?_
    constructor
    · rintro ⟨ds, hds, hkind, hnone⟩
      exact ⟨hkind, ds, hds, hnone⟩
    · rintro ⟨hkind, ds, hds, hnone⟩
      exact ⟨ds, hds, hkind, hnone⟩
  · obtain ⟨fuel', reached', hrun'⟩ := reachedClasses_terminates decls indexed targets'
    have hclasses : ∀ file, classesOf reached' file = classesOf reached file := fun file =>
      Finset.ext fun c => by
        rw [mem_classesOf (hrun' 0), mem_classesOf (hrun 0), pathClasses_perm hperm]
    refine ⟨reached', ⟨fuel', fun more => ⟨hrun' more, ?_⟩⟩, hclasses⟩
    rw [analyse_eq (hrun' more)]
    refine congrArg some (funext fun file => ?_)
    rw [contextOf, contextOf, hclasses]

/-! ## The owners of a file -/

end TargetContext

end CodeGraph
