import Mathlib.Data.Finset.Prod
import Mathlib.Data.Finset.Union
import CodeGraph.Lib.Worklist
import CodeGraph.ModuleImports

/-!
# Following re-exports

The paths an exact path leads to once the `use` declarations of each module it
ends in are followed. An explicit `use` of the name replaces the path; without
one the path stays and every glob adds one (`Leads`).

Relative `use` paths can make a path longer, but only at a module that has `use`
rows, and those are finitely many: so are the paths reached (`finite_reached`).
-/

namespace CodeGraph

open List Relation Worklist

/-- An owner's module path: exact from the root of the caller's crate, exact from
the root of a library, or a trailing part. -/
inductive Anchor where
  | crateRoot (segments : List Text)
  | library (lib : Text) (segments : List Text)
  | suffix (segments : List Text)
  deriving DecidableEq

namespace Anchor

def written : Anchor → List Text
  | .crateRoot segments => segments
  | .library _ segments => segments
  | .suffix segments => segments

/-- The library an exact anchor is read in; `none` for the caller's crate. -/
def inLibrary : Anchor → Option Text
  | .library lib _ => some lib
  | _ => none

/-- The module path and the name of an exact anchor; `none` for a suffix or an
empty path. -/
def exactSplit : Anchor → Option (List Text × Text)
  | .crateRoot segments => segments.getLast?.map (segments.dropLast, ·)
  | .library _ segments => segments.getLast?.map (segments.dropLast, ·)
  | .suffix _ => none

theorem written_of_exactSplit {anchor : Anchor} {module : List Text} {name : Text}
    (h : anchor.exactSplit = some (module, name)) : anchor.written = module ++ [name] := by
  have hsplit : ∀ {segments : List Text},
      segments.getLast?.map (segments.dropLast, ·) = some (module, name) →
      segments = module ++ [name] := by
    intro segments hmap
    obtain ⟨last, hlast, heq⟩ := Option.map_eq_some_iff.mp hmap
    cases heq
    exact (dropLast_append_getLast? _ hlast).symm
  cases anchor with
  | crateRoot segments => exact hsplit h
  | library lib segments => exact hsplit h
  | suffix segments => cases h

end Anchor

structure PathFacts where
  cc : CharClass
  evidence : CrateEvidence
  imports : ModuleImports

namespace Reexport

/-- The exact path `path` of the library `lib`, or of the caller's crate. -/
def within (lib : Option Text) (path : List Text) : Anchor :=
  match lib with
  | some lib => .library lib path
  | none => .crateRoot path

@[simp] theorem within_inLibrary (lib : Option Text) (path : List Text) :
    (within lib path).inLibrary = lib := by cases lib <;> rfl

@[simp] theorem within_written (lib : Option Text) (path : List Text) :
    (within lib path).written = path := by cases lib <;> rfl

/-- The exact anchor of `segments` written in `module` of the library `lib`.
`none` when a `super` climbs past the root. -/
def anchorIn (evidence : CrateEvidence) (lib : Option Text) (module : List Text) :
    (segments : List Text) → Option Anchor
  | [] => none
  | first :: rest =>
      if first = "crate".toList then some (within lib rest)
      else if first = "self".toList then some (within lib (module ++ rest))
      else if first = "super".toList then
        let ups := ((first :: rest).takeWhile (· = "super".toList)).length
        if ups ≤ module.length then
          some (within lib (module.take (module.length - ups) ++ (first :: rest).drop ups))
        else none
      else if first ∈ evidence.crateNames then some (.library first rest)
      else some (within lib (module ++ first :: rest))

section Follow

variable (facts : PathFacts) (callerFile : Text)

/-- The scope lies in the crate an anchor of the library `lib` is read in. -/
def readIn (lib : Option Text) (scope : Text) : Bool :=
  let file := extractFilePrefixOrSelf scope
  match lib with
  | some lib => facts.evidence.libraryOwns lib file
  | none => facts.evidence.sameCrate callerFile file

/-- The imports of every scope at `module` in the crate `anchor` is read in. -/
def rowsOfModule (anchor : Anchor) (module : List Text) : List ImportRow :=
  ((facts.imports.scopesAt facts.evidence module).filter
    (readIn facts callerFile anchor.inLibrary)).flatMap facts.imports.ofScope

/-- One turn of the loop: the paths that go on the worklist, and whether the path
itself stays. -/
def turn (anchor : Anchor) : List Anchor × Bool :=
  match anchor.exactSplit with
  | none => ([], true)
  | some (module, name) =>
      let rows := rowsOfModule facts callerFile anchor module
      let globs := rows.filter fun row => row.isGlob
      let explicit := (rows.filter fun row => !row.isGlob).filter fun row => row.binds = name
      let lib := anchor.inLibrary
      if explicit = [] then
        (globs.filterMap fun glob =>
          anchorIn facts.evidence lib module (pathSegments facts.cc glob.path ++ [name]), true)
      else
        let next := explicit.filterMap fun row =>
          anchorIn facts.evidence lib module (pathSegments facts.cc row.path)
        -- a `use` of the very path it is read at leads nowhere new
        if next ≠ [] ∧ ∀ n ∈ next, n = anchor then ([], true) else (next, false)

def followFrom : Nat → (work seen out : List Anchor) → Option (List Anchor)
  | _, [], _, out => some out
  | 0, _ :: _, _, _ => none
  | fuel + 1, anchor :: work, seen, out =>
      if anchor ∈ seen then followFrom fuel work seen out
      else
        let (next, stays) := turn facts callerFile anchor
        followFrom fuel (next.reverse ++ work) (anchor :: seen)
          (if stays then out ++ [anchor] else out)

/-- The paths `start` leads to once the `use` declarations of each module it ends
in are followed. -/
def follow (fuel : Nat) (start : Anchor) : Option (List Anchor) :=
  followFrom facts callerFile fuel [start] [] []

/-! ## The documented rules -/

/-- `row` is an import of `module`, in the crate an anchor of `lib` is read in. -/
def HasRow (lib : Option Text) (module : List Text) (row : ImportRow) : Prop :=
  ∃ scope, (scope, row) ∈ facts.imports ∧ facts.evidence.scopeModulePath scope = module ∧
    readIn facts callerFile lib scope = true

/-- An explicit `use` of the name the path ends in, in the module it ends in. -/
structure ExplicitUse (anchor : Anchor) (module : List Text) (name : Text) (row : ImportRow) :
    Prop where
  split : anchor.exactSplit = some (module, name)
  hasRow : HasRow facts callerFile anchor.inLibrary module row
  notGlob : row.isGlob = false
  binds : row.binds = name

/-- An explicit `use` of the name writes the path `target`. -/
def ExplicitTo (anchor target : Anchor) : Prop :=
  ∃ module name row, ExplicitUse facts callerFile anchor module name row ∧
    anchorIn facts.evidence anchor.inLibrary module (pathSegments facts.cc row.path) = some target

def HasExplicit (anchor : Anchor) : Prop :=
  ∃ module name row, ExplicitUse facts callerFile anchor module name row

/-- A glob of the module the path ends in gives the path `target`. -/
def GlobTo (anchor target : Anchor) : Prop :=
  ∃ module name row, anchor.exactSplit = some (module, name) ∧
    HasRow facts callerFile anchor.inLibrary module row ∧ row.isGlob = true ∧
    anchorIn facts.evidence anchor.inLibrary module (pathSegments facts.cc row.path ++ [name]) =
      some target

/-- An explicit `use` replaces the path; without one every glob adds a path. -/
inductive Leads (anchor target : Anchor) : Prop
  | explicit (h : ExplicitTo facts callerFile anchor target)
  | glob (hnone : ¬ HasExplicit facts callerFile anchor) (h : GlobTo facts callerFile anchor target)

/-- The path stays: no explicit `use` names it, or those that can be read name
the path itself. -/
def Stays (anchor : Anchor) : Prop :=
  HasExplicit facts callerFile anchor → (∃ target, ExplicitTo facts callerFile anchor target) ∧
    ∀ target, ExplicitTo facts callerFile anchor target → target = anchor

end Follow

/-! ## One turn -/

variable {facts : PathFacts} {callerFile : Text}

variable {anchor : Anchor} {module : List Text} {row : ImportRow}

theorem mem_rowsOfModule : row ∈ rowsOfModule facts callerFile anchor module ↔
      HasRow facts callerFile anchor.inLibrary module row := by
  simp only [rowsOfModule, ModuleImports.scopesAt, ModuleImports.ofScope, mem_flatMap,
    mem_filter, mem_eraseDups, mem_map, decide_eq_true_iff, HasRow]
  constructor
  · rintro ⟨scope, ⟨⟨-, hmodule⟩, hread⟩, ⟨_, row⟩, ⟨hentry, rfl⟩, rfl⟩
    exact ⟨_, hentry, hmodule, hread⟩
  · rintro ⟨scope, hentry, hmodule, hread⟩
    exact ⟨scope, ⟨⟨⟨_, hentry, rfl⟩, hmodule⟩, hread⟩, _, ⟨hentry, rfl⟩, rfl⟩

variable {name : Text}

theorem mem_explicit (hsplit : anchor.exactSplit = some (module, name)) :
    row ∈ ((rowsOfModule facts callerFile anchor module).filter fun row => !row.isGlob).filter
        (fun row => row.binds = name) ↔ ExplicitUse facts callerFile anchor module name row := by
  simp only [mem_filter, mem_rowsOfModule, decide_eq_true_iff, Bool.not_eq_true']
  exact ⟨fun h => ⟨hsplit, h.1.1, h.1.2, h.2⟩, fun h => ⟨⟨h.hasRow, h.notGlob⟩, h.binds⟩⟩

theorem ExplicitUse.split_eq {m : List Text} {n : Text} (hsplit : anchor.exactSplit = some (module, name))
    (h : ExplicitUse facts callerFile anchor m n row) : m = module ∧ n = name := by
  have heq := Option.some.inj (h.split.symm.trans hsplit)
  exact Prod.mk.inj heq

theorem turn_of_not_hasExplicit (h : ¬ HasExplicit facts callerFile anchor) :
    (turn facts callerFile anchor).2 = true ∧
      ∀ target, target ∈ (turn facts callerFile anchor).1 ↔ GlobTo facts callerFile anchor target := by
  unfold turn
  split
  · next hsplit =>
    refine ⟨rfl, fun target => ⟨nofun, ?_⟩⟩
    rintro ⟨_, _, _, hsome, -⟩
    rw [hsplit] at hsome
    cases hsome
  · next module name hsplit =>
    have hnone : ((rowsOfModule facts callerFile anchor module).filter fun row =>
        !row.isGlob).filter (fun row => row.binds = name) = [] :=
      eq_nil_iff_forall_not_mem.mpr fun row hrow =>
        h ⟨module, name, row, (mem_explicit hsplit).mp hrow⟩
    dsimp only
    rw [if_pos hnone]
    refine ⟨rfl, fun target => ?_⟩
    simp only [mem_filterMap, mem_filter, mem_rowsOfModule]
    constructor
    · rintro ⟨row, ⟨hrow, hglob⟩, htarget⟩
      exact ⟨module, name, row, hsplit, hrow, hglob, htarget⟩
    · rintro ⟨m, n, row, hsplit', hrow, hglob, htarget⟩
      obtain ⟨rfl, rfl⟩ := Prod.mk.inj (Option.some.inj (hsplit'.symm.trans hsplit))
      exact ⟨row, ⟨hrow, hglob⟩, htarget⟩

/-- With one, the path is replaced, unless every `use` that can be read names it. -/
theorem turn_of_hasExplicit (h : HasExplicit facts callerFile anchor) :
    ∃ next : List Anchor, (∀ target, target ∈ next ↔ ExplicitTo facts callerFile anchor target) ∧
      turn facts callerFile anchor =
        if next ≠ [] ∧ ∀ n ∈ next, n = anchor then ([], true) else (next, false) := by
  obtain ⟨module, name, row, huse⟩ := h
  have hrow := (mem_explicit huse.split).mpr huse
  refine ⟨(((rowsOfModule facts callerFile anchor module).filter fun row => !row.isGlob).filter
    fun row => row.binds = name).filterMap fun row =>
      anchorIn facts.evidence anchor.inLibrary module (pathSegments facts.cc row.path),
    fun target => ?_, ?_⟩
  · rw [mem_filterMap]
    constructor
    · rintro ⟨r, hr, htarget⟩
      exact ⟨module, name, r, (mem_explicit huse.split).mp hr, htarget⟩
    · rintro ⟨m, n, r, hr, htarget⟩
      obtain ⟨rfl, rfl⟩ := hr.split_eq huse.split
      exact ⟨r, (mem_explicit huse.split).mpr hr, htarget⟩
  · rw [turn, huse.split]
    dsimp only
    rw [if_neg (ne_nil_of_mem hrow)]

theorem turn_stays_iff :
    (turn facts callerFile anchor).2 = true ↔ Stays facts callerFile anchor := by
  by_cases h : HasExplicit facts callerFile anchor
  · obtain ⟨next, hnext, hturn⟩ := turn_of_hasExplicit h
    have hstays : Stays facts callerFile anchor ↔ next ≠ [] ∧ ∀ n ∈ next, n = anchor := by
      refine (imp_iff_right h).trans (and_congr ?_ (forall_congr' fun n => by rw [hnext]))
      refine ⟨fun ⟨n, hn⟩ => ne_nil_of_mem ((hnext n).mpr hn), fun hne => ?_⟩
      obtain ⟨n, hn⟩ := exists_mem_of_ne_nil next hne
      exact ⟨n, (hnext n).mp hn⟩
    rw [hturn, hstays]
    split
    · next hall => exact ⟨fun _ => hall, fun _ => rfl⟩
    · next hall => exact ⟨nofun, fun h => absurd h hall⟩
  · exact ⟨fun _ hexplicit => absurd hexplicit h, fun _ => (turn_of_not_hasExplicit h).1⟩

variable {target : Anchor}

theorem leads_of_mem_turn (h : target ∈ (turn facts callerFile anchor).1) :
    Leads facts callerFile anchor target := by
  by_cases hexplicit : HasExplicit facts callerFile anchor
  · obtain ⟨next, hnext, hturn⟩ := turn_of_hasExplicit hexplicit
    rw [hturn] at h
    split at h
    · cases h
    · exact .explicit ((hnext target).mp h)
  · exact .glob hexplicit (((turn_of_not_hasExplicit hexplicit).2 target).mp h)

theorem mem_turn_of_leads (h : Leads facts callerFile anchor target) :
    target = anchor ∨ target ∈ (turn facts callerFile anchor).1 := by
  cases h with
  | explicit hto =>
      have hexplicit : HasExplicit facts callerFile anchor := by
        obtain ⟨module, name, row, huse, -⟩ := hto
        exact ⟨module, name, row, huse⟩
      obtain ⟨next, hnext, hturn⟩ := turn_of_hasExplicit hexplicit
      have hmem := (hnext target).mpr hto
      rw [hturn]
      split
      · next hall => exact Or.inl (hall.2 target hmem)
      · exact Or.inr hmem
  | glob hnone hto => exact Or.inr (((turn_of_not_hasExplicit hnone).2 target).mpr hto)

/-! ## The whole run -/

/-- The successors of a path on the worklist. -/
def nextOf (facts : PathFacts) (callerFile : Text) (anchor : Anchor) : List Anchor :=
  (turn facts callerFile anchor).1

/-- The run is the search over paths, and its output the paths met that stay. -/
theorem followFrom_eq : ∀ (fuel : Nat) (work seen : List Anchor),
    followFrom facts callerFile fuel work seen
        (seen.reverse.filter fun anchor => (turn facts callerFile anchor).2) =
      (popSearch id (nextOf facts callerFile) fuel work seen).map fun met =>
        met.reverse.filter fun anchor => (turn facts callerFile anchor).2
  | fuel, [], seen => by
      rw [popSearch_nil]
      cases fuel <;> rfl
  | 0, _ :: _, _ => rfl
  | fuel + 1, anchor :: work, seen => by
      rw [followFrom, popSearch, map_id, id]
      by_cases hseen : anchor ∈ seen
      · rw [if_pos hseen, if_pos hseen, followFrom_eq fuel work seen]
      · rw [if_neg hseen, if_neg hseen, ← followFrom_eq fuel _ (anchor :: seen)]
        dsimp only [nextOf]
        congr 1
        rw [reverse_cons, filter_append]
        cases hstays : (turn facts callerFile anchor).2 <;> simp [hstays]

theorem reflTransGen_nextOf {start : Anchor} :
    ReflTransGen (Step (nextOf facts callerFile)) start anchor ↔
      ReflTransGen (Leads facts callerFile) start anchor := by
  constructor
  · intro h
    exact h.lift id fun _ _ hstep => leads_of_mem_turn hstep
  · intro h
    induction h with
    | refl => exact .refl
    | tail _ hstep ih =>
        rcases mem_turn_of_leads hstep with rfl | hmem
        · exact ih
        · exact ih.tail hmem

/-! ## Finitely many paths -/

/-- A path is read in the library of its module or in one the evidence names, and
it has no segment that neither the module nor the written path has. -/
theorem anchorIn_bounds {evidence : CrateEvidence} {lib : Option Text} {segments : List Text} (h : anchorIn evidence lib module segments = some target) :
    (target.inLibrary = lib ∨ ∃ name ∈ evidence.crateNames, target.inLibrary = some name) ∧
      ∀ s ∈ target.written, s ∈ module ∨ s ∈ segments := by
  cases segments with
  | nil => cases h
  | cons first rest =>
      have htail : ∀ s ∈ rest, s ∈ first :: rest := fun s hs => mem_cons_of_mem _ hs
      rw [anchorIn] at h
      split at h
      · cases h
        simpa using fun s hs => Or.inr (htail s hs)
      · split at h
        · cases h
          refine ⟨Or.inl (within_inLibrary _ _), fun s hs => ?_⟩
          rw [within_written] at hs
          exact (mem_append.mp hs).imp id (htail s)
        · split at h
          · dsimp only at h
            split at h
            · cases h
              refine ⟨Or.inl (within_inLibrary _ _), fun s hs => ?_⟩
              rw [within_written] at hs
              exact (mem_append.mp hs).imp mem_of_mem_take mem_of_mem_drop
            · cases h
          · split at h
            · next hname =>
              cases h
              exact ⟨Or.inr ⟨first, hname, rfl⟩, fun s hs => Or.inr (htail s hs)⟩
            · cases h
              refine ⟨Or.inl (within_inLibrary _ _), fun s hs => ?_⟩
              rw [within_written] at hs
              exact mem_append.mp hs

section Bound

variable (facts : PathFacts) (start : Anchor)

/-- The libraries a path can be read in. -/
def libraries : Finset (Option Text) :=
  insert start.inLibrary (facts.evidence.crateNames.image some)

def modules : Finset (List Text) :=
  (facts.imports.map fun entry => facts.evidence.scopeModulePath entry.1).toFinset

def paths : Finset (List Text) :=
  (facts.imports.map fun entry => pathSegments facts.cc entry.2.path).toFinset

/-- The segments a path can have. -/
def names : Finset Text := start.written.toFinset ∪ (paths facts).biUnion List.toFinset

/-- What the imports can lead to from a path of these names. -/
def targets : Finset Anchor :=
  (libraries facts start ×ˢ modules facts ×ˢ
    (paths facts ∪ (paths facts ×ˢ names facts start).image fun p => p.1 ++ [p.2])).biUnion
      fun p => (anchorIn facts.evidence p.1 p.2.1 p.2.2).toFinset

variable {facts start} {callerFile : Text}

/-- Every path on the worklist is the start or what an import can lead to. -/
structure Bounded (facts : PathFacts) (start anchor : Anchor) : Prop where
  library : anchor.inLibrary ∈ libraries facts start
  segments : ∀ s ∈ anchor.written, s ∈ names facts start
  target : anchor = start ∨ anchor ∈ targets facts start

theorem HasRow.mem_modules {lib : Option Text} (h : HasRow facts callerFile lib module row) :
    module ∈ modules facts ∧ pathSegments facts.cc row.path ∈ paths facts := by
  obtain ⟨scope, hentry, rfl, -⟩ := h
  exact ⟨mem_toFinset.mpr (mem_map_of_mem hentry),
    mem_toFinset.mpr (mem_map_of_mem hentry)⟩

theorem Bounded.init : Bounded facts start start where
  library := Finset.mem_insert_self _ _
  segments := fun _ hs => Finset.mem_union_left _ (mem_toFinset.mpr hs)
  target := Or.inl rfl

theorem Bounded.anchorIn (h : Bounded facts start anchor)
    {segments : List Text} (hsplit : anchor.exactSplit = some (module, name))
    (hmodule : module ∈ modules facts)
    (hsegments : segments ∈ paths facts ∨ ∃ p ∈ paths facts, segments = p ++ [name])
    (htarget : anchorIn facts.evidence anchor.inLibrary module segments = some target) :
    Bounded facts start target := by
  have hwritten := Anchor.written_of_exactSplit hsplit
  have hname : name ∈ names facts start := h.segments name (by rw [hwritten]; simp)
  have hpaths : ∀ p ∈ paths facts, ∀ s ∈ p, s ∈ names facts start := fun p hp s hs =>
    Finset.mem_union_right _ (Finset.mem_biUnion.mpr ⟨p, hp, mem_toFinset.mpr hs⟩)
  obtain ⟨hlib, hbounds⟩ := anchorIn_bounds htarget
  refine ⟨?_, fun s hs => ?_, Or.inr ?_⟩
  · rcases hlib with hlib | ⟨crate, hcrate, hlib⟩
    · exact hlib ▸ h.library
    · exact hlib ▸ Finset.mem_insert_of_mem (Finset.mem_image_of_mem _ hcrate)
  · rcases hbounds s hs with hs | hs
    · exact h.segments s (by rw [hwritten]; exact mem_append_left _ hs)
    · rcases hsegments with hsegments | ⟨p, hp, rfl⟩
      · exact hpaths segments hsegments s hs
      · rcases mem_append.mp hs with hs | hs
        · exact hpaths p hp s hs
        · exact mem_singleton.mp hs ▸ hname
  · refine Finset.mem_biUnion.mpr ⟨(anchor.inLibrary, module, segments), ?_, ?_⟩
    · refine Finset.mem_product.mpr ⟨h.library, Finset.mem_product.mpr ⟨hmodule, ?_⟩⟩
      rcases hsegments with hsegments | ⟨p, hp, rfl⟩
      · exact Finset.mem_union_left _ hsegments
      · exact Finset.mem_union_right _
          (Finset.mem_image.mpr ⟨(p, name), Finset.mem_product.mpr ⟨hp, hname⟩, rfl⟩)
    · exact Option.mem_toFinset.mpr htarget

theorem Bounded.leads (h : Bounded facts start anchor)
    (hleads : Leads facts callerFile anchor target) : Bounded facts start target := by
  cases hleads with
  | explicit hto =>
      obtain ⟨module, name, row, huse, htarget⟩ := hto
      obtain ⟨hmodule, hpath⟩ := huse.hasRow.mem_modules
      exact h.anchorIn huse.split hmodule (Or.inl hpath) htarget
  | glob _ hto =>
      obtain ⟨module, name, row, hsplit, hrow, -, htarget⟩ := hto
      obtain ⟨hmodule, hpath⟩ := hrow.mem_modules
      exact h.anchorIn hsplit hmodule (Or.inr ⟨_, hpath, rfl⟩) htarget

theorem finite_reached (facts : PathFacts) (callerFile : Text) (start : Anchor) :
    {anchor | ReflTransGen (Leads facts callerFile) start anchor}.Finite := by
  refine (insert start (targets facts start)).finite_toSet.subset ?_
  intro anchor hreach
  have hbounded : ∀ {anchor}, ReflTransGen (Leads facts callerFile) start anchor →
      Bounded facts start anchor := by
    intro anchor hreach
    induction hreach with
    | refl => exact .init
    | tail _ hstep ih => exact ih.leads hstep
  exact Finset.mem_coe.mpr (Finset.mem_insert.mpr (hbounded hreach).target)

end Bound

/-! ## What is followed -/

theorem follow_returns (facts : PathFacts) (callerFile : Text) (start : Anchor) :
    ∃ fuel out, (∀ more, follow facts callerFile (fuel + more) start = some out) ∧
      ∀ anchor, anchor ∈ out ↔ ReflTransGen (Leads facts callerFile) start anchor ∧
        Stays facts callerFile anchor := by
  have hfin : {k | ∃ a, Reach (nextOf facts callerFile) [start] a ∧ id a = k}.Finite := by
    refine (finite_reached facts callerFile start).subset ?_
    rintro _ ⟨anchor, ⟨r, hr, hreach⟩, rfl⟩
    rw [mem_singleton.mp hr] at hreach
    exact reflTransGen_nextOf.mp hreach
  obtain ⟨fuel, met, hrun⟩ := popSearch_terminates hfin
  refine ⟨fuel, met.reverse.filter fun anchor => (turn facts callerFile anchor).2,
    fun more => ?_, fun anchor => ?_⟩
  · refine (followFrom_eq (fuel + more) [start] []).trans ?_
    rw [popSearch_mono more hrun, Option.map_some]
  · have hsearched := popSearch_searched hrun
    have hmet : anchor ∈ met ↔ ReflTransGen (Leads facts callerFile) start anchor := by
      constructor
      · intro hmem
        obtain ⟨r, hr, hreach⟩ := hsearched.sound anchor hmem
        rw [mem_singleton.mp hr] at hreach
        exact reflTransGen_nextOf.mp hreach
      · intro hreach
        have hrespects : KeyRespects id (nextOf facts callerFile) := fun a b hab t ht =>
          ⟨t, (show a = b from hab) ▸ ht, rfl⟩
        have hkey := hsearched.key_mem hrespects
          ⟨start, mem_singleton_self _, reflTransGen_nextOf.mpr hreach⟩
        rwa [map_id] at hkey
    rw [mem_filter, mem_reverse, hmet, turn_stays_iff]

theorem leads_stays_congr (facts facts' : PathFacts) (callerFile : Text) (hcc : facts'.cc = facts.cc)
    (hevidence : facts'.evidence = facts.evidence)
    (himports : ∀ entry, entry ∈ facts'.imports ↔ entry ∈ facts.imports) :
    Leads facts' callerFile = Leads facts callerFile ∧
      Stays facts' callerFile = Stays facts callerFile := by
  have hrow : HasRow facts' callerFile = HasRow facts callerFile := by
    funext lib module row
    refine propext (exists_congr fun scope => ?_)
    simp only [himports, hevidence, readIn]
  have huse : ExplicitUse facts' callerFile = ExplicitUse facts callerFile := by
    funext anchor module name row
    refine propext ⟨fun h => ⟨h.split, ?_, h.notGlob, h.binds⟩,
      fun h => ⟨h.split, ?_, h.notGlob, h.binds⟩⟩
    · exact hrow ▸ h.hasRow
    · exact hrow ▸ h.hasRow
  have hto : ExplicitTo facts' callerFile = ExplicitTo facts callerFile := by
    funext anchor target
    simp only [ExplicitTo, huse, hevidence, hcc]
  have hhas : HasExplicit facts' callerFile = HasExplicit facts callerFile := by
    funext anchor
    simp only [HasExplicit, huse]
  have hglob : GlobTo facts' callerFile = GlobTo facts callerFile := by
    funext anchor target
    simp only [GlobTo, hrow, hevidence, hcc]
  refine ⟨?_, ?_⟩
  · funext anchor target
    refine propext ⟨fun h => ?_, fun h => ?_⟩
    · cases h with
      | explicit h => exact .explicit (hto ▸ h)
      | glob hnone h => exact .glob (hhas ▸ hnone) (hglob ▸ h)
    · cases h with
      | explicit h => exact .explicit (hto ▸ h)
      | glob hnone h => exact .glob (hhas ▸ hnone) (hglob ▸ h)
  · funext anchor
    simp only [Stays, hhas, hto]

/-- Following returns on every table of imports, with exactly the paths the rules
lead to that stay, whatever the order of the rows. -/
theorem follow_exact (facts : PathFacts) (callerFile : Text) (start : Anchor) :
    ∃ fuel out, (∀ more, follow facts callerFile (fuel + more) start = some out) ∧
      (∀ anchor, anchor ∈ out ↔ ReflTransGen (Leads facts callerFile) start anchor ∧
        Stays facts callerFile anchor) ∧
      ∀ imports, imports.Perm facts.imports → ∃ fuel' out',
        (∀ more, follow { facts with imports := imports } callerFile (fuel' + more) start =
          some out') ∧ ∀ anchor, anchor ∈ out' ↔ anchor ∈ out := by
  obtain ⟨fuel, out, hrun, hout⟩ := follow_returns facts callerFile start
  refine ⟨fuel, out, hrun, hout, fun imports hperm => ?_⟩
  obtain ⟨fuel', out', hrun', hout'⟩ :=
    follow_returns { facts with imports := imports } callerFile start
  obtain ⟨hleads, hstays⟩ := leads_stays_congr facts { facts with imports := imports } callerFile
    rfl rfl fun entry => hperm.mem_iff
  refine ⟨fuel', out', hrun', fun anchor => ?_⟩
  rw [hout', hout, hleads, hstays]

/-! ## A `use` past the root -/

/-- `use super::Set;` in `src/lib.rs`, with no Cargo facts. -/
def pastRoot : PathFacts where
  cc := .ascii
  evidence :=
    { known := false, crateNames := ∅, targets := fun _ => none, owners := fun _ => none,
      logicalModules := fun _ => none }
  imports := [("src/lib.rs".toList, ⟨"super::Set".toList, [], false⟩)]

theorem pastRoot_no_explicitTo (target : Anchor) :
    ¬ ExplicitTo pastRoot "src/lib.rs".toList (.crateRoot ["Set".toList]) target := by
  rintro ⟨module, name, row, huse, htarget⟩
  obtain ⟨scope, hentry, -, -⟩ := huse.hasRow
  cases mem_singleton.mp hentry
  obtain rfl : [] = module := congrArg Prod.fst (Option.some.inj huse.split)
  have hnone : anchorIn pastRoot.evidence none [] (pathSegments pastRoot.cc "super::Set".toList) =
      none := by decide +kernel
  cases hnone.symm.trans htarget

/-- No explicit `use` leads the path elsewhere, and still it does not stay: what
is followed is not the paths reached that no explicit `use` leads elsewhere. -/
theorem past_root_vanishes : ¬ ∃ fuel out,
    follow pastRoot "src/lib.rs".toList fuel (.crateRoot ["Set".toList]) = some out ∧
      ∀ anchor, anchor ∈ out ↔
        ReflTransGen (Leads pastRoot "src/lib.rs".toList) (.crateRoot ["Set".toList]) anchor ∧
          ∀ target, ExplicitTo pastRoot "src/lib.rs".toList anchor target → target = anchor := by
  rintro ⟨fuel, out, hrun, hout⟩
  have hturn : turn pastRoot "src/lib.rs".toList (.crateRoot ["Set".toList]) = ([], false) := by
    decide +kernel
  have hempty : out = [] := by
    cases fuel with
    | zero => cases hrun
    | succ fuel =>
        rw [follow, followFrom, if_neg not_mem_nil, hturn] at hrun
        cases fuel <;> exact (Option.some.inj hrun).symm
  have hstart := (hout _).mpr ⟨.refl, fun target h => absurd h (pastRoot_no_explicitTo target)⟩
  rw [hempty] at hstart
  cases hstart

end Reexport

end CodeGraph
