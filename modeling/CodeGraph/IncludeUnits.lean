import CodeGraph.Includes

/-!
# Translation units

A translation unit is a file and every file its `#include` lines paste in,
directly or through others. The graph is to know every file that can be in one:
`reaches` for a file and one that it pastes, `shareAUnit` for two files of one
unit.

A crooked line is read as pasting nothing, so the graph is complete exactly when
such lines add nothing to the others (`overApproximates_iff`).
-/

namespace CodeGraph

open List Relation Worklist

namespace IncludeTable

variable {table : IncludeTable}

/-! ## The walks -/

theorem mem_walk {edges : Text → List Text} (hedges : ∀ f, ∀ g ∈ edges f, g ∈ table.fileIds)
    {start file : Text} :
    file ∈ table.walk edges start ↔ ReflTransGen (Step edges) start file := by
  have hcard : (insert start table.fileIds.toFinset).card ≤ table.fileIds.length + 1 :=
    (Finset.card_insert_le _ _).trans (Nat.add_le_add_right table.fileIds.toFinset_card_le 1)
  have hinv : PushInv edges [start] [start] :=
    ⟨fun _ hs => hs, fun _ hs => Or.inl hs⟩
  have hclosed : ∀ s ∈ insert start table.fileIds.toFinset, ∀ t ∈ edges s,
      t ∈ insert start table.fileIds.toFinset := fun s _ t ht =>
    Finset.mem_insert_of_mem (mem_toFinset.mpr (hedges s t ht))
  obtain ⟨out, emitted, hrun⟩ : ∃ out emitted, pushSearch edges (fun _ => ([] : List Unit))
      (table.fileIds.length + 2) [start] [start] [] = some (out, emitted) :=
    pushSearch_terminates hclosed _ _ hinv
      (forall_mem_singleton.mpr (Finset.mem_insert_self _ _)) (nodup_singleton _) (by
        simp only [length_singleton]
        omega)
  have hspread := hinv.spread hrun
  rw [walk, hrun]
  show file ∈ out ↔ _
  constructor
  · intro hfile
    rcases hspread.sound file hfile with hstart | ⟨s, hs, hreach⟩
    · rw [mem_singleton.mp hstart]
    · rwa [mem_singleton.mp hs] at hreach
  · exact hspread.mem (hspread.keeps start (mem_singleton_self _))

theorem mem_fileIds_of_canName {includer path file : Text} (h : table.CanName includer path file) :
    file ∈ table.fileIds := by
  obtain ⟨dirs, -, hlookup⟩ := h
  obtain ⟨dir, -, hnamed⟩ := exists_of_findSome?_eq_some hlookup
  exact (named_eq_some hnamed).1

theorem mem_fileIds_of_mem_direct (file target : Text) (h : target ∈ table.direct file) :
    target ∈ table.fileIds := by
  obtain ⟨-, path, -, -, hpaste⟩ := mem_direct.mp h
  exact mem_fileIds_of_canName hpaste

theorem mem_includers {file target : Text} :
    file ∈ table.includers target ↔ target ∈ table.direct file := by
  rw [includers, mem_filter, decide_eq_true_iff, mem_dedup]
  refine and_iff_right_of_imp ?_
  intro h
  obtain ⟨-, path, hline, -⟩ := mem_direct.mp h
  exact mem_map_of_mem hline.2

theorem mem_fileIds_of_mem_includers (target file : Text) (h : file ∈ table.includers target) :
    file ∈ table.fileIds := by
  obtain ⟨-, path, hline, -⟩ := mem_direct.mp (mem_includers.mp h)
  exact hline.mem_fileIds

/-- Edges from a file to itself add nothing. -/
theorem reflTransGen_direct {file target : Text} :
    ReflTransGen (Step table.direct) file target ↔ ReflTransGen table.Straight file target := by
  constructor
  · intro h
    exact h.lift id fun _ _ h => (mem_direct.mp h).2
  · intro h
    induction h with
    | refl => exact .refl
    | @tail b c _ hbc ih =>
        by_cases hne : c = b
        · exact hne ▸ ih
        · exact ih.tail (mem_direct.mpr ⟨hne, hbc⟩)

theorem mem_closure {file target : Text} :
    target ∈ table.closure file ↔ ReflTransGen table.Straight file target :=
  (mem_walk mem_fileIds_of_mem_direct).trans reflTransGen_direct

theorem mem_unitsOf {file unit : Text} :
    unit ∈ table.unitsOf file ↔ ReflTransGen table.Straight unit file := by
  rw [unitsOf, mem_walk mem_fileIds_of_mem_includers, ← reflTransGen_direct]
  have hswap : Step table.includers = Function.swap (Step table.direct) := by
    funext a b
    exact propext mem_includers
  rw [hswap, reflTransGen_swap]

/-! ## The memoised closure -/

/-- Every closure kept is the closure of its file. -/
def Cached (table : IncludeTable) (reached : Reached) : Prop :=
  ∀ file set, reached file = some set → set = table.closure file

theorem cached_empty : table.Cached fun _ => none := nofun

/-- One query: the answer is that of the closure, and the cache stays right. -/
theorem Cached.reaches {reached : Reached} (h : table.Cached reached) (start target : Text) :
    (table.reaches reached start target).1 =
        (decide (start = target) || decide (target ∈ table.closure start)) ∧
      table.Cached (table.reaches reached start target).2 := by
  unfold IncludeTable.reaches
  split
  · next heq => exact ⟨by simp [heq], h⟩
  · next hne =>
    rw [decide_eq_false hne, Bool.false_or, withClosure]
    split
    · next set hset => exact ⟨by rw [h start set hset], h⟩
    · refine ⟨rfl, fun file set hset => ?_⟩
      dsimp only at hset
      by_cases hfile : file = start
      · subst hfile
        rw [Function.update_self] at hset
        exact (Option.some.inj hset).symm
      · rw [Function.update_of_ne hfile] at hset
        exact h file set hset

/-- The whole sequence: every answer is that of the closure computed anew. -/
theorem Cached.answers : ∀ (queries : List (Text × Text)) {reached : Reached},
    table.Cached reached → table.answers reached queries =
      queries.map fun q => decide (q.1 = q.2) || decide (q.2 ∈ table.closure q.1)
  | [], _, _ => rfl
  | (start, target) :: queries, reached, h => by
      obtain ⟨hanswer, hkept⟩ := h.reaches start target
      show (table.reaches reached start target).1 ::
        table.answers (table.reaches reached start target).2 queries = _
      rw [hkept.answers queries, hanswer]
      rfl

theorem reaches_iff {start target : Text} :
    (table.reaches (fun _ => none) start target).1 = true ↔
      ReflTransGen table.Straight start target := by
  rw [(cached_empty.reaches start target).1, Bool.or_eq_true_iff, decide_eq_true_iff,
    decide_eq_true_iff, mem_closure]
  exact or_iff_right_of_imp fun h => h ▸ .refl

/-! ## What the preprocessor pastes -/

/-- A line of `file` pastes `target` when the build has the include directories
`dirs`. -/
def Pastes (table : IncludeTable) (dirs : List (List Text)) (file target : Text) : Prop :=
  ∃ path, table.IsLine file path ∧ table.lookup dirs file path = some target

/-- A computed include may paste any file. -/
def Opaque (table : IncludeTable) (file : Text) : Prop :=
  isCFamily file = true ∧ ∃ path, (file, ⟨path, true⟩) ∈ table.includes

/-- The translation unit of `unit` contains `file`. -/
def InUnit (table : IncludeTable) (dirs : List (List Text)) (unit file : Text) : Prop :=
  ReflTransGen (fun a b => table.Pastes dirs a b ∨ table.Opaque a) unit file

/-- The graph knows every translation unit, whatever the include directories, and
invents none. -/
structure OverApproximates (table : IncludeTable) : Prop where
  pasted : ∀ dirs, (∀ dir ∈ dirs, table.IsDir dir) → ∀ file target,
    TransGen (table.Pastes dirs) file target → (table.reaches (fun _ => none) file target).1 = true
  shared : ∀ dirs, (∀ dir ∈ dirs, table.IsDir dir) → ∀ unit a b, table.InUnit dirs unit a →
    table.InUnit dirs unit b → table.shareAUnit a b = true
  united : ∀ a b, table.hasOpaque = false → table.shareAUnit a b = true →
    ∃ unit, (table.reaches (fun _ => none) unit a).1 = true ∧
      (table.reaches (fun _ => none) unit b).1 = true
  memoised : ∀ queries, table.answers (fun _ => none) queries =
    queries.map fun q => (table.reaches (fun _ => none) q.1 q.2).1

/-- Every file that a crooked line can paste is its includer, or comes with the
other lines too. -/
def CrookedCovered (table : IncludeTable) : Prop :=
  ∀ file path target, table.IsLine file path → table.Crooked file path →
    table.CanName file path target → ReflTransGen table.Straight file target

theorem hasOpaque_iff : table.hasOpaque = true ↔ ∃ file, table.Opaque file := by
  rw [hasOpaque, any_eq_true]
  constructor
  · rintro ⟨⟨file, path, computed⟩, hentry, h⟩
    obtain ⟨hfamily, rfl⟩ := Bool.and_eq_true_iff.mp h
    exact ⟨file, hfamily, path, hentry⟩
  · rintro ⟨file, hfamily, path, hentry⟩
    exact ⟨_, hentry, Bool.and_eq_true_iff.mpr ⟨hfamily, rfl⟩⟩

theorem shareAUnit_iff {a b : Text} : table.shareAUnit a b = true ↔ (∃ file, table.Opaque file) ∨
    ∃ unit, ReflTransGen table.Straight unit a ∧ ReflTransGen table.Straight unit b := by
  rw [shareAUnit, Bool.or_eq_true_iff, hasOpaque_iff, any_eq_true]
  refine or_congr_right (exists_congr fun unit => ?_)
  rw [decide_eq_true_iff, mem_unitsOf, mem_unitsOf]

theorem CrookedCovered.pastes (h : CrookedCovered table) {dirs : List (List Text)}
    (hdirs : ∀ dir ∈ dirs, table.IsDir dir) {file target : Text}
    (hpastes : table.Pastes dirs file target) : ReflTransGen table.Straight file target := by
  obtain ⟨path, hline, hlookup⟩ := hpastes
  have hname : table.CanName file path target := ⟨dirs, hdirs, hlookup⟩
  by_cases hcrooked : table.Crooked file path
  · exact h file path target hline hcrooked hname
  · exact .single ⟨path, hline, hcrooked, hname⟩

theorem CrookedCovered.overApproximates (h : CrookedCovered table) : OverApproximates table where
  pasted := fun dirs hdirs file target hpasted => by
    rw [reaches_iff]
    induction hpasted with
    | single hstep => exact h.pastes hdirs hstep
    | tail _ hstep ih => exact ih.trans (h.pastes hdirs hstep)
  shared := fun dirs hdirs unit a b ha hb => by
    rw [shareAUnit_iff]
    by_cases hopaque : ∃ file, table.Opaque file
    · exact Or.inl hopaque
    · have hchain : ∀ file, table.InUnit dirs unit file →
          ReflTransGen table.Straight unit file := fun file hfile => by
        induction hfile with
        | refl => exact .refl
        | tail _ hstep ih =>
            exact ih.trans (h.pastes hdirs (hstep.resolve_right fun ho => hopaque ⟨_, ho⟩))
      exact Or.inr ⟨unit, hchain a ha, hchain b hb⟩
  united := fun a b hopaque hshared => by
    rcases shareAUnit_iff.mp hshared with ho | ⟨unit, ha, hb⟩
    · rw [hasOpaque_iff.mpr ho] at hopaque
      cases hopaque
    · exact ⟨unit, reaches_iff.mpr ha, reaches_iff.mpr hb⟩
  memoised := fun queries => by
    rw [cached_empty.answers queries]
    exact map_congr_left fun q _ => (cached_empty.reaches q.1 q.2).1.symm

/-- The graph over-approximates the translation units exactly when its crooked
lines add nothing to the others. -/
theorem overApproximates_iff (table : IncludeTable) :
    OverApproximates table ↔ CrookedCovered table := by
  refine ⟨fun h file path target hline _ hname => ?_, CrookedCovered.overApproximates⟩
  obtain ⟨dirs, hdirs, hlookup⟩ := hname
  exact reaches_iff.mp (h.pasted dirs hdirs file target (.single ⟨path, hline, hlookup⟩))

/-- `#include "util/../b.h"` in `src/u.c`, with `inc` an include directory. -/
def climbingTable : IncludeTable where
  fileIds := ["src/u.c".toList, "inc/b.h".toList, "inc/util/c.h".toList]
  includes := [("src/u.c".toList, ⟨"util/../b.h".toList, false⟩)]
  plain := by decide
  nested := by decide
  written := by decide

theorem climbing_include_is_missed :
    (∀ dir ∈ [["inc".toList]], climbingTable.IsDir dir) ∧
      climbingTable.Pastes [["inc".toList]] "src/u.c".toList "inc/b.h".toList ∧
      (climbingTable.reaches (fun _ => none) "src/u.c".toList "inc/b.h".toList).1 = false ∧
      ¬ OverApproximates climbingTable := by
  have hdirs : ∀ dir ∈ [["inc".toList]], climbingTable.IsDir dir :=
    forall_mem_singleton.mpr ⟨by decide +kernel, fun pre hpre => by
      rcases mem_cons.mp ((mem_inits _ _).mpr hpre) with rfl | h
      · decide +kernel
      · rw [mem_singleton.mp h]
        decide +kernel⟩
  have hpastes : climbingTable.Pastes [["inc".toList]] "src/u.c".toList "inc/b.h".toList :=
    ⟨"util/../b.h".toList, ⟨by decide +kernel, by decide +kernel⟩, by decide +kernel⟩
  have hmissed : (climbingTable.reaches (fun _ => none) "src/u.c".toList "inc/b.h".toList).1 =
      false := by decide +kernel
  refine ⟨hdirs, hpastes, hmissed, fun h => ?_⟩
  have := h.pasted _ hdirs _ _ (.single hpastes)
  rw [hmissed] at this
  cases this

end IncludeTable

end CodeGraph
