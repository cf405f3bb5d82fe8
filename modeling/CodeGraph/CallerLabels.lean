import CodeGraph.NodeIds
import CodeGraph.ResolvePhases

/-!
# The label of a caller

A call site names its caller by a qualified name, and the table of the call's row
depends on the label of the caller. The static resolver reads the label off the
symbol index, in which the last table read has the name; the language server's pass
asks the tables of functions and of methods, in this order. Both give the label of
the function or method itself only where no other table has the name
(`callerLabels_exact`).
-/

namespace CodeGraph

open List

namespace CallerLabels

open Resolver (EndLabel Table indexedLabels callRelTable callables types)

/-- A node, as the index and the language server's pass read it; a file has its path
for a qualified name. -/
structure NodeRow where
  label : EndLabel
  id : Text
  qualifiedName : Text
  deriving DecidableEq

section

variable (rows : List NodeRow) (qn : Text)

/-! ## The static resolver -/

/-- The rows in the order in which the index is filled, table by table. -/
def indexed : List NodeRow :=
  indexedLabels.flatMap fun label => rows.filter fun r => r.label = label

/-- The row the index has under a qualified name: the last one filled in. -/
def byQn : Option NodeRow := ((indexed rows).filter fun r => r.qualifiedName = qn).getLast?

def determineCallerLabel : EndLabel := ((byQn rows qn).map NodeRow.label).getD (.symbol .function)

/-! ## The language server's pass -/

def lspDetermineCallerLabel : EndLabel :=
  (callables.find? fun label => rows.any fun r => r.label = label && r.qualifiedName = qn).getD
    (.symbol .function)

/-! ## The labels of a name -/

/-- A table has the name. -/
def Names (label : EndLabel) : Prop := ∃ r ∈ rows, r.label = label ∧ r.qualifiedName = qn

instance (label : EndLabel) : Decidable (Names rows qn label) :=
  inferInstanceAs (Decidable (∃ _ ∈ _, _))

variable {rows qn}

/-- Of some tables read one after the other, the last that has the name has it in the
index. -/
theorem getLast_label (labels : List EndLabel) :
    ((labels.flatMap fun label => rows.filter fun r => r.label = label).filter
        fun r => r.qualifiedName = qn).getLast?.map NodeRow.label =
      (labels.filter fun label => Names rows qn label).getLast? := by
  induction labels using List.reverseRecOn with
  | nil => rfl
  | append_singleton labels label ih =>
      rw [flatMap_append, filter_append, filter_append, flatMap_singleton,
        filter_singleton, getLast?_append, getLast?_append]
      set own := (rows.filter fun r => r.label = label).filter fun r => r.qualifiedName = qn with hown
      have hmem : ∀ r, r ∈ own ↔ r ∈ rows ∧ r.label = label ∧ r.qualifiedName = qn := by
        intro r
        simp only [hown, mem_filter, decide_eq_true_eq, and_assoc]
      cases hlast : own.getLast? with
      | none =>
          have hnot : ¬Names rows qn label := by
            rintro ⟨r, hr⟩
            rw [getLast?_eq_none_iff.mp hlast] at hmem
            exact not_mem_nil ((hmem r).mpr hr)
          rw [decide_eq_false hnot, cond_false, getLast?_nil, Option.none_or, Option.none_or, ih]
      | some r =>
          have hr := (hmem r).mp (mem_of_getLast? hlast)
          have hnames : Names rows qn label := ⟨r, hr⟩
          rw [decide_eq_true hnames, cond_true, getLast?_singleton, Option.some_or,
            Option.some_or, Option.map_some, hr.2.1]

theorem determineCallerLabel_eq : determineCallerLabel rows qn =
    ((indexedLabels.filter fun label => Names rows qn label).getLast?).getD (.symbol .function) := by
  rw [determineCallerLabel, byQn, indexed, getLast_label]

theorem lspDetermineCallerLabel_eq : lspDetermineCallerLabel rows qn =
    (callables.find? fun label => Names rows qn label).getD (.symbol .function) := by
  rw [lspDetermineCallerLabel]
  congr 2
  funext label
  rw [Bool.eq_iff_iff, decide_eq_true_eq]
  simp [Names]

/-- Functions and methods are read before everything else. -/
theorem indexedLabels_eq : ∃ others, indexedLabels = callables ++ others ∧
    ∀ label ∈ others, label ∉ callables :=
  ⟨indexedLabels.drop 2, rfl, by decide⟩

/-- The caller is taken for what it is: both passes give its label, so each target has
the same table in both, and there is one for each function, method and type. -/
structure TakenAs (rows : List NodeRow) (qn : Text) (label : EndLabel) : Prop where
  fromIndex : determineCallerLabel rows qn = label
  fromServer : lspDetermineCallerLabel rows qn = label
  sameTable : ∀ target, callRelTable (determineCallerLabel rows qn) target =
    callRelTable (lspDetermineCallerLabel rows qn) target
  staged : ∀ target ∈ callables ++ types, (callRelTable (determineCallerLabel rows qn) target).isSome

theorem callRelTable_isSome {label target : EndLabel} (hlabel : label ∈ callables)
    (htarget : target ∈ callables ++ types) : (callRelTable label target).isSome := by
  rw [callRelTable, if_pos hlabel]
  by_cases h : target ∈ callables
  · rw [if_pos h]
    rfl
  · rw [if_neg h, if_pos ((mem_append.mp htarget).resolve_left h)]
    rfl

theorem takenAs_of_alone {label : EndLabel} (hlabel : label ∈ callables) (hnames : Names rows qn label)
    (halone : ∀ other ∈ indexedLabels, Names rows qn other → other = label) :
    TakenAs rows qn label := by
  obtain ⟨others, hsplit, -⟩ := indexedLabels_eq
  have hsub : ∀ other ∈ callables, other ∈ indexedLabels := fun other h =>
    hsplit ▸ mem_append_left others h
  have hindex : determineCallerLabel rows qn = label := by
    have hin : label ∈ indexedLabels.filter fun label => Names rows qn label :=
      mem_filter.mpr ⟨hsub label hlabel, decide_eq_true hnames⟩
    rw [determineCallerLabel_eq]
    cases hlast : (indexedLabels.filter fun label => Names rows qn label).getLast? with
    | none =>
        rw [getLast?_eq_none_iff.mp hlast] at hin
        exact absurd hin not_mem_nil
    | some other =>
        obtain ⟨hother, hname⟩ := mem_filter.mp (mem_of_getLast? hlast)
        exact halone other hother (of_decide_eq_true hname)
  have hserver : lspDetermineCallerLabel rows qn = label := by
    rw [lspDetermineCallerLabel_eq]
    cases hfind : callables.find? fun label => Names rows qn label with
    | none => exact absurd hnames (by simpa using find?_eq_none.mp hfind label hlabel)
    | some other =>
        have hname : decide (Names rows qn other) = true :=
          find?_some (p := fun label => decide (Names rows qn label)) hfind
        exact halone other (hsub other (mem_of_find?_eq_some hfind)) (of_decide_eq_true hname)
  exact ⟨hindex, hserver, fun target => by rw [hindex, hserver],
    fun target htarget => by rw [hindex]; exact callRelTable_isSome hlabel htarget⟩

theorem determineCallerLabel_notMem {other : EndLabel} (hother : other ∈ indexedLabels)
    (hnot : other ∉ callables) (hnames : Names rows qn other) :
    determineCallerLabel rows qn ∉ callables := by
  obtain ⟨others, hsplit, hlate⟩ := indexedLabels_eq
  have hin : other ∈ others.filter fun label => Names rows qn label := by
    rw [hsplit, mem_append] at hother
    exact mem_filter.mpr ⟨hother.resolve_left hnot, decide_eq_true hnames⟩
  rw [determineCallerLabel_eq, hsplit, filter_append, getLast?_append]
  cases hlast : (others.filter fun label => Names rows qn label).getLast? with
  | none =>
      rw [getLast?_eq_none_iff.mp hlast] at hin
      exact absurd hin not_mem_nil
  | some last =>
      rw [Option.some_or, Option.getD_some]
      exact hlate last (mem_filter.mp (mem_of_getLast? hlast)).1

/-- Every function or method that a call site names as its caller is taken for what it
is, just when no other table of the index has a node of the name. -/
theorem callerLabels_exact (rows : List NodeRow) (siteId : Text) :
    (∀ n ∈ rows, n.label ∈ callables → n.qualifiedName = extractCallerFromCallsiteId siteId →
      TakenAs rows (extractCallerFromCallsiteId siteId) n.label) ↔
    ∀ n ∈ rows, n.label ∈ callables → n.qualifiedName = extractCallerFromCallsiteId siteId →
      ∀ m ∈ rows, m.label ∈ indexedLabels → m.qualifiedName = n.qualifiedName → m.label = n.label := by
  constructor
  · intro h n hn hcallable hqn m hm hindexed hname
    have hnames : Names rows (extractCallerFromCallsiteId siteId) m.label :=
      ⟨m, hm, rfl, hname.trans hqn⟩
    by_cases hm' : m.label ∈ callables
    · exact (h m hm hm' (hname.trans hqn)).fromIndex.symm.trans (h n hn hcallable hqn).fromIndex
    · refine absurd ?_ (determineCallerLabel_notMem hindexed hm' hnames)
      rw [(h n hn hcallable hqn).fromIndex]
      exact hcallable
  · intro h n hn hcallable hqn
    refine takenAs_of_alone hcallable ⟨n, hn, rfl, hqn⟩ ?_
    rintro other hother ⟨m, hm, rfl, hname⟩
    exact h n hn hcallable hqn m hm hother (hname.trans hqn.symm)

/-- A function beside a module of its name: calls out of the function have no table. -/
theorem module_hides_caller :
    ¬∀ (rows : List NodeRow) (siteId : Text), (rows.map fun r => (r.label, r.id)).Nodup →
      ∀ n ∈ rows, n.label ∈ callables → n.qualifiedName = extractCallerFromCallsiteId siteId →
        TakenAs rows (extractCallerFromCallsiteId siteId) n.label := by
  intro h
  have htaken := h
    [⟨.symbol .function, "a.rs::f".toList, "a.rs::f".toList⟩,
      ⟨.symbol .module, "a.rs::f".toList, "a.rs::f".toList⟩]
    "a.rs::f::call@3:4".toList (by decide) _ mem_cons_self (by decide) (by decide)
  exact absurd htaken.fromIndex (by decide)

end

/-! ## The rows of a graph -/

end CallerLabels

end CodeGraph
