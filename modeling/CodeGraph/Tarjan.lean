import Mathlib.Algebra.BigOperators.Fin
import Mathlib.Algebra.Order.BigOperators.Group.Finset
import Mathlib.Data.List.FinRange
import CodeGraph.Lib.LowLink

/-!
# Strongly connected components

`tarjan_scc`: the components of a graph given as adjacency lists, found by one
depth-first search with an explicit work stack. The loop carries fuel; with as
much fuel as the graph has nodes and edges it returns (`tarjanScc_partition`).
-/

namespace CodeGraph

open List

namespace SemanticDiff

open LowLink

variable {n : Nat}

/-! ## The search -/

/-- The neighbours of each node. -/
abbrev Adjacency (n : Nat) := Fin n → List (Fin n)

/-- The working state. `stack` is newest first, `result` holds the components
in the order they were completed. -/
structure TarjanState (n : Nat) where
  index : Fin n → Int
  lowlink : Fin n → Int
  onStack : Fin n → Bool
  stack : List (Fin n)
  result : List (List (Fin n))
  counter : Int

namespace TarjanState

def init (n : Nat) : TarjanState n where
  index _ := -1
  lowlink _ := -1
  onStack _ := false
  stack := []
  result := []
  counter := 0

def visit (v : Fin n) (state : TarjanState n) : TarjanState n where
  index := Function.update state.index v state.counter
  lowlink := Function.update state.lowlink v state.counter
  onStack := Function.update state.onStack v true
  stack := v :: state.stack
  result := state.result
  counter := state.counter + 1

/-- `state.lowlink[v] = state.lowlink[v].min(k)` -/
def lower (v : Fin n) (k : Int) (state : TarjanState n) : TarjanState n :=
  { state with lowlink := Function.update state.lowlink v (min (state.lowlink v) k) }

/-- Pops the stack down to `v`, collecting what is popped. -/
def popLoop (v : Fin n) : (stack : List (Fin n)) → (onStack : Fin n → Bool) →
    (component : List (Fin n)) → List (Fin n) × (Fin n → Bool) × List (Fin n)
  | [], onStack, component => ([], onStack, component)
  | w :: stack, onStack, component =>
      let onStack := Function.update onStack w false
      let component := component ++ [w]
      if w = v then (stack, onStack, component) else popLoop v stack onStack component

def popScc (v : Fin n) (state : TarjanState n) : TarjanState n :=
  let (stack, onStack, component) := popLoop v state.stack state.onStack []
  { state with stack, onStack, result := state.result ++ [component] }

end TarjanState

/-- One turn of the loop, with `(v, i)` the last frame of the work stack. -/
def dfsStep (adj : Adjacency n) (v : Fin n) (i : Nat) (work : Frames (Fin n))
    (state : TarjanState n) : Frames (Fin n) × TarjanState n :=
  match (adj v)[i]? with
  | some w =>
      if state.index w = -1 then ((w, 0) :: (v, i + 1) :: work, state.visit w)
      else if state.onStack w then ((v, i + 1) :: work, state.lower v (state.index w))
      else ((v, i + 1) :: work, state)
  | none =>
      let state := if state.lowlink v = state.index v then state.popScc v else state
      match work with
      | [] => ([], state)
      | (parent, j) :: work => ((parent, j) :: work, state.lower parent (state.lowlink v))

def dfsLoop (adj : Adjacency n) :
    Nat → Frames (Fin n) → TarjanState n → Option (TarjanState n)
  | _, [], state => some state
  | 0, _ :: _, _ => none
  | fuel + 1, (v, i) :: work, state =>
      let (work, state) := dfsStep adj v i work state
      dfsLoop adj fuel work state

def dfsIterative (fuel : Nat) (start : Fin n) (adj : Adjacency n) (state : TarjanState n) :
    Option (TarjanState n) :=
  dfsLoop adj fuel [(start, 0)] (state.visit start)

/-- Searches from each of the nodes that has no index yet. -/
def tarjanFrom (fuel : Nat) (adj : Adjacency n) :
    List (Fin n) → TarjanState n → Option (TarjanState n)
  | [], state => some state
  | v :: vs, state =>
      if state.index v ≠ -1 then tarjanFrom fuel adj vs state
      else (dfsIterative fuel v adj state).bind (tarjanFrom fuel adj vs)

def tarjanScc (fuel : Nat) (adj : Adjacency n) : Option (List (List (Fin n))) :=
  (tarjanFrom fuel adj (List.finRange n) (TarjanState.init n)).map TarjanState.result

/-! ## The loop keeps the invariant of the search -/

namespace TarjanState

/-- The state without the marks, which the stack determines. -/
def snapshot (state : TarjanState n) : Snapshot (Fin n) :=
  ⟨state.index, state.lowlink, state.stack, state.result, state.counter⟩

/-- The invariant of the loop. -/
structure Sound (adj : Adjacency n) (state : TarjanState n) (work : Frames (Fin n)) : Prop where
  inv : Inv adj state.snapshot work
  marks : ∀ v, state.onStack v = true ↔ v ∈ state.stack

variable {adj : Adjacency n} {state : TarjanState n} {work : Frames (Fin n)} {v w : Fin n}

theorem popLoop_eq {rest : List (Fin n)} : ∀ {newer : List (Fin n)} {onStack : Fin n → Bool}
    {component : List (Fin n)}, v ∉ newer →
    popLoop v (newer ++ v :: rest) onStack component =
      (rest, fun w => onStack w && decide (w ∉ newer ++ [v]), component ++ newer ++ [v])
  | [], onStack, component, _ => by
      have hmarks : Function.update onStack v false =
          fun w => onStack w && decide (w ∉ [] ++ [v]) := by
        funext w
        by_cases hw : w = v <;> simp [hw]
      rw [nil_append, popLoop, if_pos rfl, hmarks, append_nil]
  | w :: newer, onStack, component, hv => by
      obtain ⟨hne, hv⟩ := not_or.mp (mt mem_cons.mpr hv)
      rw [cons_append, popLoop, if_neg (Ne.symm hne), popLoop_eq hv]
      have hmarks : ∀ x, (Function.update onStack w false x && decide (x ∉ newer ++ [v])) =
          (onStack x && decide (x ∉ w :: newer ++ [v])) := by
        intro x
        by_cases hx : x = w <;> simp [hx]
      simp only [hmarks, append_assoc, cons_append, nil_append]

theorem popScc_eq {newer rest : List (Fin n)} (hstack : state.stack = newer ++ v :: rest)
    (hv : v ∉ newer) :
    (state.popScc v).snapshot = state.snapshot.emit (newer ++ [v]) rest ∧
      (state.popScc v).onStack = fun w => state.onStack w && decide (w ∉ newer ++ [v]) := by
  rw [popScc, hstack, popLoop_eq hv]
  exact ⟨rfl, rfl⟩

theorem Sound.visit (h : state.Sound adj work) (hw : state.index w = -1)
    (hfrom : ∀ a ∈ (active work).head?, w ∈ adj a) :
    (state.visit w).Sound adj ((w, 0) :: work) where
  inv := h.inv.visit (not_not.mpr hw) hfrom
  marks v := by
    show Function.update state.onStack w true v = true ↔ v ∈ w :: state.stack
    by_cases hv : v = w <;> simp [hv, h.marks]

theorem Sound.lower {k : Int} (h : state.Sound adj work)
    (hk : v ∈ active work → ∃ u ∈ state.stack, state.index u = k ∧ Reaches adj v u) :
    (state.lower v k).Sound adj work where
  inv := h.inv.lower hk
  marks := h.marks

theorem Sound.advance {i : Nat} (top : Frames (Fin n))
    (h : state.Sound adj (top ++ (v, i) :: work))
    (hedge : (adj v)[i]? = some w) (hw : state.index w ≠ -1)
    (hlow : w ∈ state.stack → state.lowlink v ≤ state.index w) :
    state.Sound adj (top ++ (v, i + 1) :: work) where
  inv := h.inv.advance hedge hw hlow
  marks := h.marks

/-- The component popped is the part of the stack from its top down to `v`. -/
theorem Sound.popScc {i : Nat} (h : state.Sound adj ((v, i) :: work))
    (hdone : (adj v).length ≤ i) (hlow : state.lowlink v = state.index v) :
    (state.popScc v).Sound adj work := by
  have hv : v ∈ state.stack := h.inv.ordered.on_stack v mem_cons_self
  obtain ⟨newer, rest, hstack⟩ := append_of_mem hv
  have hnodup : state.stack.Nodup := (nodup_append.mp h.inv.ordered.nodup).1
  have hsplit : state.stack = (newer ++ [v]) ++ rest := by rw [hstack, append_cons]
  have hnewer : v ∉ newer := by
    rw [hstack] at hnodup
    intro hmem
    exact disjoint_of_nodup_append hnodup hmem mem_cons_self
  obtain ⟨hsnapshot, hmarks⟩ := popScc_eq hstack hnewer
  refine ⟨hsnapshot ▸ h.inv.emit hdone hlow.ge hstack, fun w => ?_⟩
  have hrest : (state.popScc v).stack = rest := congrArg Snapshot.stack hsnapshot
  rw [hsplit] at hnodup
  have hdisjoint := disjoint_of_nodup_append hnodup
  rw [hmarks, hrest, Bool.and_eq_true, h.marks, decide_eq_true_eq, hsplit, mem_append]
  exact ⟨fun ⟨hmem, hnot⟩ => hmem.resolve_left hnot,
    fun hmem => ⟨Or.inr hmem, fun hclass => hdisjoint hclass hmem⟩⟩

end TarjanState

section Step

open TarjanState

variable {adj : Adjacency n} {state : TarjanState n} {work : Frames (Fin n)} {v : Fin n}
  {i : Nat}

/-- The vertex of a low-link can be handed to whatever is at work below. -/
theorem TarjanState.Sound.lower_parent (h : state.Sound adj ((v, i) :: work))
    (parent : Fin n) :
    (state.lower parent (state.lowlink v)).Sound adj ((v, i) :: work) := by
  refine h.lower ?_
  intro hactive
  obtain ⟨u, hu, hindex, hvu⟩ := h.inv.bounds.reached v mem_cons_self
  have hv : v ∈ state.stack := h.inv.ordered.on_stack v mem_cons_self
  have hle := h.inv.ordered.le_top hactive
  exact ⟨u, hu, hindex, (h.inv.spans.down parent hactive v hv hle).trans hvu⟩

theorem TarjanState.Sound.lower_parent_eq {parent : Fin n} {j : Nat}
    (h : state.Sound adj ((v, i) :: (parent, j) :: work))
    (hlow : state.lowlink v = state.index v) :
    (state.popScc v).lower parent ((state.popScc v).lowlink v) = state.popScc v := by
  have hparent : parent ∈ active ((v, i) :: (parent, j) :: work) :=
    mem_cons_of_mem _ mem_cons_self
  have hle : state.lowlink parent ≤ state.index parent := h.inv.bounds.le_index parent hparent
  have hlt : state.index parent ≤ state.index v := h.inv.ordered.le_top hparent
  have hmin : min (state.lowlink parent) (state.lowlink v) = state.lowlink parent :=
    min_eq_left (by omega)
  have hsame : Function.update state.lowlink parent
      (min (state.lowlink parent) (state.lowlink v)) = state.lowlink := by
    rw [hmin, Function.update_eq_self]
  exact congrArg (fun lowlink => { state.popScc v with lowlink }) hsame

/-- A node that reaches below itself leaves its low-link to its parent. -/
theorem TarjanState.Sound.retire {parent : Fin n} {j : Nat}
    (h : state.Sound adj ((v, i) :: (parent, j) :: work)) (hdone : (adj v).length ≤ i)
    (hlow : state.lowlink v < state.index v) :
    (state.lower parent (state.lowlink v)).Sound adj ((parent, j) :: work) := by
  have hlowered := h.lower_parent parent
  have hlt : state.index parent < state.index v :=
    rel_of_pairwise_cons h.inv.ordered.active_sorted mem_cons_self
  have hne : v ≠ parent := fun heq => hlt.ne (congrArg state.index heq.symm)
  have hv : (state.lower parent (state.lowlink v)).lowlink v = state.lowlink v :=
    Function.update_of_ne hne _ _
  have hparent : (state.lower parent (state.lowlink v)).lowlink parent =
      min (state.lowlink parent) (state.lowlink v) := Function.update_self ..
  refine ⟨hlowered.inv.retire hdone (hv.trans_lt hlow) fun p hp => ?_, h.marks⟩
  cases Option.some.inj hp
  exact (hparent.trans_le (min_le_right _ _)).trans hv.ge

theorem TarjanState.Sound.leave (h : state.Sound adj ((v, i) :: work))
    (hdone : (adj v)[i]? = none) :
    (dfsStep adj v i work state).2.Sound adj (dfsStep adj v i work state).1 := by
  have hlen : (adj v).length ≤ i := getElem?_eq_none_iff.mp hdone
  rw [dfsStep, hdone]
  by_cases hlow : state.lowlink v = state.index v
  · simp only [if_pos hlow]
    cases work with
    | nil => exact h.popScc hlen hlow
    | cons frame work =>
        simp only [h.lower_parent_eq hlow]
        exact h.popScc hlen hlow
  · have hle : state.lowlink v ≤ state.index v := h.inv.bounds.le_index v mem_cons_self
    have hlt : state.lowlink v < state.index v := lt_of_le_of_ne hle hlow
    simp only [if_neg hlow]
    cases work with
    | nil => exact ⟨h.inv.retire hlen hlt nofun, h.marks⟩
    | cons frame work => exact h.retire hlen hlt

/-- The edge to a node that was not met is followed once the node is. -/
theorem TarjanState.Sound.enter (h : state.Sound adj ((v, i) :: work)) {w : Fin n}
    (hedge : (adj v)[i]? = some w) (hw : state.index w = -1) :
    (state.visit w).Sound adj ((w, 0) :: (v, i + 1) :: work) := by
  have hfrom : ∀ a ∈ (active ((v, i) :: work)).head?, w ∈ adj a := by
    intro a ha
    cases Option.some.inj ha
    exact mem_of_getElem? hedge
  have hentered := h.visit hw hfrom
  have hv : state.snapshot.Met v := h.inv.ordered.met_of_active mem_cons_self
  have hwv : ¬ state.snapshot.Met w := not_not.mpr hw
  have hmet : (state.snapshot.visit w).Met w := h.inv.ordered.visit_met.mpr (Or.inl rfl)
  refine hentered.advance [(w, 0)] hedge hmet ?_
  intro _
  show (state.snapshot.visit w).lowlink v ≤ (state.snapshot.visit w).index w
  rw [Snapshot.visit_lowlink_of_met hwv hv, Snapshot.visit_index_self]
  exact (h.inv.bounds.le_index v mem_cons_self).trans (h.inv.ordered.index_lt v).le

theorem TarjanState.Sound.back (h : state.Sound adj ((v, i) :: work)) {w : Fin n}
    (hedge : (adj v)[i]? = some w) (hw : w ∈ state.stack) :
    (state.lower v (state.index w)).Sound adj ((v, i + 1) :: work) := by
  have hlowered := h.lower (k := state.index w) (v := v) fun _ =>
    ⟨w, hw, rfl, .single (mem_of_getElem? hedge)⟩
  refine hlowered.advance [] hedge (h.inv.ordered.met_of_stack hw) ?_
  intro _
  show Function.update state.lowlink v (min (state.lowlink v) (state.index w)) v ≤ _
  rw [Function.update_self]
  exact min_le_right _ _

theorem TarjanState.Sound.step (h : state.Sound adj ((v, i) :: work)) :
    (dfsStep adj v i work state).2.Sound adj (dfsStep adj v i work state).1 := by
  cases hedge : (adj v)[i]? with
  | none => exact h.leave hedge
  | some w =>
      rw [dfsStep, hedge]
      by_cases hw : state.index w = -1
      · simp only [if_pos hw]
        exact h.enter hedge hw
      · by_cases hmark : state.onStack w = true
        · simp only [if_neg hw, if_pos hmark]
          exact h.back hedge ((h.marks w).mp hmark)
        · simp only [if_neg hw, if_neg hmark]
          exact h.advance [] hedge hw fun hmem => absurd ((h.marks w).mpr hmem) hmark

/-! ## The loop ends -/

/-- What is left to do: a turn for every edge not followed, and one more for
every node to leave. -/
def remaining (adj : Adjacency n) (state : TarjanState n) (work : Frames (Fin n)) : Nat :=
  (∑ v, if state.index v = -1 then (adj v).length + 1 else 0) +
    (work.map fun frame => (adj frame.1).length - frame.2 + 1).sum

/-- A turn for every edge and every node. -/
def budget (adj : Adjacency n) : Nat := ∑ v, ((adj v).length + 1)

theorem remaining_cons : remaining adj state ((v, i) :: work) =
    remaining adj state work + ((adj v).length - i + 1) := by
  show _ + List.sum (((adj v).length - i + 1) :: _) = _
  rw [sum_cons, remaining]
  omega

theorem remaining_congr {state' : TarjanState n} (h : state'.index = state.index) :
    remaining adj state' work = remaining adj state work := by
  rw [remaining, remaining, h]

theorem remaining_le_budget : remaining adj state [] ≤ budget adj := by
  have hnode : ∀ v, (if state.index v = -1 then (adj v).length + 1 else 0) ≤
      (adj v).length + 1 := by
    intro v
    split
    · exact le_rfl
    · exact Nat.zero_le _
  show (∑ v, if state.index v = -1 then (adj v).length + 1 else 0) + 0 ≤ _
  exact (Finset.sum_le_sum fun v _ => hnode v : _ ≤ budget adj)

theorem remaining_visit {w : Fin n} (hw : state.index w = -1) (hcounter : state.counter ≠ -1) :
    remaining adj (state.visit w) ((w, 0) :: work) = remaining adj state work := by
  have hpoint : ∀ v, (if state.index v = -1 then (adj v).length + 1 else 0) =
      (if (state.visit w).index v = -1 then (adj v).length + 1 else 0) +
        if w = v then (adj v).length + 1 else 0 := by
    intro v
    show _ = (if Function.update state.index w state.counter v = -1 then _ else 0) + _
    by_cases hv : v = w
    · subst hv
      rw [Function.update_self, if_pos hw, if_neg hcounter, if_pos rfl, Nat.zero_add]
    · rw [Function.update_of_ne hv, if_neg (Ne.symm hv)]
      rfl
  rw [remaining_cons, remaining, remaining, Finset.sum_congr rfl fun v _ => hpoint v,
    Finset.sum_add_distrib, Finset.sum_ite_eq, if_pos (Finset.mem_univ w)]
  omega

variable (state work) in
theorem dfsStep_leave (hdone : (adj v)[i]? = none) :
    (dfsStep adj v i work state).1 = work ∧
      (dfsStep adj v i work state).2.index = state.index := by
  rw [dfsStep, hdone]
  have hindex : (if state.lowlink v = state.index v then state.popScc v else state).index =
      state.index := by
    split <;> rfl
  cases work with
  | nil => exact ⟨rfl, hindex⟩
  | cons frame work => exact ⟨rfl, hindex⟩

/-- Each turn does one thing. -/
theorem remaining_step (h : state.Sound adj ((v, i) :: work)) :
    remaining adj (dfsStep adj v i work state).2 (dfsStep adj v i work state).1 + 1 =
      remaining adj state ((v, i) :: work) := by
  cases hedge : (adj v)[i]? with
  | none =>
      obtain ⟨hwork, hindex⟩ := dfsStep_leave state work hedge
      have hlen : (adj v).length ≤ i := getElem?_eq_none_iff.mp hedge
      rw [hwork, remaining_congr hindex, remaining_cons, Nat.sub_eq_zero_of_le hlen]
  | some w =>
      obtain ⟨hlt, -⟩ := List.getElem?_eq_some_iff.mp hedge
      have hadvance : remaining adj state ((v, i + 1) :: work) + 1 =
          remaining adj state ((v, i) :: work) := by
        rw [remaining_cons, remaining_cons]
        omega
      rw [dfsStep, hedge, ← hadvance]
      by_cases hw : state.index w = -1
      · have hcounter : state.counter ≠ -1 := by
          have : 0 ≤ state.counter := h.inv.ordered.counter_nonneg
          omega
        simp only [if_pos hw, remaining_visit hw hcounter]
      · simp only [if_neg hw]
        split
        · rfl
        · rfl

theorem met_step (h : state.Sound adj ((v, i) :: work)) {x : Fin n}
    (hx : state.snapshot.Met x) : (dfsStep adj v i work state).2.snapshot.Met x := by
  cases hedge : (adj v)[i]? with
  | none =>
      obtain ⟨-, hindex⟩ := dfsStep_leave state work hedge
      intro hnew
      exact hx ((congrFun hindex x).symm.trans hnew)
  | some w =>
      rw [dfsStep, hedge]
      by_cases hw : state.index w = -1
      · simp only [if_pos hw]
        exact h.inv.ordered.visit_met.mpr (Or.inr hx)
      · simp only [if_neg hw]
        split
        · exact hx
        · exact hx

/-- The run: with a turn for everything left to do the loop returns. -/
theorem dfsLoop_sound : ∀ {fuel : Nat} {work : Frames (Fin n)} {state : TarjanState n},
    state.Sound adj work → remaining adj state work ≤ fuel →
    ∃ state', dfsLoop adj fuel work state = some state' ∧ state'.Sound adj [] ∧
      ∀ x, state.snapshot.Met x → state'.snapshot.Met x
  | fuel, [], state, h, _ => ⟨state, by cases fuel <;> rfl, h, fun _ hx => hx⟩
  | 0, (v, i) :: work, state, h, hfuel => by
      have hstep := remaining_step h
      omega
  | fuel + 1, (v, i) :: work, state, h, hfuel => by
      have hstep := remaining_step h
      have hfuel : _ ≤ fuel := Nat.le_of_succ_le_succ (hstep.trans_le hfuel)
      obtain ⟨state', hrun, hsound, hmet⟩ := dfsLoop_sound h.step hfuel
      exact ⟨state', hrun, hsound, fun x hx => hmet x (met_step h hx)⟩

theorem dfsIterative_sound {fuel : Nat} (hfuel : budget adj ≤ fuel) (h : state.Sound adj [])
    (hv : state.index v = -1) :
    ∃ state', dfsIterative fuel v adj state = some state' ∧ state'.Sound adj [] ∧
      state'.snapshot.Met v ∧ ∀ x, state.snapshot.Met x → state'.snapshot.Met x := by
  have hcounter : state.counter ≠ -1 := by
    have : 0 ≤ state.counter := h.inv.ordered.counter_nonneg
    omega
  have hleft : remaining adj (state.visit v) [(v, 0)] ≤ fuel := by
    rw [remaining_visit hv hcounter]
    exact remaining_le_budget.trans hfuel
  obtain ⟨state', hrun, hsound, hmet⟩ := dfsLoop_sound (h.visit hv nofun) hleft
  have hvisit : ∀ x, x = v ∨ state.snapshot.Met x → state'.snapshot.Met x := fun x hx =>
    hmet x (h.inv.ordered.visit_met.mpr hx)
  exact ⟨state', hrun, hsound, hvisit v (Or.inl rfl), fun x hx => hvisit x (Or.inr hx)⟩

theorem tarjanFrom_sound {fuel : Nat} (hfuel : budget adj ≤ fuel) :
    ∀ (vs : List (Fin n)) {state : TarjanState n}, state.Sound adj [] →
      ∃ state', tarjanFrom fuel adj vs state = some state' ∧ state'.Sound adj [] ∧
        (∀ v ∈ vs, state'.snapshot.Met v) ∧
        ∀ x, state.snapshot.Met x → state'.snapshot.Met x
  | [], state, h => ⟨state, rfl, h, nofun, fun _ hx => hx⟩
  | v :: vs, state, h => by
      rw [tarjanFrom]
      by_cases hv : state.index v = -1
      · obtain ⟨state₁, hrun, hsound, hmetv, hmet⟩ := dfsIterative_sound hfuel h hv
        obtain ⟨state₂, hrun₂, hsound₂, hmets, hmet₂⟩ := tarjanFrom_sound hfuel vs hsound
        refine ⟨state₂, ?_, hsound₂, forall_mem_cons.mpr ⟨hmet₂ v hmetv, hmets⟩,
          fun x hx => hmet₂ x (hmet x hx)⟩
        rw [if_neg (not_not.mpr hv), hrun]
        exact hrun₂
      · obtain ⟨state₂, hrun₂, hsound₂, hmets, hmet₂⟩ := tarjanFrom_sound hfuel vs h
        rw [if_pos hv]
        exact ⟨state₂, hrun₂, hsound₂, forall_mem_cons.mpr ⟨hmet₂ v hv, hmets⟩, hmet₂⟩

theorem TarjanState.Sound.init : (TarjanState.init n).Sound adj [] where
  inv := .init
  marks _ := iff_of_false Bool.false_ne_true not_mem_nil

/-- `tarjan_scc` returns the classes of mutual reachability. -/
theorem tarjanScc_partition (adj : Adjacency n) {fuel : Nat} (hfuel : budget adj ≤ fuel) :
    ∃ result, tarjanScc fuel adj = some result ∧ Partition adj result := by
  obtain ⟨state, hrun, hsound, hmet, -⟩ := tarjanFrom_sound hfuel (List.finRange n)
    (TarjanState.Sound.init : (TarjanState.init n).Sound adj [])
  refine ⟨state.result, ?_, hsound.inv.partition fun v => hmet v (mem_finRange v)⟩
  rw [tarjanScc, hrun]
  rfl

end Step

end SemanticDiff

end CodeGraph
