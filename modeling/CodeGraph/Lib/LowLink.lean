import Mathlib.Data.List.Perm.Basic
import CodeGraph.Lib.Worklist

/-!
# Depth-first search with low-links

The state of a search that looks for the classes of mutual reachability, and
what each of its moves keeps. A vertex is on the stack from the move that gives
it its index to the move that emits its class; of the vertices on the stack
those with a frame are still at work. Two facts carry the argument: a vertex at
work reaches every newer vertex on the stack, and every vertex on the stack
reaches some older vertex at work (`Spans`). So when the newest vertex at work
has followed all its edges and none of them led below it, the part of the
stack from it on is one class (`Inv.emit`).
-/

namespace LowLink

open List Relation Worklist

variable {V : Type*}

/-! ## The state -/

/-- `index` is `-1` at a vertex that was not met; the stack is newest first and
the classes are in the order they were completed. -/
structure Snapshot (V : Type*) where
  index : V → Int
  lowlink : V → Int
  stack : List V
  result : List (List V)
  counter : Int

/-- The vertices at work, newest first, each with the position of the next edge
to follow. -/
abbrev Frames (V : Type*) := List (V × Nat)

/-- The vertices at work. -/
def active (work : Frames V) : List V := work.map Prod.fst

abbrev Reaches (next : V → List V) : V → V → Prop := ReflTransGen (Step next)

def Mutual (next : V → List V) (a b : V) : Prop := Reaches next a b ∧ Reaches next b a

variable {a b : V}

theorem Mutual.symm {next : V → List V} (h : Mutual next a b) : Mutual next b a :=
  ⟨h.2, h.1⟩

theorem Mutual.trans {next : V → List V} {c : V} (hab : Mutual next a b)
    (hbc : Mutual next b c) : Mutual next a c :=
  ⟨hab.1.trans hbc.1, hbc.2.trans hab.2⟩

/-- An edge that the search has followed, once its source has been met. -/
def Followed (next : V → List V) (work : Frames V) (x y : V) : Prop :=
  y ∈ next x ∧ ∀ i, (x, i) ∈ work → y ∈ (next x).take i

namespace Snapshot

def Met (s : Snapshot V) (v : V) : Prop := s.index v ≠ -1

/-- Everything recorded is consistent with the order the vertices were met in. -/
structure Ordered (s : Snapshot V) (active : List V) : Prop where
  index_lt : ∀ v, s.index v < s.counter
  counter_nonneg : 0 ≤ s.counter
  met_iff : ∀ v, s.Met v ↔ v ∈ s.stack ∨ v ∈ s.result.flatten
  nodup : (s.stack ++ s.result.flatten).Nodup
  stack_sorted : s.stack.Pairwise fun a b => s.index b < s.index a
  active_sorted : active.Pairwise fun a b => s.index b < s.index a
  on_stack : ∀ a ∈ active, a ∈ s.stack

/-- How the vertices at work and those on the stack reach each other. -/
structure Spans (next : V → List V) (s : Snapshot V) (active : List V) : Prop where
  down : ∀ a ∈ active, ∀ y ∈ s.stack, s.index a ≤ s.index y → Reaches next a y
  up : ∀ x ∈ s.stack, ∃ a ∈ active, s.index a ≤ s.index x ∧ Reaches next x a

/-- `a` is the newest vertex at work at or below `x` on the stack. -/
def Owns (s : Snapshot V) (active : List V) (a x : V) : Prop :=
  a ∈ active ∧ s.index a ≤ s.index x ∧
    ∀ b ∈ active, s.index b ≤ s.index x → s.index b ≤ s.index a

/-- A low-link is the index of a vertex on the stack that is reached, and no
followed edge of a vertex owned leads further down. -/
structure Bounds (next : V → List V) (s : Snapshot V) (work : Frames V) : Prop where
  le_index : ∀ a ∈ active work, s.lowlink a ≤ s.index a
  reached : ∀ a ∈ active work, ∃ u ∈ s.stack, s.index u = s.lowlink a ∧ Reaches next a u
  below : ∀ a x, s.Owns (active work) a x → x ∈ s.stack → ∀ y ∈ s.stack,
    Followed next work x y → s.lowlink a ≤ s.index y

end Snapshot

/-- What has been emitted: whole classes, with everything they lead to. -/
structure Emitted (next : V → List V) (result : List (List V)) : Prop where
  closed : ∀ x ∈ result.flatten, ∀ y ∈ next x, y ∈ result.flatten
  classes : ∀ C ∈ result, ∀ v ∈ C, ∀ w, w ∈ C ↔ Mutual next v w
  nonempty : ∀ C ∈ result, C ≠ []

/-- The invariant of the search. -/
structure Inv (next : V → List V) (s : Snapshot V) (work : Frames V) : Prop where
  ordered : s.Ordered (active work)
  followed : ∀ x y, s.Met x → Followed next work x y → s.Met y
  spans : s.Spans next (active work)
  bounds : s.Bounds next work
  emitted : Emitted next s.result

theorem Emitted.nil (next : V → List V) : Emitted next [] where
  closed := nofun
  classes := nofun
  nonempty := nofun

variable {x y : V}

/-- What is closed under edges is closed under reachability. -/
theorem Emitted.reaches {next : V → List V} {result : List (List V)} (h : Emitted next result) (hx : x ∈ result.flatten) (hxy : Reaches next x y) : y ∈ result.flatten := by
  induction hxy with
  | refl => exact hx
  | tail _ hedge ih => exact h.closed _ ih _ hedge

theorem Followed.of_cons {next : V → List V} {work : Frames V} {f : V × Nat}
    (h : Followed next (f :: work) x y) : Followed next work x y :=
  ⟨h.1, fun i hi => h.2 i (mem_cons_of_mem _ hi)⟩

namespace Snapshot

/-! ## Order -/

section Order

variable {s : Snapshot V} {active : List V}

theorem Ordered.met_of_stack (h : s.Ordered active) {v : V} (hv : v ∈ s.stack) : s.Met v :=
  (h.met_iff v).mpr (Or.inl hv)

theorem Ordered.met_of_active (h : s.Ordered active) (ha : a ∈ active) : s.Met a :=
  h.met_of_stack (h.on_stack a ha)

/-- The first of the vertices at work is the newest. -/
theorem Ordered.le_top (h : s.Ordered (a :: active)) (hb : b ∈ a :: active) :
    s.index b ≤ s.index a := by
  rcases mem_cons.mp hb with rfl | hb
  · exact le_rfl
  · exact (rel_of_pairwise_cons h.active_sorted hb).le

/-- A vertex at work as new as the first is the first. -/
theorem Ordered.eq_top (h : s.Ordered (a :: active)) (hb : b ∈ a :: active)
    (hle : s.index a ≤ s.index b) : b = a := by
  rcases mem_cons.mp hb with rfl | hb
  · rfl
  · exact absurd hle (rel_of_pairwise_cons h.active_sorted hb).not_ge

theorem Ordered.eq_of_index (h : s.Ordered active) (hx : x ∈ s.stack)
    (hy : y ∈ s.stack) (heq : s.index x = s.index y) : x = y := by
  have hnodup : (s.stack.map s.index).Nodup :=
    pairwise_map.mpr (h.stack_sorted.imp fun hlt => hlt.ne')
  exact inj_on_of_nodup_map hnodup hx hy heq

/-- The stack from its top down to `v` holds the vertices at least as new as `v`. -/
theorem Ordered.mem_newer (h : s.Ordered active) {newer rest : List V} {v : V}
    (hstack : s.stack = newer ++ v :: rest) (hx : x ∈ s.stack) :
    x ∈ newer ++ [v] ↔ s.index v ≤ s.index x := by
  have hsorted := h.stack_sorted
  rw [hstack] at hx hsorted
  obtain ⟨_, hrest, hcross⟩ := pairwise_append.mp hsorted
  have hv : v ∈ v :: rest := mem_cons_self
  rcases mem_append.mp hx with hx | hx
  · exact iff_of_true (mem_append_left _ hx) (hcross x hx v hv).le
  · rcases mem_cons.mp hx with rfl | hx
    · exact iff_of_true (mem_append_right _ mem_cons_self) le_rfl
    · have hlt : s.index x < s.index v := rel_of_pairwise_cons hrest hx
      refine iff_of_false (fun hmem => ?_) hlt.not_ge
      rcases mem_append.mp hmem with hnewer | heq
      · exact lt_asymm hlt (hcross x hnewer v hv)
      · exact hlt.ne (congrArg s.index (mem_singleton.mp heq))

theorem Ordered.mem_older (h : s.Ordered active) {newer rest : List V} {v : V}
    (hstack : s.stack = newer ++ v :: rest) : x ∈ rest ↔ x ∈ s.stack ∧ s.index x < s.index v := by
  have hnodup : s.stack.Nodup := (nodup_append.mp h.nodup).1
  have hsplit : s.stack = (newer ++ [v]) ++ rest := by rw [hstack, append_cons]
  rw [hsplit] at hnodup
  refine ⟨fun hx => ?_, fun ⟨hx, hlt⟩ => ?_⟩
  · have hmem : x ∈ s.stack := hsplit ▸ mem_append_right _ hx
    refine ⟨hmem, not_le.mp fun hle => ?_⟩
    exact disjoint_of_nodup_append hnodup ((h.mem_newer hstack hmem).mpr hle) hx
  · have hnot := mt (h.mem_newer hstack hx).mp hlt.not_ge
    rw [hsplit, mem_append] at hx
    exact hx.resolve_left hnot

end Order

/-! ## Meeting a vertex -/

def visit [DecidableEq V] (w : V) (s : Snapshot V) : Snapshot V where
  index := Function.update s.index w s.counter
  lowlink := Function.update s.lowlink w s.counter
  stack := w :: s.stack
  result := s.result
  counter := s.counter + 1

section Visit

variable [DecidableEq V] {s : Snapshot V} {active : List V} {w : V}

theorem visit_index_of_met (hw : ¬ s.Met w) {v : V} (hv : s.Met v) :
    (s.visit w).index v = s.index v :=
  Function.update_of_ne (fun heq : v = w => hw (heq ▸ hv)) _ _

theorem visit_lowlink_of_met (hw : ¬ s.Met w) {v : V} (hv : s.Met v) :
    (s.visit w).lowlink v = s.lowlink v :=
  Function.update_of_ne (fun heq : v = w => hw (heq ▸ hv)) _ _

theorem visit_index_self : (s.visit w).index w = s.counter := Function.update_self ..

theorem visit_lowlink_self : (s.visit w).lowlink w = s.counter := Function.update_self ..

theorem Ordered.visit_met (h : s.Ordered active) {v : V} :
    (s.visit w).Met v ↔ v = w ∨ s.Met v := by
  by_cases hv : v = w
  · subst hv
    have hne : s.counter ≠ -1 := by have := h.counter_nonneg; omega
    exact iff_of_true (by rw [Met, visit_index_self]; exact hne) (Or.inl rfl)
  · have hsame : (s.visit w).index v = s.index v := Function.update_of_ne hv _ _
    rw [or_iff_right hv, Met, Met, hsame]

theorem Ordered.visit (h : s.Ordered active) (hw : ¬ s.Met w) :
    (s.visit w).Ordered (w :: active) where
  index_lt v := by
    show Function.update s.index w s.counter v < s.counter + 1
    rw [Function.update_apply]
    have hv := h.index_lt v
    split <;> omega
  counter_nonneg := by
    have := h.counter_nonneg
    show 0 ≤ s.counter + 1
    omega
  met_iff v := by rw [h.visit_met, h.met_iff, ← or_assoc]; exact or_congr_left mem_cons.symm
  nodup := by
    refine nodup_cons.mpr ⟨fun hmem => hw ((h.met_iff w).mpr ?_), h.nodup⟩
    exact mem_append.mp hmem
  stack_sorted := by
    refine pairwise_cons.mpr ⟨fun y hy => ?_, h.stack_sorted.imp_of_mem fun ha hb hab => ?_⟩
    · rw [visit_index_self, visit_index_of_met hw (h.met_of_stack hy)]
      exact h.index_lt y
    · rwa [visit_index_of_met hw (h.met_of_stack ha), visit_index_of_met hw (h.met_of_stack hb)]
  active_sorted := by
    refine pairwise_cons.mpr ⟨fun a ha => ?_, h.active_sorted.imp_of_mem fun ha hb hab => ?_⟩
    · rw [visit_index_self, visit_index_of_met hw (h.met_of_active ha)]
      exact h.index_lt a
    · rwa [visit_index_of_met hw (h.met_of_active ha), visit_index_of_met hw (h.met_of_active hb)]
  on_stack a ha := by
    rcases mem_cons.mp ha with rfl | ha
    · exact mem_cons_self
    · exact mem_cons_of_mem _ (h.on_stack a ha)

variable {next : V → List V}

/-- The new vertex reaches itself, and is reached from everything at work. -/
theorem Spans.visit (h : s.Spans next active) (ho : s.Ordered active) (hw : ¬ s.Met w)
    (hfrom : ∀ a ∈ active.head?, w ∈ next a) : (s.visit w).Spans next (w :: active) where
  down a ha y hy hle := by
    rcases mem_cons.mp ha with rfl | hold
    · rcases mem_cons.mp hy with rfl | hy
      · exact .refl
      · rw [visit_index_self, visit_index_of_met hw (ho.met_of_stack hy)] at hle
        exact absurd (ho.index_lt y) hle.not_gt
    · rcases mem_cons.mp hy with rfl | hy
      · cases active with
        | nil => exact absurd hold not_mem_nil
        | cons top rest =>
            have htop : top ∈ s.stack := ho.on_stack top mem_cons_self
            exact (h.down a hold top htop (ho.le_top hold)).tail (hfrom top rfl)
      · rw [visit_index_of_met hw (ho.met_of_active hold),
          visit_index_of_met hw (ho.met_of_stack hy)] at hle
        exact h.down a hold y hy hle
  up x hx := by
    rcases mem_cons.mp hx with rfl | hx
    · exact ⟨x, mem_cons_self, le_rfl, .refl⟩
    · obtain ⟨a, ha, hle, hreach⟩ := h.up x hx
      refine ⟨a, mem_cons_of_mem _ ha, ?_, hreach⟩
      rwa [visit_index_of_met hw (ho.met_of_active ha),
        visit_index_of_met hw (ho.met_of_stack hx)]

end Visit

end Snapshot

section Visit

variable {next : V → List V} {s : Snapshot V} {work : Frames V} {w : V}

/-- No edge of a vertex just met has been followed. -/
theorem not_followed_new : ¬ Followed next ((w, 0) :: work) w x := fun h => by
  simpa using h.2 0 mem_cons_self

variable [DecidableEq V]

theorem Inv.followed_visit (h : Inv next s work) (hx : (s.visit w).Met x)
    (hxy : Followed next ((w, 0) :: work) x y) : s.Met y := by
  rcases h.ordered.visit_met.mp hx with rfl | hx
  · exact absurd hxy not_followed_new
  · exact h.followed x y hx hxy.of_cons

/-- The new vertex owns itself only, and what was owned keeps its owner. -/
theorem Inv.bounds_visit (h : Inv next s work) (hw : ¬ s.Met w) :
    (s.visit w).Bounds next ((w, 0) :: work) where
  le_index a ha := by
    rcases mem_cons.mp ha with rfl | ha
    · rw [Snapshot.visit_lowlink_self, Snapshot.visit_index_self]
    · have hmet := h.ordered.met_of_active ha
      rw [Snapshot.visit_lowlink_of_met hw hmet, Snapshot.visit_index_of_met hw hmet]
      exact h.bounds.le_index a ha
  reached a ha := by
    rcases mem_cons.mp ha with rfl | ha
    · refine ⟨a, mem_cons_self, ?_, .refl⟩
      rw [Snapshot.visit_lowlink_self, Snapshot.visit_index_self]
    · obtain ⟨u, hu, hindex, hreach⟩ := h.bounds.reached a ha
      refine ⟨u, mem_cons_of_mem _ hu, ?_, hreach⟩
      rwa [Snapshot.visit_index_of_met hw (h.ordered.met_of_stack hu),
        Snapshot.visit_lowlink_of_met hw (h.ordered.met_of_active ha)]
  below a x hown hx y hy hxy := by
    have hxw : x ≠ w := fun heq => not_followed_new (heq ▸ hxy)
    have hx : x ∈ s.stack := (mem_cons.mp hx).resolve_left hxw
    have hxmet := h.ordered.met_of_stack hx
    have hymet : s.Met y := h.followed x y hxmet hxy.of_cons
    have hy : y ∈ s.stack :=
      (mem_cons.mp hy).resolve_left fun heq => hw (heq ▸ hymet)
    obtain ⟨ha, hle, hnewest⟩ := hown
    rw [Snapshot.visit_index_of_met hw hxmet] at hle hnewest
    rcases mem_cons.mp ha with rfl | ha
    · rw [Snapshot.visit_index_self] at hle
      exact absurd (h.ordered.index_lt x) hle.not_gt
    · have hamet := h.ordered.met_of_active ha
      rw [Snapshot.visit_index_of_met hw hamet] at hle hnewest
      rw [Snapshot.visit_lowlink_of_met hw hamet, Snapshot.visit_index_of_met hw hymet]
      refine h.bounds.below a x ⟨ha, hle, fun b hb hble => ?_⟩ hx y hy hxy.of_cons
      have hb' := hnewest b (mem_cons_of_mem _ hb)
      rw [Snapshot.visit_index_of_met hw (h.ordered.met_of_active hb)] at hb'
      exact hb' hble

/-- A vertex that an edge of the newest vertex at work leads to is met. -/
theorem Inv.visit (h : Inv next s work) (hw : ¬ s.Met w)
    (hfrom : ∀ a ∈ (active work).head?, w ∈ next a) :
    Inv next (s.visit w) ((w, 0) :: work) where
  ordered := h.ordered.visit hw
  followed _ _ hx hxy := h.ordered.visit_met.mpr (Or.inr (h.followed_visit hx hxy))
  spans := h.spans.visit h.ordered hw hfrom
  bounds := h.bounds_visit hw
  emitted := h.emitted

end Visit

/-! ## Following an edge -/

section Follow

variable {next : V → List V} {s : Snapshot V} {top rest : Frames V} {v w : V} {i : Nat}

theorem active_advance (i j : Nat) :
    active (top ++ (v, j) :: rest) = active (top ++ (v, i) :: rest) := by
  simp [active]

/-- One position further, one edge more has been followed. -/
theorem Followed.of_advance (hedge : (next v)[i]? = some w)
    (h : Followed next (top ++ (v, i + 1) :: rest) x y) :
    Followed next (top ++ (v, i) :: rest) x y ∨ x = v ∧ y = w := by
  by_cases hxy : x = v ∧ y = w
  · exact Or.inr hxy
  · refine Or.inl ⟨h.1, fun j hj => ?_⟩
    rcases mem_append.mp hj with hj | hj
    · exact h.2 j (mem_append_left _ hj)
    · rcases mem_cons.mp hj with heq | hj
      · cases heq
        have hy := h.2 (i + 1) (mem_append_right _ mem_cons_self)
        rw [take_add_one, hedge, mem_append] at hy
        rcases hy with hy | hy
        · exact hy
        · exact absurd ⟨rfl, mem_singleton.mp hy⟩ hxy
      · exact h.2 j (mem_append_right _ (mem_cons_of_mem _ hj))

/-- An edge to a vertex that was met is followed; where that vertex is still on
the stack, the low-link must cover it. -/
theorem Inv.advance (h : Inv next s (top ++ (v, i) :: rest)) (hedge : (next v)[i]? = some w)
    (hw : s.Met w) (hlow : w ∈ s.stack → s.lowlink v ≤ s.index w) :
    Inv next s (top ++ (v, i + 1) :: rest) where
  ordered := by rw [active_advance i]; exact h.ordered
  followed x y hx hxy := by
    rcases hxy.of_advance hedge with hxy | ⟨-, rfl⟩
    · exact h.followed x y hx hxy
    · exact hw
  spans := by rw [active_advance i]; exact h.spans
  bounds := {
    le_index := by rw [active_advance i]; exact h.bounds.le_index
    reached := by rw [active_advance i]; exact h.bounds.reached
    below := fun a x hown hx y hy hxy => by
      rw [active_advance i] at hown
      rcases hxy.of_advance hedge with hxy | ⟨rfl, rfl⟩
      · exact h.bounds.below a x hown hx y hy hxy
      · -- the source is at work, so it owns itself
        have hactive : x ∈ active (top ++ (x, i) :: rest) := by simp [active]
        have hindex : s.index a = s.index x :=
          le_antisymm hown.2.1 (hown.2.2 x hactive le_rfl)
        have heq : a = x := h.ordered.eq_of_index (h.ordered.on_stack a hown.1) hx hindex
        exact heq ▸ hlow hy }
  emitted := h.emitted

/-- Lowering the low-link of a vertex to the index of a vertex on the stack that
it reaches. -/
def Snapshot.lower [DecidableEq V] (v : V) (k : Int) (s : Snapshot V) : Snapshot V :=
  { s with lowlink := Function.update s.lowlink v (min (s.lowlink v) k) }

variable [DecidableEq V] {work : Frames V} {k : Int}

theorem Snapshot.lower_le (a : V) : (s.lower v k).lowlink a ≤ s.lowlink a := by
  show Function.update s.lowlink v (min (s.lowlink v) k) a ≤ _
  rw [Function.update_apply]
  split
  · next heq => exact heq ▸ min_le_left _ _
  · exact le_rfl

theorem Snapshot.lower_self : (s.lower v k).lowlink v = min (s.lowlink v) k :=
  Function.update_self ..

theorem Inv.lower (h : Inv next s work)
    (hk : v ∈ active work → ∃ u ∈ s.stack, s.index u = k ∧ Reaches next v u) :
    Inv next (s.lower v k) work where
  ordered := { h.ordered with }
  followed := h.followed
  spans := { h.spans with }
  bounds := {
    le_index := fun a ha => (Snapshot.lower_le a).trans (h.bounds.le_index a ha)
    reached := fun a ha => by
      by_cases hav : a = v
      · subst hav
        rw [Snapshot.lower_self]
        rcases min_choice (s.lowlink a) k with hmin | hmin <;> rw [hmin]
        · exact h.bounds.reached a ha
        · exact hk ha
      · have hsame : (s.lower v k).lowlink a = s.lowlink a := Function.update_of_ne hav _ _
        rw [hsame]
        exact h.bounds.reached a ha
    below := fun a x hown hx y hy hxy =>
      (Snapshot.lower_le a).trans (h.bounds.below a x hown hx y hy hxy) }
  emitted := h.emitted

end Follow

/-! ## Leaving a vertex -/

section Leave

variable {next : V → List V} {s : Snapshot V} {work : Frames V} {v : V} {i : Nat}

/-- A vertex whose edges were all followed needs no frame. -/
theorem Followed.cons_of_done (hdone : (next v).length ≤ i)
    (h : Followed next work x y) : Followed next ((v, i) :: work) x y := by
  refine ⟨h.1, fun j hj => ?_⟩
  rcases mem_cons.mp hj with heq | hj
  · cases heq
    rw [take_of_length_le hdone]
    exact h.1
  · exact h.2 j hj

theorem Snapshot.Ordered.tail {rest : List V} (h : s.Ordered (a :: rest)) : s.Ordered rest :=
  { h with
    active_sorted := h.active_sorted.of_cons
    on_stack := fun b hb => h.on_stack b (mem_cons_of_mem _ hb) }

/-- What the newest vertex at work owned goes to the next one, and nothing else
changes hands. -/
theorem Snapshot.Ordered.owns_cons {rest : List V} (h : s.Ordered (a :: rest))
    (hown : s.Owns rest b x) :
    s.Owns (a :: rest) b x ∨ s.Owns (a :: rest) a x ∧ rest.head? = some b := by
  by_cases hax : s.index a ≤ s.index x
  · refine Or.inr ⟨⟨mem_cons_self, hax, fun c hc _ => h.le_top hc⟩, ?_⟩
    cases rest with
    | nil => exact absurd hown.1 not_mem_nil
    | cons c rest =>
        have hca : s.index c < s.index a := rel_of_pairwise_cons h.active_sorted
          mem_cons_self
        have hcb : s.index c ≤ s.index b := hown.2.2 c mem_cons_self (hca.le.trans hax)
        exact congrArg some (h.tail.eq_top hown.1 hcb).symm
  · refine Or.inl ⟨mem_cons_of_mem _ hown.1, hown.2.1, fun c hc hcx => ?_⟩
    rcases mem_cons.mp hc with rfl | hc
    · exact absurd hcx hax
    · exact hown.2.2 c hc hcx

/-- A vertex that reaches below itself is left on the stack: what it stood for
reaches a vertex that is still at work. -/
theorem Inv.retire (h : Inv next s ((v, i) :: work)) (hdone : (next v).length ≤ i)
    (hlow : s.lowlink v < s.index v)
    (hparent : ∀ p ∈ (active work).head?, s.lowlink p ≤ s.lowlink v) : Inv next s work where
  ordered := h.ordered.tail
  followed x y hx hxy := h.followed x y hx (hxy.cons_of_done hdone)
  spans := {
    down := fun a ha => h.spans.down a (mem_cons_of_mem _ ha)
    up := fun x hx => by
      obtain ⟨a, ha, hle, hreach⟩ := h.spans.up x hx
      rcases mem_cons.mp ha with rfl | ha
      · obtain ⟨u, hu, hindex, hau⟩ := h.bounds.reached a mem_cons_self
        obtain ⟨b, hb, hble, hub⟩ := h.spans.up u hu
        have hba : s.index b < s.index a := by omega
        rcases mem_cons.mp hb with rfl | hb
        · exact absurd hba (lt_irrefl _)
        · exact ⟨b, hb, (hba.le.trans hle), (hreach.trans hau).trans hub⟩
      · exact ⟨a, ha, hle, hreach⟩ }
  bounds := {
    le_index := fun a ha => h.bounds.le_index a (mem_cons_of_mem _ ha)
    reached := fun a ha => h.bounds.reached a (mem_cons_of_mem _ ha)
    below := fun a x hown hx y hy hxy => by
      rcases h.ordered.owns_cons hown with hown | ⟨hown, hhead⟩
      · exact h.bounds.below a x hown hx y hy (hxy.cons_of_done hdone)
      · exact (hparent a hhead).trans
          (h.bounds.below v x hown hx y hy (hxy.cons_of_done hdone)) }
  emitted := h.emitted

/-! ### Emitting a class

The stack from its top down to `v` is emitted. -/

variable {newer rest : List V}

theorem Inv.mem_class (h : Inv next s ((v, i) :: work)) (hstack : s.stack = newer ++ v :: rest) (hx : x ∈ newer ++ [v]) : x ∈ s.stack ∧ s.index v ≤ s.index x := by
  have hmem : x ∈ s.stack := by
    rw [hstack, append_cons]
    exact mem_append_left _ hx
  exact ⟨hmem, (h.ordered.mem_newer hstack hmem).mp hx⟩

theorem Inv.class_mutual (h : Inv next s ((v, i) :: work))
    (hstack : s.stack = newer ++ v :: rest) (hx : x ∈ newer ++ [v]) : Mutual next v x := by
  obtain ⟨hmem, hle⟩ := h.mem_class hstack hx
  obtain ⟨a, ha, -, hxa⟩ := h.spans.up x hmem
  have hv : v ∈ s.stack := h.ordered.on_stack v mem_cons_self
  have hav : Reaches next a v := h.spans.down a ha v hv (h.ordered.le_top ha)
  exact ⟨h.spans.down v mem_cons_self x hmem hle, hxa.trans hav⟩

theorem Inv.class_followed (h : Inv next s ((v, i) :: work)) (hdone : (next v).length ≤ i)
    (hstack : s.stack = newer ++ v :: rest) (hx : x ∈ newer ++ [v])
    (hy : y ∈ next x) : Followed next ((v, i) :: work) x y := by
  refine Followed.cons_of_done hdone ⟨hy, fun j hj => ?_⟩
  have hactive : x ∈ active work := mem_map_of_mem hj
  have hlt : s.index x < s.index v := rel_of_pairwise_cons h.ordered.active_sorted hactive
  exact absurd (h.mem_class hstack hx).2 hlt.not_ge

/-- The edges of the class lead into it or to what has been emitted. -/
theorem Inv.class_closed (h : Inv next s ((v, i) :: work)) (hdone : (next v).length ≤ i)
    (hlow : s.index v ≤ s.lowlink v) (hstack : s.stack = newer ++ v :: rest)
    (hx : x ∈ newer ++ [v]) (hy : y ∈ next x) : y ∈ newer ++ [v] ∨ y ∈ s.result.flatten := by
  obtain ⟨hmem, hle⟩ := h.mem_class hstack hx
  have hxy := h.class_followed hdone hstack hx hy
  have hmet : s.Met y := h.followed x y (h.ordered.met_of_stack hmem) hxy
  rcases (h.ordered.met_iff y).mp hmet with hys | hyr
  · have hown : s.Owns (active ((v, i) :: work)) v x :=
      ⟨mem_cons_self, hle, fun b hb _ => h.ordered.le_top hb⟩
    have hbelow := h.bounds.below v x hown hmem y hys hxy
    exact Or.inl ((h.ordered.mem_newer hstack hys).mpr (hlow.trans hbelow))
  · exact Or.inr hyr

theorem Inv.class_reaches (h : Inv next s ((v, i) :: work)) (hdone : (next v).length ≤ i)
    (hlow : s.index v ≤ s.lowlink v) (hstack : s.stack = newer ++ v :: rest)
    (hy : Reaches next v y) : y ∈ newer ++ [v] ∨ y ∈ s.result.flatten := by
  induction hy with
  | refl => exact Or.inl (mem_append_right _ mem_cons_self)
  | tail _ hedge ih =>
      rcases ih with hclass | hemitted
      · exact h.class_closed hdone hlow hstack hclass hedge
      · exact Or.inr (h.emitted.closed _ hemitted _ hedge)

theorem Inv.class_iff (h : Inv next s ((v, i) :: work)) (hdone : (next v).length ≤ i)
    (hlow : s.index v ≤ s.lowlink v) (hstack : s.stack = newer ++ v :: rest) :
    y ∈ newer ++ [v] ↔ Mutual next v y := by
  refine ⟨h.class_mutual hstack, fun hmutual => ?_⟩
  rcases h.class_reaches hdone hlow hstack hmutual.1 with hclass | hemitted
  · exact hclass
  · have hv : v ∈ s.stack := h.ordered.on_stack v mem_cons_self
    have hv' : v ∈ s.result.flatten := h.emitted.reaches hemitted hmutual.2
    exact absurd hv' (disjoint_of_nodup_append h.ordered.nodup hv)

def Snapshot.emit (s : Snapshot V) (C rest : List V) : Snapshot V :=
  { s with stack := rest, result := s.result ++ [C] }

theorem Snapshot.mem_emit_result {C : List V} :
    x ∈ (s.emit C rest).result.flatten ↔ x ∈ C ∨ x ∈ s.result.flatten := by
  show x ∈ (s.result ++ [C]).flatten ↔ _
  rw [flatten_append, flatten_singleton, mem_append, or_comm]

theorem Snapshot.Ordered.emit {active : List V} (h : s.Ordered (v :: active))
    (hstack : s.stack = newer ++ v :: rest) :
    (s.emit (newer ++ [v]) rest).Ordered active where
  index_lt := h.index_lt
  counter_nonneg := h.counter_nonneg
  met_iff x := by
    rw [Snapshot.mem_emit_result, ← or_assoc]
    refine (h.met_iff x).trans (or_congr_left ?_)
    rw [hstack, append_cons, mem_append]
    exact or_comm
  nodup := by
    have hnodup := h.nodup
    rw [hstack, append_cons] at hnodup
    refine (List.Perm.nodup_iff ?_).mp hnodup
    show List.Perm _ (rest ++ (s.result ++ [newer ++ [v]]).flatten)
    rw [flatten_append, flatten_singleton, ← append_assoc]
    rw [append_assoc (newer ++ [v])]
    exact perm_append_comm
  stack_sorted := by
    have hsorted := h.stack_sorted
    rw [hstack] at hsorted
    exact (pairwise_append.mp hsorted).2.1.of_cons
  active_sorted := h.active_sorted.of_cons
  on_stack a ha := by
    exact (h.mem_older hstack).mpr
      ⟨h.on_stack a (mem_cons_of_mem _ ha), rel_of_pairwise_cons h.active_sorted ha⟩

theorem Inv.emitted_emit (h : Inv next s ((v, i) :: work)) (hdone : (next v).length ≤ i)
    (hlow : s.index v ≤ s.lowlink v) (hstack : s.stack = newer ++ v :: rest) :
    Emitted next (s.emit (newer ++ [v]) rest).result where
  closed x hx y hy := by
    rw [Snapshot.mem_emit_result] at hx ⊢
    rcases hx with hx | hx
    · exact h.class_closed hdone hlow hstack hx hy
    · exact Or.inr (h.emitted.closed x hx y hy)
  classes C hC a ha b := by
    rcases mem_append.mp hC with hC | hC
    · exact h.emitted.classes C hC a ha b
    · cases mem_singleton.mp hC
      have hva := h.class_mutual hstack ha
      rw [h.class_iff hdone hlow hstack]
      exact ⟨hva.symm.trans, hva.trans⟩
  nonempty C hC := by
    rcases mem_append.mp hC with hC | hC
    · exact h.emitted.nonempty C hC
    · cases mem_singleton.mp hC
      exact append_ne_nil_of_right_ne_nil _ (cons_ne_nil _ _)

/-- The newest vertex at work, with no followed edge below it, takes its class
off the stack. -/
theorem Inv.emit (h : Inv next s ((v, i) :: work)) (hdone : (next v).length ≤ i)
    (hlow : s.index v ≤ s.lowlink v) (hstack : s.stack = newer ++ v :: rest) :
    Inv next (s.emit (newer ++ [v]) rest) work where
  ordered := h.ordered.emit hstack
  followed x y hx hxy := h.followed x y hx (hxy.cons_of_done hdone)
  spans := {
    down := fun a ha y hy =>
      h.spans.down a (mem_cons_of_mem _ ha) y ((h.ordered.mem_older hstack).mp hy).1
    up := fun x hx => by
      obtain ⟨hmem, hlt⟩ := (h.ordered.mem_older hstack).mp hx
      obtain ⟨a, ha, hle, hreach⟩ := h.spans.up x hmem
      rcases mem_cons.mp ha with rfl | ha
      · exact absurd hle hlt.not_ge
      · exact ⟨a, ha, hle, hreach⟩ }
  bounds := {
    le_index := fun a ha => h.bounds.le_index a (mem_cons_of_mem _ ha)
    reached := fun a ha => by
      have hav : s.index a < s.index v := rel_of_pairwise_cons h.ordered.active_sorted ha
      have hle := h.bounds.le_index a (mem_cons_of_mem _ ha)
      obtain ⟨u, hu, hindex, hau⟩ := h.bounds.reached a (mem_cons_of_mem _ ha)
      have huv : s.index u < s.index v := by omega
      exact ⟨u, (h.ordered.mem_older hstack).mpr ⟨hu, huv⟩, hindex, hau⟩
    below := fun a x hown hx y hy hxy => by
      obtain ⟨hmem, hlt⟩ := (h.ordered.mem_older hstack).mp hx
      obtain ⟨hmemy, -⟩ := (h.ordered.mem_older hstack).mp hy
      rcases h.ordered.owns_cons hown with hown | ⟨hown, -⟩
      · exact h.bounds.below a x hown hmem y hmemy (hxy.cons_of_done hdone)
      · exact absurd hown.2.1 hlt.not_ge }
  emitted := h.emitted_emit hdone hlow hstack

end Leave

/-! ## The start and the end of a search -/

section Run

variable {next : V → List V} {s : Snapshot V}

/-- Nothing has been met yet. -/
theorem Inv.init : Inv next (⟨fun _ => -1, fun _ => -1, [], [], 0⟩ : Snapshot V) [] where
  ordered := {
    index_lt := fun _ => show (-1 : Int) < 0 by omega
    counter_nonneg := le_rfl
    met_iff := fun v => iff_of_false (fun h => h rfl) (by simp)
    nodup := nodup_nil
    stack_sorted := .nil
    active_sorted := .nil
    on_stack := nofun }
  followed _ _ hx _ := absurd rfl hx
  spans := { down := nofun, up := nofun }
  bounds := { le_index := nofun, reached := nofun, below := nofun }
  emitted := .nil next

/-- With nothing at work the stack is empty. -/
theorem Inv.stack_nil (h : Inv next s []) : s.stack = [] := by
  refine eq_nil_iff_forall_not_mem.mpr ?_
  intro x hx
  obtain ⟨a, ha, -⟩ := h.spans.up x hx
  exact not_mem_nil ha

theorem Inv.met_iff_emitted (h : Inv next s []) {v : V} : s.Met v ↔ v ∈ s.result.flatten := by
  rw [h.ordered.met_iff, h.stack_nil, or_iff_right (not_mem_nil)]

/-- The lists are the classes of mutual reachability, each vertex in one. -/
structure Partition (next : V → List V) (result : List (List V)) : Prop where
  covers : ∀ v, v ∈ result.flatten
  once : result.flatten.Nodup
  nonempty : ∀ C ∈ result, C ≠ []
  classes : ∀ C ∈ result, ∀ v ∈ C, ∀ w, w ∈ C ↔ Mutual next v w

theorem Inv.partition (h : Inv next s []) (hmet : ∀ v, s.Met v) : Partition next s.result where
  covers v := h.met_iff_emitted.mp (hmet v)
  once := (nodup_append.mp h.ordered.nodup).2.1
  nonempty := h.emitted.nonempty
  classes := h.emitted.classes

theorem Partition.exists_class {result : List (List V)} (h : Partition next result) (v : V) :
    ∃ C ∈ result, v ∈ C ∧ ∀ w, w ∈ C ↔ Mutual next v w := by
  obtain ⟨C, hC, hv⟩ := mem_flatten.mp (h.covers v)
  exact ⟨C, hC, hv, h.classes C hC v hv⟩

end Run

end LowLink
