import Mathlib.Data.Finset.Card
import Mathlib.Data.Finset.Dedup
import Mathlib.Order.Bounds.Basic
import Mathlib.Tactic.Common

/-!
# Breadth-first search with a depth limit

The loop takes the first of a queue, and gives every successor that has no depth yet the next
depth, up to the limit. The queue ascends in depth and spans two depths at most (`Layered`),
so the depth a node gets is its shortest distance from the start (`search_shortest`).
-/

namespace BreadthFirst

open List

variable {σ : Type*}

/-- The node is `k` steps from the start on some way. -/
inductive Walk (next : σ → List σ) (start : σ) : ℕ → σ → Prop where
  | start : Walk next start 0 start
  | step {k : ℕ} {a b : σ} : Walk next start k a → b ∈ next a → Walk next start (k + 1) b

/-- The queue and the depths. -/
abbrev State (σ : Type*) := List (σ × ℕ) × List (σ × ℕ)

def visit [DecidableEq σ] (depth : ℕ) (state : State σ) (target : σ) : State σ :=
  if target ∈ state.2.map Prod.fst then state
  else (state.1 ++ [(target, depth + 1)], state.2 ++ [(target, depth + 1)])

def search [DecidableEq σ] (next : σ → List σ) (limit : ℕ) : ℕ → State σ → Option (List (σ × ℕ))
  | _, ([], depths) => some depths
  | 0, (_ :: _, _) => none
  | fuel + 1, ((node, depth) :: queue, depths) =>
      if limit ≤ depth then search next limit fuel (queue, depths)
      else search next limit fuel ((next node).foldl (visit depth) (queue, depths))

/-- The successors that have no depth yet are given one, each once. -/
theorem foldl_visit [DecidableEq σ] (depth : ℕ) (targets : List σ) (queue depths : List (σ × ℕ)) :
    ∃ fresh : List σ,
      targets.foldl (visit depth) (queue, depths) =
        (queue ++ fresh.map (·, depth + 1), depths ++ fresh.map (·, depth + 1)) ∧
      fresh.Nodup ∧ (∀ t ∈ fresh, t ∈ targets ∧ t ∉ depths.map Prod.fst) ∧
      ∀ t ∈ targets, t ∈ depths.map Prod.fst ∨ t ∈ fresh := by
  induction targets generalizing queue depths with
  | nil => exact ⟨[], by simp, .nil, by simp, by simp⟩
  | cons t targets ih =>
      rw [foldl_cons, visit]
      split
      · next hseen =>
        obtain ⟨fresh, heq, hnodup, hfresh, hall⟩ := ih queue depths
        refine ⟨fresh, heq, hnodup, fun u hu => ?_, fun u hu => ?_⟩
        · exact ⟨mem_cons_of_mem _ (hfresh u hu).1, (hfresh u hu).2⟩
        · rcases mem_cons.mp hu with rfl | hu
          · exact .inl hseen
          · exact hall u hu
      · next hnew =>
        obtain ⟨fresh, heq, hnodup, hfresh, hall⟩ :=
          ih (queue ++ [(t, depth + 1)]) (depths ++ [(t, depth + 1)])
        have hout : ∀ u ∈ fresh, u ≠ t ∧ u ∉ depths.map Prod.fst := by
          intro u hu
          have := (hfresh u hu).2
          rw [map_append, mem_append, not_or] at this
          exact ⟨by simpa using this.2, this.1⟩
        refine ⟨t :: fresh, by rw [heq]; simp, ?_, fun u hu => ?_, fun u hu => ?_⟩
        · exact nodup_cons.mpr ⟨fun ht => (hout t ht).1 rfl, hnodup⟩
        · rcases mem_cons.mp hu with rfl | hu
          · exact ⟨mem_cons_self, hnew⟩
          · exact ⟨mem_cons_of_mem _ (hfresh u hu).1, (hout u hu).2⟩
        · rcases mem_cons.mp hu with rfl | hu
          · exact .inr mem_cons_self
          · have := hall u hu
            rw [map_append, mem_append, or_assoc] at this
            refine this.imp_right fun h => ?_
            rcases h with h | h
            · obtain rfl : u = t := by simpa using h
              exact mem_cons_self
            · exact mem_cons_of_mem _ h

/-! ## The layered queue -/

variable {next : σ → List σ} {limit : ℕ} {start : σ}

/-- Between two turns of the loop. -/
structure Layered (next : σ → List σ) (limit : ℕ) (start : σ) (state : State σ) : Prop where
  nodup : (state.2.map Prod.fst).Nodup
  origin : (start, 0) ∈ state.2
  sound : ∀ e ∈ state.2, Walk next start e.2 e.1 ∧ e.2 ≤ limit
  queued : state.1 ⊆ state.2
  ascending : state.1.Pairwise fun a b => a.2 ≤ b.2
  near : ∀ h ∈ state.1.head?, ∀ e ∈ state.2, e.2 ≤ h.2 + 1
  closed : ∀ e ∈ state.2, e ∉ state.1 → e.2 < limit →
    ∀ t ∈ next e.1, ∃ d ≤ e.2 + 1, (t, d) ∈ state.2

theorem Layered.init (next : σ → List σ) (limit : ℕ) (start : σ) :
    Layered next limit start ([(start, 0)], [(start, 0)]) where
  nodup := nodup_singleton _
  origin := mem_singleton_self _
  sound e he := by
    obtain rfl := mem_singleton.mp he
    exact ⟨.start, Nat.zero_le _⟩
  queued := List.Subset.refl _
  ascending := pairwise_singleton _ _
  near h hh e he := by
    obtain rfl := mem_singleton.mp he
    exact Nat.zero_le _
  closed e he hnot := absurd he hnot

variable {node : σ} {depth : ℕ} {queue depths : List (σ × ℕ)}

theorem Layered.skip (h : Layered next limit start ((node, depth) :: queue, depths))
    (hlimit : limit ≤ depth) : Layered next limit start (queue, depths) where
  nodup := h.nodup
  origin := h.origin
  sound := h.sound
  queued := List.Subset.trans (subset_cons_self _ _) h.queued
  ascending := h.ascending.of_cons
  near e he f hf := by
    have hle : depth ≤ e.2 :=
      rel_of_pairwise_cons h.ascending (mem_of_mem_head? he)
    have hnear : f.2 ≤ depth + 1 := h.near _ rfl f hf
    show f.2 ≤ e.2 + 1
    omega
  closed e he hnot hlt := by
    refine h.closed e he (fun hmem => ?_) hlt
    rcases mem_cons.mp hmem with rfl | hmem
    · exact absurd hlimit (not_le.mpr hlt)
    · exact hnot hmem

theorem Layered.expand [DecidableEq σ]
    (h : Layered next limit start ((node, depth) :: queue, depths)) (hlimit : depth < limit) :
    Layered next limit start ((next node).foldl (visit depth) (queue, depths)) := by
  obtain ⟨fresh, heq, hnodup, hfresh, hall⟩ := foldl_visit depth (next node) queue depths
  have hnode : (node, depth) ∈ depths := h.queued mem_cons_self
  have hnear : ∀ e ∈ depths, e.2 ≤ depth + 1 := h.near _ rfl
  have hmem : ∀ e : σ × ℕ, e ∈ depths ++ fresh.map (·, depth + 1) ↔
      e ∈ depths ∨ (e.1 ∈ fresh ∧ e.2 = depth + 1) := by
    rintro ⟨v, d⟩
    simp only [mem_append, mem_map, Prod.mk.injEq]
    refine or_congr_right ⟨?_, ?_⟩
    · rintro ⟨u, hu, rfl, rfl⟩
      exact ⟨hu, rfl⟩
    · rintro ⟨hv, rfl⟩
      exact ⟨v, hv, rfl, rfl⟩
  rw [heq]
  constructor
  · show ((depths ++ fresh.map (·, depth + 1)).map Prod.fst).Nodup
    rw [map_append, map_map, nodup_append]
    refine ⟨h.nodup, by simpa [Function.comp_def] using hnodup, fun a ha b hb hab => ?_⟩
    have hb : b ∈ fresh := by simpa using hb
    exact (hfresh b hb).2 (hab ▸ ha)
  · exact mem_append_left _ h.origin
  · intro e he
    rcases (hmem e).mp he with he | ⟨he, hd⟩
    · exact h.sound e he
    · rw [hd]
      exact ⟨(h.sound _ hnode).1.step (hfresh _ he).1, hlimit⟩
  · intro e he
    rcases mem_append.mp he with he | he
    · exact mem_append_left _ (h.queued (mem_cons_of_mem _ he))
    · exact mem_append_right _ he
  · rw [pairwise_append]
    refine ⟨h.ascending.of_cons, ?_, fun a ha b hb => ?_⟩
    · rw [pairwise_map]
      exact pairwise_of_forall fun _ _ => le_rfl
    · obtain ⟨u, _, rfl⟩ := mem_map.mp hb
      exact hnear a (h.queued (mem_cons_of_mem _ ha))
  · intro f hf e he
    have hge : depth ≤ f.2 := by
      rcases mem_append.mp (mem_of_mem_head? hf) with hf | hf
      · exact rel_of_pairwise_cons h.ascending hf
      · obtain ⟨u, _, rfl⟩ := mem_map.mp hf
        exact Nat.le_succ _
    have hle : e.2 ≤ depth + 1 := by
      rcases (hmem e).mp he with he | ⟨_, hd⟩
      · exact hnear e he
      · exact hd.le
    omega
  · intro e he hnot hlt t ht
    rw [mem_append, not_or] at hnot
    have hold : e ∈ depths := by
      refine (mem_append.mp he).resolve_right hnot.2
    by_cases hhead : e = (node, depth)
    · subst hhead
      rcases hall t ht with hseen | hnew
      · obtain ⟨⟨_, d⟩, hd, rfl⟩ := mem_map.mp hseen
        exact ⟨d, hnear _ hd, mem_append_left _ hd⟩
      · exact ⟨depth + 1, le_rfl, (hmem (t, depth + 1)).mpr (.inr ⟨hnew, rfl⟩)⟩
    · obtain ⟨d, hd, hmem⟩ := h.closed e hold
        (fun hin => (mem_cons.mp hin).elim hhead hnot.1) hlt t ht
      exact ⟨d, hd, mem_append_left _ hmem⟩

/-- What the search has found when its queue is empty: the shortest distances up to the
limit. -/
theorem Layered.shortest (h : Layered next limit start ([], depths)) (v : σ) (d : ℕ) :
    (v, d) ∈ depths ↔ IsLeast {k | Walk next start k v} d ∧ d ≤ limit := by
  -- The induction is on the walk: a depth no greater than its length is given to every node
  -- it passes within the limit.
  have hreach : ∀ k u, Walk next start k u → k ≤ limit → ∃ d ≤ k, (u, d) ∈ depths := by
    intro k u hwalk
    induction hwalk with
    | start => exact fun _ => ⟨0, le_rfl, h.origin⟩
    | step _ hb ih =>
        intro hk
        obtain ⟨d, hd, hmem⟩ := ih (by omega)
        obtain ⟨d', hd', hmem'⟩ := h.closed _ hmem not_mem_nil (by omega) _ hb
        exact ⟨d', by omega, hmem'⟩
  have hunique : ∀ d d', (v, d) ∈ depths → (v, d') ∈ depths → d = d' := fun d d' hd hd' =>
    (Prod.mk.inj (inj_on_of_nodup_map h.nodup hd hd' rfl)).2
  constructor
  · intro hmem
    obtain ⟨hwalk, hle⟩ := h.sound _ hmem
    refine ⟨⟨hwalk, fun k hk => ?_⟩, hle⟩
    by_cases hklimit : k ≤ limit
    · obtain ⟨d', hd', hmem'⟩ := hreach k v hk hklimit
      rw [hunique d d' hmem hmem']
      exact hd'
    · exact hle.trans (not_le.mp hklimit).le
  · rintro ⟨⟨hwalk, hleast⟩, hle⟩
    obtain ⟨d', hd', hmem'⟩ := hreach d v hwalk hle
    have := hleast (h.sound _ hmem').1
    obtain rfl : d' = d := le_antisymm hd' this
    exact hmem'

/-! ## The run -/

/-- The nodes that may still be given a depth, and the queue. -/
def measure [DecidableEq σ] (nodes : List σ) (state : State σ) : ℕ :=
  state.1.length + (nodes.toFinset \ (state.2.map Prod.fst).toFinset).card

theorem measure_expand [DecidableEq σ] {nodes : List σ} (hnodes : ∀ n, next n ⊆ nodes) :
    measure nodes ((next node).foldl (visit depth) (queue, depths)) ≤
      measure nodes (queue, depths) := by
  obtain ⟨fresh, heq, hnodup, hfresh, _⟩ := foldl_visit depth (next node) queue depths
  rw [heq]
  have hsub : fresh.toFinset ⊆ nodes.toFinset \ (depths.map Prod.fst).toFinset := by
    intro t ht
    have ht := mem_toFinset.mp ht
    rw [Finset.mem_sdiff, mem_toFinset, mem_toFinset]
    exact ⟨hnodes _ (hfresh t ht).1, (hfresh t ht).2⟩
  have hcard := Finset.card_sdiff_add_card_eq_card hsub
  rw [toFinset_card_of_nodup hnodup, Finset.sdiff_sdiff_left'] at hcard
  simp only [measure, length_append, length_map, map_append, map_map,
    toFinset_append, Function.comp_def, map_id', Finset.sdiff_union_distrib]
  omega

theorem search_some [DecidableEq σ] {nodes : List σ} (hnodes : ∀ n, next n ⊆ nodes) :
    ∀ {fuel : ℕ} {state : State σ}, Layered next limit start state →
      measure nodes state ≤ fuel → ∃ depths, search next limit fuel state = some depths ∧
        Layered next limit start ([], depths)
  | fuel, ([], depths), h, _ => ⟨depths, by cases fuel <;> rfl, h⟩
  | 0, (_ :: _, _), _, hfuel => by
      rw [measure, length_cons] at hfuel
      omega
  | fuel + 1, ((node, depth) :: queue, depths), h, hfuel => by
      have hpop : measure nodes (queue, depths) ≤ fuel := by
        simp only [measure, length_cons] at hfuel ⊢
        omega
      rw [search]
      split
      · next hlimit => exact search_some hnodes (h.skip hlimit) hpop
      · next hlimit =>
        exact search_some hnodes (h.expand (not_le.mp hlimit)) ((measure_expand hnodes).trans hpop)

/-- The search returns, given fuel for every node there is, and what it returns are the nodes
within the limit, each once and with its shortest distance. -/
theorem search_shortest [DecidableEq σ] {nodes : List σ} (hnodes : ∀ n, next n ⊆ nodes)
    (limit : ℕ) (start : σ) {fuel : ℕ} (hfuel : nodes.length + 1 ≤ fuel) :
    ∃ depths, search next limit fuel ([(start, 0)], [(start, 0)]) = some depths ∧
      (depths.map Prod.fst).Nodup ∧
      ∀ v d, (v, d) ∈ depths ↔ IsLeast {k | Walk next start k v} d ∧ d ≤ limit := by
  have hmeasure : measure nodes ([(start, 0)], [(start, 0)]) ≤ fuel := by
    have := (Finset.card_le_card (Finset.sdiff_subset (s := nodes.toFinset)
      (t := ([(start, 0)].map Prod.fst).toFinset))).trans nodes.toFinset_card_le
    simp only [measure, length_singleton]
    omega
  obtain ⟨depths, hsearch, hlayered⟩ := search_some hnodes (.init next limit start) hmeasure
  exact ⟨depths, hsearch, hlayered.nodup, hlayered.shortest⟩

end BreadthFirst
