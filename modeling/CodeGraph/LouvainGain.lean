import Mathlib.Algebra.BigOperators.Fin
import CodeGraph.Louvain

/-!
# What the community detection keeps and improves

Against the modularity of `Lib.Modularity`: the degree totals the local phase
keeps are the ones recomputed from the labels, a node that moves raises the
modularity by the difference of its gains, and the condensed graph gives every
coarser partition the modularity it has on the original nodes.

Neither the sign of the weights nor that of the resolution plays a part; only
that the graph is undirected and its total weight positive.
-/

namespace CodeGraph

namespace Community

open Tally Modularity

variable {n : Nat} {neighbors : Neighbors n} {m γ : ℚ}

/-! ## The stored entries as a matrix of weights -/

theorem degree_eq (neighbors : Neighbors n) (i : Fin n) :
    degree neighbors i = Modularity.degree (weight neighbors) i :=
  (sum_sumAt (neighbors i)).symm

theorem sumAt_filter_ne (entries : List (Fin n × ℚ)) (i j : Fin n) :
    sumAt (entries.filter (·.1 ≠ i)) j = if j = i then 0 else sumAt entries j := by
  induction entries with
  | nil => simp
  | cons e entries ih =>
      by_cases he : e.1 = i
      · rw [List.filter_cons_of_neg (by simpa using he), ih, sumAt_cons]
        split
        · rfl
        · next hj => rw [if_neg (fun hij => hj (hij.symm.trans he)), zero_add]
      · rw [List.filter_cons_of_pos (by simpa using he), sumAt_cons, ih, sumAt_cons]
        by_cases hj : j = i
        · rw [if_pos hj, if_pos hj, if_neg fun hej => he (hej.trans hj), zero_add]
        · rw [if_neg hj, if_neg hj]

/-- The tally of the neighbouring communities. -/
theorem sumAt_kiIn (comm : Fin n → Fin n) (i c : Fin n) :
    sumAt (kiIn neighbors comm i) c = toClass (weight neighbors) comm i c := by
  rw [kiIn, sumAt_collect, sumAt_map, toClass, ← Finset.add_sum_erase _ _ (Finset.mem_univ i),
    sumAt_filter_ne, if_pos rfl, ite_self, zero_add]
  refine Finset.sum_congr rfl ?_
  intro j hj
  rw [sumAt_filter_ne, if_neg (Finset.ne_of_mem_erase hj)]
  rfl

theorem weight_aggregateGraph (neighbors : Neighbors n) {k : Nat} (comm : Fin n → Fin k) :
    weight (aggregateGraph neighbors comm) = merge (weight neighbors) comm := by
  funext c d
  have hrows : ∀ nodes : List (Fin n), sumAt (nodes.flatMap fun i =>
      if comm i = c then (neighbors i).map fun e => (comm e.1, e.2) else []) d =
      (nodes.map fun i => if comm i = c then ∑ j, if comm j = d then weight neighbors i j else 0
        else 0).sum := by
    intro nodes
    induction nodes with
    | nil => rfl
    | cons i nodes ih =>
        rw [List.flatMap_cons, sumAt_append, ih, List.map_cons, List.sum_cons]
        congr 1
        split
        · exact sumAt_map comm (neighbors i) d
        · rfl
  rw [weight, aggregateGraph, sumAt_collect, hrows, ← Fin.sum_univ_def, merge, Finset.sum_filter]
  refine Finset.sum_congr rfl ?_
  intro i _
  rw [Finset.sum_filter]

/-! ## One visit -/

/-- The totals the phase keeps are the ones its labels give. -/
def Phase.Kept (neighbors : Neighbors n) (s : Phase n) : Prop :=
  ∀ c, s.sigmaTot c = volume (weight neighbors) s.comm c

theorem Phase.kept_init (neighbors : Neighbors n) : (Phase.init neighbors).Kept neighbors := by
  intro c
  show degree neighbors c = volume (weight neighbors) id c
  simp only [volume, id_eq, Finset.sum_filter, Finset.sum_ite_eq', Finset.mem_univ, if_true]
  exact degree_eq neighbors c

theorem foldl_better {gain : Fin n × ℚ → ℚ} {G : Fin n → ℚ} (candidates : List (Fin n × ℚ))
    (hgain : ∀ e ∈ candidates, gain e = G e.1) (best : Fin n × ℚ) (hbest : best.2 = G best.1) :
    (candidates.foldl (better gain) best).2 = G (candidates.foldl (better gain) best).1 ∧
      (candidates.foldl (better gain) best = best ∨
        best.2 < (candidates.foldl (better gain) best).2) := by
  induction candidates generalizing best with
  | nil => exact ⟨hbest, Or.inl rfl⟩
  | cons e candidates ih =>
      have hrest : ∀ e ∈ candidates, gain e = G e.1 := fun e' he' =>
        hgain e' (List.mem_cons_of_mem _ he')
      rw [List.foldl_cons]
      by_cases hlt : gain e > best.2
      · have hbetter : better gain best e = (e.1, gain e) := if_pos hlt
        rw [hbetter]
        obtain ⟨hvalue, hkeep⟩ := ih hrest (e.1, gain e) (hgain e List.mem_cons_self)
        refine ⟨hvalue, Or.inr ?_⟩
        rcases hkeep with hsame | hmore
        · rw [hsame]
          exact hlt
        · exact lt_trans hlt hmore
      · have hbetter : better gain best e = best := if_neg hlt
        rw [hbetter]
        exact ih hrest best hbest

/-- What a visit does: the node goes to some community, its own or one with a
larger gain, and the totals stay right. -/
theorem visit_spec {s : Phase n} (h : s.Kept neighbors) (i : Fin n) : ∃ d,
    (visit neighbors m γ s i).comm = Function.update s.comm i d ∧
      (visit neighbors m γ s i).Kept neighbors ∧
      (d = s.comm i ∨ gain γ m (weight neighbors) s.comm i (s.comm i) <
        gain γ m (weight neighbors) s.comm i d) := by
  set A := weight neighbors with hA
  set sigmaTot := Function.update s.sigmaTot (s.comm i) (s.sigmaTot (s.comm i) - degree neighbors i)
    with hsigma
  -- without the node, each total is the sum over the other nodes
  have hwithout : ∀ c, sigmaTot c =
      ∑ j ∈ Finset.univ.erase i, if s.comm j = c then Modularity.degree A j else 0 := fun c => by
    rw [sum_erase_degree, hsigma]
    by_cases hc : c = s.comm i
    · rw [hc, Function.update_self, h, if_pos rfl, degree_eq]
    · rw [Function.update_of_ne hc, h, if_neg (Ne.symm hc), sub_zero]
  set value := fun e : Fin n × ℚ =>
    e.2 - γ * sigmaTot e.1 * degree neighbors i / (2 * m) with hvalue
  have hgain : ∀ c, value (c, toClass A s.comm i c) = gain γ m A s.comm i c := fun c => by
    rw [hvalue, gain, ← hwithout, degree_eq]
  have hcandidates : ∀ e ∈ kiIn neighbors s.comm i, value e = gain γ m A s.comm i e.1 := by
    rintro ⟨c, w⟩ he
    rw [← hgain, ← (sorted_collect _).sumAt_eq he, ← sumAt_kiIn]
    rfl
  have hown : value (s.comm i, get (kiIn neighbors s.comm i) (s.comm i)) =
      gain γ m A s.comm i (s.comm i) := by
    rw [kiIn, (sorted_collect _).get_eq, ← hgain, ← sumAt_kiIn]
    rfl
  obtain ⟨hbest, hmore⟩ := foldl_better (kiIn neighbors s.comm i) hcandidates
    (s.comm i, value (s.comm i, get (kiIn neighbors s.comm i) (s.comm i))) hown
  refine ⟨_, rfl, fun c => ?_, ?_⟩
  · show Function.update sigmaTot _ _ c = volume A (Function.update s.comm i _) c
    rw [volume_update, ← sum_erase_degree, ← hwithout, ← degree_eq]
    split
    · next heq => rw [← heq, Function.update_self]
    · next hne => rw [Function.update_of_ne (Ne.symm hne), add_zero]
  · rcases hmore with hsame | hlt
    · exact Or.inl (congrArg Prod.fst hsame)
    · exact Or.inr (hown ▸ hbest ▸ hlt)

/-! ## The local phase -/

/-- The states of the local phase: a pass clears the flag, a visit moves a node.
The order of the visits is left open. -/
inductive Phase.Reached (neighbors : Neighbors n) (m γ : ℚ) : Phase n → Prop
  | init : Reached neighbors m γ (.init neighbors)
  | clear {s : Phase n} (h : Reached neighbors m γ s) :
      Reached neighbors m γ { s with improved := false }
  | visit {s : Phase n} (h : Reached neighbors m γ s) (i : Fin n) :
      Reached neighbors m γ (Community.visit neighbors m γ s i)

theorem Phase.Reached.kept {s : Phase n} (h : Phase.Reached neighbors m γ s) :
    s.Kept neighbors := by
  induction h with
  | init => exact Phase.kept_init neighbors
  | clear _ ih => exact ih
  | visit _ i ih =>
      obtain ⟨_, -, hkept, -⟩ := visit_spec ih i
      exact hkept

theorem Phase.Reached.pass {s : Phase n} (h : Phase.Reached neighbors m γ s) :
    Phase.Reached neighbors m γ (Community.pass neighbors m γ s) := by
  have hrun : ∀ (nodes : List (Fin n)) (s : Phase n), Phase.Reached neighbors m γ s →
      Phase.Reached neighbors m γ (nodes.foldl (Community.visit neighbors m γ) s) := by
    intro nodes
    induction nodes with
    | nil => exact fun _ h => h
    | cons i nodes ih => exact fun s h => ih _ (h.visit i)
  exact hrun _ _ h.clear

theorem Phase.Reached.passes : ∀ {maxPasses : Nat} {s : Phase n},
    Phase.Reached neighbors m γ s →
    Phase.Reached neighbors m γ (Community.passes neighbors m γ maxPasses s)
  | 0, _, h => h
  | maxPasses + 1, s, h => by
      simp only [Community.passes]
      split
      · exact h.pass.passes
      · exact h.pass

/-- A node that moves raises the modularity, one that stays leaves the labels as
they are. -/
theorem visit_modularity (hm : 0 < m) (hsymm : Symmetric neighbors) {s : Phase n}
    (h : s.Kept neighbors) (i : Fin n) :
    (visit neighbors m γ s i).comm = s.comm ∨
      modularity γ m (weight neighbors) s.comm <
        modularity γ m (weight neighbors) (visit neighbors m γ s i).comm := by
  obtain ⟨d, hcomm, -, hgain⟩ := visit_spec (m := m) (γ := γ) h i
  rw [hcomm]
  rcases hgain with rfl | hgain
  · exact Or.inl (Function.update_eq_self i s.comm)
  · refine Or.inr ?_
    rw [modularity_update γ hm.ne' hsymm]
    exact lt_add_of_pos_right _ (div_pos (sub_pos.mpr hgain) hm)

theorem Phase.Reached.modularity_le (hm : 0 < m) (hsymm : Symmetric neighbors) {s : Phase n}
    (h : Phase.Reached neighbors m γ s) :
    modularity γ m (weight neighbors) (id : Fin n → Fin n) ≤
      modularity γ m (weight neighbors) s.comm := by
  induction h with
  | init => exact le_rfl
  | clear _ ih => exact ih
  | visit hs i ih =>
      rcases visit_modularity (γ := γ) hm hsymm hs.kept i with hsame | hlt
      · rw [hsame]
        exact ih
      · exact ih.trans hlt.le

theorem oneLevel_modularity (hm : 0 < m) (hsymm : Symmetric neighbors) :
    modularity γ m (weight neighbors) (id : Fin n → Fin n) ≤
      modularity γ m (weight neighbors) (oneLevel neighbors m γ) := by
  have hreached : Phase.Reached neighbors m γ
      (Community.passes neighbors m γ 100 (.init neighbors)) := Phase.Reached.init.passes
  refine (hreached.modularity_le hm hsymm).trans (le_of_eq (modularity_congr γ m _ fun i j => ?_))
  rw [oneLevel, renumberCommunities_eq_iff, Fin.val_inj]

/-! ## The levels -/

/-- The levels of a run, with the node of the level each original node belongs
to; `depth` counts the levels before. -/
inductive Level {N : Nat} (adj : Adjacency N) (γ : ℚ) :
    (depth : Nat) → {n : Nat} → Neighbors n → (Fin N → Fin n) → Prop
  | first : Level adj γ 0 adj.neighbors id
  | next {depth n : Nat} {neighbors : Neighbors n} {nodeToComm : Fin N → Fin n}
      (h : Level adj γ depth neighbors nodeToComm)
      (hmerged : numComms (oneLevel neighbors adj.totalWeight γ) ≠ n) :
      Level adj γ (depth + 1)
        (aggregateGraph neighbors (levelLabel neighbors adj.totalWeight γ))
        fun v => levelLabel neighbors adj.totalWeight γ (nodeToComm v)

variable {N depth : Nat} {adj : Adjacency N} {nodeToComm : Fin N → Fin n}

theorem Level.symmetric (hsymm : Symmetric adj.neighbors)
    (h : Level adj γ depth neighbors nodeToComm) : Symmetric neighbors := by
  induction h with
  | first => exact hsymm
  | next _ _ ih =>
      intro c d
      rw [weight_aggregateGraph]
      exact merge_symm ih _ c d

theorem Level.modularity_eq (h : Level adj γ depth neighbors nodeToComm) {D : Type*}
    [DecidableEq D] (g : Fin n → D) :
    modularity γ adj.totalWeight (weight neighbors) g =
      modularity γ adj.totalWeight (weight adj.neighbors) (g ∘ nodeToComm) := by
  induction h with
  | first => rfl
  | next _ _ ih =>
      rw [weight_aggregateGraph, modularity_merge, ih]
      rfl

theorem Level.volume_eq (h : Level adj γ depth neighbors nodeToComm) {D : Type*} [DecidableEq D]
    (g : Fin n → D) (c : D) :
    volume (weight neighbors) g c = volume (weight adj.neighbors) (g ∘ nodeToComm) c := by
  induction h with
  | first => rfl
  | next _ _ ih =>
      rw [weight_aggregateGraph, volume_merge, ih]
      rfl

theorem Level.sum_degree (h : Level adj γ depth neighbors nodeToComm) :
    ∑ c, degree neighbors c = ∑ v, degree adj.neighbors v := by
  induction h with
  | first => rfl
  | next _ _ ih =>
      rw [← ih]
      simp only [degree_eq, weight_aggregateGraph]
      exact sum_degree_merge _ _

theorem Level.depth_le (h : Level adj γ depth neighbors nodeToComm) : depth + n ≤ N := by
  induction h with
  | first => exact (Nat.zero_add N).le
  | @next depth n neighbors _ _ hmerged ih =>
      have hle := numComms_oneLevel_le neighbors adj.totalWeight γ
      omega

theorem Level.surjective (h : Level adj γ depth neighbors nodeToComm) :
    Function.Surjective nodeToComm := by
  induction h with
  | first => exact Function.surjective_id
  | @next depth n neighbors nodeToComm _ _ ih =>
      intro c
      obtain ⟨i, hi⟩ := ((contiguous_renumberCommunities _).lt_numComms_iff c).mp c.isLt
      obtain ⟨v, rfl⟩ := ih i
      exact ⟨v, Fin.ext hi⟩

theorem Level.modularity_le (hm : 0 < adj.totalWeight) (hsymm : Symmetric adj.neighbors)
    (h : Level adj γ depth neighbors nodeToComm) :
    modularity γ adj.totalWeight (weight adj.neighbors) nodeToComm ≤
      modularity γ adj.totalWeight (weight adj.neighbors)
        (oneLevel neighbors adj.totalWeight γ ∘ nodeToComm) := by
  have hlevel := oneLevel_modularity (γ := γ) hm (h.symmetric hsymm)
  rwa [h.modularity_eq, h.modularity_eq, Function.id_comp] at hlevel

theorem Level.louvainFrom (h : Level adj γ depth neighbors nodeToComm) :
    ∃ (depth' k : Nat) (last : Neighbors k) (toLast : Fin N → Fin k),
      Level adj γ depth' last toLast ∧ numComms (oneLevel last adj.totalWeight γ) = k ∧
      Community.louvainFrom adj.totalWeight γ neighbors nodeToComm =
        oneLevel last adj.totalWeight γ ∘ toLast := by
  induction n using Nat.strong_induction_on generalizing depth with
  | h n ih =>
      rw [Community.louvainFrom]
      split
      · next hlast => exact ⟨depth, n, neighbors, nodeToComm, h, hlast, rfl⟩
      · next hmerged =>
        have hle := numComms_oneLevel_le neighbors adj.totalWeight γ
        exact ih _ (lt_of_le_of_ne hle hmerged) (h.next hmerged)

theorem Level.start_le (hm : 0 < adj.totalWeight) (hsymm : Symmetric adj.neighbors)
    (h : Level adj γ depth neighbors nodeToComm) :
    modularity γ adj.totalWeight (weight adj.neighbors) (id : Fin N → Fin N) ≤
      modularity γ adj.totalWeight (weight adj.neighbors) nodeToComm := by
  induction h with
  | first => exact le_rfl
  | next h _ ih =>
      refine (ih.trans (h.modularity_le hm hsymm)).trans (le_of_eq (modularity_congr _ _ _ ?_))
      intro i j
      exact (Fin.mk.injEq _ _ _ _).to_iff.symm

/-- The labels of a last level, read for the original nodes, leave none out. -/
theorem Level.contiguous (h : Level adj γ depth neighbors nodeToComm) :
    Contiguous (oneLevel neighbors adj.totalWeight γ ∘ nodeToComm) := by
  obtain ⟨k, hk⟩ := contiguous_renumberCommunities
    fun i => ((passes neighbors adj.totalWeight γ 100 (.init neighbors)).comm i : Nat)
  refine ⟨k, fun c => (hk c).trans ⟨?_, fun ⟨v, hv⟩ => ⟨nodeToComm v, hv⟩⟩⟩
  rintro ⟨i, hi⟩
  obtain ⟨v, rfl⟩ := h.surjective i
  exact ⟨v, hi⟩

theorem louvain_last (hm : 0 < adj.totalWeight) :
    ∃ (depth k : Nat) (last : Neighbors k) (toLast : Fin N → Fin k),
      Level adj γ depth last toLast ∧ numComms (oneLevel last adj.totalWeight γ) = k ∧
      (louvain adj γ).1 = oneLevel last adj.totalWeight γ ∘ toLast := by
  have hfirst : Level adj γ _ _ _ := .first
  obtain ⟨depth, k, last, toLast, hlevel, hlast, hrun⟩ := hfirst.louvainFrom
  refine ⟨depth, k, last, toLast, hlevel, hlast, ?_⟩
  unfold louvain
  split
  · next hnone =>
    have hzero : N = 0 := hnone.resolve_right hm.ne'
    subst hzero
    exact funext fun v => v.elim0
  · exact hrun

/-- The community detection on an undirected graph of positive total weight. In
every level, the totals of the local phase are those of its labels and a node
that moves raises the modularity; the level keeps the total weight, the degrees
of the communities and the modularity of every coarser partition, and its labels
are no worse than the ones before. The run ends in a level that merges nothing,
after no more levels than nodes, with labels that leave no number out. -/
theorem louvain_optimises (adj : Adjacency N) (γ : ℚ) (hsymm : Symmetric adj.neighbors)
    (hm : 0 < adj.totalWeight) :
    (∀ (depth k : Nat) (level : Neighbors k) (nodeToComm : Fin N → Fin k),
      Level adj γ depth level nodeToComm →
      (∀ s, Phase.Reached level adj.totalWeight γ s →
        (∀ c, s.sigmaTot c = volume (weight level) s.comm c) ∧
        ∀ i, (visit level adj.totalWeight γ s i).comm = s.comm ∨
          modularity γ adj.totalWeight (weight level) s.comm <
            modularity γ adj.totalWeight (weight level) (visit level adj.totalWeight γ s i).comm) ∧
      ∑ c, degree level c = ∑ v, degree adj.neighbors v ∧
      (∀ (g : Fin k → Nat) (c : Nat),
        volume (weight level) g c = volume (weight adj.neighbors) (g ∘ nodeToComm) c) ∧
      (∀ g : Fin k → Nat, modularity γ adj.totalWeight (weight level) g =
        modularity γ adj.totalWeight (weight adj.neighbors) (g ∘ nodeToComm)) ∧
      modularity γ adj.totalWeight (weight adj.neighbors) nodeToComm ≤
        modularity γ adj.totalWeight (weight adj.neighbors)
          (oneLevel level adj.totalWeight γ ∘ nodeToComm) ∧
      depth + k ≤ N) ∧
    (∃ (depth k : Nat) (last : Neighbors k) (toLast : Fin N → Fin k),
      Level adj γ depth last toLast ∧ numComms (oneLevel last adj.totalWeight γ) = k ∧
      (louvain adj γ).1 = oneLevel last adj.totalWeight γ ∘ toLast) ∧
    modularity γ adj.totalWeight (weight adj.neighbors) (id : Fin N → Fin N) ≤
      modularity γ adj.totalWeight (weight adj.neighbors) (louvain adj γ).1 ∧
    Contiguous (louvain adj γ).1 := by
  obtain ⟨depth, k, last, toLast, hlevel, hlast, hrun⟩ := louvain_last (γ := γ) hm
  refine ⟨fun depth k level nodeToComm h => ⟨fun s hs => ⟨hs.kept, ?_⟩, h.sum_degree, h.volume_eq,
    h.modularity_eq, h.modularity_le hm hsymm, h.depth_le⟩,
    ⟨depth, k, last, toLast, hlevel, hlast, hrun⟩, ?_, ?_⟩
  · exact visit_modularity hm (h.symmetric hsymm) hs.kept
  · rw [hrun]
    exact (hlevel.start_le hm hsymm).trans (hlevel.modularity_le hm hsymm)
  · rw [hrun]
    exact hlevel.contiguous

/-- One edge. -/
theorem louvain_optimises_edge :
    Contiguous (louvain (.collectWeightedEdges [((0 : Fin 2), (1 : Fin 2), (1 : ℚ))]) 1).1 := by
  have hm : 0 < (Adjacency.collectWeightedEdges [((0 : Fin 2), (1 : Fin 2), (1 : ℚ))]).totalWeight := by
    decide +kernel
  obtain ⟨-, -, -, hcontiguous⟩ :=
    louvain_optimises _ 1 (Adjacency.collectWeightedEdges_undirected _).1 hm
  exact hcontiguous

end Community

end CodeGraph
