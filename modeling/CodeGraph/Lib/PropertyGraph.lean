import Mathlib.Data.Multiset.Bind

/-!
# Property graphs

A store of nodes under keys and of edges between keys: insertion, deletion with
the edges that touch a deleted node, updates that keep the keys, and the removal
of childless nodes in rounds.

An edge is inserted only between keys the store has, and a node is deleted with
its edges, so no edge ever dangles (`Closed`). Deletions compose into one
(`drop_drop`, `foldl_drop`), and `prune_eq_drop` says what enough rounds of
removing childless nodes amount to: one deletion, of the nodes nothing needed is
below.
-/

/-- Nodes with a key. -/
class Keyed (N : Type*) (K : outParam (Type*)) where
  key : N → K

/-- Edges from a key to a key. -/
class Linked (E : Type*) (K : outParam (Type*)) where
  src : E → K
  dst : E → K

/-- Nodes and edges, a parallel edge counted as often as it was created. -/
@[ext]
structure PropertyGraph (N E : Type*) where
  nodes : Multiset N
  edges : Multiset E
  deriving DecidableEq

namespace PropertyGraph

open Multiset Keyed Linked

variable {N E K α : Type*} [Keyed N K]

def empty : PropertyGraph N E := ⟨0, 0⟩

def keys (g : PropertyGraph N E) : Multiset K := g.nodes.map key

def insertNodes (g : PropertyGraph N E) (ns : Multiset N) : PropertyGraph N E :=
  { g with nodes := g.nodes + ns }

/-- Updates nodes in place. -/
def update (g : PropertyGraph N E) (f : N → N) : PropertyGraph N E :=
  { g with nodes := g.nodes.map f }

theorem mem_keys {g : PropertyGraph N E} {k : K} : k ∈ g.keys ↔ ∃ n ∈ g.nodes, key n = k :=
  mem_map

theorem keys_insertNodes (g : PropertyGraph N E) (ns : Multiset N) :
    (g.insertNodes ns).keys = g.keys + ns.map key :=
  map_add _ _ _

theorem insertNodes_insertNodes (g : PropertyGraph N E) (ms ns : Multiset N) :
    (g.insertNodes ms).insertNodes ns = g.insertNodes (ms + ns) :=
  PropertyGraph.ext (add_assoc _ _ _) rfl

theorem keys_update {g : PropertyGraph N E} {f : N → N} (hf : ∀ n, key (f n) = key n) :
    (g.update f).keys = g.keys := by
  rw [keys, update, map_map]
  exact map_congr rfl fun n _ => hf n

/-- Some of what `h` has and `g` has not was written. -/
structure Between (g h g' : PropertyGraph N E) : Prop where
  nodes : g.nodes ≤ g'.nodes ∧ g'.nodes ≤ h.nodes
  edges : g.edges ≤ g'.edges ∧ g'.edges ≤ h.edges

/-! ## Frames -/

/-- The two graphs have the same nodes under `p` and the same edges of `q`. -/
structure Agree (p : K → Bool) (q : E → Bool) (g g' : PropertyGraph N E) : Prop where
  nodes : (g'.nodes.filter fun n => p (key n)) = g.nodes.filter fun n => p (key n)
  edges : (g'.edges.filter fun e => q e) = g.edges.filter fun e => q e

section Agree

variable {p : K → Bool} {q : E → Bool} {g g' g'' : PropertyGraph N E}

theorem filter_add_eq {α : Type*} {c : α → Bool} {s t : Multiset α} (h : ∀ a ∈ t, ¬c a) :
    ((s + t).filter fun a => c a) = s.filter fun a => c a := by
  rw [filter_add, filter_eq_nil.mpr h, add_zero]

theorem Agree.refl (g : PropertyGraph N E) : Agree p q g g := ⟨rfl, rfl⟩

theorem Agree.trans (h : Agree p q g g') (h' : Agree p q g' g'') : Agree p q g g'' :=
  ⟨h'.nodes.trans h.nodes, h'.edges.trans h.edges⟩

/-- A frame holds of every smaller one. -/
theorem Agree.mono {p' : K → Bool} {q' : E → Bool} (h : Agree p q g g') (hp : ∀ k, p' k → p k)
    (hq : ∀ e, q' e → q e) : Agree p' q' g g' := by
  have hnodes : ∀ ns : Multiset N, (ns.filter fun n => p' (key n)) =
      (ns.filter fun n => p (key n)).filter fun n => p' (key n) := fun ns => by
    rw [filter_filter]
    exact filter_congr fun n _ => (and_iff_left_of_imp (hp (key n))).symm
  have hedges : ∀ es : Multiset E, (es.filter fun e => q' e) =
      (es.filter fun e => q e).filter fun e => q' e := fun es => by
    rw [filter_filter]
    exact filter_congr fun e _ => (and_iff_left_of_imp (hq e)).symm
  constructor
  · rw [hnodes, h.nodes, ← hnodes]
  · rw [hedges, h.edges, ← hedges]

theorem Agree.insertNodes {ns : Multiset N} (h : ∀ n ∈ ns, ¬p (key n)) :
    Agree p q g (g.insertNodes ns) :=
  ⟨filter_add_eq h, rfl⟩

theorem Agree.update {f : N → N} (hkey : ∀ n, key (f n) = key n)
    (h : ∀ n, p (key n) → f n = n) : Agree p q g (g.update f) := by
  refine ⟨?_, rfl⟩
  show (g.nodes.map f).filter _ = _
  rw [filter_map, filter_congr fun n _ => by rw [Function.comp, hkey]]
  refine (map_congr rfl fun n hn => ?_).trans (map_id _)
  exact h n (mem_filter.mp hn).2

theorem Agree.mem_keys (h : Agree p q g g') {k : K} (hk : p k) : k ∈ g'.keys ↔ k ∈ g.keys := by
  have hiff : ∀ {g : PropertyGraph N E},
      k ∈ g.keys ↔ ∃ n ∈ g.nodes.filter fun n => p (key n), key n = k := by
    intro g
    rw [PropertyGraph.mem_keys]
    refine exists_congr fun n => ?_
    rw [mem_filter, and_assoc]
    refine and_congr_right fun _ => (and_iff_right_of_imp ?_).symm
    rintro rfl
    exact hk
  rw [hiff, hiff, h.nodes]

end Agree

variable [Linked E K]

/-- Both ends of an edge are in the graph. -/
def Lands (ks : Multiset K) (e : E) : Prop := src e ∈ ks ∧ dst e ∈ ks

theorem Lands.mono {ks ls : Multiset K} {e : E} (h : Lands ks e) (hsub : ks ⊆ ls) : Lands ls e :=
  ⟨hsub h.1, hsub h.2⟩

/-- Deletes the nodes under `p` with their edges, and the edges of `q`. -/
def drop (g : PropertyGraph N E) (p : K → Bool) (q : E → Bool) : PropertyGraph N E where
  nodes := g.nodes.filter fun n => ¬p (key n)
  edges := g.edges.filter fun e => ¬(p (src e) ∨ p (dst e) ∨ q e)

def detachDelete (g : PropertyGraph N E) (p : K → Bool) : PropertyGraph N E :=
  g.drop p fun _ => false

def deleteEdges (g : PropertyGraph N E) (q : E → Bool) : PropertyGraph N E :=
  g.drop (fun _ => false) q

theorem mem_keys_drop {g : PropertyGraph N E} {p : K → Bool} {q : E → Bool} {k : K} :
    k ∈ (g.drop p q).keys ↔ k ∈ g.keys ∧ ¬p k := by
  constructor
  · intro h
    obtain ⟨n, hn, rfl⟩ := mem_keys.mp h
    obtain ⟨hn, hp⟩ := mem_filter.mp hn
    exact ⟨mem_keys.mpr ⟨n, hn, rfl⟩, hp⟩
  · rintro ⟨h, hp⟩
    obtain ⟨n, hn, rfl⟩ := mem_keys.mp h
    exact mem_keys.mpr ⟨n, mem_filter.mpr ⟨hn, hp⟩, rfl⟩

theorem mem_edges_drop {g : PropertyGraph N E} {p : K → Bool} {q : E → Bool} {e : E} :
    e ∈ (g.drop p q).edges ↔ e ∈ g.edges ∧ ¬(p (src e) ∨ p (dst e) ∨ q e) :=
  mem_filter

/-! ## Deletions compose -/

theorem drop_drop (g : PropertyGraph N E) (p p' : K → Bool) (q q' : E → Bool) :
    (g.drop p q).drop p' q' = g.drop (fun k => p k || p' k) fun e => q e || q' e := by
  ext1
  · show Multiset.filter _ (Multiset.filter _ _) = _
    rw [filter_filter]
    refine filter_congr ?_
    intro n _
    simp only [Bool.or_eq_true, not_or]
    tauto
  · show Multiset.filter _ (Multiset.filter _ _) = _
    rw [filter_filter]
    refine filter_congr ?_
    intro e _
    simp only [Bool.or_eq_true, not_or]
    tauto

theorem drop_congr {g : PropertyGraph N E} {p p' : K → Bool} {q q' : E → Bool}
    (hp : ∀ k, p k = p' k) (hq : ∀ e, q e = q' e) : g.drop p q = g.drop p' q' := by
  rw [funext hp, funext hq]

theorem drop_nothing (g : PropertyGraph N E) :
    g.drop (fun _ => false) (fun _ => false) = g := by
  ext1
  · exact filter_eq_self.mpr fun _ _ => nofun
  · exact filter_eq_self.mpr fun _ _ => by simp

/-- A run of deletions is one deletion. -/
theorem foldl_drop (p : α → K → Bool) (q : α → E → Bool) (as : List α) (g : PropertyGraph N E) :
    as.foldl (fun g a => g.drop (p a) (q a)) g =
      g.drop (fun k => as.any (p · k)) fun e => as.any (q · e) := by
  induction as generalizing g with
  | nil => exact (drop_nothing g).symm
  | cons a as ih =>
      rw [List.foldl_cons, ih, drop_drop]
      rfl

theorem detachDelete_detachDelete {g : PropertyGraph N E} {D D' : K → Bool} :
    (g.detachDelete D).detachDelete D' = g.detachDelete fun k => D k || D' k := drop_drop _ _ _ _ _

/-- Between two deletions that leave the same there is no third. -/
theorem detachDelete_between {g : PropertyGraph N E} {D D' most : K → Bool}
    (h : ∀ k, D k → D' k) (h' : ∀ k, D' k → most k)
    (heq : g.detachDelete D = g.detachDelete most) : g.detachDelete D' = g.detachDelete most := by
  have hle : ∀ {D D' : K → Bool}, (∀ k, D k → D' k) →
      (g.detachDelete D').nodes ≤ (g.detachDelete D).nodes ∧
        (g.detachDelete D').edges ≤ (g.detachDelete D).edges := by
    intro D D' h
    constructor
    · exact monotone_filter_right _ fun n hn hD => hn (h _ hD)
    · refine monotone_filter_right _ fun e he hD => he ?_
      exact hD.imp (h _) (Or.imp_left (h _))
  ext1
  · exact le_antisymm ((hle h).1.trans_eq (congrArg nodes heq)) (hle h').1
  · exact le_antisymm ((hle h).2.trans_eq (congrArg edges heq)) (hle h').2

/-! ## No dangling edge -/

/-- Every edge has both its ends. -/
def Closed (g : PropertyGraph N E) : Prop := ∀ e ∈ g.edges, Lands g.keys e

theorem closed_empty : (empty : PropertyGraph N E).Closed := fun e he =>
  absurd he (notMem_zero e)

theorem Closed.insertNodes {g : PropertyGraph N E} (h : g.Closed) (ns : Multiset N) :
    (g.insertNodes ns).Closed := by
  intro e he
  refine (h e he).mono ?_
  intro k hk
  rw [keys_insertNodes]
  exact mem_add.mpr (Or.inl hk)

theorem Closed.update {g : PropertyGraph N E} (h : g.Closed) {f : N → N}
    (hf : ∀ n, key (f n) = key n) : (g.update f).Closed := by
  intro e he
  rw [keys_update hf]
  exact h e he

theorem Closed.drop {g : PropertyGraph N E} (h : g.Closed) (p : K → Bool) (q : E → Bool) :
    (g.drop p q).Closed := by
  intro e he
  obtain ⟨he, hpq⟩ := mem_edges_drop.mp he
  rw [not_or, not_or] at hpq
  exact ⟨mem_keys_drop.mpr ⟨(h e he).1, hpq.1⟩, mem_keys_drop.mpr ⟨(h e he).2, hpq.2.1⟩⟩

theorem Closed.drop_eq_self {g : PropertyGraph N E} (h : g.Closed) {p : K → Bool} {q : E → Bool}
    (hp : ∀ k ∈ g.keys, ¬p k) (hq : ∀ e ∈ g.edges, ¬q e) : g.drop p q = g := by
  ext1
  · exact filter_eq_self.mpr fun n hn => hp _ (mem_keys.mpr ⟨n, hn, rfl⟩)
  · refine filter_eq_self.mpr ?_
    intro e he
    rw [not_or, not_or]
    exact ⟨hp _ (h e he).1, hp _ (h e he).2, hq e he⟩

theorem Closed.detachDelete {g : PropertyGraph N E} (h : g.Closed) (p : K → Bool) :
    (g.detachDelete p).Closed :=
  h.drop p fun _ => false

theorem Closed.detachDelete_eq_self {g : PropertyGraph N E} (h : g.Closed) {p : K → Bool}
    (hp : ∀ k ∈ g.keys, ¬p k) : g.detachDelete p = g :=
  h.drop_eq_self hp fun _ _ => Bool.false_ne_true

/-! ## Frames of deletions -/

section Agree

variable {p : K → Bool} {q : E → Bool} {g : PropertyGraph N E}

theorem Agree.drop {r : K → Bool} {t : E → Bool} (hp : ∀ k, p k → ¬r k)
    (hq : ∀ e ∈ g.edges, q e → ¬(r (src e) ∨ r (dst e) ∨ t e)) : Agree p q g (g.drop r t) := by
  constructor
  · show (g.nodes.filter _).filter _ = _
    rw [filter_filter]
    refine filter_congr ?_
    intro n _
    exact and_iff_left_of_imp (hp (key n))
  · show (g.edges.filter _).filter _ = _
    rw [filter_filter]
    refine filter_congr ?_
    intro e he
    exact and_iff_left_of_imp (hq e he)

theorem Agree.deleteEdges {t : E → Bool} (hq : ∀ e ∈ g.edges, q e → ¬t e) :
    Agree p q g (g.deleteEdges t) := by
  refine .drop (fun k _ h => Bool.false_ne_true h) fun e he hqe => ?_
  rintro (h | h | h)
  · cases h
  · cases h
  · exact hq e he hqe h

theorem Agree.detachDelete {r : K → Bool} (hp : ∀ k, p k → ¬r k)
    (hq : ∀ e ∈ g.edges, q e → ¬r (src e) ∧ ¬r (dst e)) : Agree p q g (g.detachDelete r) := by
  refine .drop hp fun e he hqe => ?_
  rintro (h | h | h)
  · exact (hq e he hqe).1 h
  · exact (hq e he hqe).2 h
  · cases h

end Agree

variable [DecidableEq K]

instance (ks : Multiset K) (e : E) : Decidable (Lands ks e) :=
  inferInstanceAs (Decidable (_ ∧ _))

/-- Creates the edges whose two ends are matched. -/
def insertEdges (g : PropertyGraph N E) (es : Multiset E) : PropertyGraph N E :=
  { g with edges := g.edges + es.filter (Lands g.keys) }

theorem Closed.insertEdges {g : PropertyGraph N E} (h : g.Closed) (es : Multiset E) :
    (g.insertEdges es).Closed := by
  intro e he
  rcases mem_add.mp he with he | he
  · exact h e he
  · exact (mem_filter.mp he).2

theorem Agree.insertEdges {p : K → Bool} {q : E → Bool} {g : PropertyGraph N E} {es : Multiset E}
    (h : ∀ e ∈ es, ¬q e) : Agree p q g (g.insertEdges es) :=
  ⟨rfl, filter_add_eq fun e he => h e (mem_filter.mp he).1⟩

/-! ## Childless nodes -/

/-- The keys under `p` without an edge out of them. -/
def orphans (p : K → Bool) (g : PropertyGraph N E) : Multiset K :=
  g.keys.filter fun k => p k ∧ ∀ e ∈ g.edges, src e ≠ k

/-- Removes the childless nodes under `p` in rounds, until there is none. -/
def prune (p : K → Bool) : Nat → PropertyGraph N E → PropertyGraph N E
  | 0, g => g
  | rounds + 1, g =>
      if g.orphans p = 0 then g
      else prune p rounds (g.detachDelete fun k => k ∈ g.orphans p)

theorem mem_orphans {p : K → Bool} {g : PropertyGraph N E} {k : K} :
    k ∈ g.orphans p ↔ k ∈ g.keys ∧ p k ∧ ∀ e ∈ g.edges, src e ≠ k :=
  mem_filter

theorem Agree.prune {p r : K → Bool} {q : E → Bool} (hp : ∀ k, p k → ¬r k)
    (hq : ∀ e, q e → ¬r (src e) ∧ ¬r (dst e)) : ∀ (rounds : Nat) {g : PropertyGraph N E},
    Agree p q g (g.prune r rounds)
  | 0, _ => .refl _
  | rounds + 1, g => by
      have hr : ∀ {k}, ¬r k → ¬decide (k ∈ g.orphans r) := fun hk h =>
        hk (mem_orphans.mp (of_decide_eq_true h)).2.1
      rw [PropertyGraph.prune]
      split
      · exact .refl _
      · refine .trans (.detachDelete (fun k hk => hr (hp k hk)) fun e _ he => ?_)
          (Agree.prune hp hq rounds)
        exact ⟨hr (hq e he).1, hr (hq e he).2⟩

theorem prune_eq_self {p : K → Bool} {g : PropertyGraph N E} (h : g.orphans p = 0) :
    ∀ rounds, g.prune p rounds = g
  | 0 => rfl
  | _ + 1 => if_pos h

theorem prune_succ {p : K → Bool} {g : PropertyGraph N E} (hclosed : g.Closed) (rounds : Nat) :
    g.prune p (rounds + 1) = (g.detachDelete fun k => k ∈ g.orphans p).prune p rounds := by
  rw [prune]
  split
  case isTrue h =>
    have hself : (g.detachDelete fun k => decide (k ∈ g.orphans p)) = g := by
      refine hclosed.detachDelete_eq_self ?_
      intro k _
      rw [h, decide_eq_true_eq]
      exact notMem_zero k
    rw [hself, prune_eq_self h]
  case isFalse => rfl

/-- What may be pruned: a needed node has a child that is needed or is none of
the nodes in question, and below a node that is not needed there are only such
nodes, each ranked higher. -/
structure Prunable (p needed : K → Bool) (rank : K → Nat) (g : PropertyGraph N E) : Prop where
  supported : ∀ k ∈ g.keys, p k → needed k →
    ∃ e ∈ g.edges, src e = k ∧ (p (dst e) → needed (dst e))
  unneeded : ∀ e ∈ g.edges, p (src e) → ¬needed (src e) →
    p (dst e) ∧ ¬needed (dst e) ∧ rank (src e) < rank (dst e)

/-- As many rounds as the unneeded nodes have ranks delete all of them and
nothing else. -/
theorem prune_eq_drop {p needed : K → Bool} {rank : K → Nat} : ∀ (rounds : Nat)
    {g : PropertyGraph N E}, g.Closed → Prunable p needed rank g →
    (∀ k ∈ g.keys, p k → ¬needed k → 0 < rank k ∧ rank k ≤ rounds) →
    g.prune p rounds = g.detachDelete fun k => p k && !needed k
  | 0, g, hclosed, _, hrank => by
      refine (hclosed.detachDelete_eq_self fun k hk h => ?_).symm
      rw [Bool.and_eq_true, Bool.not_eq_true'] at h
      have := hrank k hk h.1 (Bool.not_eq_true _ ▸ h.2)
      omega
  | rounds + 1, g, hclosed, hprun, hrank => by
      have hunneeded : ∀ k ∈ g.orphans p, p k ∧ ¬needed k := fun k hk => by
        obtain ⟨hkey, hp, hnone⟩ := mem_orphans.mp hk
        refine ⟨hp, fun hn => ?_⟩
        obtain ⟨e, he, hsrc, -⟩ := hprun.supported k hkey hp hn
        exact hnone e he hsrc
      have hkeep : ∀ e ∈ g.edges, (p (dst e) → needed (dst e)) →
          e ∈ (g.detachDelete fun k => k ∈ g.orphans p).edges := fun e he hdst => by
        refine mem_edges_drop.mpr ⟨he, ?_⟩
        simp only [decide_eq_true_eq, Bool.false_eq_true, or_false, not_or]
        refine ⟨fun hsrc => (mem_orphans.mp hsrc).2.2 e he rfl, fun h => ?_⟩
        exact (hunneeded _ h).2 (hdst (hunneeded _ h).1)
      have hprun' : Prunable p needed rank (g.detachDelete fun k => k ∈ g.orphans p) := by
        refine ⟨fun k hk hp hn => ?_, fun e he => hprun.unneeded e (mem_edges_drop.mp he).1⟩
        obtain ⟨e, he, hsrc, hdst⟩ := hprun.supported k (mem_keys_drop.mp hk).1 hp hn
        exact ⟨e, hkeep e he hdst, hsrc, hdst⟩
      rw [prune_succ hclosed, prune_eq_drop rounds (hclosed.detachDelete _) hprun']
      case _ =>
        rw [detachDelete, detachDelete, drop_drop]
        refine drop_congr (fun k => ?_) fun _ => rfl
        by_cases hk : k ∈ g.orphans p
        · have := hunneeded k hk
          simp [this.1, this.2]
        · simp [hk]
      case _ =>
        intro k hk hp hn
        obtain ⟨hk, horphan⟩ := mem_keys_drop.mp hk
        refine ⟨(hrank k hk hp hn).1, ?_⟩
        -- a node that stays has a child, and the child is ranked higher
        obtain ⟨e, he, hsrc⟩ : ∃ e ∈ g.edges, src e = k := by
          by_contra hnone
          push Not at hnone
          exact horphan (decide_eq_true (mem_orphans.mpr ⟨hk, hp, hnone⟩))
        subst hsrc
        obtain ⟨hpd, hnd, hlt⟩ := hprun.unneeded e he hp hn
        have := hrank _ (hclosed e he).2 hpd hnd
        omega

/-! ## Pruning that was cut short -/

section Partial

variable {p D D' most : K → Bool} {g : PropertyGraph N E}

/-- What pruning deletes: nodes under `p`. -/
theorem exists_prune_eq (p : K → Bool) : ∀ (rounds : Nat) (g : PropertyGraph N E),
    ∃ most : K → Bool, g.prune p rounds = g.detachDelete most ∧ ∀ k, most k → p k
  | 0, g => ⟨fun _ => false, (drop_nothing g).symm, fun _ h => absurd h Bool.false_ne_true⟩
  | rounds + 1, g => by
      rw [prune]
      split
      · exact ⟨fun _ => false, (drop_nothing g).symm, fun _ h => absurd h Bool.false_ne_true⟩
      · obtain ⟨most, hmost, hp⟩ := exists_prune_eq p rounds
          (g.detachDelete fun k => k ∈ g.orphans p)
        refine ⟨fun k => decide (k ∈ g.orphans p) || most k, ?_, fun k hk => ?_⟩
        · rw [hmost, detachDelete_detachDelete]
        · rcases Bool.or_eq_true_iff.mp hk with hk | hk
          · exact (mem_orphans.mp (of_decide_eq_true hk)).2.1
          · exact hp k hk

/-- What more was deleted, the less holds up a directory. -/
theorem mem_orphans_of_deleted {k : K} (h : ∀ k, D k → D' k)
    (hk : k ∈ (g.detachDelete D).orphans p) : D' k ∨ k ∈ (g.detachDelete D').orphans p := by
  rw [or_iff_not_imp_left]
  intro hD'
  obtain ⟨hkey, hp, hnone⟩ := mem_orphans.mp hk
  refine mem_orphans.mpr ⟨mem_keys_drop.mpr ⟨(mem_keys_drop.mp hkey).1, hD'⟩, hp, fun e he => ?_⟩
  obtain ⟨he, hnot⟩ := mem_edges_drop.mp he
  refine hnone e (mem_edges_drop.mpr ⟨he, fun hD => hnot ?_⟩)
  exact hD.imp (h _) (Or.imp_left (h _))

/-- Pruning what a pruning left half done ends where that would have, if there is
nothing more to prune behind it. -/
theorem prune_detachDelete (hfix : (g.detachDelete most).orphans p = 0) : ∀ (rounds : Nat)
    {D D' : K → Bool}, (∀ k, D k → D' k) → (∀ k, D' k → most k) →
    (g.detachDelete D).prune p rounds = g.detachDelete most →
    (g.detachDelete D').prune p rounds = g.detachDelete most
  | 0, _, _, hle, hmost, heq => detachDelete_between hle hmost heq
  | rounds + 1, D, D', hle, hmost, heq => by
      have hrest : ∀ k ∈ (g.detachDelete D').orphans p, most k := fun k hk => by
        have hmem := mem_orphans_of_deleted hmost hk
        rw [hfix] at hmem
        exact hmem.resolve_right (notMem_zero k)
      rw [prune] at heq
      split at heq
      case isTrue hnone =>
        have hsame := detachDelete_between hle hmost heq
        rw [hsame]
        exact prune_eq_self hfix _
      case isFalse =>
        rw [detachDelete_detachDelete] at heq
        rw [prune]
        split
        case isTrue hnone =>
          -- what the other round deletes is gone already
          have hgone : ∀ k, (D k || decide (k ∈ (g.detachDelete D).orphans p)) → D' k := by
            intro k hk
            rcases Bool.or_eq_true_iff.mp hk with hk | hk
            · exact hle k hk
            · have hmem := mem_orphans_of_deleted hle (of_decide_eq_true hk)
              rw [hnone] at hmem
              exact hmem.resolve_right (notMem_zero k)
          rw [← prune_detachDelete hfix rounds hgone hmost heq, prune_eq_self hnone]
        case isFalse =>
          rw [detachDelete_detachDelete]
          refine prune_detachDelete hfix rounds (fun k hk => ?_) (fun k hk => ?_) heq
          · rw [Bool.or_eq_true, decide_eq_true_eq]
            rcases Bool.or_eq_true_iff.mp hk with hk | hk
            · exact Or.inl (hle k hk)
            · exact mem_orphans_of_deleted hle (of_decide_eq_true hk)
          · rcases Bool.or_eq_true_iff.mp hk with hk | hk
            · exact hmost k hk
            · exact hrest k (of_decide_eq_true hk)

end Partial

end PropertyGraph
