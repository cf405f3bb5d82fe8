import CodeGraph.Communities
import CodeGraph.Lib.Classes

/-!
# Community repair

Splits every community into its connected components: the first component keeps
the label, the others get new ones, and the labels are renumbered at the end.
-/

namespace CodeGraph

open List

namespace Community

open Worklist

open Relation (ReflTransGen)

variable {n : Nat}

/-- The neighbours of a node inside a community. -/
def communityNext (neighbors : Neighbors n) (comm : Fin n → Nat) (community : Nat)
    (members : List (Fin n)) (node : Fin n) : List (Fin n) :=
  ((neighbors node).map Prod.fst).filter fun nbr => nbr ∈ members ∧ comm nbr = community

/-- The components of the members of one community, each met by one search. A
search takes no node twice, so `n` turns are enough. -/
def connectedComponentsWithin (members : List (Fin n)) (neighbors : Neighbors n)
    (comm : Fin n → Nat) (community : Nat) : Option (List (List (Fin n))) :=
  classesFrom (communityNext neighbors comm community members) n members [] []

/-- Gives each component a new label. -/
def relabelComponents : List (List (Fin n)) → (Fin n → Nat) × Nat → (Fin n → Nat) × Nat
  | [], s => s
  | component :: components, (comm, nextComm) =>
      relabelComponents components
        (fun i => if i ∈ component then nextComm else comm i, nextComm + 1)

/-- One community: its first component keeps the label. -/
def repairCommunity (neighbors : Neighbors n) (s : (Fin n → Nat) × Nat) (c : Nat) :
    Option ((Fin n → Nat) × Nat) :=
  let members := (List.finRange n).filter fun i => s.1 i = c
  if members.length ≤ 1 then some s
  else do
    let components ← connectedComponentsWithin members neighbors s.1 c
    some (if components.length ≤ 1 then s else relabelComponents (components.drop 1) s)

def repairC2 (neighbors : Neighbors n) (comm : Fin n → Nat) : Option (Fin n → Nat) := do
  let (comm, _) ← (List.range (numComms comm)).foldlM (repairCommunity neighbors)
    (comm, numComms comm)
  some (renumberCommunities comm)

/-- One step inside a community. -/
def Inside (neighbors : Neighbors n) (comm : Fin n → Nat) (a b : Fin n) : Prop :=
  b ∈ (neighbors a).map Prod.fst ∧ comm b = comm a

/-- Two nodes are connected inside their community. -/
abbrev Connected (neighbors : Neighbors n) (comm : Fin n → Nat) (a b : Fin n) : Prop :=
  ReflTransGen (Inside neighbors comm) a b

variable {neighbors : Neighbors n} {comm : Fin n → Nat}

theorem Connected.comm_eq {a b : Fin n} (h : Connected neighbors comm a b) : comm b = comm a := by
  induction h with
  | refl => rfl
  | tail _ hstep ih => exact hstep.2.trans ih

theorem Connected.symm (hlinked : Linked neighbors) {a b : Fin n}
    (h : Connected neighbors comm a b) : Connected neighbors comm b a := by
  induction h with
  | refl => exact .refl
  | tail _ hstep ih => exact .head ⟨hlinked _ _ hstep.1, hstep.2.symm⟩ ih

/-! ## The components of one community -/

section Component

variable {current : Fin n → Nat} {c : Nat} {members : List (Fin n)}

theorem mem_communityNext (hmembers : ∀ i, i ∈ members ↔ current i = c) {a b : Fin n} :
    b ∈ communityNext neighbors current c members a ↔
      b ∈ (neighbors a).map Prod.fst ∧ current b = c := by
  simp only [communityNext, mem_filter, decide_eq_true_eq, hmembers, and_self]

theorem reach_communityNext (hmembers : ∀ i, i ∈ members ↔ current i = c)
    (hsame : ∀ i, current i = c ↔ comm i = c) {a b : Fin n} (ha : comm a = c) :
    ReflTransGen (Step (communityNext neighbors current c members)) a b ↔
      Connected neighbors comm a b := by
  constructor
  · intro h
    induction h with
    | refl => exact .refl
    | tail hab hstep ih =>
        obtain ⟨hnbr, hc⟩ := (mem_communityNext hmembers).mp hstep
        exact ih.tail ⟨hnbr, ((hsame _).mp hc).trans (ih.comm_eq.trans ha).symm⟩
  · intro h
    induction h with
    | refl => exact .refl
    | tail hab hstep ih =>
        refine ih.tail ((mem_communityNext hmembers).mpr ⟨hstep.1, (hsame _).mpr ?_⟩)
        exact hstep.2.trans ((Connected.comm_eq hab).trans ha)

theorem connectedComponentsWithin_spec (hlinked : Linked neighbors)
    (hmembers : ∀ i, i ∈ members ↔ current i = c) : ∃ components,
    connectedComponentsWithin members neighbors current c = some components ∧
      (∀ component ∈ components, ∀ i ∈ component, i ∈ members) ∧
      Classes (communityNext neighbors current c members) members components := by
  have hundirected : Undirected (communityNext neighbors current c members) members.toFinset := by
    refine ⟨fun a ha b hb => ?_, fun a ha b hb => ?_⟩
    · rw [mem_toFinset, hmembers]
      exact ((mem_communityNext hmembers).mp hb).2
    · rw [mem_toFinset, hmembers] at ha
      exact (mem_communityNext hmembers).mpr
        ⟨hlinked a b ((mem_communityNext hmembers).mp hb).1, ha⟩
  have hcard : members.toFinset.card ≤ n := by
    simpa using Finset.card_le_univ members.toFinset
  obtain ⟨components, hrun, -, hsub, hclasses⟩ := ClassInv.init.found hundirected hcard
    nofun fun s hs => (mem_toFinset.mpr hs : s ∈ members.toFinset)
  exact ⟨components, hrun, fun d hd i hi => mem_toFinset.mp (hsub d hd i hi), hclasses⟩

end Component

/-! ## New labels -/

theorem relabelComponents_of_notMem {i : Fin n} : ∀ (components : List (List (Fin n)))
    (s : (Fin n → Nat) × Nat), (∀ component ∈ components, i ∉ component) →
    (relabelComponents components s).1 i = s.1 i
  | [], _, _ => rfl
  | component :: components, (current, nextComm), h => by
      rw [relabelComponents, relabelComponents_of_notMem components _ fun d hd =>
        h d (mem_cons_of_mem _ hd)]
      exact if_neg (h component mem_cons_self)

theorem relabelComponents_of_mem {i : Fin n} : ∀ {components : List (List (Fin n))}
    (s : (Fin n → Nat) × Nat) {k : Nat} (hk : k < components.length), i ∈ components[k] →
    components.Pairwise List.Disjoint → (relabelComponents components s).1 i = s.2 + k
  | component :: components, (current, nextComm), 0, _, hi, hdisjoint => by
      obtain ⟨hfirst, -⟩ := pairwise_cons.mp hdisjoint
      rw [relabelComponents, relabelComponents_of_notMem components _ fun d hd hmem =>
        hfirst d hd hi hmem]
      exact if_pos hi
  | component :: components, (current, nextComm), k + 1, hk, hi, hdisjoint => by
      obtain ⟨-, hrest⟩ := pairwise_cons.mp hdisjoint
      rw [relabelComponents, relabelComponents_of_mem _ (Nat.lt_of_succ_lt_succ hk) hi hrest]
      show nextComm + 1 + k = nextComm + (k + 1)
      omega

theorem relabelComponents_snd : ∀ (components : List (List (Fin n))) (s : (Fin n → Nat) × Nat),
    (relabelComponents components s).2 = s.2 + components.length
  | [], _ => rfl
  | component :: components, (current, nextComm) => by
      rw [relabelComponents, relabelComponents_snd, length_cons]
      show nextComm + 1 + components.length = nextComm + (components.length + 1)
      omega

/-! ## One community -/

/-- What the repair of one community does: the other nodes keep their labels,
its own are told apart by their components, and the new labels are unused. -/
structure Repaired (neighbors : Neighbors n) (comm : Fin n → Nat) (c : Nat)
    (s s' : (Fin n → Nat) × Nat) : Prop where
  others : ∀ i, comm i ≠ c → s'.1 i = s.1 i
  labels : ∀ i, comm i = c → s'.1 i = c ∨ (s.2 ≤ s'.1 i ∧ s'.1 i < s'.2)
  next : s.2 ≤ s'.2
  exact : ∀ i j, comm i = c → comm j = c → (s'.1 i = s'.1 j ↔ Connected neighbors comm i j)

theorem Repaired.whole {c : Nat} {s : (Fin n → Nat) × Nat} (hsame : ∀ i, s.1 i = c ↔ comm i = c)
    (h : ∀ i j, comm i = c → comm j = c → Connected neighbors comm i j) :
    Repaired neighbors comm c s s where
  others := fun _ _ => rfl
  labels := fun i hi => Or.inl ((hsame i).mpr hi)
  next := le_rfl
  exact := fun i j hi hj => iff_of_true (((hsame i).mpr hi).trans ((hsame j).mpr hj).symm) (h i j hi hj)

theorem relabelComponents_later {components : List (List (Fin n))} (s : (Fin n → Nat) × Nat)
    (hdisjoint : components.Pairwise List.Disjoint) {i : Fin n} {a : Nat}
    (ha : a < components.length) (hia : i ∈ components[a]) :
    (relabelComponents (components.drop 1) s).1 i = if a = 0 then s.1 i else s.2 + (a - 1) := by
  cases a with
  | zero =>
      refine relabelComponents_of_notMem _ s ?_
      intro d hd hmem
      obtain ⟨k, hk, rfl⟩ := getElem_of_mem hd
      rw [getElem_drop] at hmem
      rw [length_drop] at hk
      exact pairwise_iff_getElem.mp hdisjoint 0 (1 + k) ha (by omega) (by omega) hia hmem
  | succ k =>
      refine relabelComponents_of_mem s (by rw [length_drop]; omega) ?_ hdisjoint.drop
      simpa [getElem_drop, Nat.add_comm] using hia

theorem repairCommunity_spec (hlinked : Linked neighbors) {c : Nat} {s : (Fin n → Nat) × Nat}
    (hsame : ∀ i, s.1 i = c ↔ comm i = c) (hnext : c < s.2) :
    ∃ s', repairCommunity neighbors s c = some s' ∧ Repaired neighbors comm c s s' := by
  have hmembers : ∀ i, i ∈ (List.finRange n).filter (fun i => s.1 i = c) ↔ s.1 i = c := by simp
  unfold repairCommunity
  dsimp only
  split
  · next hfew =>
    refine ⟨s, rfl, .whole hsame fun i j hi hj => ?_⟩
    have hi' := (hmembers i).mpr ((hsame i).mpr hi)
    have hj' := (hmembers j).mpr ((hsame j).mpr hj)
    obtain rfl : i = j := by
      generalize (List.finRange n).filter (fun i => s.1 i = c) = members at hfew hi' hj'
      match members with
      | [] => cases hi'
      | [only] => exact (mem_singleton.mp hi').trans (mem_singleton.mp hj').symm
    exact .refl
  obtain ⟨components, hrun, hsub, hclasses⟩ := connectedComponentsWithin_spec hlinked hmembers
  have hindex : ∀ i, comm i = c → ∃ (k : Nat) (hk : k < components.length), i ∈ components[k] :=
    fun i hi => hclasses.exists_index ((hmembers i).mpr ((hsame i).mpr hi))
  have hreach : ∀ i j, comm i = c → ∀ (a b : Nat) (ha : a < components.length)
      (hb : b < components.length), i ∈ components[a] → j ∈ components[b] →
      (a = b ↔ Connected neighbors comm i j) := fun i j hi a b ha hb hia hjb =>
    (hclasses.index_eq_iff ha hb hia hjb).trans (reach_communityNext hmembers hsame hi)
  rw [hrun]
  refine ⟨_, rfl, ?_⟩
  split
  · next hone =>
    refine .whole hsame ?_
    intro i j hi hj
    obtain ⟨a, ha, hia⟩ := hindex i hi
    obtain ⟨b, hb, hjb⟩ := hindex j hj
    exact (hreach i j hi a b ha hb hia hjb).mp (by omega)
  have hlabel : ∀ i, comm i = c → ∀ a (ha : a < components.length), i ∈ components[a] →
      (relabelComponents (components.drop 1) s).1 i = if a = 0 then c else s.2 + (a - 1) := by
    intro i hi a ha hia
    rw [relabelComponents_later s hclasses.disjoint ha hia, (hsame i).mpr hi]
  have hcount : (relabelComponents (components.drop 1) s).2 = s.2 + (components.length - 1) := by
    rw [relabelComponents_snd, length_drop]
  refine ⟨fun i hi => ?_, fun i hi => ?_, by omega, fun i j hi hj => ?_⟩
  · refine relabelComponents_of_notMem _ s fun d hd hmem => hi ?_
    exact (hsame i).mp ((hmembers i).mp (hsub d (mem_of_mem_drop hd) i hmem))
  · obtain ⟨a, ha, hia⟩ := hindex i hi
    rw [hlabel i hi a ha hia, hcount]
    split
    · exact Or.inl rfl
    · exact Or.inr ⟨by omega, by omega⟩
  · obtain ⟨a, ha, hia⟩ := hindex i hi
    obtain ⟨b, hb, hjb⟩ := hindex j hj
    rw [hlabel i hi a ha hia, hlabel j hj b hb hjb, ← hreach i j hi a b ha hb hia hjb]
    split <;> split <;> omega

/-! ## All communities -/

/-- After the communities below `k`: theirs are told apart by their components,
with labels no later community has, and the rest is as it was. -/
structure RepairInv (neighbors : Neighbors n) (comm : Fin n → Nat) (k : Nat)
    (s : (Fin n → Nat) × Nat) : Prop where
  rest : ∀ i, k ≤ comm i → s.1 i = comm i
  done : ∀ i, comm i < k → s.1 i = comm i ∨ (numComms comm ≤ s.1 i ∧ s.1 i < s.2)
  next : numComms comm ≤ s.2
  exact : ∀ i j, comm i < k → comm j < k → (s.1 i = s.1 j ↔ Connected neighbors comm i j)

theorem RepairInv.init (neighbors : Neighbors n) (comm : Fin n → Nat) :
    RepairInv neighbors comm 0 (comm, numComms comm) where
  rest := fun _ _ => rfl
  done := fun _ h => absurd h (Nat.not_lt_zero _)
  next := le_rfl
  exact := fun _ _ h => absurd h (Nat.not_lt_zero _)

theorem RepairInv.same {k : Nat} {s : (Fin n → Nat) × Nat} (h : RepairInv neighbors comm k s)
    (hk : k < numComms comm) (i : Fin n) : s.1 i = k ↔ comm i = k := by
  rcases Nat.lt_or_ge (comm i) k with hlt | hge
  · have hlabel := h.done i hlt
    omega
  · rw [h.rest i hge]

theorem RepairInv.step {k : Nat} {s s' : (Fin n → Nat) × Nat} (h : RepairInv neighbors comm k s)
    (hk : k < numComms comm) (hstep : Repaired neighbors comm k s s') :
    RepairInv neighbors comm (k + 1) s' := by
  have hbefore : ∀ i, comm i < k → s'.1 i = s.1 i := fun i hi => hstep.others i (Nat.ne_of_lt hi)
  -- the community just repaired and one repaired before share no label
  have happart : ∀ i j, comm i = k → comm j < k → s'.1 i ≠ s'.1 j := by
    intro i j hi hj
    have hold := h.done j hj
    have hnew := hstep.labels i hi
    have hnext := h.next
    rw [hbefore j hj]
    omega
  have hacross : ∀ i j, comm i ≠ comm j → ¬ Connected neighbors comm i j := fun i j hne hconnected =>
    hne hconnected.comm_eq.symm
  refine ⟨fun i hi => ?_, fun i hi => ?_, h.next.trans hstep.next, fun i j hi hj => ?_⟩
  · rw [hstep.others i (by omega), h.rest i (by omega)]
  · rcases Nat.lt_succ_iff_lt_or_eq.mp hi with hlt | heq
    · rw [hbefore i hlt]
      exact (h.done i hlt).imp id fun hlabel => ⟨hlabel.1, hlabel.2.trans_le hstep.next⟩
    · refine (hstep.labels i heq).imp (fun hlabel => hlabel.trans heq.symm) ?_
      intro hlabel
      exact ⟨h.next.trans hlabel.1, hlabel.2⟩
  · rcases Nat.lt_succ_iff_lt_or_eq.mp hi with hilt | hieq <;>
      rcases Nat.lt_succ_iff_lt_or_eq.mp hj with hjlt | hjeq
    · rw [hbefore i hilt, hbefore j hjlt]
      exact h.exact i j hilt hjlt
    · exact iff_of_false (happart j i hjeq hilt).symm (hacross i j (by omega))
    · exact iff_of_false (happart i j hieq hjlt) (hacross i j (by omega))
    · exact hstep.exact i j hieq hjeq

theorem repair_run (hlinked : Linked neighbors) (comm : Fin n → Nat) : ∀ {k : Nat},
    k ≤ numComms comm → ∃ s, (List.range k).foldlM (repairCommunity neighbors)
      (comm, numComms comm) = some s ∧ RepairInv neighbors comm k s
  | 0, _ => ⟨_, rfl, .init neighbors comm⟩
  | k + 1, hk => by
      obtain ⟨s, hrun, hinv⟩ := repair_run hlinked comm (Nat.le_of_succ_le hk)
      have hlt : k < numComms comm := hk
      obtain ⟨s', hstep, hrepaired⟩ := repairCommunity_spec hlinked (hinv.same hlt)
        (hlt.trans_le hinv.next)
      refine ⟨s', ?_, hinv.step hlt hrepaired⟩
      rw [range_succ, foldlM_append, hrun]
      simp only [Option.bind_eq_bind, Option.bind_some, foldlM_cons, hstep, foldlM_nil]
      rfl

/-- The repair returns, and puts two nodes together exactly when they are
connected inside their community: communities are never merged, each one that
comes out is connected, and the labels leave no number out. -/
theorem repairC2_exact (hlinked : Linked neighbors) (comm : Fin n → Nat) : ∃ result,
    repairC2 neighbors comm = some result ∧
      (∀ i j, result i = result j ↔ Connected neighbors comm i j) ∧
      (∀ i j, result i = result j → comm i = comm j) ∧
      (∀ i j, result i = result j → Connected neighbors result i j) ∧ Contiguous result := by
  obtain ⟨s, hrun, hinv⟩ := repair_run hlinked comm le_rfl
  have hexact : ∀ i j, renumberCommunities s.1 i = renumberCommunities s.1 j ↔
      Connected neighbors comm i j := fun i j =>
    (renumberCommunities_eq_iff s.1 i j).trans
      (hinv.exact i j (lt_numComms comm i) (lt_numComms comm j))
  refine ⟨renumberCommunities s.1, ?_, hexact, fun i j h => ((hexact i j).mp h).comm_eq.symm,
    fun i j h => ?_, contiguous_renumberCommunities _⟩
  · simp only [repairC2, hrun, Option.bind_eq_bind, Option.bind_some]
  · -- a path inside the community stays with its start
    have hpath := (hexact i j).mp h
    clear h
    induction hpath with
    | refl => exact .refl
    | tail hab hstep ih =>
        refine ih.tail ⟨hstep.1, (hexact _ _).mpr ?_⟩
        exact Connected.symm hlinked (.single hstep)

/-- One community of three nodes, two of them joined. -/
theorem repairC2_exact_edge : ∃ result,
    repairC2 (Adjacency.collectWeightedEdges [((0 : Fin 3), (1 : Fin 3), (1 : ℚ))]).neighbors
        (fun _ => 0) = some result ∧ Contiguous result := by
  obtain ⟨result, hrun, -, -, -, hcontiguous⟩ := repairC2_exact
    (Adjacency.collectWeightedEdges_undirected [((0 : Fin 3), (1 : Fin 3), (1 : ℚ))]).2
    (fun _ => 0)
  exact ⟨result, hrun, hcontiguous⟩

end Community

end CodeGraph
