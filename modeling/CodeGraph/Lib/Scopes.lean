import CodeGraph.Lib.Located

/-!
# What is in scope at a node

The nodes of a tree span stretches of a text. On the way up from a node, its earlier
siblings bring entries into scope, each from a place of the sibling on, and a parent may
hold entries of its own from its start on. The list `inScope` has them innermost first, and
an entry before another one in it came into scope later in the text (`pairwise_inScope`), so
that the innermost entry is the one with the latest start.
-/

variable {ε ν β : Type*}

/-- The children of the tree lie in its stretch one after another. -/
def OrderedTree.Spaced (start stop : ν → ℕ) (t : OrderedTree ε ν) : Prop :=
  start t.node < stop t.node ∧
    (∀ c ∈ t.children.trees, start t.node ≤ start c.node ∧ stop c.node ≤ stop t.node) ∧
    t.children.trees.Pairwise fun a b => stop a.node ≤ start b.node

instance (start stop : ν → ℕ) (t : OrderedTree ε ν) : Decidable (t.Spaced start stop) :=
  inferInstanceAs (Decidable (_ ∧ _))

namespace Located

open List

variable {n p s a c : Located ε ν}

theorem map_tree_children (n : Located ε ν) :
    n.children.map Located.tree = n.tree.children.trees := by
  rw [← Forest.map_snd_entries, children, List.map_ofFn]
  refine List.ext_getElem (by rw [List.length_ofFn, List.length_map]; rfl) fun i h _ => ?_
  rw [List.getElem_ofFn, List.getElem_map]
  rfl

theorem getElem?_children (h : n.parent = some p) : p.children[n.index]? = some n := by
  obtain ⟨i, rfl⟩ := List.mem_ofFn.mp (mem_children.mpr h)
  rw [index_child, children, List.getElem?_ofFn, dif_pos i.isLt]

theorem before_of_parent (h : n.parent = some p) : n.before = p.children.take n.index := by
  rw [before, h]

theorem exists_parent_of_before (h : s ∈ n.before) :
    ∃ p, n.parent = some p ∧ s.parent = some p := by
  unfold before at h
  split at h
  · cases h
  · next p hp => exact ⟨p, hp, mem_children.mp (mem_of_mem_take h)⟩

theorem before_eq_or_before (hn : n.parent = some p) (hs : s.parent = some p) :
    s ∈ n.before ∨ s = n ∨ n ∈ s.before := by
  rw [before_of_parent hn, before_of_parent hs]
  have hni := List.getElem?_eq_some_iff.mp (getElem?_children hn)
  have hsi := List.getElem?_eq_some_iff.mp (getElem?_children hs)
  obtain ⟨hnlt, hnget⟩ := hni
  obtain ⟨hslt, hsget⟩ := hsi
  rcases Nat.lt_trichotomy s.index n.index with hlt | heq | hgt
  · exact .inl (mem_take_iff_getElem.mpr ⟨s.index, by omega, hsget⟩)
  · exact .inr (.inl (by rw [← hsget, ← hnget]; simp only [heq]))
  · exact .inr (.inr (mem_take_iff_getElem.mpr ⟨n.index, by omega, hnget⟩))

/-! ## Stretches -/

section Spaced

variable {start stop : ν → ℕ}

/-- The tree the node is in has its nodes spaced. -/
def SpacedIn (start stop : ν → ℕ) (n : Located ε ν) : Prop :=
  n.root.Every (OrderedTree.Spaced start stop)

namespace SpacedIn

theorem spaced (h : n.SpacedIn start stop) : n.tree.Spaced start stop := (every_of_root h).1

theorem nonempty (h : n.SpacedIn start stop) : start n.tree.node < stop n.tree.node := h.spaced.1

theorem ancestor (h : n.SpacedIn start stop) (ha : a ∈ n.ancestors) : a.SpacedIn start stop := by
  rw [SpacedIn, root_of_ancestor ha]
  exact h

theorem descendant (h : a.SpacedIn start stop) (ha : a ∈ n.ancestors) : n.SpacedIn start stop := by
  rw [SpacedIn, ← root_of_ancestor ha]
  exact h

theorem within_parent (h : n.SpacedIn start stop) (hp : n.parent = some p) :
    start p.tree.node ≤ start n.tree.node ∧ stop n.tree.node ≤ stop p.tree.node :=
  (h.ancestor (parent_mem_ancestors hp)).spaced.2.1 _ (mem_trees_of_parent hp)

theorem within (h : n.SpacedIn start stop) (ha : a ∈ n.ancestors) :
    start a.tree.node ≤ start n.tree.node ∧ stop n.tree.node ≤ stop a.tree.node := by
  induction n using induction_up with
  | root n hn =>
      rw [ancestors_of_root hn, mem_singleton] at ha
      exact ha ▸ ⟨le_rfl, le_rfl⟩
  | step n p hn ih =>
      rcases (mem_ancestors_of_parent hn).mp ha with rfl | ha
      · exact ⟨le_rfl, le_rfl⟩
      · have hp := ih (h.ancestor (parent_mem_ancestors hn)) ha
        have hc := h.within_parent hn
        omega

theorem pairwise_children (h : p.SpacedIn start stop) :
    p.children.Pairwise fun a b => stop a.tree.node ≤ start b.tree.node := by
  have := h.spaced.2.2
  rwa [← map_tree_children, pairwise_map] at this

theorem pairwise_before (h : n.SpacedIn start stop) :
    n.before.Pairwise fun a b => stop a.tree.node ≤ start b.tree.node := by
  cases hn : n.parent with
  | none => rw [before, hn]; exact .nil
  | some p =>
      rw [before_of_parent hn]
      exact (h.ancestor (parent_mem_ancestors hn)).pairwise_children.sublist (take_sublist _ _)

theorem stop_le_of_before (h : n.SpacedIn start stop) (hs : s ∈ n.before) :
    stop s.tree.node ≤ start n.tree.node := by
  obtain ⟨p, hp, _⟩ := exists_parent_of_before hs
  have hchildren := (h.ancestor (parent_mem_ancestors hp)).pairwise_children
  rw [before_of_parent hp] at hs
  rw [← take_append_drop n.index p.children, pairwise_append] at hchildren
  refine hchildren.2.2 s hs n ?_
  have hget := getElem?_children hp
  rw [← Nat.add_zero n.index, ← getElem?_drop] at hget
  exact mem_of_getElem? hget

end SpacedIn

end Spaced

/-! ## Entries in scope -/

/-- How nodes bring entries into scope: `brought n s` is what the earlier sibling `s` brings
into scope at `n`, and `held n` what the parent of `n` holds. -/
structure Scoping (ε ν β : Type*) where
  start : ν → ℕ
  stop : ν → ℕ
  since : β → ℕ
  fromStart : β → Prop
  brought : Located ε ν → Located ε ν → List β
  held : Located ε ν → List β
  brought_within : ∀ n s x, s ∈ n.before → n.SpacedIn start stop → x ∈ brought n s →
    ¬ fromStart x ∧ start s.tree.node < since x ∧ since x ≤ stop s.tree.node
  brought_later : ∀ n s, s ∈ n.before → n.SpacedIn start stop →
    (brought n s).Pairwise fun x y => since y < since x
  held_at : ∀ n x, x ∈ held n →
    fromStart x ∧ ∃ p, n.parent = some p ∧ since x = start p.tree.node

namespace Scoping

variable (S : Scoping ε ν β) {x y : β}

/-- `x` came into scope after `y`, or with the start of a node that `y` reaches. -/
def Later (x y : β) : Prop :=
  (S.fromStart x → S.since y ≤ S.since x) ∧ (¬ S.fromStart x → S.since y < S.since x)

/-- What the step from its parent to a node adds. -/
def added (n : Located ε ν) : List β := n.before.reverse.flatMap (S.brought n) ++ S.held n

/-- The entries in scope at a node, innermost first. -/
def inScope (n : Located ε ν) : List β := n.ancestors.flatMap S.added

theorem mem_added : x ∈ S.added n ↔ (∃ s ∈ n.before, x ∈ S.brought n s) ∨ x ∈ S.held n := by
  simp only [added, mem_append, mem_flatMap, mem_reverse]

theorem added_since (hn : n.SpacedIn S.start S.stop) (hx : x ∈ S.added n) :
    S.since x ≤ S.start n.tree.node ∧ ∃ p, n.parent = some p ∧
      (S.fromStart x → S.start p.tree.node ≤ S.since x) ∧
      (¬ S.fromStart x → S.start p.tree.node < S.since x) := by
  rcases S.mem_added.mp hx with ⟨s, hs, hx⟩ | hx
  · obtain ⟨hnot, hgt, hle⟩ := S.brought_within n s x hs hn hx
    obtain ⟨p, hp, hsp⟩ := exists_parent_of_before hs
    have hstop := hn.stop_le_of_before hs
    have hsn := (hn.ancestor (parent_mem_ancestors hp)).descendant (parent_mem_ancestors hsp)
    have hstart := (hsn.within_parent hsp).1
    exact ⟨by omega, p, hp, fun h => absurd h hnot, fun _ => by omega⟩
  · obtain ⟨hopens, p, hp, hsince⟩ := S.held_at n x hx
    have hstart := (hn.within_parent hp).1
    exact ⟨by omega, p, hp, fun _ => by omega, fun h => absurd hopens h⟩

theorem pairwise_added (hn : n.SpacedIn S.start S.stop) : (S.added n).Pairwise S.Later := by
  rw [added, pairwise_append]
  refine ⟨?_, ?_, ?_⟩
  · rw [pairwise_flatMap, pairwise_reverse]
    constructor
    · intro s hs
      have hs := mem_reverse.mp hs
      refine (S.brought_later n s hs hn).imp_of_mem fun hx _ hlt => ?_
      exact ⟨fun h => absurd h (S.brought_within n s _ hs hn hx).1, fun _ => hlt⟩
    · refine hn.pairwise_before.imp_of_mem fun {s t} hs ht hst x hx y hy => ?_
      obtain ⟨hnot, hgt, _⟩ := S.brought_within n t x ht hn hx
      obtain ⟨_, _, hle⟩ := S.brought_within n s y hs hn hy
      exact ⟨fun h => absurd h hnot, fun _ => by omega⟩
  · refine pairwise_of_forall_mem_list fun x hx y hy => ?_
    obtain ⟨hx, p, hp, hsx⟩ := S.held_at n x hx
    obtain ⟨_, q, hq, hsy⟩ := S.held_at n y hy
    obtain rfl := Option.some.inj (hp.symm.trans hq)
    exact ⟨fun _ => by omega, fun h => absurd hx h⟩
  · intro x hx y hy
    obtain ⟨s, hs, hx⟩ := mem_flatMap.mp hx
    have hs := mem_reverse.mp hs
    obtain ⟨hnot, hgt, _⟩ := S.brought_within n s x hs hn hx
    obtain ⟨_, p, hp, hsy⟩ := S.held_at n y hy
    obtain ⟨q, hq, hsq⟩ := exists_parent_of_before hs
    obtain rfl := Option.some.inj (hp.symm.trans hq)
    have hsn := (hn.ancestor (parent_mem_ancestors hp)).descendant (parent_mem_ancestors hsq)
    have hstart := (hsn.within_parent hsq).1
    exact ⟨fun h => absurd h hnot, fun _ => by omega⟩

theorem inScope_since (hn : n.SpacedIn S.start S.stop) (hx : x ∈ S.inScope n) :
    S.since x ≤ S.start n.tree.node := by
  obtain ⟨a, ha, hx⟩ := mem_flatMap.mp hx
  have hle := (S.added_since (hn.ancestor ha) hx).1
  have := (hn.within ha).1
  omega

/-- Innermost first is latest first. -/
theorem pairwise_inScope (hn : n.SpacedIn S.start S.stop) : (S.inScope n).Pairwise S.Later := by
  induction n using induction_up with
  | root n h =>
      rw [inScope, ancestors_of_root h, flatMap_singleton]
      exact S.pairwise_added hn
  | step n p hp ih =>
      have hpn := hn.ancestor (parent_mem_ancestors hp)
      rw [inScope, ancestors_of_parent hp, flatMap_cons, pairwise_append]
      refine ⟨S.pairwise_added hn, ih hpn, fun x hx y hy => ?_⟩
      have hy : S.since y ≤ S.start p.tree.node := S.inScope_since hpn hy
      obtain ⟨_, q, hq, hopens, hgt⟩ := S.added_since hn hx
      obtain rfl := Option.some.inj (hp.symm.trans hq)
      exact ⟨fun h => by have := hopens h; omega, fun h => by have := hgt h; omega⟩

end Scoping

end Located

/-! ## The latest entry -/

section FirstMax

variable {α : Type*}

/-- The first of the entries with the largest number, `best` before all others. -/
def firstMax : Option (ℕ × α) → List (ℕ × α) → Option (ℕ × α)
  | best, [] => best
  | best, x :: xs => firstMax (if ∀ b ∈ best, b.1 < x.1 then some x else best) xs

/-- Entries before `x` have smaller numbers, and entries behind it no larger ones. -/
def IsFirstMax (l : List (ℕ × α)) (x : ℕ × α) : Prop :=
  ∃ earlier later, l = earlier ++ x :: later ∧
    (∀ e ∈ earlier, e.1 < x.1) ∧ ∀ e ∈ later, e.1 ≤ x.1

theorem IsFirstMax.mem {l : List (ℕ × α)} {x : ℕ × α} (h : IsFirstMax l x) : x ∈ l := by
  obtain ⟨_, _, rfl, -⟩ := h
  exact List.mem_append_right _ List.mem_cons_self

theorem IsFirstMax.le {l : List (ℕ × α)} {x e : ℕ × α} (h : IsFirstMax l x) (he : e ∈ l) :
    e.1 ≤ x.1 := by
  obtain ⟨earlier, later, rfl, hearlier, hlater⟩ := h
  rcases List.mem_append.mp he with he | he
  · exact (hearlier e he).le
  · rcases List.mem_cons.mp he with rfl | he
    · exact le_rfl
    · exact hlater e he

theorem isFirstMax_cons {l : List (ℕ × α)} {b x : ℕ × α} : IsFirstMax (b :: l) x ↔
    (x = b ∧ ∀ e ∈ l, e.1 ≤ b.1) ∨ (b.1 < x.1 ∧ IsFirstMax l x) := by
  constructor
  · rintro ⟨_ | ⟨c, earlier⟩, later, heq, hearlier, hlater⟩
    · cases heq
      exact .inl ⟨rfl, hlater⟩
    · cases heq
      rw [List.forall_mem_cons] at hearlier
      exact .inr ⟨hearlier.1, earlier, later, rfl, hearlier.2, hlater⟩
  · rintro (⟨rfl, hle⟩ | ⟨hlt, earlier, later, rfl, hearlier, hlater⟩)
    · exact ⟨[], l, rfl, nofun, hle⟩
    · exact ⟨b :: earlier, later, rfl, List.forall_mem_cons.mpr ⟨hlt, hearlier⟩, hlater⟩

theorem firstMax_some_iff {b x : ℕ × α} {l : List (ℕ × α)} :
    firstMax (some b) l = some x ↔ IsFirstMax (b :: l) x := by
  induction l generalizing b with
  | nil =>
      rw [firstMax, isFirstMax_cons, Option.some.injEq, eq_comm]
      constructor
      · rintro rfl
        exact .inl ⟨rfl, nofun⟩
      · rintro (⟨h, -⟩ | ⟨-, h⟩)
        · exact h
        · cases h.mem
  | cons y l ih =>
      rw [firstMax]
      simp only [Option.mem_some_iff, forall_eq']
      split_ifs with hlt
      · rw [ih, isFirstMax_cons (l := y :: l)]
        constructor
        · intro h
          have hle := h.le List.mem_cons_self
          exact .inr ⟨by omega, h⟩
        · rintro (⟨rfl, hle⟩ | ⟨-, h⟩)
          · have := hle y List.mem_cons_self
            omega
          · exact h
      · rw [ih, isFirstMax_cons, isFirstMax_cons, isFirstMax_cons]
        constructor
        · rintro (⟨rfl, hle⟩ | ⟨hbx, h⟩)
          · exact .inl ⟨rfl, List.forall_mem_cons.mpr ⟨by omega, hle⟩⟩
          · exact .inr ⟨hbx, .inr ⟨by omega, h⟩⟩
        · rintro (⟨rfl, hle⟩ | ⟨hbx, ⟨rfl, -⟩ | ⟨-, h⟩⟩)
          · exact .inl ⟨rfl, (List.forall_mem_cons.mp hle).2⟩
          · exact absurd hbx hlt
          · exact .inr ⟨hbx, h⟩

theorem firstMax_iff {x : ℕ × α} {l : List (ℕ × α)} :
    firstMax none l = some x ↔ IsFirstMax l x := by
  cases l with
  | nil => exact iff_of_false nofun fun h => by cases h.mem
  | cons y l => rw [firstMax, if_pos nofun, firstMax_some_iff]

end FirstMax
