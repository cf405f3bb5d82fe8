import CodeGraph.Lib.Forest
import Mathlib.Data.List.OfFn
import Mathlib.Logic.Relation

/-!
# The nodes of a tree

A node is a tree with the way up from it, so that two nodes with equal trees are still two
nodes. `ancestors` is the way up, the node itself first; `walk` goes down with a stack, the
last child first, and may skip children. Over a tree whose nodes span stretches of a text,
`Spaced` says that the children of a node lie in its stretch one after another.
-/

variable {ε ν : Type*}

namespace Forest

/-- The trees with their labels. -/
def entries : Forest ε ν → List (ε × OrderedTree ε ν)
  | nil => []
  | cons label node children rest => (label, ⟨node, children⟩) :: rest.entries

theorem map_snd_entries : ∀ f : Forest ε ν, f.entries.map Prod.snd = f.trees
  | nil => rfl
  | cons _ _ _ rest => by rw [entries, List.map_cons, map_snd_entries rest, trees]

theorem mem_trees_of_entries {f : Forest ε ν} {e : ε × OrderedTree ε ν} (he : e ∈ f.entries) :
    e.2 ∈ f.trees := by
  rw [← map_snd_entries]
  exact List.mem_map_of_mem he

/-- Every tree of the forest, and every tree below one, has the property. -/
def Every (P : OrderedTree ε ν → Prop) : Forest ε ν → Prop
  | nil => True
  | cons _ node children rest => P ⟨node, children⟩ ∧ children.Every P ∧ rest.Every P

instance decidableEvery (P : OrderedTree ε ν → Prop) [DecidablePred P] :
    ∀ f : Forest ε ν, Decidable (f.Every P)
  | nil => inferInstanceAs (Decidable True)
  | cons _ node children rest =>
      have := decidableEvery P children
      have := decidableEvery P rest
      inferInstanceAs (Decidable (P ⟨node, children⟩ ∧ children.Every P ∧ rest.Every P))

end Forest

namespace OrderedTree

def Every (P : OrderedTree ε ν → Prop) (t : OrderedTree ε ν) : Prop := P t ∧ t.children.Every P

instance (P : OrderedTree ε ν → Prop) [DecidablePred P] (t : OrderedTree ε ν) :
    Decidable (t.Every P) := inferInstanceAs (Decidable (_ ∧ _))

/-- The way up from a tree: the trees above, nearest first, each with the place the way
takes among its children. -/
def Fits : OrderedTree ε ν → List (OrderedTree ε ν × ℕ) → Prop
  | _, [] => True
  | t, (p, i) :: up => (∃ label, p.children.entries[i]? = some (label, t)) ∧ p.Fits up

end OrderedTree

theorem Forest.every_of_mem_trees {P : OrderedTree ε ν → Prop} {t : OrderedTree ε ν} :
    ∀ {f : Forest ε ν}, f.Every P → t ∈ f.trees → t.Every P
  | nil, _, ht => absurd ht List.not_mem_nil
  | cons _ node children rest, hf, ht => by
      obtain ⟨hnode, hchildren, hrest⟩ := hf
      rcases List.mem_cons.mp ht with rfl | ht
      · exact ⟨hnode, hchildren⟩
      · exact every_of_mem_trees hrest ht

structure Located (ε ν : Type*) where
  tree : OrderedTree ε ν
  above : List (OrderedTree ε ν × ℕ)
  fits : tree.Fits above
  deriving DecidableEq

namespace Located

variable {n m p c a b : Located ε ν}

def ofTree (t : OrderedTree ε ν) : Located ε ν := ⟨t, [], trivial⟩

def parent : Located ε ν → Option (Located ε ν)
  | ⟨_, [], _⟩ => none
  | ⟨_, (p, _) :: up, h⟩ => some ⟨p, up, h.2⟩

/-- The place among the children of the parent. -/
def index (n : Located ε ν) : ℕ := (n.above.head?.map Prod.snd).getD 0

/-- The label of the node below its parent. -/
def label (n : Located ε ν) : Option ε :=
  match n.above with
  | [] => none
  | (p, i) :: _ => p.children.entries[i]?.map Prod.fst

def arity (n : Located ε ν) : ℕ := n.tree.children.entries.length

def child (n : Located ε ν) (i : Fin n.arity) : Located ε ν where
  tree := (n.tree.children.entries.get i).2
  above := (n.tree, i) :: n.above
  fits := ⟨⟨(n.tree.children.entries.get i).1, List.getElem?_eq_getElem i.isLt⟩, n.fits⟩

def children (n : Located ε ν) : List (Located ε ν) := List.ofFn n.child

/-- The children of the parent that come before the node. -/
def before (n : Located ε ν) : List (Located ε ν) :=
  match n.parent with
  | none => []
  | some p => p.children.take n.index

@[simp] theorem index_child (n : Located ε ν) (i : Fin n.arity) : (n.child i).index = i := rfl

theorem above_of_parent (h : n.parent = some p) :
    n.above = (p.tree, n.index) :: p.above := by
  obtain ⟨t, _ | ⟨⟨q, i⟩, up⟩, hfits⟩ := n
  · cases h
  · obtain rfl := Option.some.inj h
    rfl

theorem mem_children : c ∈ n.children ↔ c.parent = some n := by
  rw [children, List.mem_ofFn]
  constructor
  · rintro ⟨i, rfl⟩
    rfl
  · intro hc
    obtain ⟨t, _ | ⟨⟨q, i⟩, up⟩, hfits⟩ := c
    · cases hc
    · obtain rfl := Option.some.inj hc
      obtain ⟨⟨label, hi⟩, _⟩ := id hfits
      obtain ⟨hlt, hget⟩ := List.getElem?_eq_some_iff.mp hi
      obtain rfl : (q.children.entries.get ⟨i, hlt⟩).2 = t := by rw [List.get_eq_getElem, hget]
      exact ⟨⟨i, hlt⟩, rfl⟩

theorem mem_trees_of_parent (h : n.parent = some p) : n.tree ∈ p.tree.children.trees := by
  obtain ⟨t, _ | ⟨⟨q, i⟩, up⟩, ⟨label, hi⟩, _⟩ := n
  · cases h
  · obtain rfl := Option.some.inj h
    exact Forest.mem_trees_of_entries (List.mem_of_getElem? hi)

theorem mem_entries_of_parent (h : n.parent = some p) :
    ∃ l, n.label = some l ∧ (l, n.tree) ∈ p.tree.children.entries := by
  obtain ⟨t, _ | ⟨⟨q, i⟩, up⟩, hfits⟩ := n
  · cases h
  · obtain rfl := Option.some.inj h
    obtain ⟨⟨l, hi⟩, -⟩ := id hfits
    exact ⟨l, congrArg (Option.map Prod.fst) hi, List.mem_of_getElem? hi⟩

/-! ## The way up -/

def ancestorsOf : (t : OrderedTree ε ν) → (up : List (OrderedTree ε ν × ℕ)) → t.Fits up →
    List (Located ε ν)
  | t, [], h => [⟨t, [], h⟩]
  | t, (p, i) :: up, h => ⟨t, (p, i) :: up, h⟩ :: ancestorsOf p up h.2

/-- The node and those above it, nearest first. -/
def ancestors (n : Located ε ν) : List (Located ε ν) := ancestorsOf n.tree n.above n.fits

theorem ancestors_of_root (h : n.parent = none) : n.ancestors = [n] := by
  obtain ⟨t, _ | ⟨⟨q, i⟩, up⟩, hfits⟩ := n
  · rfl
  · cases h

theorem ancestors_of_parent (h : n.parent = some p) : n.ancestors = n :: p.ancestors := by
  obtain ⟨t, _ | ⟨⟨q, i⟩, up⟩, hfits⟩ := n
  · cases h
  · obtain rfl := Option.some.inj h
    rfl

theorem ancestors_eq_cons (n : Located ε ν) : n.ancestors = n :: n.ancestors.tail := by
  cases h : n.parent with
  | none => rw [ancestors_of_root h, List.tail_cons]
  | some p => rw [ancestors_of_parent h, List.tail_cons]

/-- What holds at a root and from a parent on to a child holds of every node. -/
theorem induction_up {motive : Located ε ν → Prop} (root : ∀ n, n.parent = none → motive n)
    (step : ∀ n p, n.parent = some p → motive p → motive n) (n : Located ε ν) : motive n := by
  obtain ⟨t, up, hfits⟩ := n
  induction up generalizing t with
  | nil => exact root _ rfl
  | cons level up ih =>
      obtain ⟨q, i⟩ := level
      exact step _ _ rfl (ih q hfits.2)

theorem self_mem_ancestors (n : Located ε ν) : n ∈ n.ancestors := by
  cases h : n.parent with
  | none => rw [ancestors_of_root h]; exact List.mem_singleton_self n
  | some p => rw [ancestors_of_parent h]; exact List.mem_cons_self

theorem parent_mem_ancestors (h : n.parent = some p) : p ∈ n.ancestors := by
  rw [ancestors_of_parent h]
  exact List.mem_cons_of_mem _ p.self_mem_ancestors

theorem mem_ancestors_of_parent (h : n.parent = some p) :
    a ∈ n.ancestors ↔ a = n ∨ a ∈ p.ancestors := by
  rw [ancestors_of_parent h, List.mem_cons]

theorem ancestors_suffix (h : a ∈ n.ancestors) : a.ancestors <:+ n.ancestors := by
  induction n using induction_up with
  | root n hn =>
      rw [ancestors_of_root hn, List.mem_singleton] at h
      exact h ▸ List.suffix_rfl
  | step n p hn ih =>
      rcases (mem_ancestors_of_parent hn).mp h with rfl | h
      · exact List.suffix_rfl
      · rw [ancestors_of_parent hn]
        exact (ih h).trans (List.suffix_cons _ _)

theorem ancestors_trans (h : a ∈ b.ancestors) (hb : b ∈ c.ancestors) : a ∈ c.ancestors :=
  (ancestors_suffix hb).subset h

/-- Of two nodes above a third, one is above the other. -/
theorem ancestors_total (ha : a ∈ n.ancestors) (hb : b ∈ n.ancestors) :
    a ∈ b.ancestors ∨ b ∈ a.ancestors := by
  induction n using induction_up with
  | root n hn =>
      rw [ancestors_of_root hn, List.mem_singleton] at ha hb
      rw [ha, hb]
      exact .inl n.self_mem_ancestors
  | step n p hn ih =>
      rcases (mem_ancestors_of_parent hn).mp ha with rfl | ha'
      · exact .inr hb
      · rcases (mem_ancestors_of_parent hn).mp hb with rfl | hb'
        · exact .inl ha
        · exact ih ha' hb'

/-- Above the node there is its parent, or nothing but the node. -/
theorem eq_or_mem_parent (h : a ∈ n.ancestors) :
    a = n ∨ ∃ p, n.parent = some p ∧ a ∈ p.ancestors := by
  cases hn : n.parent with
  | none => exact .inl (by rwa [ancestors_of_root hn, List.mem_singleton] at h)
  | some p => exact ((mem_ancestors_of_parent hn).mp h).imp_right fun h => ⟨p, rfl, h⟩

/-- A node above another, but not the node itself, has a child on the way down. -/
theorem exists_child_of_ne (h : a ∈ n.ancestors) (hne : a ≠ n) :
    ∃ c, c.parent = some a ∧ c ∈ n.ancestors := by
  induction n using induction_up with
  | root n hn =>
      rw [ancestors_of_root hn, List.mem_singleton] at h
      exact absurd h hne
  | step n p hn ih =>
      rcases (mem_ancestors_of_parent hn).mp h with rfl | h
      · exact absurd rfl hne
      · by_cases hp : a = p
        · exact ⟨n, hp ▸ hn, n.self_mem_ancestors⟩
        · obtain ⟨c, hc, hcp⟩ := ih h hp
          exact ⟨c, hc, (mem_ancestors_of_parent hn).mpr (.inr hcp)⟩

/-! ## The way down -/

/-- The nodes a stack visits that starts at `n` and puts `into n` on top, the last one
uppermost. -/
def walk (into : Located ε ν → List (Located ε ν)) : ℕ → Located ε ν → List (Located ε ν)
  | 0, n => [n]
  | fuel + 1, n => n :: (into n).reverse.flatMap (walk into fuel)

/-- Every node below `n` that `into` leads to. -/
def below (into : Located ε ν → List (Located ε ν)) (n : Located ε ν) : List (Located ε ν) :=
  walk into n.tree.height n

theorem height_lt_of_parent (h : n.parent = some p) : n.tree.height < p.tree.height := by
  have hle := Forest.height_le_iff.mp (le_refl p.tree.children.height) _ (mem_trees_of_parent h)
  show n.tree.height < 1 + p.tree.children.height
  omega

open Relation (ReflTransGen)

variable {into : Located ε ν → List (Located ε ν)}

theorem mem_walk (hinto : ∀ n, into n ⊆ n.children) {fuel : ℕ} (hfuel : n.tree.height ≤ fuel) :
    m ∈ walk into fuel n ↔ ReflTransGen (fun a b => b ∈ into a) n m := by
  induction fuel generalizing n with
  | zero =>
      have : n.tree.height = 1 + n.tree.children.height := rfl
      omega
  | succ fuel ih =>
      rw [walk, List.mem_cons, List.mem_flatMap, ReflTransGen.cases_head_iff]
      have hchild : ∀ c ∈ into n, c.tree.height ≤ fuel := fun c hc => by
        have := height_lt_of_parent (mem_children.mp (hinto n hc))
        omega
      constructor
      · rintro (rfl | ⟨c, hc, hm⟩)
        · exact .inl rfl
        · have hc := List.mem_reverse.mp hc
          exact .inr ⟨c, hc, (ih (hchild c hc)).mp hm⟩
      · rintro (rfl | ⟨c, hc, hm⟩)
        · exact .inl rfl
        · exact .inr ⟨c, List.mem_reverse.mpr hc, (ih (hchild c hc)).mpr hm⟩

theorem mem_below (hinto : ∀ n, into n ⊆ n.children) :
    m ∈ n.below into ↔ ReflTransGen (fun a b => b ∈ into a) n m :=
  mem_walk hinto le_rfl

theorem self_mem_below (n : Located ε ν) : n ∈ n.below into := by
  unfold below walk
  split <;> exact List.mem_cons_self

/-- A walk stays below its start. -/
theorem mem_ancestors_of_below (hinto : ∀ n, into n ⊆ n.children) (h : m ∈ n.below into) :
    n ∈ m.ancestors := by
  have hway := (mem_below hinto).mp h
  clear h
  induction hway with
  | refl => exact n.self_mem_ancestors
  | tail _ hc ih =>
      exact (mem_ancestors_of_parent (mem_children.mp (hinto _ hc))).mpr (.inr ih)

/-- A walk that skips no node on the way reaches whatever is below its start. -/
theorem mem_below_of_ancestors (hinto : ∀ n, into n ⊆ n.children) (h : n ∈ m.ancestors)
    (hway : ∀ c ∈ m.ancestors, ∀ p, c.parent = some p → n ∈ p.ancestors → c ∈ into p) :
    m ∈ n.below into := by
  rw [mem_below hinto]
  induction m using induction_up with
  | root m hm =>
      rw [ancestors_of_root hm, List.mem_singleton] at h
      rw [h]
  | step m p hm ih =>
      rcases (mem_ancestors_of_parent hm).mp h with rfl | h
      · exact .refl
      · refine (ih h fun c hc q hq hn => ?_).tail (hway m m.self_mem_ancestors p hm h)
        exact hway c ((mem_ancestors_of_parent hm).mpr (.inr hc)) q hq hn

section Pruned

variable {P ok : Located ε ν → Bool}
  (hP : ∀ n c : Located ε ν, c.parent = some n → P c = (P n && ok n))

include hP in
theorem filter_walk_eq_nil (hinto : ∀ n, into n ⊆ n.children) : ∀ (fuel : ℕ)
    {n : Located ε ν}, P n = false → (walk into fuel n).filter P = []
  | 0, n, hn => by
      rw [walk, List.filter_cons_of_neg (Bool.not_eq_true _ ▸ hn), List.filter_nil]
  | fuel + 1, n, hn => by
      rw [walk, List.filter_cons_of_neg (Bool.not_eq_true _ ▸ hn), List.filter_flatMap,
        List.flatMap_eq_nil_iff]
      intro c hc
      refine filter_walk_eq_nil hinto fuel ?_
      rw [hP n c (mem_children.mp (hinto n (List.mem_reverse.mp hc))), hn, Bool.false_and]

include hP in
/-- A walk that stops at nodes visits what the whole walk finds with no such node above. -/
theorem walk_eq_filter (hinto : ∀ n, into n ⊆ n.children) : ∀ (fuel : ℕ) {n : Located ε ν},
    P n = true → walk (fun n => if ok n then into n else []) fuel n = (walk into fuel n).filter P
  | 0, n, hn => by rw [walk, walk, List.filter_cons_of_pos hn, List.filter_nil]
  | fuel + 1, n, hn => by
      have hchild : ∀ c ∈ (into n).reverse, P c = ok n := fun c hc => by
        rw [hP n c (mem_children.mp (hinto n (List.mem_reverse.mp hc))), hn, Bool.true_and]
      rw [walk, walk, List.filter_cons_of_pos hn, List.filter_flatMap]
      congr 1
      cases hok : ok n with
      | true =>
          rw [if_pos rfl]
          refine List.flatMap_congr fun c hc => ?_
          exact walk_eq_filter hinto fuel ((hchild c hc).trans hok)
      | false =>
          rw [if_neg Bool.false_ne_true, List.reverse_nil, List.flatMap_nil, eq_comm,
            List.flatMap_eq_nil_iff]
          exact fun c hc => filter_walk_eq_nil hP hinto fuel ((hchild c hc).trans hok)

end Pruned

/-! ## What holds of every tree -/

def rootOf : OrderedTree ε ν → List (OrderedTree ε ν × ℕ) → OrderedTree ε ν
  | t, [] => t
  | _, (p, _) :: up => rootOf p up

/-- The tree the node is in. -/
def root (n : Located ε ν) : OrderedTree ε ν := rootOf n.tree n.above

theorem root_of_parent (h : n.parent = some p) : n.root = p.root := by
  rw [root, above_of_parent h]
  rfl

theorem root_of_ancestor (h : a ∈ n.ancestors) : a.root = n.root := by
  induction n using induction_up with
  | root n hn =>
      rw [ancestors_of_root hn, List.mem_singleton] at h
      rw [h]
  | step n p hn ih =>
      rcases (mem_ancestors_of_parent hn).mp h with rfl | h
      · rfl
      · rw [ih h, root_of_parent hn]

theorem every_of_root {P : OrderedTree ε ν → Prop} (h : n.root.Every P) : n.tree.Every P := by
  induction n using induction_up with
  | root n hn =>
      obtain ⟨t, _ | ⟨⟨q, i⟩, up⟩, hfits⟩ := n
      · exact h
      · cases hn
  | step n p hn ih =>
      rw [root_of_parent hn] at h
      exact Forest.every_of_mem_trees (ih h).2 (mem_trees_of_parent hn)

end Located
