import Mathlib.Algebra.GroupWithZero.Nat
import Mathlib.Algebra.Order.Group.Nat
import Mathlib.Data.List.Basic
import Mathlib.Tactic.Common

/-!
# Ordered trees and a cursor over them

A forest is a row of trees, each under a label: the first tree's node, its children
as a forest, and the trees behind it. A tree is a node over a forest. The cursor is a
zipper: the focus, and for every level above it the siblings on both sides.

A walk that visits the focus, its children and then its next sibling goes over the
forest `ahead`. Two laws carry such a walk: the parent of a first child is where the
cursor came from (`parent_firstChild`), and a step sideways keeps the parent
(`parent_nextSibling`).
-/

variable {ε ν : Type*}

inductive Forest (ε ν : Type*) where
  | nil
  | cons (label : ε) (node : ν) (children rest : Forest ε ν)
  deriving DecidableEq

structure OrderedTree (ε ν : Type*) where
  node : ν
  children : Forest ε ν
  deriving DecidableEq

namespace Forest

def size : Forest ε ν → ℕ
  | nil => 0
  | cons _ _ children rest => 1 + children.size + rest.size

/-- The levels of a forest. -/
def height : Forest ε ν → ℕ
  | nil => 0
  | cons _ _ children rest => max (1 + children.height) rest.height

/-- The nodes with their labels, a node before its children. -/
def preorder : Forest ε ν → List (ε × ν)
  | nil => []
  | cons label node children rest => (label, node) :: (children.preorder ++ rest.preorder)

theorem height_le_size : ∀ f : Forest ε ν, f.height ≤ f.size
  | nil => le_rfl
  | cons _ _ children rest => by
      have hchildren := height_le_size children
      have hrest := height_le_size rest
      rw [height, size]
      omega

/-- The trees, without their labels. -/
def trees : Forest ε ν → List (OrderedTree ε ν)
  | nil => []
  | cons _ node children rest => ⟨node, children⟩ :: rest.trees

/-- Puts trees back in front of a forest, the nearest first. -/
def rewind : List (ε × OrderedTree ε ν) → Forest ε ν → Forest ε ν
  | [], f => f
  | (label, t) :: left, f => rewind left (cons label t.node t.children f)

end Forest

namespace OrderedTree

/-- The tree as a forest of its own. -/
def toForest (label : ε) (t : OrderedTree ε ν) : Forest ε ν := .cons label t.node t.children .nil

def size (t : OrderedTree ε ν) : ℕ := 1 + t.children.size

def height (t : OrderedTree ε ν) : ℕ := 1 + t.children.height

end OrderedTree

theorem Forest.sum_size_trees : ∀ f : Forest ε ν, (f.trees.map OrderedTree.size).sum = f.size
  | nil => rfl
  | cons _ _ children rest => by
      rw [trees, List.map_cons, List.sum_cons, sum_size_trees rest, size]
      rfl

theorem Forest.height_le_iff {n : ℕ} :
    ∀ {f : Forest ε ν}, f.height ≤ n ↔ ∀ t ∈ f.trees, t.height ≤ n
  | nil => by simp [height, trees]
  | cons _ _ children rest => by
      rw [height, trees, List.forall_mem_cons, ← height_le_iff, max_le_iff]
      rfl

/-- One level above the focus: the label of the way down, the trees on both sides of
it, those on the left nearest first, and the node itself. -/
structure Zipper.Level (ε ν : Type*) where
  label : ε
  left : List (ε × OrderedTree ε ν)
  right : Forest ε ν
  parent : ν

structure Zipper (ε ν : Type*) where
  focus : OrderedTree ε ν
  above : List (Zipper.Level ε ν)

namespace Zipper

def ofTree (t : OrderedTree ε ν) : Zipper ε ν := ⟨t, []⟩

def firstChild (z : Zipper ε ν) : Option (Zipper ε ν) :=
  match z.focus.children with
  | .nil => none
  | .cons label node children rest =>
      some ⟨⟨node, children⟩, ⟨label, [], rest, z.focus.node⟩ :: z.above⟩

def nextSibling (z : Zipper ε ν) : Option (Zipper ε ν) :=
  match z.above with
  | [] => none
  | level :: above =>
      match level.right with
      | .nil => none
      | .cons label node children rest =>
          some ⟨⟨node, children⟩,
            ⟨label, (level.label, z.focus) :: level.left, rest, level.parent⟩ :: above⟩

def parent (z : Zipper ε ν) : Option (Zipper ε ν) :=
  match z.above with
  | [] => none
  | level :: above =>
      some ⟨⟨level.parent, .rewind level.left
        (.cons level.label z.focus.node z.focus.children level.right)⟩, above⟩

/-- The label of the focus; the root has none of its own. -/
def label (atRoot : ε) (z : Zipper ε ν) : ε :=
  match z.above with
  | [] => atRoot
  | level :: _ => level.label

/-- The trees behind the focus. -/
def right (z : Zipper ε ν) : Forest ε ν :=
  match z.above with
  | [] => .nil
  | level :: _ => level.right

/-- The focus and the trees behind it. -/
def ahead (atRoot : ε) (z : Zipper ε ν) : Forest ε ν :=
  .cons (z.label atRoot) z.focus.node z.focus.children z.right

theorem firstChild_eq_none {z : Zipper ε ν} : z.firstChild = none ↔ z.focus.children = .nil := by
  unfold firstChild
  split <;> simp_all

theorem nextSibling_eq_none {z : Zipper ε ν} : z.nextSibling = none ↔ z.right = .nil := by
  unfold nextSibling right
  split
  · simp
  · split <;> simp_all

theorem ahead_firstChild {z c : Zipper ε ν} (h : z.firstChild = some c) (atRoot : ε) :
    c.ahead atRoot = z.focus.children := by
  unfold firstChild at h
  split at h
  · cases h
  · next hchildren =>
    obtain rfl := Option.some.inj h
    exact hchildren.symm

theorem ahead_nextSibling {z c : Zipper ε ν} (h : z.nextSibling = some c) (atRoot : ε) :
    c.ahead atRoot = z.right := by
  unfold nextSibling at h
  split at h
  · cases h
  · next habove =>
    split at h
    · cases h
    · next hright =>
      obtain rfl := Option.some.inj h
      rw [right, habove]
      exact hright.symm

theorem parent_firstChild {z c : Zipper ε ν} (h : z.firstChild = some c) : c.parent = some z := by
  unfold firstChild at h
  split at h
  · cases h
  · next hchildren =>
    obtain rfl := Option.some.inj h
    show some (Zipper.mk ⟨z.focus.node, .cons _ _ _ _⟩ z.above) = some z
    rw [← hchildren]

theorem parent_nextSibling {z c : Zipper ε ν} (h : z.nextSibling = some c) :
    c.parent = z.parent := by
  unfold nextSibling at h
  split at h
  · cases h
  · next habove =>
    split at h
    · cases h
    · next hright =>
      obtain rfl := Option.some.inj h
      simp only [parent, habove, hright]
      rfl

end Zipper
