import Mathlib.Data.List.Basic
import Mathlib.Data.List.Nodup
import Mathlib.Data.Tree.Basic

namespace BasicDemo.Library.Trees

variable {α : Type*}

/-- The first tree is what some node of the second one is the root of. -/
inductive Rooted : BinaryTree α → BinaryTree α → Prop
  | here (a : α) (l r : BinaryTree α) : Rooted (.node a l r) (.node a l r)
  | left {t l : BinaryTree α} (a : α) (r : BinaryTree α) (h : Rooted t l) : Rooted t (.node a l r)
  | right {t r : BinaryTree α} (a : α) (l : BinaryTree α) (h : Rooted t r) : Rooted t (.node a l r)

variable {t u v l r : BinaryTree α} {a : α}

/-- Where calls go down a tree level by level, what is left of the fuel is enough for both
subtrees. -/
theorem fuel_below {fuel : Nat} (h : (BinaryTree.node a l r).height < fuel) :
    ∃ n, fuel = n + 1 ∧ l.height < n ∧ r.height < n := by
  rw [BinaryTree.height] at h
  exact ⟨fuel - 1, by omega, by omega, by omega⟩

theorem not_rooted_nil : ¬ Rooted t .nil := by
  intro h
  cases h

theorem rooted_node_iff :
    Rooted t (.node a l r) ↔ t = .node a l r ∨ Rooted t l ∨ Rooted t r := by
  constructor
  · intro h
    cases h with
    | here => exact Or.inl rfl
    | left _ _ h => exact Or.inr (Or.inl h)
    | right _ _ h => exact Or.inr (Or.inr h)
  · rintro (rfl | h | h)
    · exact .here a l r
    · exact .left a r h
    · exact .right a l h

theorem rooted_self (h : t ≠ .nil) : Rooted t t := by
  cases t with
  | nil => exact absurd rfl h
  | node a l r => exact .here a l r

theorem Rooted.trans (h : Rooted t u) (h' : Rooted u v) : Rooted t v := by
  induction h' with
  | here => exact h
  | left a r _ ih => exact .left a r (ih h)
  | right a l _ ih => exact .right a l (ih h)

/-- A part that is not the whole tree has fewer nodes. -/
theorem Rooted.eq_or_fewer (h : Rooted t u) : t = u ∨ t.numNodes < u.numNodes := by
  induction h with
  | here => exact Or.inl rfl
  | left a r _ ih =>
    right
    rw [BinaryTree.numNodes]
    rcases ih with rfl | hlt <;> omega
  | right a l _ ih =>
    right
    rw [BinaryTree.numNodes]
    rcases ih with rfl | hlt <;> omega

theorem Rooted.antisymm (h : Rooted t u) (h' : Rooted u t) : t = u := by
  rcases h.eq_or_fewer with heq | hlt
  · exact heq
  · rcases h'.eq_or_fewer with heq | hgt
    · exact heq.symm
    · omega

def preorder : BinaryTree α → List α
  | .nil => []
  | .node a l r => a :: (preorder l ++ preorder r)

def inorder : BinaryTree α → List α
  | .nil => []
  | .node a l r => inorder l ++ a :: inorder r

theorem length_preorder (t : BinaryTree α) : (preorder t).length = (inorder t).length := by
  induction t with
  | nil => rfl
  | node a l r hl hr =>
    simp only [preorder, inorder, List.length_cons, List.length_append, hl, hr]
    omega

/-- Two trees with the same values in both orders are equal, if no value occurs twice: the
first value of one order takes the other order apart. -/
theorem eq_of_orders (distinct : (inorder t).Nodup) (hpre : preorder t = preorder u)
    (hin : inorder t = inorder u) : t = u := by
  induction t generalizing u with
  | nil =>
    cases u with
    | nil => rfl
    | node a l r => cases hpre
  | node a l r hl hr =>
    cases u with
    | nil => cases hpre
    | node b l' r' =>
      simp only [preorder, List.cons.injEq] at hpre
      obtain ⟨rfl, hrest⟩ := hpre
      rw [inorder, List.nodup_append] at distinct
      obtain ⟨dl, dr, apart⟩ := distinct
      obtain ⟨hright, dr⟩ := List.nodup_cons.mp dr
      -- The root stands at one place of the inorder only, so both trees are cut there.
      have hleft : a ∉ inorder l := fun h => apart a h a List.mem_cons_self rfl
      obtain ⟨hinl, -, hinr⟩ := (List.append_cons_inj_of_notMem hleft hright).mp hin
      have hlength : (preorder l).length = (preorder l').length := by
        rw [length_preorder, length_preorder, hinl]
      obtain ⟨hprel, hprer⟩ := List.append_inj hrest hlength
      rw [hl dl hprel hinl, hr dr hprer hinr]

section Memory

variable {Address : Type*}

/-- The tree that hangs from a pointer, where `none` is NULL. -/
inductive Hangs (value : Address → α) (left right : Address → Option Address) :
    Option Address → BinaryTree α → Prop
  | nil : Hangs value left right none .nil
  | node {a : Address} {l r : BinaryTree α} (hl : Hangs value left right (left a) l)
      (hr : Hangs value left right (right a) r) :
      Hangs value left right (some a) (.node (value a) l r)

/-- The nodes met from a pointer on. -/
inductive Below (left right : Address → Option Address) : Option Address → Address → Prop
  | here (a : Address) : Below left right (some a) a
  | left {a b : Address} (h : Below left right (left b) a) : Below left right (some b) a
  | right {a b : Address} (h : Below left right (right b) a) : Below left right (some b) a

variable {value : Address → α} {left right : Address → Option Address} {p : Option Address}

theorem Hangs.unique (h : Hangs value left right p t) (h' : Hangs value left right p u) :
    t = u := by
  induction h generalizing u with
  | nil =>
    cases h'
    rfl
  | node _ _ ihl ihr =>
    cases h' with
    | node hl' hr' => rw [ihl hl', ihr hr']

/-- The parts of a tree are what hangs from its nodes. -/
theorem Hangs.rooted_iff (h : Hangs value left right p u) :
    Rooted t u ↔ ∃ a, Below left right p a ∧ Hangs value left right (some a) t := by
  induction h with
  | nil =>
    constructor
    · intro hrooted
      exact absurd hrooted not_rooted_nil
    · rintro ⟨a, hbelow, _⟩
      cases hbelow
  | @node b l r hl hr ihl ihr =>
    rw [rooted_node_iff, ihl, ihr]
    constructor
    · rintro (rfl | ⟨a, hbelow, ha⟩ | ⟨a, hbelow, ha⟩)
      · exact ⟨b, .here b, .node hl hr⟩
      · exact ⟨a, .left hbelow, ha⟩
      · exact ⟨a, .right hbelow, ha⟩
    · rintro ⟨a, hbelow, ha⟩
      cases hbelow with
      | here => exact Or.inl (ha.unique (.node hl hr))
      | left hbelow => exact Or.inr (Or.inl ⟨a, hbelow, ha⟩)
      | right hbelow => exact Or.inr (Or.inr ⟨a, hbelow, ha⟩)

end Memory

end BasicDemo.Library.Trees
