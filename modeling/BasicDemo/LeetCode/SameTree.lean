import BasicDemo.Library.Loops
import BasicDemo.Library.Trees

namespace BasicDemo.LeetCode.SameTree
open Library.Loops Library.Trees

/-- A node by the part that is read, without the `parent` of `struct TreeNode`; NULL is
`none`. -/
structure TreeNode (Address : Type) where
  val : Int
  left : Option Address
  right : Option Address

/-- Every address holds a node, so a pointer is NULL or valid. -/
abbrev Heap (Address : Type) := Address → TreeNode Address

inductive Fault where
  | nullDereference
  deriving DecidableEq

variable {Address : Type}

/-- The node that `p->` refers to. -/
def deref (h : Heap Address) : Option Address → Except Fault (TreeNode Address)
  | none => .error .nullDereference
  | some a => .ok (h a)

/-- The calls do not go deeper than `fuel`. -/
def isSameTree (h : Heap Address) :
    Nat → Option Address → Option Address → Except (Stop Fault) Bool
  | 0, _, _ => .error .unfinished
  | fuel + 1, p, q =>
    if p = none ∧ q = none then .ok true
    else if p = none ∨ q = none then .ok false
    else do
      let p ← deref h p
      let q ← deref h q
      if p.val ≠ q.val then return false
      else if ← isSameTree h fuel p.left q.left then isSameTree h fuel p.right q.right
      else return false

/-- The values logged, behind those logged before. -/
def preorderTraversal (h : Heap Address) :
    Nat → Option Address → List Int → Except (Stop Fault) (List Int)
  | 0, _, _ => .error .unfinished
  | fuel + 1, node, log =>
    if node = none then .ok log
    else do
      let node ← deref h node
      let log := log ++ [node.val]
      let log ← preorderTraversal h fuel node.left log
      preorderTraversal h fuel node.right log

def inorderTraversal (h : Heap Address) :
    Nat → Option Address → List Int → Except (Stop Fault) (List Int)
  | 0, _, _ => .error .unfinished
  | fuel + 1, node, log =>
    if node = none then .ok log
    else do
      let node ← deref h node
      let log ← inorderTraversal h fuel node.left log
      let log := log ++ [node.val]
      inorderTraversal h fuel node.right log

/-- The tree that hangs from a pointer. -/
def IsTree (h : Heap Address) (p : Option Address) (t : BinaryTree Int) : Prop :=
  Hangs (fun a => (h a).val) (fun a => (h a).left) (fun a => (h a).right) p t

/-- Two trees are compared to their end, whatever their shapes. -/
theorem isSameTree_ok {h : Heap Address} {p q : Option Address} {P Q : BinaryTree Int}
    (hp : IsTree h p P) (hq : IsTree h q Q) {fuel : Nat} (enough : P.height < fuel) :
    isSameTree h fuel p q = .ok (decide (P = Q)) := by
  induction hp generalizing q Q fuel with
  | nil =>
    obtain ⟨fuel, rfl⟩ := Nat.exists_eq_succ_of_ne_zero (Nat.ne_of_gt enough)
    cases hq <;> simp [isSameTree]
  | @node a l r _ _ ihl ihr =>
    obtain ⟨fuel, rfl, enoughl, enoughr⟩ := fuel_below enough
    cases hq with
    | nil => simp [isSameTree]
    | @node b l' r' hl hr =>
      have hleft := ihl hl enoughl
      have hright := ihr hr enoughr
      by_cases hval : (h a).val = (h b).val
      · by_cases hsame : l = l'
        · simp [isSameTree, deref, hval, hleft, hright, hsame]
        · simp [isSameTree, deref, hval, hleft, hsame]
      · simp [isSameTree, deref, hval]

theorem isSameTree_returns {h : Heap Address} {p q : Option Address} {P Q : BinaryTree Int}
    (hp : IsTree h p P) (hq : IsTree h q Q) :
    Returns (isSameTree h · p q) (decide (P = Q)) :=
  ⟨P.height, fun _ enough => isSameTree_ok hp hq enough⟩

theorem preorderTraversal_ok {h : Heap Address} {p : Option Address} {t : BinaryTree Int}
    (ht : IsTree h p t) {fuel : Nat} (enough : t.height < fuel) (log : List Int) :
    preorderTraversal h fuel p log = .ok (log ++ preorder t) := by
  induction ht generalizing fuel log with
  | nil =>
    obtain ⟨fuel, rfl⟩ := Nat.exists_eq_succ_of_ne_zero (Nat.ne_of_gt enough)
    simp [preorderTraversal, preorder]
  | @node a l r _ _ ihl ihr =>
    obtain ⟨fuel, rfl, enoughl, enoughr⟩ := fuel_below enough
    have hleft := ihl enoughl
    have hright := ihr enoughr
    simp [preorderTraversal, deref, preorder, hleft, hright]

theorem inorderTraversal_ok {h : Heap Address} {p : Option Address} {t : BinaryTree Int}
    (ht : IsTree h p t) {fuel : Nat} (enough : t.height < fuel) (log : List Int) :
    inorderTraversal h fuel p log = .ok (log ++ inorder t) := by
  induction ht generalizing fuel log with
  | nil =>
    obtain ⟨fuel, rfl⟩ := Nat.exists_eq_succ_of_ne_zero (Nat.ne_of_gt enough)
    simp [inorderTraversal, inorder]
  | @node a l r _ _ ihl ihr =>
    obtain ⟨fuel, rfl, enoughl, enoughr⟩ := fuel_below enough
    have hleft := ihl enoughl
    have hright := ihr enoughr
    simp [inorderTraversal, deref, inorder, hleft, hright]

/-- Trees whose values differ from node to node, and whose values are logged in the same
order by both traversals, are the same and are found to be so. -/
theorem isSameTree_of_traversals (h : Heap Address) (p q : Option Address)
    (P Q : BinaryTree Int) (hp : IsTree h p P) (hq : IsTree h q Q) (distinct : (inorder P).Nodup)
    (log log' : List Int)
    (hpre : Returns (preorderTraversal h · p []) log ∧ Returns (preorderTraversal h · q []) log)
    (hin : Returns (inorderTraversal h · p []) log' ∧ Returns (inorderTraversal h · q []) log') :
    P = Q ∧ Returns (isSameTree h · p q) true := by
  have pre : ∀ {p : Option Address} {t : BinaryTree Int}, IsTree h p t →
      Returns (preorderTraversal h · p []) (preorder t) :=
    fun ht => ⟨_, fun fuel enough => preorderTraversal_ok ht enough []⟩
  have inn : ∀ {p : Option Address} {t : BinaryTree Int}, IsTree h p t →
      Returns (inorderTraversal h · p []) (inorder t) :=
    fun ht => ⟨_, fun fuel enough => inorderTraversal_ok ht enough []⟩
  have hpreorder : preorder P = preorder Q :=
    ((pre hp).unique hpre.1).trans (hpre.2.unique (pre hq))
  have hinorder : inorder P = inorder Q :=
    ((inn hp).unique hin.1).trans (hin.2.unique (inn hq))
  have hsame : P = Q := eq_of_orders distinct hpreorder hinorder
  refine ⟨hsame, ?_⟩
  rw [← decide_eq_true hsame]
  exact isSameTree_returns hp hq

/-- Two trees of the root 1 with the left child 2. An address says which tree, and whether
it is that of the root. -/
def twins : Heap (Bool × Bool)
  | (tree, true) => ⟨1, some (tree, false), none⟩
  | (_, false) => ⟨2, none, none⟩

theorem isSameTree_twins :
    Returns (isSameTree twins · (some (true, true)) (some (false, true))) true := by
  have first : IsTree twins (some (true, true)) (.node 1 (.node 2 .nil .nil) .nil) :=
    .node (.node .nil .nil) .nil
  have second : IsTree twins (some (false, true)) (.node 1 (.node 2 .nil .nil) .nil) :=
    .node (.node .nil .nil) .nil
  exact (isSameTree_of_traversals twins _ _ _ _ first second (by decide) [1, 2] [2, 1]
    ⟨⟨2, fun _ enough => preorderTraversal_ok first enough []⟩,
      ⟨2, fun _ enough => preorderTraversal_ok second enough []⟩⟩
    ⟨⟨2, fun _ enough => inorderTraversal_ok first enough []⟩,
      ⟨2, fun _ enough => inorderTraversal_ok second enough []⟩⟩).2

end BasicDemo.LeetCode.SameTree
