import BasicDemo.LeetCode.SameTree

namespace BasicDemo.LeetCode.IsSubtree
open Library.Loops Library.Trees SameTree

variable {Address : Type}

/-- The second condition, evaluated from left to right as far as needed. -/
def differ (h : Heap Address) (s t : Option Address) : Except Fault Bool :=
  if s = none ∧ t ≠ none then .ok true
  else if s ≠ none ∧ t = none then .ok true
  else do
    let s ← deref h s
    let t ← deref h t
    return decide (s.val ≠ t.val)

def checkNodeValid (h : Heap Address) :
    Nat → Option Address → Option Address → Except (Stop Fault) Bool
  | 0, _, _ => .error .unfinished
  | fuel + 1, s, t =>
    if s = none ∧ t = none then .ok true
    else do
      if ← differ h s t then return false
      else
        let s ← deref h s
        let t ← deref h t
        if ← checkNodeValid h fuel s.left t.left then checkNodeValid h fuel s.right t.right
        else return false

/-- `struct SubTreeNode` is laid out as the part of `struct TreeNode` that is read. -/
def isSubtree (h : Heap Address) :
    Nat → Option Address → Option Address → Except (Stop Fault) Bool
  | 0, _, _ => .error .unfinished
  | fuel + 1, s, t =>
    if s = none then .ok false
    else do
      if ← checkNodeValid h (fuel + 1) s t then return true
      else
        let s ← deref h s
        if ← isSubtree h fuel s.left t then return true
        else isSubtree h fuel s.right t

variable {h : Heap Address} {s t : Option Address} {S T : BinaryTree Int}

/-- The two comparisons of trees take the same steps. -/
theorem checkNodeValid_eq (h : Heap Address) (fuel : Nat) (s t : Option Address) :
    checkNodeValid h fuel s t = isSameTree h fuel s t := by
  induction fuel generalizing s t with
  | zero => rfl
  | succ fuel ih =>
    cases s with
    | none => cases t <;> simp [checkNodeValid, isSameTree, differ]
    | some a =>
      cases t with
      | none => simp [checkNodeValid, isSameTree, differ]
      | some b =>
        by_cases hval : (h a).val = (h b).val
        · simp [checkNodeValid, isSameTree, differ, deref, hval, ih]
        · simp [checkNodeValid, isSameTree, differ, deref, hval]

/-- The search finds the tree `T` exactly at the nodes that it hangs from. -/
theorem isSubtree_found (hs : IsTree h s S) (ht : IsTree h t T) :
    ∃ b, (∀ fuel, S.height < fuel → isSubtree h fuel s t = .ok b) ∧ (b = true ↔ Rooted T S) := by
  induction hs with
  | nil =>
    refine ⟨false, ?_, by simp [not_rooted_nil]⟩
    intro fuel enough
    obtain ⟨fuel, rfl⟩ := Nat.exists_eq_succ_of_ne_zero (Nat.ne_of_gt enough)
    simp [isSubtree]
  | @node a l r hl hr ihl ihr =>
    obtain ⟨left, hleft, hrootl⟩ := ihl
    obtain ⟨right, hright, hrootr⟩ := ihr
    refine ⟨decide (.node (h a).val l r = T) || left || right, ?_, ?_⟩
    · intro fuel enough
      -- The comparison at the root needs no more depth than the larger tree has.
      have hcheck := isSameTree_ok (.node hl hr) ht enough
      rw [← checkNodeValid_eq] at hcheck
      obtain ⟨fuel, rfl, enoughl, enoughr⟩ := fuel_below enough
      have hleft := hleft fuel enoughl
      have hright := hright fuel enoughr
      by_cases hroot : .node (h a).val l r = T
      · simp [isSubtree, hcheck, hroot]
      · cases left <;> simp [isSubtree, deref, hcheck, hroot, hleft, hright]
    · rw [rooted_node_iff, ← hrootl, ← hrootr, @eq_comm _ T]
      simp [or_assoc]

theorem isSubtree_returns (hs : IsTree h s S) (ht : IsTree h t T) :
    ∃ b, Returns (isSubtree h · s t) b ∧ (b = true ↔ Rooted T S) := by
  obtain ⟨b, hb, hrooted⟩ := isSubtree_found hs ht
  exact ⟨b, ⟨S.height, hb⟩, hrooted⟩

theorem isSubtree_true_iff (hs : IsTree h s S) (ht : IsTree h t T) :
    Returns (isSubtree h · s t) true ↔ Rooted T S := by
  obtain ⟨b, hb, hrooted⟩ := isSubtree_returns hs ht
  rw [← hrooted]
  constructor
  · intro h
    exact hb.unique h
  · rintro rfl
    exact hb

/-- `isSubtree` decides whether some node of `s` is the root of a tree like `t`, with
`checkNodeValid` deciding the equality of trees that `isSameTree` decides. It is an order on
the trees that are not empty. -/
theorem isSubtree_ok (h : Heap Address) (s t u : Option Address) (S T U : BinaryTree Int)
    (hs : IsTree h s S) (ht : IsTree h t T) (hu : IsTree h u U) :
    (∃ b, Returns (isSubtree h · s t) b ∧
      (b = true ↔ ∃ a, Below (fun a => (h a).left) (fun a => (h a).right) s a ∧
        IsTree h (some a) T)) ∧
    (∃ b, Returns (checkNodeValid h · s t) b ∧ Returns (isSameTree h · s t) b ∧
      (b = true ↔ S = T)) ∧
    (s ≠ none → Returns (isSubtree h · s s) true) ∧
    (Returns (isSubtree h · s t) true → Returns (isSubtree h · t u) true →
      Returns (isSubtree h · s u) true) ∧
    (Returns (isSubtree h · s t) true → Returns (isSubtree h · t s) true →
      S = T ∧ Returns (isSameTree h · s t) true) := by
  have hsame := isSameTree_returns hs ht
  refine ⟨?_, ?_, ?_, ?_, ?_⟩
  · obtain ⟨b, hb, hrooted⟩ := isSubtree_returns hs ht
    exact ⟨b, hb, hrooted.trans hs.rooted_iff⟩
  · refine ⟨decide (S = T), ?_, hsame, decide_eq_true_iff⟩
    simp only [checkNodeValid_eq]
    exact hsame
  · intro hne
    rw [isSubtree_true_iff hs hs]
    apply rooted_self
    rintro rfl
    cases hs
    exact hne rfl
  · intro hst htu
    rw [isSubtree_true_iff hs ht] at hst
    rw [isSubtree_true_iff ht hu] at htu
    exact (isSubtree_true_iff hs hu).mpr (htu.trans hst)
  · intro hst hts
    rw [isSubtree_true_iff hs ht] at hst
    rw [isSubtree_true_iff ht hs] at hts
    have heq : S = T := hts.antisymm hst
    refine ⟨heq, ?_⟩
    rwa [decide_eq_true heq] at hsame

/-- The trees of the header's first example, the second one at addresses of its own. -/
def header : Heap (Fin 8)
  | 0 => ⟨3, some 1, some 2⟩
  | 1 => ⟨4, some 3, some 4⟩
  | 2 => ⟨5, none, none⟩
  | 3 => ⟨1, none, none⟩
  | 4 => ⟨2, none, none⟩
  | 5 => ⟨4, some 6, some 7⟩
  | 6 => ⟨1, none, none⟩
  | 7 => ⟨2, none, none⟩

theorem isSubtree_header :
    Returns (isSubtree header · (some 0) (some 5)) true ∧
    Returns (isSubtree header · (some 0) (some 6)) true := by
  have leaf : ∀ a, (header a).left = none → (header a).right = none →
      IsTree header (some a) (.node (header a).val .nil .nil) := by
    intro a hl hr
    exact .node (hl ▸ .nil) (hr ▸ .nil)
  have part : IsTree header (some 5) (.node 4 (.node 1 .nil .nil) (.node 2 .nil .nil)) :=
    .node (leaf 6 rfl rfl) (leaf 7 rfl rfl)
  have same : IsTree header (some 1) (.node 4 (.node 1 .nil .nil) (.node 2 .nil .nil)) :=
    .node (leaf 3 rfl rfl) (leaf 4 rfl rfl)
  have whole : IsTree header (some 0) _ := .node same (leaf 2 rfl rfl)
  obtain ⟨⟨b, hb, hfound⟩, _, _, htrans, _⟩ :=
    isSubtree_ok header (some 0) (some 5) (some 6) _ _ _ whole part (leaf 6 rfl rfl)
  obtain rfl := hfound.mpr ⟨1, .left (.here 1), same⟩
  exact ⟨hb, htrans hb ((isSubtree_true_iff part (leaf 6 rfl rfl)).mpr (.left 4 _ (.here 1 _ _)))⟩

end BasicDemo.LeetCode.IsSubtree
