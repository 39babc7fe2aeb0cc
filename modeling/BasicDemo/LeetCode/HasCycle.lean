import BasicDemo.Library.Iterates

namespace BasicDemo.LeetCode.HasCycle
open Library.Iterates

/-- A node by the part that the search reads; NULL is `none`. -/
structure Node (Address : Type) where
  next : Option Address

/-- Every address holds a node, so a pointer is NULL or valid. -/
abbrev Heap (Address : Type) := Address → Node Address

inductive Fault where
  | nullDereference
  deriving DecidableEq

variable {Address : Type}

/-- The expression `p->next`. -/
def next (h : Heap Address) : Option Address → Except Fault (Option Address)
  | none => .error .nullDereference
  | some a => .ok (h a).next

/-- The condition of the loop, evaluated from left to right as far as needed. -/
def condition (h : Heap Address) (slow fast : Option Address) : Except Fault Bool :=
  if slow = none then .ok false
  else if fast = none then .ok false
  else do
    let second ← next h fast
    return decide (second ≠ none)

/-- The loop; without a result if `fuel` rounds were not enough. -/
def search [DecidableEq Address] (h : Heap Address) :
    Nat → Option Address → Option Address → Except Fault (Option Bool)
  | 0, _, _ => .ok none
  | fuel + 1, slow, fast => do
    if ← condition h slow fast then
      let slow ← next h slow
      let second ← next h fast
      let fast ← next h second
      if fast = slow then return some true
      else search h fuel slow fast
    else return some false

def hasCycleMore [DecidableEq Address] (h : Heap Address) (fuel : Nat) (head : Option Address) :
    Except Fault (Option Bool) := do
  let slow := head
  let fast := head
  if slow = none then return some false
  else
    let second ← next h fast
    if second = none then return some false
    else search h fuel slow fast

/-- Where the pointer is after some number of steps. -/
def walk (h : Heap Address) (head : Option Address) (n : Nat) : Option Address :=
  (advance (fun a => (h a).next))^[n] head

theorem next_walk {h : Heap Address} {head : Option Address} {n : Nat}
    (hn : walk h head n ≠ none) : next h (walk h head n) = .ok (walk h head (n + 1)) := by
  obtain ⟨a, ha⟩ := Option.ne_none_iff_exists'.mp hn
  have hstep : walk h head (n + 1) = advance (fun a => (h a).next) (walk h head n) :=
    Function.iterate_succ_apply' _ _ _
  rw [hstep, ha]
  rfl

theorem walk_mono {h : Heap Address} {head : Option Address} {m n : Nat}
    (hn : walk h head n ≠ none) (hmn : m ≤ n) : walk h head m ≠ none :=
  fun hm => hn (ended_mono hm hmn)

/-- Some node reachable from the head is reachable again from its successor. -/
def ReachableCycle (h : Heap Address) (head : Option Address) : Prop :=
  ∃ a, head = some a ∧ Cyclic (fun a => (h a).next) a

theorem not_reachableCycle_of_ended {h : Heap Address} {head : Option Address} {n : Nat}
    (hn : walk h head n = none) : ¬ ReachableCycle h head := by
  intro ⟨a, ha, hc⟩
  rw [ha] at hn
  exact hc.endless n hn

theorem reachableCycle_of_meeting {h : Heap Address} {head : Option Address} {i : Nat}
    (hi : 0 < i) (hne : walk h head i ≠ none) (hmeet : walk h head (2 * i) = walk h head i) :
    ReachableCycle h head := by
  obtain ⟨a, ha⟩ := Option.ne_none_iff_exists'.mp (walk_mono hne (Nat.zero_le i))
  obtain ⟨x, hx⟩ := Option.ne_none_iff_exists'.mp hne
  have hhead : head = some a := ha
  rw [hx] at hmeet
  rw [hhead] at hx hmeet
  exact ⟨a, hhead, cyclic_of_meeting hi hx hmeet⟩

theorem condition_walk (h : Heap Address) (head : Option Address) (k : Nat) :
    condition h (walk h head k) (walk h head (2 * k)) =
      .ok (decide (walk h head (2 * k + 1) ≠ none)) := by
  unfold condition
  by_cases hfast : walk h head (2 * k) = none
  · have hsecond : walk h head (2 * k + 1) = none := ended_mono hfast (Nat.le_succ _)
    simp [hfast, hsecond]
  · have hslow := walk_mono hfast (m := k) (by omega)
    rw [if_neg hslow, if_neg hfast, next_walk hfast]
    rfl

variable [DecidableEq Address]

/-- One round: the search fails at the end of the list, succeeds at a meeting, and
otherwise goes on. -/
theorem search_succ (h : Heap Address) (head : Option Address) (fuel k : Nat) :
    search h (fuel + 1) (walk h head k) (walk h head (2 * k)) =
      if walk h head (2 * k + 1) = none then .ok (some false)
      else if walk h head (2 * (k + 1)) = walk h head (k + 1) then .ok (some true)
      else search h fuel (walk h head (k + 1)) (walk h head (2 * (k + 1))) := by
  rw [search, condition_walk]
  by_cases hend : walk h head (2 * k + 1) = none
  · rw [if_pos hend]
    simp [hend, bind, Except.bind, pure, Except.pure]
  · have hslow := walk_mono hend (m := k) (by omega)
    have hfast := walk_mono hend (m := 2 * k) (by omega)
    rw [if_neg hend]
    simp only [bind, Except.bind, pure, Except.pure, next_walk hslow, next_walk hfast,
      next_walk hend, hend, ne_eq, not_false_eq_true, decide_true, if_true]
    rfl

/-- A search never faults, and the answer it gives is right. -/
theorem search_cases (h : Heap Address) (head : Option Address) (fuel k : Nat) :
    search h fuel (walk h head k) (walk h head (2 * k)) = .ok none ∨
    ∃ b, search h fuel (walk h head k) (walk h head (2 * k)) = .ok (some b) ∧
      (b = true ↔ ReachableCycle h head) := by
  induction fuel generalizing k with
  | zero => exact Or.inl rfl
  | succ fuel ih =>
    rw [search_succ]
    split
    · rename_i hend
      exact Or.inr ⟨false, rfl, by simp [not_reachableCycle_of_ended hend]⟩
    · rename_i hend
      split
      · rename_i hmeet
        have hne := walk_mono hend (m := k + 1) (by omega)
        have hcycle := reachableCycle_of_meeting (Nat.succ_pos k) hne hmeet
        exact Or.inr ⟨true, rfl, by simp [hcycle]⟩
      · exact ih (k + 1)

/-- The search ends by the first meeting of the two pointers, on NULL if nowhere else. -/
theorem search_ends {h : Heap Address} {head : Option Address} {fuel k i : Nat}
    (hmeet : walk h head (2 * i) = walk h head i) (hk : k < i) (hi : i ≤ k + fuel) :
    search h fuel (walk h head k) (walk h head (2 * k)) ≠ .ok none := by
  induction fuel generalizing k with
  | zero => omega
  | succ fuel ih =>
    rw [search_succ]
    split
    · simp
    · split
      · simp
      · rename_i hapart
        have hne : k + 1 ≠ i := by
          intro he
          rw [he] at hapart
          exact hapart hmeet
        exact ih (by omega) (by omega)

theorem hasCycleMore_search {h : Heap Address} {head : Option Address}
    (hnext : walk h head 1 ≠ none) (fuel : Nat) :
    hasCycleMore h fuel head = search h fuel (walk h head 0) (walk h head (2 * 0)) := by
  have hhead : walk h head 0 ≠ none := walk_mono hnext (Nat.zero_le 1)
  have hsecond : next h head = .ok (walk h head 1) := next_walk hhead
  have hne : head ≠ none := hhead
  simp only [hasCycleMore, if_neg hne, hsecond, bind, Except.bind, if_neg hnext]
  rfl

theorem hasCycleMore_short {h : Heap Address} {head : Option Address}
    (hnext : walk h head 1 = none) (fuel : Nat) :
    hasCycleMore h fuel head = .ok (some false) := by
  cases head with
  | none => rfl
  | some a =>
    have hsecond : (h a).next = none := hnext
    simp [hasCycleMore, next, hsecond, bind, Except.bind, pure, Except.pure]

/-- The search never follows NULL, and an answer it gives is right. -/
theorem hasCycleMore_cases (h : Heap Address) (head : Option Address) (fuel : Nat) :
    hasCycleMore h fuel head = .ok none ∨
    ∃ b, hasCycleMore h fuel head = .ok (some b) ∧ (b = true ↔ ReachableCycle h head) := by
  by_cases hnext : walk h head 1 = none
  · exact Or.inr ⟨false, hasCycleMore_short hnext fuel,
      by simp [not_reachableCycle_of_ended hnext]⟩
  · rw [hasCycleMore_search hnext]
    exact search_cases h head fuel 0

theorem hasCycleMore_returns [Fintype Address] (h : Heap Address) (head : Option Address)
    {fuel : Nat} (hfuel : Fintype.card Address < fuel) : hasCycleMore h fuel head ≠ .ok none := by
  by_cases hnext : walk h head 1 = none
  · simp [hasCycleMore_short hnext]
  · obtain ⟨i, hpos, hcard, hmeet⟩ := exists_meeting (advance (fun a => (h a).next)) head
    rw [Fintype.card_option] at hcard
    rw [hasCycleMore_search hnext]
    exact search_ends hmeet hpos (by omega)

/-- On a finite heap the search returns after at most one round more than there are
nodes, never follows NULL, and finds exactly the reachable cycles. -/
theorem hasCycleMore_decides [Fintype Address] (h : Heap Address) (head : Option Address) :
    ∃ b, (b = true ↔ ReachableCycle h head) ∧
      (∀ fuel, Fintype.card Address < fuel → hasCycleMore h fuel head = .ok (some b)) ∧
      ∀ fuel, hasCycleMore h fuel head = .ok none ∨ hasCycleMore h fuel head = .ok (some b) := by
  obtain ⟨b, _, hb⟩ := (hasCycleMore_cases h head (Fintype.card Address + 1)).resolve_left
    (hasCycleMore_returns h head (Nat.lt_succ_self _))
  have hanswer : ∀ fuel, hasCycleMore h fuel head = .ok none ∨
      hasCycleMore h fuel head = .ok (some b) := by
    intro fuel
    rcases hasCycleMore_cases h head fuel with hnone | ⟨c, hc, hiff⟩
    · exact Or.inl hnone
    · rw [Bool.eq_iff_iff.mpr (hiff.trans hb.symm)] at hc
      exact Or.inr hc
  refine ⟨b, hb, ?_, hanswer⟩
  intro fuel hfuel
  exact (hanswer fuel).resolve_left (hasCycleMore_returns h head hfuel)

end BasicDemo.LeetCode.HasCycle
