import BasicDemo.Library.Arrays
import BasicDemo.LeetCode.HasCycle
import BasicDemo.LeetCode.ReverseList

namespace BasicDemo.LeetCode.RandomCir
open Library.Iterates Library.Chains Library.Arrays ReverseList HasCycle

variable {Address : Type}

abbrev Heap (Address : Type) := ReverseList.Heap Address

/-- The heap as far as the search for a cycle reads it. -/
def links (h : Heap Address) : HasCycle.Heap Address := fun a => ⟨(h a).next⟩

section Building
variable [DecidableEq Address]

/-- `malloc` has returned the address `linkList`. -/
def initLinkList (h : Heap Address) (linkList : Address) : Heap Address :=
  setNext h linkList none

/-- `malloc` has returned the address `n`. -/
def addNode (h : Heap Address) (linkList n : Address) (val : Int) : Heap Address :=
  let h := Function.update h n { h n with data := val }
  let h := setNext h n (h linkList).next
  setNext h linkList (some n)

/-- The rounds of the loop, each with the address that `malloc` returns and the value
of `rand()`. -/
def randomNode (h : Heap Address) (pNode : Address) (i : Nat) :
    List (Address × Nat) → Heap Address
  | [] => h
  | (n, rand) :: draws => randomNode (addNode h pNode n (rand % i : Nat)) pNode i draws

end Building

/-- The node at which `while (pn->next && n < k)` ends. -/
def position (h : Heap Address) (k n : Nat) (pn : Address) : Address :=
  match (h pn).next with
  | some next => if n < k then position h k (n + 1) next else pn
  | none => pn
termination_by k - n

/-- `randomCir(&pNode, i)` for a positive `i`, with the value of `rand()`. -/
def randomCir [DecidableEq Address] (h : Heap Address) (pNode : Address) (i rand : Nat) :
    Except HasCycle.Fault (Heap Address) :=
  match (h pNode).next with
  | none => .error .nullDereference
  | some first =>
    let pn := position h (rand % i) 0 first
    .ok (setNext h pn (h first).next)

/-- The loop stops at the node at place `k`, if there is one. -/
theorem position_eq {h : Heap Address} {front back : List Address} {a b : Address} {k n : Nat}
    (hl : IsList h (some a) (front ++ b :: back)) (hk : n + front.length = k) :
    position h k n a = b := by
  induction front generalizing a n with
  | nil =>
    have hlt : ¬ n < k := by simpa using Nat.le_of_eq hk.symm
    cases hl
    rw [position]
    split
    · rw [if_neg hlt]
    · rfl
  | cons c front ih =>
    rw [List.length_cons] at hk
    cases hl with
    | cons tail =>
      obtain ⟨d, hd⟩ := tail.exists_first (by simp)
      rw [hd] at tail
      rw [position, hd]
      simp only [if_pos (show n < k by omega)]
      exact ih tail (by omega)

/-- A list of nodes, however long, is no cycle. -/
theorem IsList.not_reachableCycle {h : Heap Address} {p : Option Address} {nodes : List Address}
    (hl : IsList h p nodes) : ¬ ReachableCycle (links h) p :=
  not_reachableCycle_of_ended hl.ended

variable [DecidableEq Address]

/-- A new node comes first behind the header. -/
theorem addNode_isList {h : Heap Address} {linkList n : Address} {nodes : List Address}
    (hl : IsList h (some linkList) (linkList :: nodes)) (hn : n ∉ linkList :: nodes) (val : Int) :
    IsList (addNode h linkList n val) (some linkList) (linkList :: n :: nodes) := by
  have hne : linkList ≠ n := fun he => hn (he ▸ List.mem_cons_self)
  have hheader : linkList ∉ nodes := (List.nodup_cons.mp hl.nodup).1
  have hnodes : n ∉ nodes := fun hmem => hn (List.mem_cons_of_mem _ hmem)
  cases hl with
  | cons tail =>
    apply Chain.cons
    rw [addNode, setNext_self]
    apply Chain.cons
    rw [setNext_other _ hne.symm, setNext_self, Function.update_of_ne hne]
    apply tail.congr
    intro a ha
    have ha1 : a ≠ linkList := fun he => hheader (he ▸ ha)
    have ha2 : a ≠ n := fun he => hnodes (he ▸ ha)
    rw [setNext_other _ ha1, setNext_other _ ha2, Function.update_of_ne ha2]

theorem randomNode_isList {h : Heap Address} {pNode : Address} {nodes : List Address} (i : Nat)
    {draws : List (Address × Nat)} (hl : IsList h (some pNode) (pNode :: nodes))
    (fresh : (draws.map Prod.fst).Nodup) (apart : ∀ a ∈ draws.map Prod.fst, a ∉ pNode :: nodes) :
    IsList (randomNode h pNode i draws) (some pNode)
      (pNode :: ((draws.map Prod.fst).reverse ++ nodes)) := by
  induction draws generalizing h nodes with
  | nil => exact hl
  | cons draw draws ih =>
    obtain ⟨n, rand⟩ := draw
    rw [List.map_cons, List.nodup_cons] at fresh
    rw [List.map_cons, List.forall_mem_cons] at apart
    have hadd := addNode_isList hl apart.1 (rand % i : Nat)
    have hrest := ih hadd fresh.2 ?_
    · rw [randomNode]
      simpa using hrest
    · intro a ha
      have hold := apart.2 a ha
      simp only [List.mem_cons, not_or] at hold ⊢
      exact ⟨hold.1, fun he => fresh.1 (he ▸ ha), hold.2⟩

/-- A node behind the second one, or the second one itself, linked back to the second. -/
theorem reachableCycle_of_link {h : Heap Address} {header first second y : Address}
    {front back : List Address}
    (hl : IsList h (some header) (header :: first :: front ++ y :: back))
    (hsecond : (h first).next = some second) :
    ReachableCycle (links (setNext h y (h first).next)) (some header) := by
  have hnodup := hl.nodup
  have hkept : ∀ a ∈ header :: first :: front,
      (links (setNext h y (h first).next) a).next = (h a).next := by
    intro a ha
    have hne : a ≠ y := by
      rintro rfl
      exact (List.disjoint_of_nodup_append hnodup) ha List.mem_cons_self
    simp only [links, setNext_other h hne]
  have hloop : (links (setNext h y (h first).next) y).next = some second := by
    simp only [links, setNext_self, hsecond]
  have hback : IsList h (some second) (front ++ y :: back) := hsecond ▸ hl.behind.behind
  refine ⟨header, rfl, y, second, Chain.reaches hl hkept, hloop, Chain.reaches hback ?_⟩
  intro a ha
  exact hkept a (List.mem_cons_of_mem _ (List.mem_cons_of_mem _ ha))

/-- Linking a node behind the header to the second node closes a cycle, unless it is the
first one, which is linked so already. -/
theorem link_closes_iff {h : Heap Address} {header first y : Address} {front back : List Address}
    (hl : IsList h (some header) (header :: (front ++ y :: back)))
    (hfirst : (h header).next = some first) :
    ReachableCycle (links (setNext h y (h first).next)) (some header) ↔ front.length ≠ 0 := by
  have hrest : IsList h (some first) (front ++ y :: back) := hfirst ▸ hl.behind
  cases front with
  | nil =>
    cases hrest
    rw [setNext_same]
    simp [IsList.not_reachableCycle hl]
  | cons c front =>
    cases hrest with
    | cons tail =>
      obtain ⟨second, hsecond⟩ := tail.exists_first (by simp)
      simp [reachableCycle_of_link hl hsecond]

/-- The list that `randomNode` builds ends in a cycle behind `randomCir`, and
`hasCycleMore` says so, exactly if the position drawn is not the first one. -/
theorem randomCir_closes_iff [Fintype Address] (h : Heap Address) (header : Address) (n : Nat)
    (draws : List (Address × Nat)) (rand : Nat) (hn : 2 ≤ n) (hdraws : draws.length = n)
    (fresh : (header :: draws.map Prod.fst).Nodup) :
    ∃ h', randomCir (randomNode (initLinkList h header) header n draws) header n rand = .ok h' ∧
      (ReachableCycle (links h') (some header) ↔ rand % n ≠ 0) ∧
      ∀ fuel, Fintype.card Address < fuel →
        hasCycleMore (links h') fuel (some header) = .ok (some (decide (rand % n ≠ 0))) := by
  have hempty : IsList (initLinkList h header) (some header) [header] := by
    apply Chain.cons
    rw [initLinkList, setNext_self]
    exact .nil
  rw [List.nodup_cons] at fresh
  have hlist := randomNode_isList n hempty fresh.2 (fun a ha he =>
    fresh.1 (List.mem_singleton.mp he ▸ ha))
  rw [List.append_nil] at hlist
  generalize randomNode (initLinkList h header) header n draws = built at hlist ⊢
  have hlen : (draws.map Prod.fst).reverse.length = n := by simpa using hdraws
  generalize (draws.map Prod.fst).reverse = nodes at hlist hlen
  have hk : rand % n < nodes.length := hlen ▸ Nat.mod_lt rand (by omega)
  obtain ⟨front, y, back, rfl, hfront⟩ := exists_cell hk
  obtain ⟨first, hfirst⟩ := hlist.behind.exists_first (by simp)
  have hrest : IsList built (some first) (front ++ y :: back) := hfirst ▸ hlist.behind
  have hcall : randomCir built header n rand = .ok (setNext built y (built first).next) := by
    have hplace : position built (rand % n) 0 first = y := position_eq hrest (by omega)
    simp only [randomCir, hfirst, hplace]
  have hcycle : ReachableCycle (links (setNext built y (built first).next)) (some header) ↔
      rand % n ≠ 0 := by
    rw [link_closes_iff hlist hfirst, hfront]
  refine ⟨_, hcall, hcycle, ?_⟩
  intro fuel hfuel
  obtain ⟨b, hb, hiff⟩ := (hasCycleMore_cases _ (some header) fuel).resolve_left
    (hasCycleMore_returns _ _ hfuel)
  rw [hb, Bool.eq_iff_iff.mpr (hiff.trans (hcycle.trans (decide_eq_true_iff).symm))]

/-- Three nodes, linked to nothing yet. -/
def unlinked : Heap (Fin 3) := fun _ => ⟨0, none⟩

/-- Two calls of `addNode`, with the nodes 1 and 2. -/
def twoNodes : Heap (Fin 3) := randomNode (initLinkList unlinked 0) 0 2 [(1, 8), (2, 9)]

theorem randomCir_closes_two :
    ∃ h', randomCir twoNodes 0 2 7 = .ok h' ∧
      (ReachableCycle (links h') (some 0) ↔ 7 % 2 ≠ 0) ∧
      ∀ fuel, Fintype.card (Fin 3) < fuel →
        hasCycleMore (links h') fuel (some 0) = .ok (some (decide (7 % 2 ≠ 0))) :=
  randomCir_closes_iff unlinked 0 2 [(1, 8), (2, 9)] 7 (by decide) rfl (by decide)

/-- Position 0 leaves the list as it is. -/
theorem randomCir_first_open :
    ∃ h', randomCir twoNodes 0 2 6 = .ok h' ∧
      hasCycleMore (links h') 4 (some 0) = .ok (some false) := by
  have hfirst : (twoNodes 0).next = some 2 := by decide
  have hplace : position twoNodes (6 % 2) 0 2 = 2 := by
    rw [position]
    split <;> rfl
  refine ⟨twoNodes, ?_, by decide⟩
  simp only [randomCir, hfirst, hplace, setNext_same]

end BasicDemo.LeetCode.RandomCir
