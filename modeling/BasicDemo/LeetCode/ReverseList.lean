import BasicDemo.Library.Chains
import Mathlib.Logic.Function.Basic

namespace BasicDemo.LeetCode.ReverseList
open Library.Chains

/-- The layout of `struct Node` and `struct ListNode`; NULL is `none`. -/
structure Node (Address : Type) where
  data : Int
  next : Option Address

/-- Every address holds a node, so a pointer is NULL or valid. -/
abbrev Heap (Address : Type) := Address → Node Address

variable {Address : Type}

/-- The assignment `p->next = q`. -/
def setNext [DecidableEq Address] (h : Heap Address) (p : Address) (q : Option Address) :
    Heap Address :=
  Function.update h p { h p with next := q }

/-- The loop that turns one link after the other; without a result if `fuel` rounds were
not enough. -/
def turn [DecidableEq Address] (h : Heap Address) :
    Nat → Option Address → Option Address → Option (Heap Address × Option Address)
  | 0, _, _ => none
  | _ + 1, none, newH => some (h, newH)
  | fuel + 1, some p, newH =>
    let temp := (h p).next
    turn (setNext h p newH) fuel temp (some p)

/-- The heap and the pointer returned. -/
def reverseNodeList [DecidableEq Address] (h : Heap Address) (fuel : Nat)
    (head : Option Address) : Option (Heap Address × Option Address) :=
  turn h fuel head none

def reverseList [DecidableEq Address] (h : Heap Address) (fuel : Nat) (head : Option Address) :
    Option (Heap Address × Option Address) :=
  turn h fuel head none

def reverseListNode [DecidableEq Address] (h : Heap Address) (fuel : Nat) (head : Option Address) :
    Option (Heap Address × Option Address) :=
  match head with
  | none => some (h, head)
  | some a =>
    if (h a).next = none then some (h, head)
    else turn h fuel head none

/-- The list that starts at a pointer. -/
def IsList (h : Heap Address) (p : Option Address) (nodes : List Address) : Prop :=
  Chain (fun a => (h a).next) p nodes

/-- The nodes from one pointer to another. -/
def IsSegment (h : Heap Address) (p : Option Address) (nodes : List Address)
    (q : Option Address) : Prop :=
  Segment (fun a => (h a).next) p nodes q

/-- Only links change, and only those of `nodes`. -/
structure OnlyLinks (h h' : Heap Address) (nodes : List Address) : Prop where
  data : ∀ a, (h' a).data = (h a).data
  frame : ∀ a ∉ nodes, h' a = h a

theorem OnlyLinks.refl (h : Heap Address) (nodes : List Address) : OnlyLinks h h nodes :=
  ⟨fun _ => rfl, fun _ _ => rfl⟩

theorem OnlyLinks.trans {h h' h'' : Heap Address} {nodes nodes' : List Address}
    (first : OnlyLinks h h' nodes) (second : OnlyLinks h' h'' nodes') (sub : nodes' ⊆ nodes) :
    OnlyLinks h h'' nodes := by
  refine ⟨fun a => (second.data a).trans (first.data a), ?_⟩
  intro a ha
  rw [second.frame a (fun hmem => ha (sub hmem)), first.frame a ha]

variable [DecidableEq Address]

theorem setNext_self (h : Heap Address) (a : Address) (q : Option Address) :
    setNext h a q a = { h a with next := q } :=
  Function.update_self a _ h

theorem setNext_other (h : Heap Address) {a b : Address} (hb : b ≠ a) (q : Option Address) :
    setNext h a q b = h b :=
  Function.update_of_ne hb _ h

theorem setNext_data (h : Heap Address) (a : Address) (q : Option Address) (b : Address) :
    (setNext h a q b).data = (h b).data := by
  by_cases hb : b = a
  · rw [hb, setNext_self]
  · rw [setNext_other h hb]

theorem setNext_same (h : Heap Address) (a : Address) : setNext h a (h a).next = h :=
  Function.update_eq_self a h

/-- A link of another node changes no segment. -/
theorem IsSegment.setNext {h : Heap Address} {p q : Option Address} {nodes : List Address}
    (hs : IsSegment h p nodes q) {a : Address} (ha : a ∉ nodes) (r : Option Address) :
    IsSegment (setNext h a r) p nodes q := by
  apply hs.congr
  intro b hb
  have hne : b ≠ a := by
    rintro rfl
    exact ha hb
  rw [setNext_other h hne]

theorem OnlyLinks.setNext (h : Heap Address) {a : Address} {nodes : List Address}
    (ha : a ∈ nodes) (q : Option Address) : OnlyLinks h (setNext h a q) nodes := by
  refine ⟨setNext_data h a q, ?_⟩
  intro b hb
  have hne : b ≠ a := by
    rintro rfl
    exact hb ha
  rw [setNext_other h hne]

/-- As many rounds as there are nodes between two pointers lead from the one to the other,
and turn the nodes round in front of those turned before. -/
theorem turn_segment {h : Heap Address} {p q : Option Address} {nodes : List Address}
    (hs : IsSegment h p nodes q) (nodup : nodes.Nodup) (newH : Option Address) :
    ∃ h' new, (∀ fuel, turn h (nodes.length + fuel) p newH = turn h' fuel q new) ∧
      IsSegment h' new nodes.reverse newH ∧ OnlyLinks h h' nodes := by
  induction nodes generalizing h p newH with
  | nil =>
    cases hs.ends_eq
    refine ⟨h, newH, ?_, .nil, .refl h []⟩
    intro fuel
    rw [List.length_nil, Nat.zero_add]
  | cons a nodes ih =>
    obtain ⟨hfresh, nodup⟩ := List.nodup_cons.mp nodup
    have hrest : IsSegment (setNext h a newH) (h a).next nodes q :=
      IsSegment.setNext hs.behind hfresh newH
    obtain ⟨h', new, hturn, hseg, hkept⟩ := ih hrest nodup (some a)
    refine ⟨h', new, ?_, ?_, ?_⟩
    · intro fuel
      cases hs.first
      rw [List.length_cons, Nat.add_right_comm, turn]
      exact hturn fuel
    · rw [List.reverse_cons]
      apply hseg.append
      apply Segment.cons
      rw [hkept.frame a hfresh, setNext_self]
      exact .nil
    · exact (OnlyLinks.setNext h List.mem_cons_self newH).trans hkept (List.subset_cons_self a nodes)

/-- The nodes turned so far are a list of their own, apart from the nodes to come. -/
theorem turn_ok {h : Heap Address} {p newH : Option Address} {rest done : List Address}
    (hrest : IsList h p rest) (hdone : IsList h newH done) (apart : (rest ++ done).Nodup) :
    ∃ h' new, (∀ fuel, rest.length < fuel → turn h fuel p newH = some (h', new)) ∧
      IsList h' new (rest.reverse ++ done) ∧ OnlyLinks h h' rest := by
  obtain ⟨h', new, hturn, hseg, hkept⟩ := turn_segment (chain_iff_segment.mp hrest)
    hrest.nodup newH
  refine ⟨h', new, ?_, ?_, hkept⟩
  · intro fuel hfuel
    obtain ⟨n, rfl⟩ := Nat.exists_eq_add_of_lt hfuel
    rw [Nat.add_assoc, hturn]
    rfl
  · have hdone' : IsList h' newH done := by
      apply hdone.congr
      intro a ha
      rw [hkept.frame a (fun hmem => List.disjoint_of_nodup_append apart hmem ha)]
    exact chain_iff_segment.mpr (hseg.append (chain_iff_segment.mp hdone'))

/-- The early return is taken for lists that the loop leaves as they are. -/
theorem reverseListNode_eq {h : Heap Address} {head : Option Address} {nodes : List Address}
    (hl : IsList h head nodes) {fuel : Nat} (hfuel : nodes.length < fuel) :
    reverseListNode h fuel head = turn h fuel head none := by
  cases hl with
  | nil =>
    cases fuel with
    | zero => simp at hfuel
    | succ fuel => rfl
  | @cons a rest tail =>
    by_cases hlast : (h a).next = none
    · rw [hlast] at tail
      cases tail
      rw [List.length_singleton] at hfuel
      obtain ⟨fuel, rfl⟩ : ∃ n, fuel = n + 2 := ⟨fuel - 2, by omega⟩
      have hsame : setNext h a none = h := by
        rw [← hlast, setNext_same]
      simp [reverseListNode, turn, hlast, hsame]
    · simp [reverseListNode, hlast]

/-- A heap is determined by the data, the nodes outside of a list and the list. -/
theorem OnlyLinks.restored {h h' : Heap Address} {p q : Option Address} {nodes : List Address}
    (kept : OnlyLinks h h' nodes) (hl : IsList h p nodes) (hl' : IsList h' q nodes) :
    h' = h ∧ q = p := by
  obtain ⟨hfirst, hlinks⟩ := Chain.links hl hl'
  refine ⟨?_, hfirst.symm⟩
  funext a
  by_cases ha : a ∈ nodes
  · have hdata := kept.data a
    have hnext := hlinks a ha
    cases hx : h a with
    | mk data next =>
      cases hy : h' a with
      | mk data' next' =>
        simp only [hx, hy] at hdata hnext
        rw [hdata, hnext]
  · exact kept.frame a ha

/-- On a list that ends, the three functions end in the same heap with the same pointer:
the same nodes in reverse order, nothing changed but their links; a second reversal
restores heap and head. -/
theorem reversals_agree (h : Heap Address) (head : Option Address) (nodes : List Address)
    (hl : IsList h head nodes) :
    ∃ h' new, (∀ fuel, nodes.length < fuel →
        reverseNodeList h fuel head = some (h', new) ∧ reverseList h fuel head = some (h', new) ∧
        reverseListNode h fuel head = some (h', new)) ∧
      IsList h' new nodes.reverse ∧ (∀ a, (h' a).data = (h a).data) ∧
      (∀ a ∉ nodes, h' a = h a) ∧
      ∀ fuel, nodes.length < fuel →
        reverseNodeList h' fuel new = some (h, head) ∧ reverseList h' fuel new = some (h, head) ∧
        reverseListNode h' fuel new = some (h, head) := by
  have apart : (nodes ++ []).Nodup := by simpa using hl.nodup
  obtain ⟨h', new, hturn, hlist, hkept⟩ := turn_ok hl .nil apart
  rw [List.append_nil] at hlist
  have apart' : (nodes.reverse ++ []).Nodup := by simpa using hl.nodup
  obtain ⟨h'', back, hturn', hlist', hkept'⟩ := turn_ok hlist .nil apart'
  rw [List.reverse_reverse, List.append_nil] at hlist'
  rw [List.length_reverse] at hturn'
  have hboth : OnlyLinks h h'' nodes := hkept.trans hkept' (by simp)
  obtain ⟨rfl, rfl⟩ := hboth.restored hl hlist'
  refine ⟨h', new, ?_, hlist, hkept.data, hkept.frame, ?_⟩
  · intro fuel hfuel
    refine ⟨hturn fuel hfuel, hturn fuel hfuel, ?_⟩
    rw [reverseListNode_eq hl hfuel, hturn fuel hfuel]
  · intro fuel hfuel
    refine ⟨hturn' fuel hfuel, hturn' fuel hfuel, ?_⟩
    rw [reverseListNode_eq hlist (by simpa using hfuel), hturn' fuel hfuel]

/-- Addresses 0, 1 and 2 linked in this order. -/
def threeNodes : Heap (Fin 4)
  | 0 => ⟨10, some 1⟩
  | 1 => ⟨11, some 2⟩
  | 2 => ⟨12, none⟩
  | 3 => ⟨13, some 0⟩

theorem reversals_agree_three :
    ∃ h' new, (∀ fuel, 3 < fuel →
        reverseNodeList threeNodes fuel (some 0) = some (h', new) ∧
        reverseList threeNodes fuel (some 0) = some (h', new) ∧
        reverseListNode threeNodes fuel (some 0) = some (h', new)) ∧
      IsList h' new [2, 1, 0] ∧ (∀ a, (h' a).data = (threeNodes a).data) ∧
      (∀ a ∉ [0, 1, 2], h' a = threeNodes a) ∧
      ∀ fuel, 3 < fuel →
        reverseNodeList h' fuel new = some (threeNodes, some 0) ∧
        reverseList h' fuel new = some (threeNodes, some 0) ∧
        reverseListNode h' fuel new = some (threeNodes, some 0) :=
  reversals_agree threeNodes (some 0) [0, 1, 2] (.cons (.cons (.cons .nil)))

end BasicDemo.LeetCode.ReverseList
