import BasicDemo.Library.Loops
import BasicDemo.LeetCode.HasCycle
import BasicDemo.LeetCode.ReverseList

namespace BasicDemo.LeetCode.ConstructNodeList
open Library.Loops Library.Chains ReverseList

abbrev Heap (Address : Type) := ReverseList.Heap Address

variable {Address : Type}

/-- The heap and the variables of `constructNodeList`. -/
structure Builder (Address : Type) where
  heap : Heap Address
  head : Option Address
  cur : Option Address

/-- The loop of `printNodeList`: the numbers printed; without a result if `fuel` rounds
were not enough. -/
def printNodeList (h : Heap Address) : Nat → Option Address → Option (List Int)
  | 0, _ => none
  | _ + 1, none => some []
  | fuel + 1, some temp => (printNodeList h fuel (h temp).next).map ((h temp).data :: ·)

section Building
variable [DecidableEq Address]

/-- A round of the loop, with the address that `malloc` returned. What the new node
holds is whatever was there before. -/
def addNode (i : Int) (node : Address) (s : Builder Address) :
    Except HasCycle.Fault (Builder Address) :=
  let heap := Function.update s.heap node { s.heap node with data := i }
  match s.head with
  | none => .ok ⟨heap, some node, some node⟩
  | some head =>
    match s.cur with
    | none => .error .nullDereference
    | some cur => .ok ⟨setNext heap cur (some node), some head, some node⟩

def addNodes (i : Int) : List Address → Builder Address → Except HasCycle.Fault (Builder Address)
  | [], s => .ok s
  | node :: nodes, s => addNode i node s >>= addNodes (i + 1) nodes

/-- The heap and the pointer returned. -/
def constructNodeList (h : Heap Address) (nodes : Vector Address 5) :
    Except HasCycle.Fault (Heap Address × Option Address) := do
  let s ← addNodes 1 nodes.toList ⟨h, none, none⟩
  return (s.heap, s.head)

end Building

/-- The variables when `nodes` have been added. The last node still points to where it
did when it was allocated. -/
structure Built (h : Heap Address) (nodes : List Address) (s : Builder Address) : Prop where
  cur : s.cur = nodes.getLast?
  linked : IsSegment s.heap s.head nodes (nodes.getLast?.bind (fun a => (h a).next))
  data : nodes.map (fun a => (s.heap a).data) =
    (List.range nodes.length).map (fun k : Nat => (k : Int) + 1)
  frame : ∀ a ∉ nodes, s.heap a = h a

theorem built_start (h : Heap Address) : Built h [] ⟨h, none, none⟩ where
  cur := rfl
  linked := .nil
  data := rfl
  frame _ _ := rfl

variable [DecidableEq Address]

/-- What a round does to the heap: the data of the new node and the link of the last. -/
theorem addNode_heap {i : Int} {node : Address} {s t : Builder Address}
    (h : addNode i node s = .ok t) (hcur : s.cur ≠ some node) :
    t.heap node = { s.heap node with data := i } ∧
    (∀ a, a ≠ node → (t.heap a).data = (s.heap a).data) ∧
    ∀ a, a ≠ node → s.cur ≠ some a → t.heap a = s.heap a := by
  unfold addNode at h
  split at h
  · cases h
    refine ⟨Function.update_self .., ?_, ?_⟩
    · intro a ha
      simp only [Function.update_of_ne ha]
    · intro a ha _
      simp only [Function.update_of_ne ha]
  · split at h
    · cases h
    · rename_i cur hc
      cases h
      have hne : node ≠ cur := fun he => hcur (he ▸ hc)
      refine ⟨?_, ?_, ?_⟩
      · simp only [setNext_other _ hne, Function.update_self]
      · intro a ha
        rw [setNext_data, Function.update_of_ne ha]
      · intro a ha hlast
        have hacur : a ≠ cur := fun he => hlast (he ▸ hc)
        simp only [setNext_other _ hacur, Function.update_of_ne ha]

/-- The new node is linked behind the last one. -/
theorem Built.addNode_linked {h : Heap Address} {nodes : List Address} {s : Builder Address}
    (hs : Built h nodes s) {node : Address} (nodup : (nodes ++ [node]).Nodup) (i : Int) :
    ∃ t, addNode i node s = .ok t ∧ t.cur = some node ∧
      IsSegment t.heap t.head (nodes ++ [node]) (t.heap node).next := by
  rcases List.eq_nil_or_concat nodes with rfl | ⟨front, last, rfl⟩
  · have hhead : s.head = none := hs.linked.ends_eq
    refine ⟨⟨Function.update s.heap node { s.heap node with data := i }, some node, some node⟩,
      by simp only [ConstructNodeList.addNode, hhead], rfl, .cons .nil⟩
  · rw [List.concat_eq_append] at hs nodup ⊢
    obtain ⟨q, hfront, hend⟩ := hs.linked.split
    cases hend.first
    obtain ⟨head, hhead⟩ : ∃ a, s.head = some a := by
      rw [hs.linked.head_eq]
      cases front <;> exact ⟨_, rfl⟩
    have hcur : s.cur = some last := by rw [hs.cur, List.getLast?_concat]
    refine ⟨⟨setNext (Function.update s.heap node { s.heap node with data := i }) last (some node),
      some head, some node⟩, by simp only [ConstructNodeList.addNode, hhead, hcur], rfl, ?_⟩
    rw [hhead] at hfront
    rw [List.append_assoc, List.singleton_append]
    rw [List.append_assoc, List.singleton_append] at nodup
    refine Segment.append (q := some last) ?_ (.cons ?_)
    · apply hfront.congr
      intro a ha
      have hlast : a ≠ last := fun he =>
        List.disjoint_of_nodup_append nodup ha (he ▸ List.mem_cons_self)
      have hnode : a ≠ node := fun he =>
        List.disjoint_of_nodup_append nodup ha (by simp [he])
      simp only [setNext_other _ hlast, Function.update_of_ne hnode]
    · simp only [setNext_self]
      exact .cons .nil

theorem Built.addNode {h : Heap Address} {nodes : List Address} {s : Builder Address}
    (hs : Built h nodes s) {node : Address} (nodup : (nodes ++ [node]).Nodup) {i : Int}
    (hi : i = nodes.length + 1) :
    ∃ t, addNode i node s = .ok t ∧ Built h (nodes ++ [node]) t := by
  have fresh : node ∉ nodes := fun hmem =>
    List.disjoint_of_nodup_append nodup hmem List.mem_cons_self
  have hcur : s.cur ≠ some node := by
    rw [hs.cur]
    exact fun he => fresh (List.mem_of_getLast? he)
  obtain ⟨t, ht, hlast, hlinked⟩ := hs.addNode_linked nodup i
  obtain ⟨hnode, hdata, hframe⟩ := addNode_heap ht hcur
  refine ⟨t, ht, ?_, ?_, ?_, ?_⟩
  · rw [hlast, List.getLast?_concat]
  · rw [List.getLast?_concat, Option.bind_some]
    rwa [hnode, hs.frame node fresh] at hlinked
  · have hold : nodes.map (fun a => (t.heap a).data) = nodes.map (fun a => (s.heap a).data) := by
      apply List.map_congr_left
      intro a ha
      exact hdata a (fun he => fresh (he ▸ ha))
    rw [List.map_append, hold, hs.data, List.length_append, List.length_singleton,
      List.range_succ, List.map_append, List.map_singleton, List.map_singleton, hnode, hi]
  · intro a ha
    rw [List.mem_append, List.mem_singleton, not_or] at ha
    rw [hframe a ha.2 ?_, hs.frame a ha.1]
    rw [hs.cur]
    exact fun he => ha.1 (List.mem_of_getLast? he)

theorem addNodes_built {h : Heap Address} {done nodes : List Address} {s : Builder Address}
    (hs : Built h done s) (nodup : (done ++ nodes).Nodup) {i : Int} (hi : i = done.length + 1) :
    ∃ t, addNodes i nodes s = .ok t ∧ Built h (done ++ nodes) t := by
  induction nodes generalizing done s i with
  | nil => exact ⟨s, rfl, by rwa [List.append_nil]⟩
  | cons node nodes ih =>
    rw [← List.singleton_append, ← List.append_assoc] at nodup ⊢
    obtain ⟨u, hu, hbuilt⟩ := hs.addNode (List.nodup_append.mp nodup).1 hi
    obtain ⟨t, ht, hall⟩ := ih (i := i + 1) hbuilt nodup (by simp [hi])
    refine ⟨t, ?_, hall⟩
    rw [List.singleton_append, addNodes, hu, ok_bind, ht]

/-- The five nodes with their data, linked up to where the last one happens to point. -/
theorem constructNodeList_built (h : Heap Address) (nodes : Vector Address 5)
    (nodup : nodes.toList.Nodup) :
    ∃ h' head, constructNodeList h nodes = .ok (h', head) ∧
      IsSegment h' head nodes.toList (h nodes[4]).next ∧
      nodes.toList.map (fun a => (h' a).data) = [1, 2, 3, 4, 5] := by
  obtain ⟨s, hs, hbuilt⟩ : ∃ s, addNodes 1 nodes.toList ⟨h, none, none⟩ = .ok s ∧
      Built h nodes.toList s := addNodes_built (built_start h) nodup rfl
  have hlast : nodes.toList.getLast? = some nodes[4] := by
    rw [List.getLast?_eq_getElem?, Vector.length_toList]
    simp
  refine ⟨s.heap, s.head, ?_, ?_, ?_⟩
  · rw [constructNodeList, hs]
    rfl
  · have hlinked := hbuilt.linked
    rwa [hlast, Option.bind_some] at hlinked
  · rw [hbuilt.data, Vector.length_toList]
    decide

section Printing
omit [DecidableEq Address]
variable {h : Heap Address}

theorem printNodeList_more {fuel : Nat} {p : Option Address} {out : List Int}
    (hout : printNodeList h fuel p = some out) (n : Nat) :
    printNodeList h (fuel + n) p = some out := by
  induction fuel generalizing p out with
  | zero => cases hout
  | succ fuel ih =>
    rw [Nat.add_right_comm]
    cases p with
    | none => exact hout
    | some a =>
      obtain ⟨rest, hrest, rfl⟩ := Option.map_eq_some_iff.mp hout
      rw [printNodeList, ih hrest]
      rfl

/-- The nodes of a segment are printed first. -/
theorem printNodeList_segment {p q : Option Address} {nodes : List Address}
    (hs : IsSegment h p nodes q) (fuel : Nat) :
    printNodeList h (nodes.length + fuel) p =
      (printNodeList h fuel q).map (nodes.map (fun a => (h a).data) ++ ·) := by
  induction nodes generalizing p with
  | nil =>
    cases hs.ends_eq
    simp
  | cons a nodes ih =>
    cases hs.first
    rw [List.length_cons, Nat.add_right_comm, printNodeList, ih hs.behind, Option.map_map]
    rfl

/-- Nothing more is printed exactly if the segment ends in NULL. -/
theorem prints_segment_iff {p q : Option Address} {nodes : List Address}
    (hs : IsSegment h p nodes q) :
    (∃ fuel, printNodeList h fuel p = some (nodes.map (fun a => (h a).data))) ↔ q = none := by
  constructor
  · rintro ⟨fuel, hprint⟩
    have hmore := printNodeList_more hprint nodes.length
    rw [Nat.add_comm, printNodeList_segment hs, Option.map_eq_some_iff] at hmore
    obtain ⟨rest, hrest, happend⟩ := hmore
    rw [List.append_right_eq_self] at happend
    subst happend
    cases q with
    | none => rfl
    | some a =>
      cases fuel with
      | zero => cases hrest
      | succ fuel => simp [printNodeList] at hrest
  · rintro rfl
    refine ⟨nodes.length + 1, ?_⟩
    rw [printNodeList_segment hs]
    simp [printNodeList]

end Printing

/-- The list ends behind the fifth node, and is printed so, exactly if the memory of this
node held NULL in the place of `next` when it was allocated. -/
theorem constructNodeList_iff (h : Heap Address) (nodes : Vector Address 5)
    (nodup : nodes.toList.Nodup) :
    ∃ h' head, constructNodeList h nodes = .ok (h', head) ∧
      nodes.toList.map (fun a => (h' a).data) = [1, 2, 3, 4, 5] ∧
      (IsList h' head nodes.toList ↔ (h nodes[4]).next = none) ∧
      ((∃ fuel, printNodeList h' fuel head = some [1, 2, 3, 4, 5]) ↔
        (h nodes[4]).next = none) := by
  obtain ⟨h', head, hcall, hlinked, hdata⟩ := constructNodeList_built h nodes nodup
  refine ⟨h', head, hcall, hdata, ?_, ?_⟩
  · constructor
    · intro hl
      exact hlinked.end_unique (chain_iff_segment.mp hl)
    · intro hnull
      rw [hnull] at hlinked
      exact chain_iff_segment.mpr hlinked
  · rw [← hdata]
    exact prints_segment_iff hlinked

/-- Memory of zeros. -/
def clearedMemory : Heap (Fin 6) := fun _ => ⟨0, none⟩

theorem constructNodeList_cleared :
    ∃ h' head, constructNodeList clearedMemory #v[0, 1, 2, 3, 4] = .ok (h', head) ∧
      [0, 1, 2, 3, 4].map (fun a => (h' a).data) = [1, 2, 3, 4, 5] ∧
      (IsList h' head [0, 1, 2, 3, 4] ↔ (clearedMemory 4).next = none) ∧
      ((∃ fuel, printNodeList h' fuel head = some [1, 2, 3, 4, 5]) ↔
        (clearedMemory 4).next = none) :=
  constructNodeList_iff clearedMemory #v[0, 1, 2, 3, 4] (by decide)

/-- Memory in which a node was used before. -/
def usedMemory : Heap (Fin 6)
  | 5 => ⟨6, none⟩
  | _ => ⟨0, some 5⟩

/-- The list goes on behind the fifth node with what was left in memory. -/
theorem constructNodeList_used :
    ∃ h' head, constructNodeList usedMemory #v[0, 1, 2, 3, 4] = .ok (h', head) ∧
      (h' 4).next = some 5 ∧ ¬ IsList h' head [0, 1, 2, 3, 4] ∧
      printNodeList h' 7 head = some [1, 2, 3, 4, 5, 6] := by
  refine ⟨_, _, rfl, by decide, ?_, by decide⟩
  intro hl
  cases hl.behind.behind.behind.behind.behind

end BasicDemo.LeetCode.ConstructNodeList
