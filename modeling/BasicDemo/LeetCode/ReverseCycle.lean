import BasicDemo.LeetCode.ReverseList

namespace BasicDemo.LeetCode.ReverseCycle
open Library.Iterates Library.Chains ReverseList

variable {Address : Type} [DecidableEq Address]

/-- Nodes in front of a cycle are turned when the loop comes to them and turned back when
it returns along the links it has turned, the cycle only once. -/
theorem turn_cycle {h : Heap Address} {head : Option Address} {tail cycle : List Address}
    {c : Address} (hs : IsSegment h head (tail ++ c :: cycle) (some c))
    (nodup : (tail ++ c :: cycle).Nodup) :
    ∃ h', (∀ fuel, 2 * (tail ++ c :: cycle).length < fuel →
        turn h fuel head none = some (h', head)) ∧
      IsSegment h' head (tail ++ c :: cycle.reverse) (some c) ∧
      OnlyLinks h h' (tail ++ c :: cycle) := by
  -- the first way, up to the node where the cycle closes
  obtain ⟨h1, last, hturn1, hseg1, hkept1⟩ := turn_segment hs nodup none
  have hreverse : (tail ++ c :: cycle).reverse = cycle.reverse ++ c :: tail.reverse := by simp
  rw [hreverse] at hseg1
  obtain ⟨q, hcycle1, hback1⟩ := hseg1.split
  cases hback1.first
  -- the way back, from this node to the head
  have hall := List.nodup_reverse.mpr nodup
  rw [hreverse] at hall
  obtain ⟨h2, new, hturn2, hseg2, hkept2⟩ :=
    turn_segment hback1 (List.nodup_append.mp hall).2.1 last
  have hcycle2 : IsSegment h2 last cycle.reverse (some c) := by
    apply hcycle1.congr
    intro a ha
    have hout : a ∉ c :: tail.reverse := List.disjoint_of_nodup_append hall ha
    rw [hkept2.frame a hout]
  have hseg : IsSegment h2 new (tail ++ c :: cycle.reverse) (some c) := by
    have happend := hseg2.append hcycle2
    rwa [List.reverse_cons, List.reverse_reverse, List.append_assoc, List.singleton_append]
      at happend
  have hnew : new = head := by
    rw [hseg.head_eq, hs.head_eq]
    simp
  subst hnew
  refine ⟨h2, ?_, hseg, hkept1.trans hkept2 (by intro a; simp; tauto)⟩
  intro fuel hfuel
  obtain ⟨n, hn⟩ : ∃ n, fuel =
      (tail ++ c :: cycle).length + ((c :: tail.reverse).length + (n + 1)) := by
    refine ⟨fuel - (tail ++ c :: cycle).length - (c :: tail.reverse).length - 1, ?_⟩
    simp only [List.length_append, List.length_cons, List.length_reverse] at hfuel ⊢
    omega
  rw [hn, hturn1, hturn2]
  rfl

omit [DecidableEq Address] in
/-- The links in front of a cycle that is turned round, and those of the cycle. -/
theorem links_turned {h h' : Heap Address} {head : Option Address} {tail cycle : List Address}
    {c a : Address} (hs : IsSegment h head (tail ++ c :: cycle) (some c))
    (hs' : IsSegment h' head (tail ++ c :: cycle.reverse) (some c))
    (nodup : (tail ++ c :: cycle).Nodup) (ha : a ∈ tail ++ c :: cycle) :
    (¬ Leads (fun a => (h a).next) a a → (h' a).next = (h a).next) ∧
      (Leads (fun a => (h a).next) a a →
        ∀ b, (h a).next = some b → (h' b).next = some a) := by
  obtain ⟨q, htail, hcycle⟩ := hs.split
  obtain ⟨q', htail', hcycle'⟩ := hs'.split
  cases hcycle.first
  cases hcycle'.first
  rcases List.mem_append.mp ha with hmem | hmem
  · have hoff : ¬ Leads (fun a => (h a).next) a a := by
      obtain ⟨front, back, rfl⟩ := List.append_of_mem hmem
      rw [List.append_assoc, List.cons_append] at hs nodup
      apply hs.not_leads_self nodup
      rintro d ⟨⟩
      simp
    exact ⟨fun _ => (htail'.links htail).2 a hmem, fun hlead => absurd hlead hoff⟩
  · have hon := hcycle.leads_self hmem
    exact ⟨fun hlead => absurd hon hlead, fun _ b hab => hcycle.reversed hcycle' hmem hab⟩

/-- On a finite heap with any links at all the loop comes to its end. Nodes that the head
does not lead to are as before, and no data has changed. If the head leads into a cycle,
it is returned, the nodes in front of the cycle have their old successors, and the links
of the cycle are turned round. -/
theorem reversals_end [Fintype Address] (h : Heap Address) (head : Option Address) :
    ∃ h' new, (∀ fuel, 2 * Fintype.card Address < fuel →
        reverseNodeList h fuel head = some (h', new) ∧
        reverseList h fuel head = some (h', new)) ∧
      (∀ a, (h' a).data = (h a).data) ∧
      (∀ a, ¬ Reached (fun a => (h a).next) head a → h' a = h a) ∧
      ((∃ a, Reached (fun a => (h a).next) head a ∧ Leads (fun a => (h a).next) a a) →
        new = head ∧
        ∀ a, Reached (fun a => (h a).next) head a →
          (¬ Leads (fun a => (h a).next) a a → (h' a).next = (h a).next) ∧
          (Leads (fun a => (h a).next) a a →
            ∀ b, (h a).next = some b → (h' b).next = some a)) := by
  rcases exists_shape (fun a => (h a).next) head with ⟨l, hl⟩ | ⟨tail, c, cycle, hs, nodup⟩
  · have hs := chain_iff_segment.mp hl
    have hcard := hl.nodup.length_le_card
    obtain ⟨h', new, hturn, _, hkept⟩ := turn_ok hl .nil (by simpa using hl.nodup)
    refine ⟨h', new, ?_, hkept.data, ?_, ?_⟩
    · intro fuel hfuel
      exact ⟨hturn fuel (by omega), hturn fuel (by omega)⟩
    · intro a ha
      exact hkept.frame a (fun hmem => ha (hs.reached hmem))
    · rintro ⟨a, hreached, hlead⟩
      have hmem := (hs.reached_iff (by simp) a).mp hreached
      obtain ⟨front, back, rfl⟩ := List.append_of_mem hmem
      exact absurd hlead (hs.not_leads_self hl.nodup (by simp))
  · have hcard := nodup.length_le_card
    have hclosed : ∀ d, some c = some d → d ∈ tail ++ c :: cycle := by
      rintro d ⟨⟩
      simp
    obtain ⟨h', hturn, hs', hkept⟩ := turn_cycle hs nodup
    refine ⟨h', head, ?_, hkept.data, ?_, ?_⟩
    · intro fuel hfuel
      exact ⟨hturn fuel (by omega), hturn fuel (by omega)⟩
    · intro a ha
      exact hkept.frame a (fun hmem => ha (hs.reached hmem))
    · intro _
      refine ⟨rfl, ?_⟩
      intro a ha
      exact links_turned hs hs' nodup ((hs.reached_iff hclosed a).mp ha)

end BasicDemo.LeetCode.ReverseCycle
