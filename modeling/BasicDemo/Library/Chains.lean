import BasicDemo.Library.Iterates
import Mathlib.Data.Fintype.Card
import Mathlib.Data.List.Nodup

namespace BasicDemo.Library.Chains
open Library.Iterates

variable {Address : Type*}

/-- The addresses met from a pointer on, up to the NULL pointer `none`. -/
inductive Chain (next : Address → Option Address) : Option Address → List Address → Prop
  | nil : Chain next none []
  | cons {a : Address} {rest : List Address} (tail : Chain next (next a) rest) :
      Chain next (some a) (a :: rest)

variable {next next' : Address → Option Address} {p q : Option Address} {l : List Address}

theorem Chain.unique {l' : List Address} (h : Chain next p l) (h' : Chain next p l') : l = l' := by
  induction h generalizing l' with
  | nil =>
    cases h'
    rfl
  | cons _ ih =>
    cases h' with
    | cons tail' => rw [ih tail']

/-- A node of a chain starts a chain of its own, the rest of the first one. -/
theorem Chain.split (h : Chain next p l) {a : Address} (ha : a ∈ l) :
    ∃ front back, l = front ++ a :: back ∧ Chain next (some a) (a :: back) := by
  induction h with
  | nil => cases ha
  | @cons b rest tail ih =>
    rcases List.mem_cons.mp ha with rfl | ha
    · exact ⟨[], rest, rfl, .cons tail⟩
    · obtain ⟨front, back, rfl, hchain⟩ := ih ha
      exact ⟨b :: front, back, rfl, hchain⟩

/-- A node of a chain starts a chain that is not longer. -/
theorem Chain.suffix (h : Chain next p l) {a : Address} (ha : a ∈ l) :
    ∃ l', Chain next (some a) l' ∧ l'.length ≤ l.length := by
  obtain ⟨front, back, rfl, hchain⟩ := h.split ha
  refine ⟨_, hchain, ?_⟩
  rw [List.length_append]
  omega

/-- A chain meets no address twice. -/
theorem Chain.nodup (h : Chain next p l) : l.Nodup := by
  induction h with
  | nil => exact List.nodup_nil
  | @cons a rest tail ih =>
    refine List.nodup_cons.mpr ⟨?_, ih⟩
    intro ha
    obtain ⟨l', hl', hlen⟩ := tail.suffix ha
    rw [← (Chain.cons tail).unique hl', List.length_cons] at hlen
    omega

/-- The addresses met between two pointers. -/
inductive Segment (next : Address → Option Address) :
    Option Address → List Address → Option Address → Prop
  | nil {p : Option Address} : Segment next p [] p
  | cons {a : Address} {rest : List Address} {q : Option Address}
      (tail : Segment next (next a) rest q) : Segment next (some a) (a :: rest) q

variable {seg seg' : List Address}

theorem chain_iff_segment : Chain next p l ↔ Segment next p l none := by
  constructor
  · intro h
    induction h with
    | nil => exact .nil
    | cons _ ih => exact .cons ih
  · intro h
    generalize hq : (none : Option Address) = q at h
    induction h with
    | nil =>
      subst hq
      exact .nil
    | cons _ ih => exact .cons (ih hq)

theorem Segment.append {r : Option Address} (h : Segment next p seg q)
    (h' : Segment next q seg' r) : Segment next p (seg ++ seg') r := by
  induction h with
  | nil => exact h'
  | cons _ ih => exact .cons (ih h')

theorem Segment.split {r : Option Address} (h : Segment next p (seg ++ seg') r) :
    ∃ q, Segment next p seg q ∧ Segment next q seg' r := by
  induction seg generalizing p with
  | nil => exact ⟨p, .nil, h⟩
  | cons a seg ih =>
    cases h with
    | cons tail =>
      obtain ⟨q, hfront, hback⟩ := ih tail
      exact ⟨q, .cons hfront, hback⟩

theorem Segment.first {a : Address} (h : Segment next p (a :: seg) q) : p = some a := by
  cases h
  rfl

theorem Segment.behind {a : Address} (h : Segment next p (a :: seg) q) :
    Segment next (next a) seg q := by
  cases h with
  | cons tail => exact tail

theorem Segment.ends_eq (h : Segment next p [] q) : p = q := by
  cases h
  rfl

/-- The first pointer is the first node met, or the end if there is none. -/
theorem Segment.head_eq (h : Segment next p seg q) : p = seg.head?.or q := by
  cases h <;> rfl

theorem Segment.end_unique {q' : Option Address} (h : Segment next p seg q)
    (h' : Segment next p seg q') : q = q' := by
  induction h with
  | nil => exact h'.ends_eq
  | cons _ ih => exact ih h'.behind

/-- Links of other nodes do not matter. -/
theorem Segment.congr (h : Segment next p seg q) (same : ∀ a ∈ seg, next' a = next a) :
    Segment next' p seg q := by
  induction h with
  | nil => exact .nil
  | @cons a rest q tail ih =>
    apply Segment.cons
    rw [same a List.mem_cons_self]
    exact ih (fun b hb => same b (List.mem_cons_of_mem _ hb))

theorem Chain.congr (h : Chain next p l) (same : ∀ a ∈ l, next' a = next a) :
    Chain next' p l :=
  chain_iff_segment.mpr ((chain_iff_segment.mp h).congr same)

/-- The nodes in their order and the pointer behind them determine the first pointer and
all links. -/
theorem Segment.links {p' : Option Address} (h : Segment next p seg q)
    (h' : Segment next' p' seg q) : p = p' ∧ ∀ a ∈ seg, next a = next' a := by
  induction h generalizing p' with
  | nil =>
    cases h'
    simp
  | @cons a rest q tail ih =>
    cases h' with
    | cons tail' =>
      obtain ⟨hfirst, hrest⟩ := ih tail'
      refine ⟨rfl, ?_⟩
      intro b hb
      rcases List.mem_cons.mp hb with rfl | hb
      · exact hfirst
      · exact hrest b hb

theorem Chain.links (h : Chain next p l) (h' : Chain next' q l) :
    p = q ∧ ∀ a ∈ l, next a = next' a :=
  (chain_iff_segment.mp h).links (chain_iff_segment.mp h')

/-- The same nodes met in the opposite order: every link is turned round. -/
theorem Segment.reversed {a b : Address} (h : Segment next (some a) (a :: seg) (some b))
    (h' : Segment next' (some b) (b :: seg.reverse) (some a)) {x y : Address}
    (hx : x ∈ a :: seg) (hxy : next x = some y) : next' y = some x := by
  induction seg generalizing a with
  | nil =>
    cases List.mem_singleton.mp hx
    cases h.behind.ends_eq.symm.trans hxy
    exact h'.behind.ends_eq
  | cons d seg ih =>
    have hd : next a = some d := h.behind.first
    rw [List.reverse_cons, ← List.cons_append] at h'
    obtain ⟨q, hfront, hback⟩ := h'.split
    cases hback.first
    rcases List.mem_cons.mp hx with rfl | hx
    · cases hd.symm.trans hxy
      exact hback.behind.ends_eq
    · exact ih (hd ▸ h.behind) hfront hx

theorem Chain.behind {a : Address} (h : Chain next p (a :: l)) : Chain next (next a) l := by
  cases h with
  | cons tail => exact tail

theorem Chain.exists_first (h : Chain next p l) (hl : l ≠ []) : ∃ a, p = some a := by
  cases h with
  | nil => exact absurd rfl hl
  | cons => exact ⟨_, rfl⟩

/-- A walk along a chain ends behind its last node. -/
theorem Chain.ended (h : Chain next p l) : (advance next)^[l.length] p = none := by
  induction h with
  | nil => rfl
  | cons _ ih => exact ih

/-- Nodes of a chain are reached as long as the links before them are kept. -/
theorem Chain.reaches {front back : List Address} {a b : Address}
    (h : Chain next (some a) (front ++ b :: back)) (same : ∀ c ∈ front, next' c = next c) :
    Reaches next' a b := by
  induction front generalizing a with
  | nil =>
    cases h
    exact .refl
  | cons c front ih =>
    cases h with
    | cons tail =>
      obtain ⟨d, hd⟩ := tail.exists_first (by simp)
      rw [hd] at tail
      have hrest := ih tail (fun e he => same e (List.mem_cons_of_mem _ he))
      have hstep : next' c = some d := by rw [same c List.mem_cons_self, hd]
      exact hrest.head hstep

/-- The second address is met from the first by one link or more. -/
def Leads (next : Address → Option Address) : Address → Address → Prop :=
  Relation.TransGen (fun a b => next a = some b)

theorem Leads.of_next {a b : Address} (h : next a = some b) : Leads next a b :=
  Relation.TransGen.single h

theorem Leads.trans {a b c : Address} (h : Leads next a b) (h' : Leads next b c) :
    Leads next a c :=
  Relation.TransGen.trans h h'

/-- Links that all go down in some order lead down. -/
theorem Leads.lt [Preorder Address] {a b : Address} (h : Leads next a b)
    (down : ∀ a b, next a = some b → b < a) : b < a := by
  induction h with
  | single h => exact down _ _ h
  | tail _ h ih => exact (down _ _ h).trans ih

/-- The chain behind an address holds what the address leads to. -/
theorem Chain.mem_iff {a : Address} (h : Chain next (next a) l) (b : Address) :
    b ∈ l ↔ Leads next a b := by
  constructor
  · intro hb
    generalize hp : next a = p at h
    induction h generalizing a with
    | nil => cases hb
    | @cons c rest tail ih =>
      rcases List.mem_cons.mp hb with rfl | hb
      · exact .of_next hp
      · exact (Leads.of_next hp).trans (ih hb rfl)
  · intro hlead
    induction hlead using Relation.TransGen.head_induction_on generalizing l with
    | single hab =>
      rw [hab] at h
      cases h
      exact List.mem_cons_self
    | head hac _ ih =>
      rw [hac] at h
      cases h with
      | cons tail => exact List.mem_cons_of_mem _ (ih tail)

/-- What comes earlier in a chain leads to what comes later. -/
theorem Chain.pairwise (h : Chain next p l) : l.Pairwise (Leads next) := by
  induction h with
  | nil => exact List.Pairwise.nil
  | cons tail ih => exact List.pairwise_cons.mpr ⟨fun b hb => (tail.mem_iff b).mp hb, ih⟩

/-- The pointer is to the address or to one that leads to it. -/
def Reached (next : Address → Option Address) (p : Option Address) (a : Address) : Prop :=
  ∃ b, p = some b ∧ Reaches next b a

theorem Segment.reached (h : Segment next p seg q) {a : Address} (ha : a ∈ seg) :
    Reached next p a := by
  induction h with
  | nil => cases ha
  | @cons b rest q tail ih =>
    refine ⟨b, rfl, ?_⟩
    rcases List.mem_cons.mp ha with rfl | ha
    · exact .refl
    · obtain ⟨c, hc, hca⟩ := ih ha
      exact hca.head hc

theorem Segment.first_mem {a : Address} (h : Segment next (some a) seg q) :
    a ∈ seg ∨ q = some a := by
  cases h with
  | nil => exact Or.inr rfl
  | cons => exact Or.inl List.mem_cons_self

theorem Segment.next_mem (h : Segment next p seg q) {a b : Address} (ha : a ∈ seg)
    (hab : next a = some b) : b ∈ seg ∨ q = some b := by
  induction h with
  | nil => cases ha
  | @cons c rest q tail ih =>
    rcases List.mem_cons.mp ha with rfl | ha
    · rw [hab] at tail
      exact tail.first_mem.imp_left (List.mem_cons_of_mem _)
    · exact (ih ha).imp_left (List.mem_cons_of_mem _)

/-- A segment that ends in NULL or runs into itself holds all that is reached. -/
theorem Segment.reached_iff (h : Segment next p seg q) (closed : ∀ c, q = some c → c ∈ seg)
    (a : Address) : Reached next p a ↔ a ∈ seg := by
  refine ⟨?_, h.reached⟩
  rintro ⟨b, rfl, hba⟩
  induction hba with
  | refl => exact h.first_mem.elim id (closed b)
  | tail _ hstep ih => exact (h.next_mem ih hstep).elim id (closed _)

theorem Segment.leads {a b : Address} (h : Segment next (next a) seg (some b)) :
    Leads next a b := by
  induction seg generalizing a with
  | nil => exact .of_next h.ends_eq
  | cons c seg ih => exact (Leads.of_next h.first).trans (ih h.behind)

/-- The nodes of a segment that comes back to its first node are on a cycle. -/
theorem Segment.leads_self {a b : Address} (h : Segment next (some a) seg (some a))
    (hb : b ∈ seg) : Leads next b b := by
  obtain ⟨front, back, rfl⟩ := List.append_of_mem hb
  obtain ⟨q, hfront, hback⟩ := h.split
  obtain ⟨c, hc, hcb⟩ := h.reached hb
  cases hc
  exact Relation.TransGen.trans_left hback.behind.leads hcb

/-- A node that the rest of its segment does not come back to is on no cycle. -/
theorem Segment.not_leads_self {front back : List Address} {a : Address}
    (h : Segment next p (front ++ a :: back) q) (nodup : (front ++ a :: back).Nodup)
    (closed : ∀ c, q = some c → c ∈ back) : ¬ Leads next a a := by
  intro hlead
  obtain ⟨b, hab, hba⟩ := Relation.TransGen.head'_iff.mp hlead
  obtain ⟨r, _, hback⟩ := h.split
  have hmem : a ∈ back := (hback.behind.reached_iff closed a).mp ⟨b, hab, hba⟩
  exact (List.nodup_cons.mp (List.nodup_append.mp nodup).2.1).1 hmem

/-- From a pointer on, finitely many addresses end in NULL or run into a cycle. -/
theorem exists_shape [Fintype Address] (next : Address → Option Address) (p : Option Address) :
    (∃ l, Chain next p l) ∨
      ∃ tail c cycle, Segment next p (tail ++ c :: cycle) (some c) ∧
        (tail ++ c :: cycle).Nodup := by
  have extend : ∀ (n : Nat) (seg : List Address) (q : Option Address),
      Fintype.card Address - seg.length = n → Segment next p seg q → seg.Nodup →
      (∃ l, Chain next p l) ∨
        ∃ tail c cycle, Segment next p (tail ++ c :: cycle) (some c) ∧
          (tail ++ c :: cycle).Nodup := by
    intro n
    induction n using Nat.strong_induction_on with
    | _ n ih =>
      intro seg q hn hseg nodup
      cases q with
      | none => exact Or.inl ⟨seg, chain_iff_segment.mpr hseg⟩
      | some c =>
        by_cases hc : c ∈ seg
        · obtain ⟨tail, cycle, rfl⟩ := List.append_of_mem hc
          exact Or.inr ⟨tail, c, cycle, hseg, nodup⟩
        · have nodup' : (seg ++ [c]).Nodup := by
            rw [← List.concat_eq_append]
            exact nodup.concat hc
          have hcard := nodup'.length_le_card
          rw [List.length_append, List.length_singleton] at hcard
          refine ih (Fintype.card Address - (seg ++ [c]).length) ?_ (seg ++ [c]) (next c) rfl
            (hseg.append (.cons .nil)) nodup'
          rw [List.length_append, List.length_singleton]
          omega
  exact extend _ [] p rfl .nil List.nodup_nil

/-- Links between finitely many addresses, without a cycle, come to an end. -/
theorem exists_chain [Finite Address] (acyclic : ∀ a, ¬ Leads next a a) (p : Option Address) :
    ∃ l, Chain next p l := by
  have hsome : ∀ a, ∃ l, Chain next (some a) l := by
    intro a
    have htrans : IsTrans Address (Function.swap (Leads next)) :=
      ⟨fun _ _ _ h h' => Leads.trans h' h⟩
    have hirrefl : Std.Irrefl (Function.swap (Leads next)) := ⟨acyclic⟩
    have hwf := Finite.wellFounded_of_trans_of_irrefl (Function.swap (Leads next))
    induction a using hwf.induction with
    | _ a ih =>
      cases hnext : next a with
      | none => exact ⟨[a], .cons (hnext ▸ .nil)⟩
      | some b =>
        obtain ⟨l, hl⟩ := ih b (.of_next hnext)
        exact ⟨a :: l, .cons (hnext ▸ hl)⟩
  cases p with
  | none => exact ⟨[], .nil⟩
  | some a => exact hsome a

end BasicDemo.Library.Chains
