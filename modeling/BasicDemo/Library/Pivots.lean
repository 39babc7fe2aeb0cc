import BasicDemo.Library.Arrays
import Mathlib.Data.Finset.Card
import Mathlib.Data.List.Sort

namespace BasicDemo.Library.Pivots
open Library.Arrays

variable {α : Type*} [LinearOrder α]

/-- The cells are taken apart around a pivot: nothing in front of it is larger and nothing
behind it is smaller. -/
structure Parted (cells low : List α) (pivot : α) (high : List α) : Prop where
  perm : (low ++ pivot :: high).Perm cells
  below : ∀ x ∈ low, x ≤ pivot
  above : ∀ x ∈ high, pivot ≤ x

variable {cells low high : List α} {pivot : α}

/-- Both sides put in order, each for itself. -/
theorem Parted.sorted (h : Parted cells low pivot high) {low' high' : List α}
    (hlow : low'.Perm low) (hhigh : high'.Perm high) (slow : low'.Pairwise (· ≤ ·))
    (shigh : high'.Pairwise (· ≤ ·)) :
    (low' ++ pivot :: high').Perm cells ∧ (low' ++ pivot :: high').Pairwise (· ≤ ·) := by
  refine ⟨(hlow.append (hhigh.cons pivot)).trans h.perm, ?_⟩
  refine List.pairwise_append.mpr ⟨slow, List.pairwise_cons.mpr ⟨?_, shigh⟩, ?_⟩
  · intro x hx
    exact h.above x (hhigh.mem_iff.mp hx)
  · intro x hx y hy
    have hx := h.below x (hlow.mem_iff.mp hx)
    rcases List.mem_cons.mp hy with rfl | hy
    · exact hx
    · exact hx.trans (h.above y (hhigh.mem_iff.mp hy))

/-- A pivot behind the cells that are not smaller changes places with the first of them. -/
theorem Parted.of_last {t : α} {ts : List α} (hperm : (low ++ (t :: ts ++ [pivot])).Perm cells)
    (below : ∀ x ∈ low, x ≤ pivot) (above : ∀ x ∈ t :: ts, pivot ≤ x) :
    Parted cells low pivot (ts ++ [t]) := by
  obtain ⟨ht, hts⟩ := List.forall_mem_cons.mp above
  refine ⟨?_, below, List.forall_mem_append.mpr ⟨hts, by simpa using ht⟩⟩
  refine List.Perm.trans ?_ hperm
  simpa using exchange_perm low ts [] t pivot

/-- The cells in front of the pivot are taken apart in turn. -/
theorem Parted.front (h : Parted cells low pivot high) {low' high' : List α} {pivot' : α}
    (h' : Parted low low' pivot' high') : Parted cells low' pivot' (high' ++ pivot :: high) := by
  have hmem : pivot' ∈ low := h'.perm.mem_iff.mp (by simp)
  have hle := h.below pivot' hmem
  refine ⟨?_, h'.below, List.forall_mem_append.mpr ⟨h'.above, List.forall_mem_cons.mpr ⟨hle, ?_⟩⟩⟩
  · refine List.Perm.trans ?_ h.perm
    simpa using h'.perm.append_right (pivot :: high)
  · intro x hx
    exact hle.trans (h.above x hx)

/-- So are the cells behind it. -/
theorem Parted.back (h : Parted cells low pivot high) {low' high' : List α} {pivot' : α}
    (h' : Parted high low' pivot' high') : Parted cells (low ++ pivot :: low') pivot' high' := by
  have hmem : pivot' ∈ high := h'.perm.mem_iff.mp (by simp)
  have hle := h.above pivot' hmem
  refine ⟨?_, List.forall_mem_append.mpr ⟨?_, List.forall_mem_cons.mpr ⟨hle, h'.below⟩⟩, h'.above⟩
  · refine List.Perm.trans ?_ h.perm
    simpa using (h'.perm.cons pivot).append_left low
  · intro x hx
    exact (h.below x hx).trans hle

/-- The place of the pivot is its place in the sorted list. -/
theorem Parted.rank (h : Parted cells low pivot high) :
    (cells.mergeSort (fun x y => decide (x ≤ y)))[low.length]? = some pivot := by
  have hsort : ∀ xs : List α, (xs.mergeSort (fun x y => decide (x ≤ y))).Pairwise (· ≤ ·) :=
    fun xs => List.pairwise_mergeSort' (· ≤ ·) xs
  obtain ⟨hperm, hsorted⟩ := h.sorted (List.mergeSort_perm low _) (List.mergeSort_perm high _)
    (hsort low) (hsort high)
  have hunique := (hperm.trans (List.mergeSort_perm cells _).symm).eq_of_pairwise' hsorted
    (hsort cells)
  rw [← hunique, List.getElem?_append_right (by simp)]
  simp

/-- No cell up to place `k` holds more than a cell from `k` on. -/
def Settled (cells : List α) (k : Nat) : Prop :=
  ∀ x ∈ cells.take (k + 1), ∀ y ∈ cells.drop k, x ≤ y

instance (cells : List α) (k : Nat) : Decidable (Settled cells k) :=
  inferInstanceAs (Decidable (∀ x ∈ cells.take (k + 1), ∀ y ∈ cells.drop k, x ≤ y))

theorem Parted.settled (h : Parted cells low pivot high) :
    Settled (low ++ pivot :: high) low.length := by
  have htake : (low ++ pivot :: high).take (low.length + 1) = low ++ [pivot] := by
    rw [List.append_cons]
    exact List.take_left' (by simp)
  have hdrop : (low ++ pivot :: high).drop low.length = pivot :: high := by simp
  unfold Settled
  rw [htake, hdrop]
  intro x hx y hy
  have hx : x ≤ pivot := by
    rcases List.mem_append.mp hx with hx | hx
    · exact h.below x hx
    · exact (List.mem_singleton.mp hx).le
  rcases List.mem_cons.mp hy with rfl | hy
  · exact hx
  · exact hx.trans (h.above y hy)

/-- A place stays settled while the cells on one side of it are rearranged. -/
theorem Settled.rearrange {front front' back back' : List α} {k : Nat}
    (h : Settled (front ++ back) k) (hfront : front'.Perm front) (hback : back'.Perm back)
    (side : k < front.length ∧ front' = front ∨ front.length ≤ k ∧ back' = back) :
    Settled (front' ++ back') k := by
  have hlen := hfront.length_eq
  have htake : ((front' ++ back').take (k + 1)).Perm ((front ++ back).take (k + 1)) := by
    rw [List.take_append, List.take_append, hlen]
    rcases side with ⟨hk, rfl⟩ | ⟨hk, rfl⟩
    · rw [Nat.sub_eq_zero_of_le hk, List.take_zero, List.take_zero]
    · have hall : ∀ l : List α, l.length = front.length → l.take (k + 1) = l :=
        fun l hl => List.take_of_length_le (by omega)
      rw [hall front' hlen, hall front rfl]
      exact hfront.append_right _
  have hdrop : ((front' ++ back').drop k).Perm ((front ++ back).drop k) := by
    rw [List.drop_append, List.drop_append, hlen]
    rcases side with ⟨hk, rfl⟩ | ⟨hk, rfl⟩
    · rw [Nat.sub_eq_zero_of_le (by omega), List.drop_zero, List.drop_zero]
      exact hback.append_left _
    · have hnone : ∀ l : List α, l.length = front.length → l.drop k = [] :=
        fun l hl => List.drop_of_length_le (by omega)
      rw [hnone front' hlen, hnone front rfl]
  intro x hx y hy
  exact h x (htake.mem_iff.mp hx) y (hdrop.mem_iff.mp hy)

/-- Two cells around a settled place are in order. -/
theorem Settled.le {as bs cs : List α} {x y : α} {k : Nat}
    (h : Settled (as ++ x :: bs ++ y :: cs) k) (hx : as.length ≤ k)
    (hy : k ≤ (as ++ x :: bs).length) : x ≤ y := by
  apply h
  · apply List.mem_of_getElem? (i := as.length)
    rw [List.getElem?_take_of_lt (by omega)]
    simp
  · apply List.mem_of_getElem? (i := (as ++ x :: bs).length - k)
    rw [List.getElem?_drop, Nat.add_sub_cancel' hy]
    simp

/-- Nor does it matter when two cells are exchanged that were not in order. -/
theorem Settled.exchange {as bs cs : List α} {x y : α} {k : Nat} (hyx : y ≤ x)
    (h : Settled (as ++ x :: bs ++ y :: cs) k) : Settled (as ++ y :: bs ++ x :: cs) k := by
  have hperm := exchange_perm as bs cs x y
  rcases Nat.lt_or_ge k as.length with hk | hk
  · rw [List.append_assoc] at h hperm ⊢
    rw [List.append_assoc] at hperm
    exact h.rearrange (List.Perm.refl _) ((List.perm_append_left_iff as).mp hperm)
      (Or.inl ⟨hk, rfl⟩)
  · rcases Nat.lt_or_ge (as ++ x :: bs).length k with hk' | hk'
    · rw [List.append_cons] at h hperm ⊢
      rw [List.append_cons (as ++ x :: bs)] at hperm
      exact h.rearrange ((List.perm_append_right_iff cs).mp hperm) (List.Perm.refl _)
        (Or.inr ⟨by rw [List.length_append, List.length_singleton]; omega, rfl⟩)
    · obtain rfl := (h.le hk hk').antisymm hyx
      exact h

/-- What comes from `cells` by exchanges of two cells that were not in order. -/
inductive Untangled (cells : List α) : List α → Prop
  | refl : Untangled cells cells
  | exchange {as bs cs : List α} {x y : α} (h : Untangled cells (as ++ x :: bs ++ y :: cs))
      (hyx : y ≤ x) : Untangled cells (as ++ y :: bs ++ x :: cs)

theorem Untangled.perm {cells' : List α} (h : Untangled cells cells') : cells'.Perm cells := by
  induction h with
  | refl => exact List.Perm.refl _
  | exchange _ _ ih => exact (exchange_perm _ _ _ _ _).trans ih

theorem Untangled.settled {cells' : List α} (h : Untangled cells cells') {k : Nat}
    (hk : Settled cells k) : Settled cells' k := by
  induction h with
  | refl => exact hk
  | exchange _ hyx ih => exact ih.exchange hyx

/-- The places that are not settled. -/
def unsettled (cells : List α) : Finset Nat :=
  (Finset.range cells.length).filter (fun k => ¬ Settled cells k)

theorem Untangled.unsettled_subset {cells' : List α} (h : Untangled cells cells') :
    unsettled cells' ⊆ unsettled cells := by
  intro k hk
  obtain ⟨hrange, hnot⟩ := Finset.mem_filter.mp hk
  rw [h.perm.length_eq] at hrange
  exact Finset.mem_filter.mpr ⟨hrange, fun hset => hnot (h.settled hset)⟩

/-- A place that was not settled and now is. -/
theorem Untangled.unsettled_lt {cells' : List α} (h : Untangled cells cells') {k : Nat}
    (hk : k < cells.length) (before : ¬ Settled cells k) (after : Settled cells' k) :
    (unsettled cells').card < (unsettled cells).card := by
  apply Finset.card_lt_card
  refine Finset.ssubset_iff_subset_ne.mpr ⟨h.unsettled_subset, ?_⟩
  intro he
  have hmem : k ∈ unsettled cells := Finset.mem_filter.mpr ⟨Finset.mem_range.mpr hk, before⟩
  rw [← he] at hmem
  exact (Finset.mem_filter.mp hmem).2 after

end BasicDemo.Library.Pivots
