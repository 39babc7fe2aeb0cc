import BasicDemo.Library.Arrays
import Mathlib.Algebra.BigOperators.Intervals
import Mathlib.Algebra.Order.BigOperators.Group.Finset
import Mathlib.Algebra.Ring.Int.Defs
import Mathlib.Order.Bounds.Basic

namespace BasicDemo.LeetCode.MaxProfitTwo
open Library.Loops Library.Arrays

/-- One day of the loop; `fit` says what `int` arithmetic makes of an exact result. -/
def day (fit : Int → Except Fault Int) (prices : List Int) (i : Nat) (maxP : Int) :
    Except Fault Int := do
  let today ← read prices i
  let yesterday ← read prices (i - 1)
  if today > yesterday then
    let rise ← fit (today - yesterday)
    fit (maxP + rise)
  else return maxP

def maxProfit (fit : Int → Except Fault Int) (prices : List Int) (pricesSize : Int) :
    Except Fault Int :=
  forLoop 1 pricesSize 0 (day fit prices)

/-- Arithmetic without bounds. -/
def unbounded : Int → Except Fault Int := .ok

/-- Arithmetic of the 32-bit `int`, undefined where the result does not fit. -/
def checked (z : Int) : Except Fault Int :=
  if Representable z then .ok z else .error .overflow

section Plans

variable (price : Nat → Int)

/-- Purchases and sales from day `d` on, before day `n`: `d ≤ b1 < s1 ≤ b2 < s2 ≤ ...`. -/
def Admissible (n : Nat) : Nat → List (Nat × Nat) → Prop
  | _, [] => True
  | d, (b, s) :: rest => d ≤ b ∧ b < s ∧ s < n ∧ Admissible n s rest

def earnings (plan : List (Nat × Nat)) : Int := (plan.map (fun t => price t.2 - price t.1)).sum

/-- What the price gains from day `i` to the next, if it does. -/
def rise (i : Nat) : Int := max 0 (price (i + 1) - price i)

def rises (d e : Nat) : Int := ∑ i ∈ Finset.Ico d e, rise price i

theorem rises_nonneg (d e : Nat) : 0 ≤ rises price d e :=
  Finset.sum_nonneg (fun _ _ => le_max_left _ _)

theorem rises_append {d e f : Nat} (hde : d ≤ e) (hef : e ≤ f) :
    rises price d f = rises price d e + rises price e f :=
  (Finset.sum_Ico_consecutive _ hde hef).symm

theorem rises_succ (m : Nat) : rises price 0 (m + 1) = rises price 0 m + rise price m :=
  Finset.sum_Ico_succ_top (Nat.zero_le m) _

/-- One trade earns no more than all rises on its days. -/
theorem trade_le_rises {b s : Nat} (h : b ≤ s) : price s - price b ≤ rises price b s := by
  induction s, h using Nat.le_induction with
  | base => simp [rises]
  | succ s h ih =>
    have hrise : price (s + 1) - price s ≤ rise price s := le_max_right _ _
    rw [rises, Finset.sum_Ico_succ_top h]
    unfold rises at ih
    omega

/-- Nor does a plan. -/
theorem earnings_le {n d : Nat} {plan : List (Nat × Nat)} (h : Admissible n d plan) :
    earnings price plan ≤ rises price d (n - 1) := by
  induction plan generalizing d with
  | nil => exact rises_nonneg price d (n - 1)
  | cons t plan ih =>
    obtain ⟨hd, hlt, hs, hrest⟩ := h
    have htrade := trade_le_rises price (Nat.le_of_lt hlt)
    have hplan := ih hrest
    have hbefore := rises_nonneg price d t.1
    rw [rises_append price hd (show t.1 ≤ n - 1 by omega),
      rises_append price (Nat.le_of_lt hlt) (show t.2 ≤ n - 1 by omega)]
    simp only [earnings, List.map_cons, List.sum_cons] at hplan ⊢
    omega

/-- Buy before every rise and sell after it, over the next `k` days. -/
def greedy : Nat → Nat → List (Nat × Nat)
  | _, 0 => []
  | d, k + 1 => if price d < price (d + 1) then (d, d + 1) :: greedy (d + 1) k else greedy (d + 1) k

theorem Admissible.earlier {n d e : Nat} {plan : List (Nat × Nat)} (h : Admissible n e plan)
    (hde : d ≤ e) : Admissible n d plan := by
  cases plan with
  | nil => trivial
  | cons t plan => exact ⟨hde.trans h.1, h.2⟩

theorem greedy_admissible (d k : Nat) : Admissible (d + k + 1) d (greedy price d k) := by
  induction k generalizing d with
  | zero => trivial
  | succ k ih =>
    have hnext := ih (d + 1)
    rw [show d + 1 + k + 1 = d + (k + 1) + 1 by omega] at hnext
    rw [greedy]
    split
    · exact ⟨Nat.le_refl d, by omega, by omega, hnext⟩
    · exact hnext.earlier (by omega)

theorem greedy_earnings (d k : Nat) :
    earnings price (greedy price d k) = rises price d (d + k) := by
  induction k generalizing d with
  | zero => simp [greedy, earnings, rises]
  | succ k ih =>
    have hnext := ih (d + 1)
    rw [rises_append price (show d ≤ d + 1 by omega) (show d + 1 ≤ d + (k + 1) by omega),
      show d + (k + 1) = d + 1 + k by omega, ← hnext]
    have hrise : rises price d (d + 1) = rise price d := by simp [rises]
    rw [hrise, greedy]
    unfold rise
    split
    · rw [max_eq_right (by omega)]
      simp [earnings]
    · rw [max_eq_left (by omega), zero_add]

/-- What can be earned in the first `n` days. -/
def profits (n : Nat) : Set Int :=
  {d | ∃ plan, Admissible n 0 plan ∧ earnings price plan = d}

theorem rises_greatest (n : Nat) : IsGreatest (profits price n) (rises price 0 (n - 1)) := by
  constructor
  · cases n with
    | zero => exact ⟨[], trivial, by simp [earnings, rises]⟩
    | succ n =>
      refine ⟨greedy price 0 n, ?_, ?_⟩
      · simpa using greedy_admissible price 0 n
      · simpa using greedy_earnings price 0 n
  · intro d ⟨plan, hplan, hd⟩
    rw [← hd]
    exact earnings_le price hplan

/-- Rises are only added up, so their sum stays within a bound as long as the last one that
is not zero keeps it there. -/
theorem rises_le_iff {m : Nat} {bound : Int} (hbound : 0 ≤ bound) :
    (∀ k < m, 0 < rise price k → rises price 0 (k + 1) ≤ bound) ↔ rises price 0 m ≤ bound := by
  induction m with
  | zero => simp [rises, hbound]
  | succ m ih =>
    have hsum := rises_succ price m
    have hrise : 0 ≤ rise price m := le_max_left _ _
    constructor
    · intro h
      have hbefore := ih.mp (fun k hk => h k (by omega))
      rcases hrise.eq_or_lt with hzero | hpos
      · omega
      · exact h m (by omega) hpos
    · intro h k hk hpos
      rcases Nat.lt_succ_iff_lt_or_eq.mp hk with hk | rfl
      · exact ih.mpr (by omega) k hk hpos
      · exact h

end Plans

/-- The price of day `i`. -/
def priceOn (prices : List Int) (i : Nat) : Int := prices.getD i 0

theorem priceOn_eq {prices : List Int} {i : Nat} (hi : i < prices.length) :
    priceOn prices i = prices[i] := by
  rw [priceOn, List.getD_eq_getElem?_getD, List.getElem?_eq_getElem hi]
  rfl

theorem read_price {prices : List Int} {i : Nat} {j : Int} (hj : j = i) (hi : i < prices.length) :
    read prices j = .ok (priceOn prices i) := by
  rw [read_at hj hi, priceOn_eq hi]

/-- A day by the prices that it reads. -/
theorem day_eq (fit : Int → Except Fault Int) {prices : List Int} {i : Nat}
    (hi : i + 1 < prices.length) (maxP : Int) :
    day fit prices (i + 1) maxP =
      if priceOn prices (i + 1) > priceOn prices i then do
        let rise ← fit (priceOn prices (i + 1) - priceOn prices i)
        fit (maxP + rise)
      else return maxP := by
  have htoday : read prices (i + 1 : Nat) = .ok (priceOn prices (i + 1)) := read_price rfl hi
  have hyesterday : read prices ((i + 1 : Nat) - 1) = .ok (priceOn prices i) :=
    read_price (by omega) (by omega)
  rw [day, htoday, ok_bind, hyesterday, ok_bind]

/-- A day adds the rise that it ends. -/
theorem day_ok {prices : List Int} {i : Nat} (hi : i + 1 < prices.length) (maxP : Int) :
    day unbounded prices (i + 1) maxP = .ok (maxP + rise (priceOn prices) i) := by
  rw [day_eq unbounded hi, rise]
  split
  · rw [max_eq_right (by omega)]
    rfl
  · rw [max_eq_left (by omega), add_zero]
    rfl

/-- The sum of all rises is the best that a plan can earn, and a plan earns it. -/
theorem maxProfit_greatest (prices : List Int) :
    ∃ m, maxProfit unbounded prices prices.length = .ok m ∧
      IsGreatest (profits (priceOn prices) prices.length) m := by
  have hloop : ∃ m, maxProfit unbounded prices prices.length = .ok m ∧
      m = rises (priceOn prices) 0 (max 1 prices.length - 1) := by
    refine forLoop_ok (by omega) (fun i m => m = rises (priceOn prices) 0 (i - 1)) ?_ ?_
    · simp [rises]
    · intro i m hi hlt hm
      obtain ⟨i, rfl⟩ : ∃ j, i = j + 1 := ⟨i - 1, by omega⟩
      refine ⟨_, day_ok (by omega) m, ?_⟩
      rw [hm, Nat.add_sub_cancel, Nat.add_sub_cancel, rises_succ]
  obtain ⟨m, hm, hsum⟩ := hloop
  refine ⟨m, hm, ?_⟩
  rw [hsum, show max 1 prices.length - 1 = prices.length - 1 by omega]
  exact rises_greatest (priceOn prices) prices.length

theorem checked_eq_ok {z y : Int} : checked z = .ok y ↔ Representable z ∧ y = z := by
  unfold checked
  split <;> rename_i h <;> simp [h, eq_comm]

/-- A day whose rise is added needs room for it; a single rise always fits. -/
theorem day_eq_ok {prices : List Int} (hprices : ∀ x ∈ prices, 0 ≤ x ∧ Representable x) {i : Nat}
    (hi : i + 1 < prices.length) {maxP : Int} (hmax : 0 ≤ maxP) (t : Int) :
    day checked prices (i + 1) maxP = .ok t ↔
      (0 < rise (priceOn prices) i → maxP + rise (priceOn prices) i ≤ 2147483647) ∧
        t = maxP + rise (priceOn prices) i := by
  have hprice : ∀ k < prices.length, 0 ≤ priceOn prices k ∧ Representable (priceOn prices k) := by
    intro k hk
    rw [priceOn_eq hk]
    exact hprices _ (List.getElem_mem hk)
  have hnow := hprice (i + 1) hi
  have hbefore := hprice i (by omega)
  rw [day_eq checked hi]
  unfold Representable at hnow hbefore
  split
  · rename_i hgain
    have hrise : rise (priceOn prices) i = priceOn prices (i + 1) - priceOn prices i :=
      max_eq_right (by omega)
    have hfits : Representable (priceOn prices (i + 1) - priceOn prices i) := by
      unfold Representable
      omega
    -- The difference of two prices fits, so only the sum can fail.
    rw [checked, if_pos hfits, ok_bind, ← hrise, checked_eq_ok, Representable]
    refine and_congr_left' ⟨fun h _ => h.2, fun h => ⟨by omega, h (by omega)⟩⟩
  · have hrise : rise (priceOn prices) i = 0 := max_eq_left (by omega)
    simp [hrise, eq_comm]

/-- No value on the way overflows exactly if the result does not. -/
theorem maxProfit_fits_iff (prices : List Int) (hprices : ∀ x ∈ prices, 0 ≤ x ∧ Representable x) :
    (∃ m, maxProfit checked prices prices.length = .ok m) ↔
      rises (priceOn prices) 0 (prices.length - 1) ≤ 2147483647 := by
  have hloop : ∀ m, maxProfit checked prices prices.length = .ok m ↔
      (∀ i, 1 ≤ i → i < max 1 prices.length →
        0 < rise (priceOn prices) (i - 1) → rises (priceOn prices) 0 i ≤ 2147483647) ∧
        m = rises (priceOn prices) 0 (max 1 prices.length - 1) := by
    intro m
    refine forLoop_iff (by omega) (fun i => rises (priceOn prices) 0 (i - 1)) _ ?_ m
    intro i hi hlt t
    obtain ⟨i, rfl⟩ : ∃ j, i = j + 1 := ⟨i - 1, by omega⟩
    rw [Nat.add_sub_cancel, Nat.add_sub_cancel, rises_succ]
    exact day_eq_ok hprices (by omega) (rises_nonneg _ 0 i) t
  rw [← rises_le_iff (priceOn prices) (show (0 : Int) ≤ 2147483647 by decide)]
  simp only [hloop, exists_and_left, exists_eq, and_true]
  constructor
  · intro h k hk hpos
    exact h (k + 1) (by omega) (by omega) (by simpa using hpos)
  · intro h i hi hlt hpos
    obtain ⟨i, rfl⟩ : ∃ j, i = j + 1 := ⟨i - 1, by omega⟩
    exact h i (by omega) (by simpa using hpos)

theorem maxProfit_fits_week : ∃ m, maxProfit checked [7, 1, 5, 3, 6, 4] 6 = .ok m :=
  (maxProfit_fits_iff [7, 1, 5, 3, 6, 4] (by decide)).mpr (by decide)

/-- The second rise does not fit any more. -/
theorem maxProfit_overflows :
    (∀ x ∈ [0, 2147483647, 0, 1], 0 ≤ x ∧ Representable x) ∧
    maxProfit checked [0, 2147483647, 0, 1] 4 = .error .overflow :=
  ⟨by decide, rfl⟩

end BasicDemo.LeetCode.MaxProfitTwo
