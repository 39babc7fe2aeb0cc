import BasicDemo.Library.Arrays
import Mathlib.Order.Bounds.Basic
import Mathlib.Order.MinMax

namespace BasicDemo.LeetCode.MaxProfit
open Library.Loops Library.Arrays

/-- One comparison of the double loop. -/
def trade (prices : List Int) (i j : Nat) (maxP : Int) : Except Fault Int := do
  let sell ← read prices j
  let buy ← read prices i
  let profit ← sub sell buy
  if profit > maxP then return profit else return maxP

def maxProfitOne (prices : List Int) (pricesSize : Int) : Except Fault Int :=
  forLoop 0 pricesSize 0 (fun i maxP => forLoop (i + 1) pricesSize maxP (trade prices i))

/-- One day of the single pass, on `maxP` and `lowPrice`. -/
def day (prices : List Int) (i : Nat) (s : Int × Int) : Except Fault (Int × Int) := do
  let price ← read prices i
  if price < s.2 then return (s.1, price)
  else
    let profit ← sub price s.2
    if profit > s.1 then return (profit, s.2) else return s

def maxProfitCycle (prices : List Int) (pricesSize : Int) : Except Fault Int :=
  if pricesSize = 0 then .ok 0
  else do
    let lowPrice ← read prices 0
    let s ← forLoop 1 pricesSize (0, lowPrice) (day prices)
    return s.1

/-- What can be earned by one purchase and a later sale on days that `P` allows. -/
def gains (prices : List Int) (P : Nat → Nat → Prop) : Set Int :=
  {d | ∃ i j x y, i < j ∧ P i j ∧ prices[i]? = some x ∧ prices[j]? = some y ∧ d = y - x}

/-- The best that can be done on those days, not trading included. -/
def Best (prices : List Int) (P : Nat → Nat → Prop) (m : Int) : Prop :=
  IsGreatest (insert 0 (gains prices P)) m

/-- Every difference that a trade asks for is a value of `int`. -/
def DifferencesFit (prices : List Int) : Prop :=
  ∀ d ∈ gains prices (fun _ _ => True), Representable d

theorem Best.nonneg {prices : List Int} {P : Nat → Nat → Prop} {m : Int}
    (h : Best prices P m) : 0 ≤ m :=
  h.2 (Set.mem_insert _ _)

theorem best_none {prices : List Int} {P : Nat → Nat → Prop}
    (h : ∀ i j, i < j → P i j → prices[j]? = none) : Best prices P 0 := by
  refine ⟨Set.mem_insert _ _, ?_⟩
  intro d hd
  rcases hd with rfl | ⟨i, j, x, y, hij, hP, _, hy, _⟩
  · exact Int.le_refl 0
  · rw [h i j hij hP] at hy
    cases hy

/-- More days are allowed, and `m` has grown to what they offer. -/
theorem Best.extend {prices : List Int} {P Q : Nat → Nat → Prop} {m m' : Int}
    (h : Best prices P m) (more : ∀ i j, P i j → Q i j) (grown : m ≤ m')
    (reached : m' = m ∨ m' ∈ gains prices Q)
    (bound : ∀ i j x y, i < j → Q i j → ¬ P i j → prices[i]? = some x → prices[j]? = some y →
      y - x ≤ m') : Best prices Q m' := by
  constructor
  · rcases reached with rfl | hm
    · rcases h.1 with rfl | ⟨i, j, x, y, hij, hP, hrest⟩
      · exact Set.mem_insert _ _
      · exact Set.mem_insert_of_mem _ ⟨i, j, x, y, hij, more i j hP, hrest⟩
    · exact Set.mem_insert_of_mem _ hm
  · intro d hd
    rcases hd with rfl | ⟨i, j, x, y, hij, hQ, hx, hy, rfl⟩
    · exact h.nonneg.trans grown
    · by_cases hP : P i j
      · exact (h.2 (Set.mem_insert_of_mem _ ⟨i, j, x, y, hij, hP, hx, hy, rfl⟩)).trans grown
      · exact bound i j x y hij hQ hP hx hy

theorem trade_ok {prices : List Int} (fit : DifferencesFit prices) {i j : Nat} {x y : Int}
    (hij : i < j) (hx : prices[i]? = some x) (hy : prices[j]? = some y) (maxP : Int) :
    trade prices i j maxP = .ok (max maxP (y - x)) := by
  have hfit : Representable (y - x) := fit _ ⟨i, j, x, y, hij, trivial, hx, hy, rfl⟩
  simp only [trade, read_some hx, read_some hy, sub_ok hfit, ok_bind]
  split
  · rw [max_eq_right (by omega)]
    rfl
  · rw [max_eq_left (by omega)]
    rfl

/-- The inner loop adds the sales of what was bought on day `i`. -/
theorem trades_ok {prices : List Int} (fit : DifferencesFit prices) {i : Nat}
    (hi : i < prices.length) {m : Int} (h : Best prices (fun a _ => a < i) m) :
    ∃ t, forLoop (i + 1) prices.length m (trade prices i) = .ok t ∧
      Best prices (fun a _ => a < i + 1) t := by
  have hloop : ∃ t, forLoop (i + 1) prices.length m (trade prices i) = .ok t ∧
      Best prices (fun a b => a < i ∨ a = i ∧ b < prices.length) t := by
    refine forLoop_ok (by omega) (fun j t => Best prices (fun a b => a < i ∨ a = i ∧ b < j) t)
      ?_ ?_
    · refine h.extend (fun a b ha => Or.inl ha) (Int.le_refl m) (Or.inl rfl) ?_
      intro a b x y hab hQ hP _ _
      omega
    · intro j t hij hj ht
      obtain ⟨x, hx⟩ : ∃ x, prices[i]? = some x := ⟨_, List.getElem?_eq_getElem hi⟩
      obtain ⟨y, hy⟩ : ∃ y, prices[j]? = some y := ⟨_, List.getElem?_eq_getElem hj⟩
      refine ⟨_, trade_ok fit hij hx hy t, ?_⟩
      refine ht.extend (fun a b hab => by omega) (le_max_left _ _) ?_ ?_
      · rcases max_choice t (y - x) with hm | hm
        · exact Or.inl hm
        · exact Or.inr ⟨i, j, x, y, hij, Or.inr ⟨rfl, by omega⟩, hx, hy, hm⟩
      · intro a b x' y' _ hQ hP hx' hy'
        obtain ⟨rfl, rfl⟩ : a = i ∧ b = j := by omega
        rw [hx] at hx'
        rw [hy] at hy'
        cases hx'
        cases hy'
        exact le_max_right _ _
  obtain ⟨t, ht, hbest⟩ := hloop
  refine ⟨t, ht, hbest.extend (fun a b hab => by omega) (Int.le_refl t) (Or.inl rfl) ?_⟩
  intro a b x y _ hQ hP _ hy
  have hb := (List.getElem?_eq_some_iff.mp hy).1
  omega

theorem maxProfitOne_ok {prices : List Int} (fit : DifferencesFit prices) :
    ∃ m, maxProfitOne prices prices.length = .ok m ∧ Best prices (fun _ _ => True) m := by
  have hloop : ∃ m, maxProfitOne prices prices.length = .ok m ∧
      Best prices (fun a _ => a < prices.length) m := by
    refine forLoop_ok (by omega) (fun i m => Best prices (fun a _ => a < i) m) ?_ ?_
    · exact best_none (fun i j _ hi => absurd hi (Nat.not_lt_zero i))
    · intro i m _ hi hm
      exact trades_ok fit hi hm
  obtain ⟨m, hm, hbest⟩ := hloop
  refine ⟨m, hm, hbest.extend (fun _ _ _ => trivial) (Int.le_refl m) (Or.inl rfl) ?_⟩
  intro a b x y _ _ hP hx _
  exact absurd (List.getElem?_eq_some_iff.mp hx).1 hP

/-- The lowest of the prices before day `i`, with the best trade on those days. -/
structure Seen (prices : List Int) (i : Nat) (s : Int × Int) : Prop where
  best : Best prices (fun _ b => b < i) s.1
  bought : ∃ a < i, prices[a]? = some s.2
  lowest : ∀ a < i, ∀ x, prices[a]? = some x → s.2 ≤ x

/-- On the next day nothing is worth more than what was bought at the lowest price. -/
theorem Seen.gain_le {prices : List Int} {i : Nat} {s : Int × Int} (h : Seen prices i s)
    {y m : Int} (hy : prices[i]? = some y) (hm : y - s.2 ≤ m) :
    ∀ a b x z, a < b → b < i + 1 → ¬ b < i → prices[a]? = some x → prices[b]? = some z →
      z - x ≤ m := by
  intro a b x z hab hb hnot hx hz
  obtain rfl : b = i := by omega
  rw [hy] at hz
  cases hz
  have hlow := h.lowest a hab x hx
  omega

theorem Seen.lowest_or_last {prices : List Int} {i : Nat} {s : Int × Int} (h : Seen prices i s)
    {y : Int} (hy : prices[i]? = some y) {a : Nat} {x : Int} (ha : a < i + 1)
    (hx : prices[a]? = some x) : s.2 ≤ x ∨ x = y := by
  by_cases hai : a = i
  · subst hai
    rw [hy] at hx
    exact Or.inr (Option.some.inj hx).symm
  · exact Or.inl (h.lowest a (by omega) x hx)

/-- A day with a new lowest price. -/
theorem Seen.lower {prices : List Int} {i : Nat} {s : Int × Int} (h : Seen prices i s) {y : Int}
    (hy : prices[i]? = some y) (hnew : y < s.2) : Seen prices (i + 1) (s.1, y) := by
  refine ⟨?_, ⟨i, by omega, hy⟩, ?_⟩
  · have hpos := h.best.nonneg
    exact h.best.extend (fun _ b hb => by omega) (Int.le_refl _) (Or.inl rfl)
      (h.gain_le hy (by omega))
  · intro a ha x hx
    rcases h.lowest_or_last hy ha hx with hle | rfl
    · exact (Int.le_of_lt hnew).trans hle
    · exact Int.le_refl _

/-- A day on which the lowest price stays, with the better of two profits. -/
theorem Seen.sell {prices : List Int} {i : Nat} {s : Int × Int} (h : Seen prices i s) {y : Int}
    (hy : prices[i]? = some y) (hold : s.2 ≤ y) :
    Seen prices (i + 1) (max s.1 (y - s.2), s.2) := by
  obtain ⟨a, ha, hlow⟩ := h.bought
  refine ⟨?_, ⟨a, by omega, hlow⟩, ?_⟩
  · refine h.best.extend (fun _ b hb => by omega) (le_max_left _ _) ?_
      (h.gain_le hy (le_max_right _ _))
    rcases max_choice s.1 (y - s.2) with hm | hm
    · exact Or.inl hm
    · exact Or.inr ⟨a, i, s.2, y, ha, by omega, hlow, hy, hm⟩
  · intro b hb x hx
    rcases h.lowest_or_last hy hb hx with hle | rfl
    · exact hle
    · exact hold

theorem Seen.step {prices : List Int} (fit : DifferencesFit prices) {i : Nat} {s : Int × Int}
    (h : Seen prices i s) (hi : i < prices.length) :
    ∃ t, day prices i s = .ok t ∧ Seen prices (i + 1) t := by
  obtain ⟨y, hy⟩ : ∃ y, prices[i]? = some y := ⟨_, List.getElem?_eq_getElem hi⟩
  by_cases hnew : y < s.2
  · exact ⟨(s.1, y), by simp [day, read_some hy, hnew], h.lower hy hnew⟩
  · obtain ⟨a, ha, hlow⟩ := h.bought
    have hfit : Representable (y - s.2) := fit _ ⟨a, i, s.2, y, ha, trivial, hlow, hy, rfl⟩
    refine ⟨(max s.1 (y - s.2), s.2), ?_, h.sell hy (Int.not_lt.mp hnew)⟩
    simp only [day, read_some hy, hnew, sub_ok hfit, ok_bind, if_false]
    split
    · rw [max_eq_right (by omega)]
      rfl
    · rw [max_eq_left (by omega)]
      rfl

theorem maxProfitCycle_ok {prices : List Int} (fit : DifferencesFit prices) :
    ∃ m, maxProfitCycle prices prices.length = .ok m ∧ Best prices (fun _ _ => True) m := by
  cases prices with
  | nil => exact ⟨0, rfl, best_none (by simp)⟩
  | cons p ps =>
    have hstart : Seen (p :: ps) 1 (0, p) := by
      refine ⟨?_, ⟨0, by omega, rfl⟩, ?_⟩
      · apply best_none
        intro i j hij hj
        omega
      · intro a ha x hx
        obtain rfl : a = 0 := by omega
        cases hx
        exact Int.le_refl p
    have hloop : ∃ s, forLoop 1 (p :: ps).length (0, p) (day (p :: ps)) = .ok s ∧
        Seen (p :: ps) (p :: ps).length s :=
      forLoop_ok (by rw [List.length_cons]; omega) _ hstart (fun i s _ hi hs => hs.step fit hi)
    obtain ⟨s, hs, hseen⟩ := hloop
    have hread : read (p :: ps) 0 = .ok p := rfl
    refine ⟨s.1, ?_, ?_⟩
    · rw [maxProfitCycle, if_neg (by rw [List.length_cons]; omega), hread, ok_bind, hs]
      rfl
    · refine hseen.best.extend (fun _ _ _ => trivial) (Int.le_refl _) (Or.inl rfl) ?_
      intro a b x y _ _ hP _ hy
      exact absurd (List.getElem?_eq_some_iff.mp hy).1 hP

/-- Both passes end with the larger of 0 and the best difference between a price and an
earlier one. -/
theorem profits_agree (prices : List Int) (fit : DifferencesFit prices) :
    ∃ m, maxProfitOne prices prices.length = .ok m ∧
      maxProfitCycle prices prices.length = .ok m ∧
      IsGreatest (insert 0 (gains prices (fun _ _ => True))) m := by
  obtain ⟨m, hm, hbest⟩ := maxProfitOne_ok fit
  obtain ⟨m', hm', hbest'⟩ := maxProfitCycle_ok fit
  obtain rfl : m = m' := hbest.unique hbest'
  exact ⟨m, hm, hm', hbest⟩

/-- Prices are not negative, so no difference of two overflows. -/
theorem differencesFit_of_prices {prices : List Int}
    (h : ∀ x ∈ prices, 0 ≤ x ∧ Representable x) :
    DifferencesFit prices := by
  intro d ⟨i, j, x, y, _, _, hx, hy, hd⟩
  have hx := h x (List.mem_of_getElem? hx)
  have hy := h y (List.mem_of_getElem? hy)
  unfold Representable at hx hy ⊢
  omega

theorem profits_agree_six :
    ∃ m, maxProfitOne [7, 1, 5, 3, 6, 4] 6 = .ok m ∧ maxProfitCycle [7, 1, 5, 3, 6, 4] 6 = .ok m ∧
      IsGreatest (insert 0 (gains [7, 1, 5, 3, 6, 4] (fun _ _ => True))) m :=
  profits_agree [7, 1, 5, 3, 6, 4] (differencesFit_of_prices (by decide))

end BasicDemo.LeetCode.MaxProfit
