import BasicDemo.Library.Arrays
import Mathlib.Data.Finset.Card
import Mathlib.Data.Int.Order.Basic
import Mathlib.Data.List.Destutter

namespace BasicDemo.LeetCode.RemoveDuplicates
open Library.Loops Library.Arrays

/-- A round of the loop in C, with the slow index and the array. -/
def moveDown (j : Nat) (s : Nat × List Int) : Except Fault (Nat × List Int) := do
  let x ← read s.2 j
  let y ← read s.2 s.1
  if x ≠ y then
    let i := s.1 + 1
    let x ← read s.2 j
    let nums ← write s.2 i x
    return (i, nums)
  else return s

/-- The number returned and the array. -/
def removeDuplicates (nums : List Int) (numsSize : Int) : Except Fault (Int × List Int) :=
  if numsSize < 2 then .ok (numsSize, nums)
  else do
    let (i, nums) ← forLoop 1 numsSize (0, nums) moveDown
    return (i + 1, nums)

/-- The variables of the versions that remember a value: the value kept last, the number of
values kept, and the array. -/
structure Kept where
  dup : Int
  count : Nat
  nums : List Int

def keep (i : Nat) (s : Kept) : Except Fault Kept := do
  let x ← read s.nums i
  if x ≠ s.dup then
    let nums ← write s.nums s.count x
    let dup ← read nums i
    return ⟨dup, s.count + 1, nums⟩
  else return s

/-- The common text of the published versions. -/
def removeRemembering (nums : List Int) : Except Fault (Int × List Int) :=
  if nums.length = 0 then .ok (0, nums)
  else do
    let first ← read nums 0
    let s ← forLoop 1 nums.length ⟨first, 1, nums⟩ keep
    return (s.count, s.nums)

def removeDuplicatesJava (nums : List Int) : Except Fault (Int × List Int) :=
  removeRemembering nums

def removeDuplicatesSwift (sourceArray : List Int) : Except Fault (Int × List Int) :=
  removeRemembering sourceArray

section

variable {α : Type} {R : α → α → Prop} [DecidableRel R]

theorem destutter'_concat {a x y : α} {l front : List α} (h : l.destutter' R a = front ++ [y]) :
    (l ++ [x]).destutter' R a = if R y x then front ++ [y] ++ [x] else front ++ [y] := by
  induction l generalizing a front with
  | nil =>
    have hsingle : [] ++ [a] = front ++ [y] := h
    obtain ⟨rfl, hy⟩ := List.append_inj' hsingle rfl
    cases hy
    simp
  | cons b l ih =>
    rw [List.cons_append]
    by_cases hab : R a b
    · rw [List.destutter'_cons_pos _ hab] at h ⊢
      cases front with
      | nil =>
        simp only [List.nil_append, List.cons.injEq] at h
        exact absurd h.2 (List.destutter'_ne_nil _ _)
      | cons c front =>
        simp only [List.cons_append, List.cons.injEq] at h
        rw [ih h.2, h.1]
        split <;> rfl
    · rw [List.destutter'_cons_neg _ hab] at h ⊢
      exact ih h

/-- One value more is kept exactly if it is related to the one kept last. -/
theorem destutter_concat {x y : α} {l front : List α} (h : l.destutter R = front ++ [y]) :
    (l ++ [x]).destutter R = if R y x then front ++ [y] ++ [x] else front ++ [y] := by
  cases l with
  | nil => simp at h
  | cons a l => exact destutter'_concat h

end

/-- The array when its first cells have been overwritten by the values kept. -/
def overlay (nums kept : List Int) : List Int := kept ++ nums.drop kept.length

section Overlay
variable {nums kept : List Int}

theorem read_overlay {j : Nat} (hle : kept.length ≤ j) (hj : j < nums.length) :
    read (overlay nums kept) j = .ok nums[j] := by
  apply read_some
  rw [overlay, List.getElem?_append_right hle, List.getElem?_drop, Nat.add_sub_cancel' hle,
    List.getElem?_eq_getElem hj]

theorem write_overlay {i : Int} (hi : i = kept.length) (h : kept.length < nums.length) (x : Int) :
    write (overlay nums kept) i x = .ok (overlay nums (kept ++ [x])) := by
  rw [overlay, List.drop_eq_getElem_cons h, write_mid hi]
  simp [overlay]

theorem read_overlay_last {front : List Int} {y i : Int} (hi : i = front.length) :
    read (overlay nums (front ++ [y])) i = .ok y := by
  rw [overlay, List.append_assoc, List.singleton_append]
  exact read_mid hi

theorem overlay_first (h : 0 < nums.length) : overlay nums [nums[0]] = nums :=
  List.getElem_cons_drop h

end Overlay

/-- What is kept of the first `j` cells. -/
def keptOf (nums : List Int) (j : Nat) : List Int := (nums.take j).destutter (· ≠ ·)

/-- Before round `j` of either loop: `kept` ends with `y`, and there is room for more. -/
structure Compacted (nums : List Int) (j : Nat) (front : List Int) (y : Int) : Prop where
  kept : keptOf nums j = front ++ [y]
  room : front.length + 1 ≤ j

theorem compacted_start {nums : List Int} (h : 0 < nums.length) :
    Compacted nums 1 [] nums[0] := by
  refine ⟨?_, Nat.le_refl 1⟩
  rw [keptOf, List.take_succ_eq_append_getElem h]
  simp

section Rounds
variable {nums front : List Int} {y : Int} {j : Nat} (h : Compacted nums j front y)
  (hj : j < nums.length)
include h

theorem Compacted.same (hy : nums[j] = y) : Compacted nums (j + 1) front y := by
  refine ⟨?_, Nat.le_succ_of_le h.room⟩
  rw [keptOf, List.take_succ_eq_append_getElem hj, destutter_concat h.kept, if_neg (by simp [hy])]

theorem Compacted.new (hy : nums[j] ≠ y) : Compacted nums (j + 1) (front ++ [y]) nums[j] := by
  refine ⟨?_, by simpa using h.room⟩
  rw [keptOf, List.take_succ_eq_append_getElem hj, destutter_concat h.kept, if_pos hy.symm]

/-- No cell from `j` on has been overwritten. -/
theorem Compacted.read_next : read (overlay nums (front ++ [y])) j = .ok nums[j] :=
  read_overlay (by simpa using h.room) hj

include hj in
theorem Compacted.write_next (x : Int) :
    write (overlay nums (front ++ [y])) (front.length + 1 : Nat) x =
      .ok (overlay nums (front ++ [y] ++ [x])) := by
  have hroom := h.room
  have hlen : (front ++ [y]).length = front.length + 1 := by simp
  exact write_overlay (by rw [hlen]) (by omega) x

/-- The cell read again may be the one just written. -/
theorem Compacted.read_again :
    read (overlay nums (front ++ [y] ++ [nums[j]])) j = .ok nums[j] := by
  have hlen : (front ++ [y]).length = front.length + 1 := by simp
  rcases Nat.eq_or_lt_of_le h.room with heq | hlt
  · exact read_overlay_last (by omega)
  · apply read_overlay ?_ hj
    rw [List.length_append, List.length_singleton]
    omega

end Rounds

/-- The variables of the loop in C before round `j`. -/
def Slow (nums : List Int) (j : Nat) (s : Nat × List Int) : Prop :=
  ∃ front y, Compacted nums j front y ∧ s = (front.length, overlay nums (front ++ [y]))

theorem Slow.step {nums : List Int} {j : Nat} {s : Nat × List Int} (h : Slow nums j s)
    (hj : j < nums.length) : ∃ t, moveDown j s = .ok t ∧ Slow nums (j + 1) t := by
  obtain ⟨front, y, hc, rfl⟩ := h
  have hlast : read (overlay nums (front ++ [y])) front.length = .ok y := read_overlay_last rfl
  by_cases hy : nums[j] = y
  · refine ⟨_, ?_, front, y, hc.same hj hy, rfl⟩
    simp [moveDown, hc.read_next hj, hlast, hy]
  · refine ⟨(front.length + 1, overlay nums (front ++ [y] ++ [nums[j]])), ?_, front ++ [y],
      nums[j], hc.new hj hy, by simp⟩
    simp only [moveDown, hc.read_next hj, hlast, ok_bind, ne_eq, hy, not_false_eq_true, if_true,
      hc.write_next hj, pure_eq_ok]

/-- The variables of the other loops before round `j`. -/
def Remembered (nums : List Int) (j : Nat) (s : Kept) : Prop :=
  ∃ front y, Compacted nums j front y ∧
    s = ⟨y, front.length + 1, overlay nums (front ++ [y])⟩

theorem Remembered.step {nums : List Int} {j : Nat} {s : Kept} (h : Remembered nums j s)
    (hj : j < nums.length) : ∃ t, keep j s = .ok t ∧ Remembered nums (j + 1) t := by
  obtain ⟨front, y, hc, rfl⟩ := h
  by_cases hy : nums[j] = y
  · refine ⟨_, ?_, front, y, hc.same hj hy, rfl⟩
    simp [keep, hc.read_next hj, hy]
  · refine ⟨⟨nums[j], front.length + 2, overlay nums (front ++ [y] ++ [nums[j]])⟩, ?_,
      front ++ [y], nums[j], hc.new hj hy, by simp⟩
    simp only [keep, hc.read_next hj, ok_bind, ne_eq, hy, not_false_eq_true, if_true,
      hc.write_next hj, hc.read_again hj, pure_eq_ok]

theorem keptOf_all (nums : List Int) : keptOf nums nums.length = nums.destutter (· ≠ ·) := by
  rw [keptOf, List.take_length]

theorem removeDuplicates_eq (nums : List Int) :
    removeDuplicates nums nums.length =
      .ok (((nums.destutter (· ≠ ·)).length : Int), overlay nums (nums.destutter (· ≠ ·))) := by
  unfold removeDuplicates
  split
  · rename_i hshort
    have hkept : nums.destutter (· ≠ ·) = nums := by
      match nums, hshort with
      | [], _ => rfl
      | [x], _ => rfl
    simp [hkept, overlay]
  · rename_i hlong
    have hpos : 0 < nums.length := by omega
    have hstart : Slow nums 1 (0, nums) :=
      ⟨[], nums[0], compacted_start hpos, by simp [overlay_first hpos]⟩
    obtain ⟨t, ht, front, y, hc, rfl⟩ : ∃ t, forLoop 1 nums.length (0, nums) moveDown = .ok t ∧
        Slow nums nums.length t :=
      forLoop_ok (by omega) (Slow nums) hstart (fun j s _ hj h => h.step hj)
    rw [ht, ← keptOf_all, hc.kept]
    simp

theorem removeRemembering_eq (nums : List Int) :
    removeRemembering nums =
      .ok (((nums.destutter (· ≠ ·)).length : Int), overlay nums (nums.destutter (· ≠ ·))) := by
  unfold removeRemembering
  split
  · rename_i hempty
    rw [List.length_eq_zero_iff.mp hempty]
    rfl
  · rename_i hne
    have hpos : 0 < nums.length := by omega
    have hstart : Remembered nums 1 ⟨nums[0], 1, nums⟩ :=
      ⟨[], nums[0], compacted_start hpos, by simp [overlay_first hpos]⟩
    obtain ⟨t, ht, front, y, hc, rfl⟩ :
        ∃ t, forLoop 1 nums.length ⟨nums[0], 1, nums⟩ keep = .ok t ∧
          Remembered nums nums.length t :=
      forLoop_ok (by omega) (Remembered nums) hstart (fun j s _ hj h => h.step hj)
    have hfirst : read nums 0 = .ok nums[0] := read_at (n := 0) rfl hpos
    rw [hfirst, ok_bind, ht, ← keptOf_all, hc.kept]
    simp

/-- The three versions leave every array the same and return the same number. Of an
ascending array this is the number of distinct values, which come first in strictly
increasing order; the cells behind them are as before. -/
theorem removeDuplicates_ok (nums : List Int) :
    ∃ (r : Nat) (out : List Int), removeDuplicates nums nums.length = .ok ((r : Int), out) ∧
      removeDuplicatesJava nums = .ok ((r : Int), out) ∧
      removeDuplicatesSwift nums = .ok ((r : Int), out) ∧
      (nums.Pairwise (· ≤ ·) →
        r = nums.toFinset.card ∧ (out.take r).Pairwise (· < ·) ∧
        (∀ x, x ∈ out.take r ↔ x ∈ nums) ∧ out.drop r = nums.drop r) := by
  refine ⟨_, _, removeDuplicates_eq nums, removeRemembering_eq nums, removeRemembering_eq nums, ?_⟩
  intro hsorted
  have htake : (overlay nums (nums.destutter (· ≠ ·))).take (nums.destutter (· ≠ ·)).length =
      nums.dedup := by
    rw [overlay, List.take_left, hsorted.destutter_eq_dedup]
  refine ⟨?_, ?_, ?_, ?_⟩
  · rw [hsorted.destutter_eq_dedup, List.card_toFinset]
  · rw [htake]
    have hle : nums.dedup.Pairwise (· ≤ ·) := hsorted.sublist (List.dedup_sublist nums)
    exact (hle.and (List.nodup_dedup nums)).imp (fun h => lt_of_le_of_ne h.1 h.2)
  · rw [htake]
    exact fun x => List.mem_dedup
  · rw [overlay, List.drop_left]

end BasicDemo.LeetCode.RemoveDuplicates
