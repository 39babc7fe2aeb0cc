import BasicDemo.Library.Arrays
import Mathlib.Data.List.Perm.Basic

namespace BasicDemo.LeetCode.SingleNumber
open Library.Loops Library.Arrays

def accumulate (nums : List Int32) (i : Nat) (temp : Int32) : Except Fault Int32 := do
  let x ← read nums i
  return temp ^^^ x

def singleNumber (nums : List Int32) (numsSize : Int) : Except Fault Int32 := do
  let temp ← read nums 0
  forLoop 1 numsSize temp (accumulate nums)

/-- One round of the inner loop, on `symple`. -/
def compare (nums : List Int32) (i j : Nat) (symple : Int) : Except Fault (Round Int Int) :=
  if i = j then .ok (.next symple)
  else do
    let x ← read nums i
    let y ← read nums j
    if x = y then return .leave 2 else return .next symple

/-- One round of the outer loop, which returns an element found nowhere else. -/
def candidate (nums : List Int32) (numsSize : Int) (i : Nat) (_ : Unit) :
    Except Fault (Round Int32 Unit) := do
  let symple ← forLoopUntil 0 numsSize 1 (compare nums i)
  if symple.value = 1 then
    let x ← read nums i
    return .leave x
  else return .next ()

/-- The loops of `singleNUmserTwo`; without a result if they end by themselves. -/
def candidates (nums : List Int32) (numsSize : Int) : Except Fault (Round Int32 Unit) :=
  forLoopUntil 0 numsSize () (candidate nums numsSize)

def singleNUmserTwo (nums : List Int32) (numsSize : Int) : Except Fault Int32 := do
  match ← candidates nums numsSize with
  | .leave x => return x
  | .next _ => read nums numsSize

/-- The exclusive or of all elements. -/
def xorAll (nums : List Int32) : Int32 := nums.foldl (· ^^^ ·) 0

theorem foldl_xor (x : Int32) (nums : List Int32) :
    nums.foldl (· ^^^ ·) x = x ^^^ xorAll nums := by
  induction nums generalizing x with
  | nil => simp [xorAll]
  | cons y ys ih =>
    rw [xorAll, List.foldl_cons, List.foldl_cons, ih, ih, Int32.zero_xor, Int32.xor_assoc]

theorem xorAll_cons (x : Int32) (nums : List Int32) : xorAll (x :: nums) = x ^^^ xorAll nums := by
  rw [xorAll, List.foldl_cons, Int32.zero_xor, foldl_xor]

theorem xorAll_perm {xs ys : List Int32} (h : xs.Perm ys) : xorAll xs = xorAll ys :=
  h.foldl_eq 0

/-- Elements that come in pairs cancel, in whatever order they stand. -/
theorem xorAll_pairs {nums : List Int32} (h : ∀ x, nums.count x % 2 = 0) : xorAll nums = 0 := by
  induction hn : nums.length using Nat.strongRecOn generalizing nums with
  | ind n ih =>
    cases nums with
    | nil => rfl
    | cons x xs =>
      have hx : x ∈ xs := by
        have heven := h x
        rw [List.count_cons_self] at heven
        exact List.count_pos_iff.mp (by omega)
      have hperm := List.perm_cons_erase hx
      have hrest : ∀ y, (xs.erase x).count y % 2 = 0 := by
        intro y
        have heven := h y
        rw [(hperm.cons x).count_eq] at heven
        by_cases hy : x = y
        · subst hy
          rw [List.count_cons_self, List.count_cons_self] at heven
          omega
        · rwa [List.count_cons_of_ne hy, List.count_cons_of_ne hy] at heven
      have hlen : (xs.erase x).length < n := by
        rw [List.length_erase_of_mem hx, ← hn, List.length_cons]
        omega
      rw [xorAll_perm (hperm.cons x), xorAll_cons, xorAll_cons, ih _ hlen hrest rfl]
      simp

/-- `v` occurs once and every other element twice. -/
structure Single (nums : List Int32) (v : Int32) : Prop where
  once : nums.count v = 1
  twice : ∀ x ∈ nums, x ≠ v → nums.count x = 2

theorem Single.xorAll_eq {nums : List Int32} {v : Int32} (h : Single nums v) :
    xorAll nums = v := by
  have hv : v ∈ nums := List.count_pos_iff.mp (by rw [h.once]; omega)
  have hpairs : ∀ x, (nums.erase v).count x % 2 = 0 := by
    intro x
    by_cases hx : x = v
    · rw [hx, List.count_erase_self, h.once]
    · rw [List.count_erase_of_ne hx]
      by_cases hmem : x ∈ nums
      · rw [h.twice x hmem hx]
      · rw [List.count_eq_zero_of_not_mem hmem]
  rw [xorAll_perm (List.perm_cons_erase hv), xorAll_cons, xorAll_pairs hpairs, Int32.xor_zero]

/-- The loop takes in one element after the other. -/
theorem singleNumber_ok {nums : List Int32} (hn : 1 ≤ nums.length) :
    singleNumber nums nums.length = .ok (xorAll nums) := by
  have hread : read nums 0 = .ok nums[0] := read_at rfl hn
  have hloop : ∃ t, forLoop 1 nums.length nums[0] (accumulate nums) = .ok t ∧
      t = xorAll (nums.take nums.length) := by
    refine forLoop_ok (by omega) (fun i t => t = xorAll (nums.take i)) ?_ ?_
    · rw [List.take_one, List.head?_eq_getElem?, List.getElem?_eq_getElem hn]
      simp [xorAll]
    · intro i t _ hi ht
      refine ⟨t ^^^ nums[i], by simp [accumulate, read_at rfl hi], ?_⟩
      rw [List.take_add_one, List.getElem?_eq_getElem hi, xorAll, List.foldl_append, ht]
      rfl
  obtain ⟨t, ht, rfl⟩ := hloop
  rw [List.take_length] at ht
  rw [singleNumber, hread, ok_bind, ht]

/-- An element occurs once exactly if no other place holds it. -/
theorem count_eq_one_iff {nums : List Int32} {i : Nat} {x : Int32} (h : nums[i]? = some x) :
    nums.count x = 1 ↔ ∀ j, i ≠ j → nums[j]? ≠ some x := by
  obtain ⟨hi, hx⟩ := List.getElem?_eq_some_iff.mp h
  obtain ⟨front, y, back, rfl, rfl⟩ := exists_cell hi
  obtain rfl : y = x := by simpa using hx
  have hcount : (front ++ y :: back).count y = 1 ↔ y ∉ front ∧ y ∉ back := by
    rw [List.count_append, List.count_cons_self, ← List.count_eq_zero, ← List.count_eq_zero]
    omega
  rw [hcount]
  constructor
  · rintro ⟨hfront, hback⟩ j hj hy
    rcases Nat.lt_or_gt_of_ne hj with hlt | hgt
    · obtain ⟨k, rfl⟩ := Nat.exists_eq_add_of_lt hlt
      rw [getElem?_behind] at hy
      exact hback (List.mem_of_getElem? hy)
    · rw [List.getElem?_append_left hgt] at hy
      exact hfront (List.mem_of_getElem? hy)
  · intro hall
    constructor
    · intro hmem
      obtain ⟨j, hj⟩ := List.mem_iff_getElem?.mp hmem
      have hlt := (List.getElem?_eq_some_iff.mp hj).1
      refine hall j (by omega) ?_
      rw [List.getElem?_append_left hlt]
      exact hj
    · intro hmem
      obtain ⟨j, hj⟩ := List.mem_iff_getElem?.mp hmem
      refine hall (front.length + j + 1) (by omega) ?_
      rw [getElem?_behind]
      exact hj

theorem compare_ok {nums : List Int32} {i j : Nat} {x : Int32} (hx : nums[i]? = some x)
    (hj : j < nums.length) (symple : Int) : compare nums i j symple =
      .ok (if i ≠ j ∧ nums[j]? = some x then .leave 2 else .next symple) := by
  unfold compare
  by_cases hij : i = j
  · simp [hij]
  · simp only [hij, if_false, read_some hx, read_at rfl hj, ok_bind,
      List.getElem?_eq_getElem hj]
    by_cases he : x = nums[j]
    · simp [he, hij]
    · simp [he, Ne.symm he]

/-- The outer loop returns the element at `i` exactly if it occurs nowhere else. -/
theorem candidate_ok {nums : List Int32} {i : Nat} {x : Int32} (hx : nums[i]? = some x) :
    candidate nums nums.length i () =
      .ok (if nums.count x = 1 then .leave x else .next ()) := by
  have hloop : (∃ t, forLoopUntil 0 nums.length 1 (compare nums i) = .ok (.next t) ∧
        t = 1 ∧ ∀ j < nums.length, i ≠ j → nums[j]? ≠ some x) ∨
      ∃ r, forLoopUntil 0 nums.length 1 (compare nums i) = .ok (.leave r) ∧
        r = 2 ∧ ¬ nums.count x = 1 := by
    refine forLoopUntil_ok (by omega)
      (fun j t => t = 1 ∧ ∀ k < j, i ≠ k → nums[k]? ≠ some x)
      (fun r => r = 2 ∧ ¬ nums.count x = 1) ⟨rfl, by simp⟩ ?_
    intro j t _ hj ⟨ht, hseen⟩
    rw [compare_ok hx hj, ht]
    by_cases hsame : i ≠ j ∧ nums[j]? = some x
    · refine Or.inr ⟨2, by rw [if_pos hsame], rfl, ?_⟩
      intro hone
      exact (count_eq_one_iff hx).mp hone j hsame.1 hsame.2
    · refine Or.inl ⟨1, by rw [if_neg hsame], rfl, ?_⟩
      intro k hk hne he
      by_cases hkj : k = j
      · subst hkj
        exact hsame ⟨hne, he⟩
      · exact hseen k (by omega) hne he
  rcases hloop with ⟨t, ht, rfl, hall⟩ | ⟨r, hr, rfl, hmore⟩
  · have hone : nums.count x = 1 := by
      apply (count_eq_one_iff hx).mpr
      intro j hij he
      exact hall j (List.getElem?_eq_some_iff.mp he).1 hij he
    simp [candidate, ht, Round.value, read_some hx, hone]
  · simp [candidate, hr, Round.value, hmore]

/-- The loops return an element that occurs once, or end because there is none. -/
theorem candidates_cases (nums : List Int32) :
    (∃ v ∈ nums, candidates nums nums.length = .ok (.leave v) ∧ nums.count v = 1) ∨
      candidates nums nums.length = .ok (.next ()) ∧ ∀ x ∈ nums, nums.count x ≠ 1 := by
  have hloop : (∃ t, candidates nums nums.length = .ok (.next t) ∧
        ∀ j < nums.length, ∀ x, nums[j]? = some x → nums.count x ≠ 1) ∨
      ∃ v, candidates nums nums.length = .ok (.leave v) ∧ v ∈ nums ∧ nums.count v = 1 := by
    refine forLoopUntil_ok (by omega)
      (fun i _ => ∀ j < i, ∀ x, nums[j]? = some x → nums.count x ≠ 1)
      (fun v => v ∈ nums ∧ nums.count v = 1) (by simp) ?_
    intro i _ _ hi hseen
    have hx := List.getElem?_eq_getElem hi
    rw [candidate_ok hx]
    by_cases hone : nums.count nums[i] = 1
    · exact Or.inr ⟨nums[i], by rw [if_pos hone], List.getElem_mem hi, hone⟩
    · refine Or.inl ⟨(), by rw [if_neg hone], ?_⟩
      intro j hj x hjx
      by_cases hji : j = i
      · subst hji
        rw [hx] at hjx
        cases hjx
        exact hone
      · exact hseen j (by omega) x hjx
  rcases hloop with ⟨t, ht, hall⟩ | ⟨v, hv, hmem, hone⟩
  · refine Or.inr ⟨ht, ?_⟩
    intro x hx
    obtain ⟨j, hj⟩ := List.mem_iff_getElem?.mp hx
    exact hall j (List.getElem?_eq_some_iff.mp hj).1 x hj
  · exact Or.inl ⟨v, hmem, hv, hone⟩

theorem Single.candidates_eq {nums : List Int32} {v : Int32} (h : Single nums v) :
    candidates nums nums.length = .ok (.leave v) := by
  rcases candidates_cases nums with ⟨w, hmem, hw, hone⟩ | ⟨_, hnone⟩
  · by_cases hwv : w = v
    · rw [hw, hwv]
    · have htwo := h.twice w hmem hwv
      omega
  · have hv : v ∈ nums := List.count_pos_iff.mp (by rw [h.once]; omega)
    exact absurd h.once (hnone v hv)

/-- Without an element that occurs once, `singleNUmserTwo` reads behind the array. -/
theorem singleNUmserTwo_outside {nums : List Int32} (h : ∀ x ∈ nums, nums.count x ≠ 1) :
    singleNUmserTwo nums nums.length = .error .outOfRange := by
  rcases candidates_cases nums with ⟨v, hmem, _, hone⟩ | ⟨hnext, _⟩
  · exact absurd hone (h v hmem)
  · rw [singleNUmserTwo, hnext, ok_bind]
    exact read_outside (Or.inr (Int.le_refl _))

/-- Both searches return the element that occurs once, and the loops of the second never
end by themselves, which would be followed by a read behind the array. -/
theorem single_numbers_agree (nums : List Int32) (v : Int32) (once : nums.count v = 1)
    (twice : ∀ x ∈ nums, x ≠ v → nums.count x = 2) :
    singleNumber nums nums.length = .ok v ∧ singleNUmserTwo nums nums.length = .ok v ∧
      candidates nums nums.length = .ok (.leave v) := by
  have h : Single nums v := ⟨once, twice⟩
  have hn : 1 ≤ nums.length := by
    have := List.count_le_length (a := v) (l := nums)
    omega
  have hfound := h.candidates_eq
  refine ⟨?_, ?_, hfound⟩
  · rw [singleNumber_ok hn, h.xorAll_eq]
  · simp [singleNUmserTwo, hfound]

theorem single_numbers_agree_five :
    singleNumber [4, 1, 2, 1, 2] 5 = .ok 4 ∧ singleNUmserTwo [4, 1, 2, 1, 2] 5 = .ok 4 ∧
      candidates [4, 1, 2, 1, 2] 5 = .ok (.leave 4) :=
  single_numbers_agree [4, 1, 2, 1, 2] 4 (by decide) (by simp)

end BasicDemo.LeetCode.SingleNumber
