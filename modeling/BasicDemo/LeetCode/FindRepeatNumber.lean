import BasicDemo.Library.Arrays
import Mathlib.Data.List.Nodup
import Mathlib.Data.List.Perm.Subperm
import Mathlib.Order.Bounds.Basic

namespace BasicDemo.LeetCode.FindRepeatNumber
open Library.Loops Library.Arrays

/-- A round of the second loop: `colocNums[nums[i]]++`. -/
def count (nums : List Int) (i : Nat) (colocNums : List Int) : Except Fault (List Int) := do
  let x ← read nums i
  let n ← read colocNums x
  write colocNums x (n + 1)

/-- A round of the third loop. -/
def repeated (colocNums : List Int) (i : Nat) (_ : Unit) : Except Fault (Round Int Unit) := do
  let n ← read colocNums i
  if n ≥ 2 then return .leave i else return .next ()

/-- `fresh` is what the cells of `colocNums` hold when it is declared. -/
def findRepeatNumber (fresh : Nat → Int) (nums : Option (List Int)) (numsSize : Int) :
    Except Fault Int :=
  match nums with
  | none => .ok (-1)
  | some nums =>
    if numsSize ≤ 0 then .ok (-1)
    else do
      let colocNums := (List.range numsSize.toNat).map fresh
      let colocNums ← forLoop 0 numsSize colocNums (fun i colocNums => write colocNums i 0)
      let colocNums ← forLoop 0 numsSize colocNums (count nums)
      match ← forLoopUntil 0 numsSize () (repeated colocNums) with
      | .leave r => return r
      | .next _ => return -1

/-- The counters of the values below `n`. -/
def Counted (n : Nat) (colocNums seen : List Int) : Prop :=
  Tallied id (fun v => 0 ≤ v ∧ v < n) colocNums seen

theorem counted_zeros (n : Nat) : Counted n (List.replicate n 0) [] := by
  rintro v ⟨hlow, hhigh⟩
  obtain ⟨k, rfl⟩ := Int.eq_ofNat_of_zero_le hlow
  rw [id_eq, read_at rfl (by rw [List.length_replicate]; omega)]
  simp

theorem zeroed_ok (fresh : Nat → Int) (n : Nat) :
    forLoop 0 n ((List.range n).map fresh) (fun i colocNums => write colocNums i 0) =
      .ok (List.replicate n 0) := by
  have h := fill_ok [] ((List.range n).map fresh) 0
  simpa using h

/-- The second loop has counted all cells. -/
theorem counts_ok {nums : List Int} (hrange : ∀ x ∈ nums, 0 ≤ x ∧ x < nums.length) :
    ∃ t, forLoop 0 nums.length (List.replicate nums.length 0) (count nums) = .ok t ∧
      Counted nums.length t nums := by
  have hloop : ∃ t, forLoop 0 nums.length (List.replicate nums.length 0) (count nums) = .ok t ∧
      Counted nums.length t (nums.take nums.length) := by
    refine forLoop_ok (by omega) (fun i t => Counted nums.length t (nums.take i))
      (counted_zeros nums.length) ?_
    intro i t _ hi ht
    have hcell := hrange nums[i] (List.getElem_mem hi)
    obtain ⟨u, hu, hcounted⟩ := Tallied.increment Function.injective_id ht hcell
    refine ⟨u, ?_, ?_⟩
    · have hn := ht _ hcell
      rw [id_eq] at hn hu
      rw [count, read_at rfl hi, ok_bind, hn, ok_bind, hu]
    · rw [List.take_succ_eq_append_getElem hi]
      exact hcounted
  rwa [List.take_length] at hloop

/-- The third loop stops at the least value counted twice, if there is one. -/
theorem repeated_ok {n : Nat} {t nums : List Int} (ht : Counted n t nums) :
    (∃ u, forLoopUntil 0 n () (repeated t) = .ok (.next u) ∧
      ∀ k : Nat, k < n → nums.count (k : Int) < 2) ∨
    ∃ r, forLoopUntil 0 n () (repeated t) = .ok (.leave r) ∧
      ∃ i : Nat, r = i ∧ 2 ≤ nums.count r ∧ ∀ k : Nat, k < i → nums.count (k : Int) < 2 := by
  refine forLoopUntil_ok (by omega) (fun i _ => ∀ k : Nat, k < i → nums.count (k : Int) < 2) _
    (by simp) ?_
  intro i _ _ hi hbefore
  have hread : read t i = .ok (nums.count (i : Int) : Int) := ht i (by omega)
  by_cases htwice : 2 ≤ nums.count (i : Int)
  · refine Or.inr ⟨i, ?_, i, rfl, htwice, hbefore⟩
    rw [repeated, hread, ok_bind, if_pos (by omega)]
    rfl
  · refine Or.inl ⟨(), ?_, ?_⟩
    · rw [repeated, hread, ok_bind, if_neg (by omega)]
      rfl
    · intro k hk
      rcases Nat.lt_succ_iff_lt_or_eq.mp hk with hk | rfl
      · exact hbefore k hk
      · omega

/-- The values from 0 up to `n - 1`. -/
def below (n : Nat) : List Int := (List.range n).map Int.ofNat

theorem mem_below {n : Nat} {v : Int} : v ∈ below n ↔ 0 ≤ v ∧ v < n := by
  constructor
  · intro hv
    obtain ⟨k, hk, rfl⟩ := List.mem_map.mp hv
    rw [List.mem_range] at hk
    exact ⟨Int.natCast_nonneg k, Int.ofNat_lt.mpr hk⟩
  · rintro ⟨hlow, hhigh⟩
    obtain ⟨k, rfl⟩ := Int.eq_ofNat_of_zero_le hlow
    exact List.mem_map.mpr ⟨k, List.mem_range.mpr (by omega), rfl⟩

theorem nodup_below (n : Nat) : (below n).Nodup :=
  List.Nodup.map (fun _ _ => Int.ofNat.inj) List.nodup_range

/-- As many different values as there are places take all of them. -/
theorem perm_below_iff {nums : List Int} (hrange : ∀ x ∈ nums, 0 ≤ x ∧ x < nums.length) :
    nums.Perm (below nums.length) ↔ ∀ v, nums.count v < 2 := by
  constructor
  · intro hperm v
    have hnodup : nums.Nodup := hperm.nodup_iff.mpr (nodup_below nums.length)
    have hle := List.nodup_iff_count_le_one.mp hnodup v
    omega
  · intro honce
    have hnodup : nums.Nodup := by
      rw [List.nodup_iff_count_le_one]
      intro v
      have hlt := honce v
      omega
    have hsub : nums ⊆ below nums.length := fun x hx => mem_below.mpr (hrange x hx)
    exact (hnodup.subperm hsub).perm_of_length_le (by simp [below])

/-- `findRepeatNumber` finds the least value that occurs twice, and -1 exactly if every value
from 0 up occurs once. -/
theorem findRepeatNumber_ok (fresh : Nat → Int) (nums : List Int) (hne : nums ≠ [])
    (hrange : ∀ x ∈ nums, 0 ≤ x ∧ x < nums.length) :
    ∃ r, findRepeatNumber fresh (some nums) nums.length = .ok r ∧
      (r = -1 ↔ nums.Perm (below nums.length)) ∧
      (r ≠ -1 → IsLeast {v | 2 ≤ nums.count v} r) := by
  have hpos : 0 < nums.length := List.length_pos_iff.mpr hne
  obtain ⟨t, ht, hcounted⟩ := counts_ok hrange
  have hcall : findRepeatNumber fresh (some nums) nums.length = do
      match ← forLoopUntil 0 nums.length () (repeated t) with
      | .leave r => return r
      | .next _ => return -1 := by
    simp only [findRepeatNumber, if_neg (show ¬ (nums.length : Int) ≤ 0 by omega),
      Int.toNat_natCast, zeroed_ok, ok_bind, ht]
  rw [hcall, perm_below_iff hrange]
  rcases repeated_ok hcounted with ⟨u, hu, honce⟩ | ⟨r, hr, i, rfl, htwice, hbefore⟩
  · refine ⟨-1, by rw [hu]; rfl, ?_, by simp⟩
    refine iff_of_true rfl ?_
    intro v
    by_cases hv : v ∈ nums
    · obtain ⟨k, rfl⟩ := Int.eq_ofNat_of_zero_le (hrange v hv).1
      have hlt := (hrange _ hv).2
      exact honce k (by omega)
    · rw [List.count_eq_zero_of_not_mem hv]
      omega
  · refine ⟨i, by rw [hr]; rfl, ?_, ?_⟩
    · refine iff_of_false (by omega) ?_
      intro honce
      have hlt := honce i
      omega
    · refine fun _ => ⟨htwice, ?_⟩
      intro v hv
      have hmem : v ∈ nums := List.count_pos_iff.mp (Nat.lt_of_lt_of_le Nat.zero_lt_two hv)
      obtain ⟨k, rfl⟩ := Int.eq_ofNat_of_zero_le (hrange v hmem).1
      by_contra hless
      have hlt := hbefore k (by omega)
      have htwo : 2 ≤ nums.count (k : Int) := hv
      omega

/-- The example of the header. -/
theorem findRepeatNumber_header :
    ∃ r, findRepeatNumber (fun _ => 5) (some [2, 3, 1, 0, 2, 5, 3]) 7 = .ok r ∧
      (r = -1 ↔ [2, 3, 1, 0, 2, 5, 3].Perm (below 7)) ∧
      (r ≠ -1 → IsLeast {v | 2 ≤ [2, 3, 1, 0, 2, 5, 3].count v} r) :=
  findRepeatNumber_ok (fun _ => 5) [2, 3, 1, 0, 2, 5, 3] (by decide) (by decide)

end BasicDemo.LeetCode.FindRepeatNumber
