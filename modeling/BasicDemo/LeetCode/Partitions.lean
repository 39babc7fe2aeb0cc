import BasicDemo.LeetCode.FindMiddleCount
import BasicDemo.LeetCode.SortArray
import BasicDemo.Library.Windows

namespace BasicDemo.LeetCode.Partitions
open Library.Loops Library.Arrays Library.Pivots
open SortArray (partition partitionBy)
open FindMiddleCount (partSort partSortBy)

variable {A : Access Int} {lo hi : Int}

/-- The free cell and the cells between the two indices of `partition` lie in the range. -/
structure Inside (lo hi : Int) (s : SortArray.Scan) : Prop where
  least : lo ≤ s.i
  free : s.i ≤ hi
  most : s.j ≤ hi

theorem Inside.fromRight {s t : SortArray.Scan} (h : Inside lo hi s) {temp : Int}
    (ht : SortArray.fromRight .plain temp s = .ok t) : Inside lo hi t := by
  obtain ⟨hlo, hfree, hhi⟩ := h
  obtain ⟨j, hj, ht⟩ := bind_eq_ok.mp ht
  have hbetween := Access.scanDown_between hj
  split at ht
  · obtain ⟨x, -, ht⟩ := bind_eq_ok.mp ht
    obtain ⟨nums, -, ht⟩ := bind_eq_ok.mp ht
    cases ht
    constructor <;> simp only <;> omega
  · cases ht
    constructor <;> simp only <;> omega

theorem Inside.fromLeft {s t : SortArray.Scan} (h : Inside lo hi s) {temp : Int}
    (ht : SortArray.fromLeft .plain temp s = .ok t) : Inside lo hi t := by
  obtain ⟨hlo, hfree, hhi⟩ := h
  obtain ⟨i, hi, ht⟩ := bind_eq_ok.mp ht
  have hbetween := Access.scanUp_between hi
  split at ht
  · obtain ⟨x, -, ht⟩ := bind_eq_ok.mp ht
    obtain ⟨nums, -, ht⟩ := bind_eq_ok.mp ht
    cases ht
    constructor <;> simp only <;> omega
  · cases ht
    constructor <;> simp only <;> omega

theorem Inside.next {s t : SortArray.Scan} (h : Inside lo hi s) {temp : Int}
    (ht : SortArray.closeIn .plain temp s = .ok (.next t)) : Inside lo hi t := by
  unfold SortArray.closeIn at ht
  split at ht
  · obtain ⟨u, hu, ht⟩ := bind_eq_ok.mp ht
    obtain ⟨v, hv, ht⟩ := bind_eq_ok.mp ht
    cases ht
    exact (h.fromRight (lift_eq_ok.mp hu)).fromLeft (lift_eq_ok.mp hv)
  · cases ht

theorem Inside.leave {s t : SortArray.Scan} (h : Inside lo hi s) {temp : Int}
    (ht : SortArray.closeIn .plain temp s = .ok (.leave t)) : Inside lo hi t := by
  unfold SortArray.closeIn at ht
  split at ht
  · obtain ⟨u, -, ht⟩ := bind_eq_ok.mp ht
    obtain ⟨v, -, ht⟩ := bind_eq_ok.mp ht
    cases ht
  · cases ht
    exact h

theorem fromRight_same (hA : A.Covers lo hi) (temp : Int) {s : SortArray.Scan}
    (h : Inside lo hi s) : SortArray.fromRight A temp s = SortArray.fromRight .plain temp s := by
  obtain ⟨hlo, hfree, hhi⟩ := h
  unfold SortArray.fromRight
  rw [hA.scanDown _ _ (by omega) hhi]
  refine bind_congr_ok ?_
  intro j hj
  have hbetween := Access.scanDown_between hj
  split
  · rw [hA.read _ (by omega) (by omega)]
    refine bind_congr_ok ?_
    intro x _
    rw [hA.write _ _ hlo hfree]
  · rfl

theorem fromLeft_same (hA : A.Covers lo hi) (temp : Int) {s : SortArray.Scan}
    (h : Inside lo hi s) : SortArray.fromLeft A temp s = SortArray.fromLeft .plain temp s := by
  obtain ⟨hlo, hfree, hhi⟩ := h
  unfold SortArray.fromLeft
  rw [hA.scanUp _ _ hlo (by omega)]
  refine bind_congr_ok ?_
  intro i hi
  have hbetween := Access.scanUp_between hi
  split
  · rw [hA.read _ (by omega) (by omega)]
    refine bind_congr_ok ?_
    intro x _
    rw [hA.write _ _ (by omega) hhi]
  · rfl

theorem closeIn_same (hA : A.Covers lo hi) (temp : Int) {s : SortArray.Scan}
    (h : Inside lo hi s) : SortArray.closeIn A temp s = SortArray.closeIn .plain temp s := by
  unfold SortArray.closeIn
  split
  · rw [fromRight_same hA temp h]
    refine bind_congr_ok ?_
    intro t ht
    rw [fromLeft_same hA temp (h.fromRight (lift_eq_ok.mp ht))]
  · rfl

/-- As long as the cells of the range are open, `partition` does not notice whether the
others are. -/
theorem partitionBy_eq (hA : A.Covers lo hi) (fuel : Nat) (nums : List Int) {left right : Int}
    (hlo : lo ≤ left) (hfree : left ≤ hi) (hhi : right ≤ hi) :
    partitionBy A fuel nums left right = partition fuel nums left right := by
  unfold partition partitionBy
  rw [hA.read nums hlo hfree]
  refine bind_congr_ok ?_
  intro temp _
  obtain ⟨hloop, hend⟩ := whileLoop_congr (Inside lo hi) (Inside lo hi)
    (fun s hs => closeIn_same hA temp hs) (fun s t hs => hs.next) (fun s t hs => hs.leave)
    (s := ⟨nums, left, right⟩) ⟨hlo, hfree, hhi⟩ fuel
  rw [hloop]
  refine bind_congr_ok ?_
  intro t ht
  rw [hA.write _ _ (hend t ht).least (hend t ht).free]

/-- The cells between the two indices of `PartSort` lie in the range. -/
structure Between (lo hi : Int) (s : FindMiddleCount.Scan) : Prop where
  least : lo ≤ s.low
  last : lo ≤ s.high
  most : s.high ≤ hi

theorem exchange_same (hA : A.Covers lo hi) (key : Int) {s : FindMiddleCount.Scan}
    (h : Between lo hi s) :
    FindMiddleCount.closeIn A key s = FindMiddleCount.closeIn .plain key s := by
  obtain ⟨hlo, -, hhi⟩ := h
  unfold FindMiddleCount.closeIn
  split
  · rw [hA.scanUp _ _ hlo (by omega)]
    refine bind_congr_ok ?_
    intro low hlow
    have hup := Access.scanUp_between (lift_eq_ok.mp hlow)
    rw [hA.scanDown _ _ (by omega) hhi]
    refine bind_congr_ok ?_
    intro high hhigh
    have hdown := Access.scanDown_between (lift_eq_ok.mp hhigh)
    split
    · rw [hA.swap _ (by omega) (by omega) (by omega) (by omega)]
    · rfl
  · rfl

theorem Between.next {s t : FindMiddleCount.Scan} (h : Between lo hi s) {key : Int}
    (ht : FindMiddleCount.closeIn .plain key s = .ok (.next t)) : Between lo hi t := by
  obtain ⟨hlo, hlast, hhi⟩ := h
  unfold FindMiddleCount.closeIn at ht
  split at ht
  · obtain ⟨low, hlow, ht⟩ := bind_eq_ok.mp ht
    obtain ⟨high, hhigh, ht⟩ := bind_eq_ok.mp ht
    have hup := Access.scanUp_between (lift_eq_ok.mp hlow)
    have hdown := Access.scanDown_between (lift_eq_ok.mp hhigh)
    split at ht
    · obtain ⟨a, -, ht⟩ := bind_eq_ok.mp ht
      cases ht
      constructor <;> simp only <;> omega
    · cases ht
      constructor <;> simp only <;> omega
  · cases ht

theorem Between.leave {s t : FindMiddleCount.Scan} (h : Between lo hi s) {key : Int}
    (ht : FindMiddleCount.closeIn .plain key s = .ok (.leave t)) : Between lo hi t := by
  unfold FindMiddleCount.closeIn at ht
  split at ht
  · obtain ⟨low, -, ht⟩ := bind_eq_ok.mp ht
    obtain ⟨high, -, ht⟩ := bind_eq_ok.mp ht
    split at ht
    · obtain ⟨a, -, ht⟩ := bind_eq_ok.mp ht
      cases ht
    · cases ht
  · cases ht
    exact h

/-- The same for `PartSort`. -/
theorem partSortBy_eq (hA : A.Covers lo hi) (fuel : Nat) (a : List Int) {start stop : Int}
    (hstart : lo ≤ start) (hstop : lo ≤ stop) (hhi : stop ≤ hi) :
    partSortBy A fuel a start stop = partSort fuel a start stop := by
  unfold partSort partSortBy
  rw [hA.read a hstop hhi]
  refine bind_congr_ok ?_
  intro key _
  obtain ⟨hloop, hend⟩ := whileLoop_congr (Between lo hi) (Between lo hi)
    (fun s hs => exchange_same hA key hs) (fun s t hs => hs.next) (fun s t hs => hs.leave)
    (s := ⟨a, start, stop⟩) ⟨hstart, hstop, hhi⟩ fuel
  rw [hloop]
  refine bind_congr_ok ?_
  intro t ht
  rw [hA.swap _ (hend t ht).last (hend t ht).most hstop hhi]

/-- The cells `left`, ..., `right`. -/
def range (nums : List Int) (left right : Nat) : List Int :=
  (nums.drop left).take (right + 1 - left)

/-- What a partition of the cells `left`, ..., `right` of `nums` around `pivot` leaves, with
the pivot at `p`. -/
structure Partitioned (nums : List Int) (left right : Nat) (pivot : Int) (out : List Int)
    (p : Nat) : Prop where
  perm : (range out left right).Perm (range nums left right)
  front : out.take left = nums.take left
  back : out.drop (right + 1) = nums.drop (right + 1)
  place : left ≤ p ∧ p ≤ right
  stands : out[p]? = some pivot
  below : ∀ k x, left ≤ k → k < p → out[k]? = some x → x ≤ pivot
  above : ∀ k x, p < k → k ≤ right → out[k]? = some x → pivot ≤ x

theorem range_mid (pre cells post : List Int) {left right : Nat} (hleft : left = pre.length)
    (hright : right + 1 = (pre ++ cells).length) :
    range (pre ++ cells ++ post) left right = cells := by
  rw [List.length_append] at hright
  rw [range, List.append_assoc, List.drop_left' hleft.symm, List.take_left' (by omega)]

theorem partitioned_of_parted {pre cells post low high : List Int} {pivot : Int}
    {left right : Nat} (h : Parted cells low pivot high) (hleft : left = pre.length)
    (hright : right + 1 = (pre ++ cells).length) :
    Partitioned (pre ++ cells ++ post) left right pivot (pre ++ low ++ pivot :: (high ++ post))
      (pre ++ low).length := by
  have hout : pre ++ low ++ pivot :: (high ++ post) = pre ++ (low ++ pivot :: high) ++ post := by
    simp
  have hlen := h.perm.length_eq
  have hright' : right + 1 = (pre ++ (low ++ pivot :: high)).length := by
    rw [hright, List.length_append, List.length_append, hlen]
  constructor
  · rw [hout, range_mid pre _ post hleft hright', range_mid pre cells post hleft hright]
    exact h.perm
  · rw [hout, List.append_assoc, List.take_left' hleft.symm, List.append_assoc,
      List.take_left' hleft.symm]
  · rw [hout, List.drop_left' hright'.symm, List.drop_left' hright.symm]
  · simp only [List.length_append, List.length_cons] at hright' ⊢
    omega
  · simp
  · intro k x hk hlt hx
    rw [List.getElem?_append_left hlt, List.getElem?_append_right (by omega)] at hx
    exact h.below x (List.mem_of_getElem? hx)
  · intro k x hlt hk hx
    obtain ⟨k, rfl⟩ := Nat.exists_eq_add_of_lt hlt
    rw [getElem?_behind] at hx
    simp only [List.length_append, List.length_cons] at hright' hk
    rw [List.getElem?_append_left (by omega)] at hx
    exact h.above x (List.mem_of_getElem? hx)

/-- The range of an array, with the cells in front of it and behind it. -/
theorem exists_range {nums : List Int} {left right : Nat} (hle : left ≤ right)
    (hlt : right < nums.length) :
    ∃ pre cells post, nums = pre ++ cells ++ post ∧ left = pre.length ∧
      right + 1 = (pre ++ cells).length ∧ cells ≠ [] := by
  have hlen : (range nums left right).length = right + 1 - left := by
    rw [range, List.length_take, List.length_drop]
    omega
  have hcells : nums.take (right + 1) = nums.take left ++ range nums left right := by
    rw [range, ← List.take_add]
    congr 1
    omega
  refine ⟨nums.take left, range nums left right, nums.drop (right + 1), ?_, ?_, ?_, ?_⟩
  · rw [← hcells, List.take_append_drop]
  · rw [List.length_take]
    omega
  · rw [← hcells, List.length_take]
    omega
  · apply List.ne_nil_of_length_pos
    omega

theorem partition_returns {nums : List Int} {left right : Nat} (hle : left ≤ right)
    (hlt : right < nums.length) :
    ∃ out, ∃ p : Nat, Returns (partition · nums left right) (out, (p : Int)) ∧
      Partitioned nums left right nums[left] out p := by
  obtain ⟨pre, cells, post, rfl, hleft, hright, hcells⟩ := exists_range hle hlt
  obtain ⟨temp, cells, rfl⟩ := List.exists_cons_of_ne_nil hcells
  have hstop : (right : Int) = (pre ++ cells).length := by
    simp only [List.length_append, List.length_cons] at hright ⊢
    omega
  obtain ⟨low, high, hparted, hrun⟩ := SortArray.partition_ok pre cells post temp
    (congrArg Int.ofNat hleft) hstop (Nat.lt_succ_self _)
  have hpivot : (pre ++ temp :: cells ++ post)[left] = temp := by simp [hleft]
  refine ⟨_, _, .of_extends hrun (fun h => SortArray.partition_extends h _ _ _), ?_⟩
  rw [hpivot]
  exact partitioned_of_parted hparted hleft hright

theorem partSort_returns {nums : List Int} {left right : Nat} (hle : left ≤ right)
    (hlt : right < nums.length) :
    ∃ out, ∃ p : Nat, Returns (partSort · nums left right) (out, (p : Int)) ∧
      Partitioned nums left right nums[right] out p := by
  obtain ⟨pre, cells, post, rfl, hleft, hright, hcells⟩ := exists_range hle hlt
  obtain ⟨init, key, rfl⟩ := (List.eq_nil_or_concat' cells).resolve_left hcells
  have hstop : right = (pre ++ init).length := by
    simp only [List.length_append, List.length_singleton] at hright ⊢
    omega
  obtain ⟨low, high, hrun, hparted, -, -⟩ := FindMiddleCount.partSort_ok pre init post key
    (congrArg Int.ofNat hleft) (congrArg Int.ofNat hstop) (Nat.lt_succ_self _)
  have hpivot : (pre ++ (init ++ [key]) ++ post)[right] = key := by simp [hstop]
  refine ⟨_, _, .of_extends hrun (fun h => FindMiddleCount.partSort_extends h _ _ _), ?_⟩
  rw [hpivot]
  exact partitioned_of_parted hparted hleft hright

/-- On every range of an array both programs come to their end with the range partitioned,
`partition` around its first and `PartSort` around its last element, and both do so with
access to the range only. -/
theorem partitions_ok (nums : List Int) (left right : Nat) (hle : left ≤ right)
    (hlt : right < nums.length) :
    (∃ out, ∃ p : Nat, Returns (partition · nums left right) (out, (p : Int)) ∧
      Returns (partitionBy (.within left right) · nums left right) (out, (p : Int)) ∧
      Partitioned nums left right nums[left] out p) ∧
    ∃ out, ∃ p : Nat, Returns (partSort · nums left right) (out, (p : Int)) ∧
      Returns (partSortBy (.within left right) · nums left right) (out, (p : Int)) ∧
      Partitioned nums left right nums[right] out p := by
  have hrange : (left : Int) ≤ right := Int.ofNat_le.mpr hle
  have hopen := Access.within_covers (α := Int) left right
  constructor
  · obtain ⟨out, p, hrun, hout⟩ := partition_returns hle hlt
    refine ⟨out, p, hrun, ?_, hout⟩
    simpa only [partitionBy_eq hopen _ nums (Int.le_refl _) hrange (Int.le_refl _)] using hrun
  · obtain ⟨out, p, hrun, hout⟩ := partSort_returns hle hlt
    refine ⟨out, p, hrun, ?_, hout⟩
    simpa only [partSortBy_eq hopen _ nums (Int.le_refl _) hrange (Int.le_refl _)] using hrun

/-- With elements equal to the pivot, and with a cell on either side of the range. -/
theorem partitions_ok_ties :
    (∃ out, ∃ p : Nat, Returns (partition · [9, 3, 1, 3, 2, 0] 1 4) (out, (p : Int)) ∧
      Returns (partitionBy (.within 1 4) · [9, 3, 1, 3, 2, 0] 1 4) (out, (p : Int)) ∧
      Partitioned [9, 3, 1, 3, 2, 0] 1 4 3 out p) ∧
    ∃ out, ∃ p : Nat, Returns (partSort · [9, 3, 1, 3, 2, 0] 1 4) (out, (p : Int)) ∧
      Returns (partSortBy (.within 1 4) · [9, 3, 1, 3, 2, 0] 1 4) (out, (p : Int)) ∧
      Partitioned [9, 3, 1, 3, 2, 0] 1 4 2 out p :=
  partitions_ok [9, 3, 1, 3, 2, 0] 1 4 (by decide) (by decide)

end BasicDemo.LeetCode.Partitions
