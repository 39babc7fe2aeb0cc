import BasicDemo.Library.Stdlib

namespace BasicDemo.LeetCode.Intersect
open Library.Loops Library.Arrays Library.Stdlib

def compareMethod (a b : Int) : Int :=
  if a > b then 1 else if a < b then -1 else 0

/-- The counters and the block written to. -/
structure Cursors where
  t : Nat
  i : Nat
  j : Nat
  temp : List Int

/-- The loop of `intersect`. -/
def collect (nums1 : List Int) (nums1Size : Int) (nums2 : List Int) (nums2Size : Int)
    (s : Cursors) : Except Fault Cursors :=
  if s.i < nums1Size ∧ s.j < nums2Size then do
    let x ← read nums1 s.i
    let y ← read nums2 s.j
    if x = y then
      let temp ← write s.temp s.t x
      collect nums1 nums1Size nums2 nums2Size ⟨s.t + 1, s.i + 1, s.j + 1, temp⟩
    else if x > y then collect nums1 nums1Size nums2 nums2Size ⟨s.t, s.i, s.j + 1, s.temp⟩
    else collect nums1 nums1Size nums2 nums2Size ⟨s.t, s.i + 1, s.j, s.temp⟩
  else .ok s
termination_by (nums1Size - s.i + (nums2Size - s.j)).toNat

/-- What a call of `intersect` leaves in memory: the two arrays, `*returnSize` and the block
that the result points to, `none` for `NULL`. -/
structure Outcome where
  nums1 : List Int
  nums2 : List Int
  returnSize : Int
  temp : Option (List Int)

def intersect (qsort : Qsort Int) (malloc : Malloc Int) (nums1 : List Int) (nums1Size : Int)
    (nums2 : List Int) (nums2Size : Int) (returnSize : Int) : Except Fault Outcome := do
  let nums1 ← qsort.call nums1 nums1Size compareMethod
  let nums2 ← qsort.call nums2 nums2Size compareMethod
  match malloc.alloc (if nums1Size > nums2Size then nums2Size else nums1Size).toNat with
  | none => return ⟨nums1, nums2, returnSize, none⟩
  | some temp =>
    let s ← collect nums1 nums1Size nums2 nums2Size ⟨0, 0, 0, temp⟩
    return ⟨nums1, nums2, s.t, some s.temp⟩

theorem compareMethod_nonpos (a b : Int) : compareMethod a b ≤ 0 ↔ a ≤ b := by
  unfold compareMethod
  split
  · omega
  · split <;> omega

theorem compareMethod_comparison : Comparison compareMethod where
  total a b := by
    rw [compareMethod_nonpos, compareMethod_nonpos]
    exact Int.le_total a b
  trans a b c := by
    simp only [compareMethod_nonpos]
    exact Int.le_trans

section

variable {α : Type} [LinearOrder α]

/-- What two ascending lists have in common, found as the loop finds it. -/
def common : List α → List α → List α
  | [], _ => []
  | _, [] => []
  | x :: xs, y :: ys =>
    if x = y then x :: common xs ys
    else if x > y then common (x :: xs) ys
    else common xs (y :: ys)
termination_by xs ys => xs.length + ys.length

theorem common_nil (xs : List α) : common xs [] = [] := by
  cases xs <;> rw [common]
  simp

theorem common_comm (xs ys : List α) : common xs ys = common ys xs := by
  fun_induction common xs ys with
  | case1 ys => rw [common_nil]
  | case2 xs => rw [common]
  | case3 xs x ys ih => rw [common, if_pos rfl, ih]
  | case4 x xs y ys hne hgt ih => rw [common, if_neg (Ne.symm hne), if_neg (not_lt_of_gt hgt), ih]
  | case5 x xs y ys hne hngt ih =>
    rw [common, if_neg (Ne.symm hne), if_pos (lt_of_le_of_ne (not_lt.mp hngt) hne), ih]

theorem common_sublist (xs ys : List α) : (common xs ys).Sublist xs := by
  fun_induction common xs ys with
  | case1 => exact List.Sublist.refl _
  | case2 => exact List.nil_sublist _
  | case3 xs x ys ih => exact ih.cons_cons x
  | case4 x xs y ys hne hgt ih => exact ih
  | case5 x xs y ys hne hngt ih => exact ih.cons x

theorem common_length_le (xs ys : List α) :
    (common xs ys).length ≤ min xs.length ys.length := by
  refine le_min (common_sublist xs ys).length_le ?_
  rw [common_comm]
  exact (common_sublist ys xs).length_le

/-- A value below the head of an ascending list does not occur in it. -/
theorem count_eq_zero_of_lt {x y : α} {xs : List α} (h : (x :: xs).Pairwise (· ≤ ·))
    (hlt : y < x) : (x :: xs).count y = 0 := by
  rw [List.count_eq_zero]
  intro hy
  rcases List.mem_cons.mp hy with rfl | hy
  · exact lt_irrefl _ hlt
  · exact absurd ((List.pairwise_cons.mp h).1 y hy) (not_le_of_gt hlt)

theorem count_common {xs ys : List α} (hxs : xs.Pairwise (· ≤ ·)) (hys : ys.Pairwise (· ≤ ·))
    (v : α) : (common xs ys).count v = min (xs.count v) (ys.count v) := by
  fun_induction common xs ys with
  | case1 ys => simp
  | case2 xs => simp
  | case3 xs x ys ih =>
    rw [List.count_cons, List.count_cons, List.count_cons,
      ih (List.pairwise_cons.mp hxs).2 (List.pairwise_cons.mp hys).2]
    omega
  | case4 x xs y ys hne hgt ih =>
    rw [ih hxs (List.pairwise_cons.mp hys).2]
    by_cases hv : y = v
    · subst hv
      rw [count_eq_zero_of_lt hxs hgt]
      omega
    · rw [List.count_cons_of_ne hv]
  | case5 x xs y ys hne hngt ih =>
    rw [ih (List.pairwise_cons.mp hxs).2 hys]
    by_cases hv : x = v
    · subst hv
      rw [count_eq_zero_of_lt hys (lt_of_le_of_ne (not_lt.mp hngt) hne)]
      omega
    · rw [List.count_cons_of_ne hv]

end

/-- The loop from the cells `xs` and `ys` on, with `out` in the block. It writes over the
first cells of `gap`, and there is one for each value it finds. -/
theorem collect_ok (da xs db ys out gap : List Int)
    (hgap : min xs.length ys.length ≤ gap.length) :
    ∃ s, collect (da ++ xs) (da ++ xs).length (db ++ ys) (db ++ ys).length
        ⟨out.length, da.length, db.length, out ++ gap⟩ = .ok s ∧
      s.t = (out ++ common xs ys).length ∧
      s.temp = out ++ common xs ys ++ gap.drop (common xs ys).length := by
  fun_induction common xs ys generalizing da db out gap with
  | case1 ys =>
    rw [collect, if_neg (by simp)]
    exact ⟨_, rfl, by simp, by simp⟩
  | case2 xs =>
    rw [collect, if_neg (by simp)]
    exact ⟨_, rfl, by simp, by simp⟩
  | case3 xs x ys ih =>
    cases gap with
    | nil => simp at hgap
    | cons g gap =>
      obtain ⟨s, hs, ht, htemp⟩ := ih (da ++ [x]) (db ++ [x]) (out ++ [x]) gap
        (by simp only [List.length_cons] at hgap; omega)
      refine ⟨s, ?_, by simpa using ht, by simpa using htemp⟩
      rw [collect, if_pos ⟨length_lt_mid da xs x, length_lt_mid db ys x⟩]
      simp only [read_mid, write_mid, ok_bind, if_true]
      simpa using hs
  | case4 x xs y ys hne hgt ih =>
    obtain ⟨s, hs, ht, htemp⟩ := ih da (db ++ [y]) out gap
      (by simp only [List.length_cons] at hgap ⊢; omega)
    refine ⟨s, ?_, ht, htemp⟩
    rw [collect, if_pos ⟨length_lt_mid da xs x, length_lt_mid db ys y⟩]
    simp only [read_mid, ok_bind, if_neg hne, if_pos hgt]
    simpa using hs
  | case5 x xs y ys hne hngt ih =>
    obtain ⟨s, hs, ht, htemp⟩ := ih (da ++ [x]) db out gap
      (by simp only [List.length_cons] at hgap ⊢; omega)
    refine ⟨s, ?_, ht, htemp⟩
    rw [collect, if_pos ⟨length_lt_mid da xs x, length_lt_mid db ys y⟩]
    simp only [read_mid, ok_bind, if_neg hne, if_neg hngt]
    simpa using hs

/-- The array `a` as `qsort` leaves it. -/
def sorted (qsort : Qsort Int) (a : List Int) : List Int := qsort.sort compareMethod a

theorem sorted_perm (qsort : Qsort Int) (a : List Int) : (sorted qsort a).Perm a :=
  qsort.perm compareMethod_comparison a

theorem sorted_ascending (qsort : Qsort Int) (a : List Int) :
    (sorted qsort a).Pairwise (· ≤ ·) := by
  refine (qsort.ascending compareMethod_comparison a).imp ?_
  intro x y hxy
  exact (compareMethod_nonpos x y).mp hxy

theorem intersect_ok (qsort : Qsort Int) {malloc : Malloc Int} (nums1 nums2 : List Int)
    {block : List Int} (hblock : malloc.alloc (min nums1.length nums2.length) = some block)
    (returnSize : Int) :
    intersect qsort malloc nums1 nums1.length nums2 nums2.length returnSize =
      .ok ⟨sorted qsort nums1, sorted qsort nums2,
        (common (sorted qsort nums1) (sorted qsort nums2)).length,
        some (common (sorted qsort nums1) (sorted qsort nums2) ++
          block.drop (common (sorted qsort nums1) (sorted qsort nums2)).length)⟩ := by
  have hlen1 := (sorted_perm qsort nums1).length_eq
  have hlen2 := (sorted_perm qsort nums2).length_eq
  have hmin : (if (nums1.length : Int) > nums2.length then (nums2.length : Int)
      else nums1.length).toNat = min nums1.length nums2.length := by
    split <;> omega
  obtain ⟨s, hs, ht, htemp⟩ := collect_ok [] (sorted qsort nums1) [] (sorted qsort nums2) [] block
    (by rw [malloc.length hblock, hlen1, hlen2])
  simp only [List.nil_append, List.length_nil, hlen1, hlen2] at hs ht htemp
  have hcall : ∀ a : List Int, qsort.call a a.length compareMethod = .ok (sorted qsort a) :=
    fun a => qsort.call_all a compareMethod
  simp only [intersect, hcall, ok_bind, hmin, hblock]
  rw [hs, ok_bind, ht, htemp]
  rfl

/-- `intersect` returns what the two arrays have in common, each value as often as it occurs
in both, in ascending order, and writes to no other cells of its block than those. The order
of the two arrays does not matter, nor what the block holds before. -/
theorem intersect_common (qsort : Qsort Int) (nums1 nums2 : List Int) :
    ∃ sorted1 sorted2 found : List Int, found.Pairwise (· ≤ ·) ∧
      (∀ v, found.count v = min (nums1.count v) (nums2.count v)) ∧
      found.length ≤ min nums1.length nums2.length ∧
      ∀ (malloc : Malloc Int) (block : List Int) (returnSize : Int),
        malloc.alloc (min nums1.length nums2.length) = some block →
        intersect qsort malloc nums1 nums1.length nums2 nums2.length returnSize =
          .ok ⟨sorted1, sorted2, found.length, some (found ++ block.drop found.length)⟩ ∧
        intersect qsort malloc nums2 nums2.length nums1 nums1.length returnSize =
          .ok ⟨sorted2, sorted1, found.length, some (found ++ block.drop found.length)⟩ := by
  have hperm1 := sorted_perm qsort nums1
  have hperm2 := sorted_perm qsort nums2
  have hsorted1 := sorted_ascending qsort nums1
  have hsorted2 := sorted_ascending qsort nums2
  refine ⟨sorted qsort nums1, sorted qsort nums2,
    common (sorted qsort nums1) (sorted qsort nums2),
    hsorted1.sublist (common_sublist _ _), ?_, ?_, ?_⟩
  · intro v
    rw [count_common hsorted1 hsorted2, hperm1.count_eq, hperm2.count_eq]
  · rw [← hperm1.length_eq, ← hperm2.length_eq]
    exact common_length_le _ _
  · intro malloc block returnSize hblock
    refine ⟨intersect_ok qsort nums1 nums2 hblock returnSize, ?_⟩
    rw [common_comm]
    rw [min_comm] at hblock
    exact intersect_ok qsort nums2 nums1 hblock returnSize

theorem intersect_common_twos : ∃ out,
    intersect .byMerging (.cleared 0) [1, 2, 2, 1] 4 [2, 2] 2 7 = .ok out ∧
      out.returnSize = 2 ∧ out.temp = some [2, 2] := by
  obtain ⟨sorted1, sorted2, found, -, hcount, hlen, hrun⟩ :=
    intersect_common .byMerging [1, 2, 2, 1] [2, 2]
  have htwos : found.count 2 = 2 := hcount 2
  have hlen' : found.length = 2 := Nat.le_antisymm hlen (htwos ▸ List.count_le_length)
  have hall : ∀ v ∈ found, 2 = v := List.count_eq_length.mp (htwos.trans hlen'.symm)
  obtain rfl : found = [2, 2] :=
    List.eq_replicate_iff.mpr ⟨hlen', fun v hv => (hall v hv).symm⟩
  exact ⟨_, (hrun (.cleared 0) [0, 0] 7 rfl).1, rfl, rfl⟩

end BasicDemo.LeetCode.Intersect
