import BasicDemo.Library.Arrays
import Mathlib.Data.List.Basic

namespace BasicDemo.LeetCode.MergeSortedArray
open Library.Loops Library.Arrays

variable {α : Type}

/-- The three cursors and the array written to. -/
structure Cursors (α : Type) where
  p : Nat
  q : Nat
  i : Nat
  result : List α

/-- The first loop. A cell is compared by the `int` in it, its `key`; cells of the source
hold nothing else, but here cells of equal value can be told apart. -/
def mergeLoop (key : α → Int) (a b : List α) (aLen bLen : Int) (s : Cursors α) :
    Except Fault (Cursors α) :=
  if s.p < aLen ∧ s.q < bLen then do
    let x ← read a s.p
    let y ← read b s.q
    if key x ≤ key y then
      let result ← write s.result s.i x
      mergeLoop key a b aLen bLen ⟨s.p + 1, s.q, s.i + 1, result⟩
    else
      let result ← write s.result s.i y
      mergeLoop key a b aLen bLen ⟨s.p, s.q + 1, s.i + 1, result⟩
  else .ok s
termination_by (aLen - s.p + (bLen - s.q)).toNat

/-- The second and the third loop: what is left of one array from `p` on. -/
def copyLoop (a : List α) (aLen : Int) (p i : Nat) (result : List α) :
    Except Fault (Nat × List α) :=
  if p < aLen then do
    let x ← read a p
    let result ← write result i x
    copyLoop a aLen (p + 1) (i + 1) result
  else .ok (i, result)
termination_by (aLen - p).toNat

/-- The array `result` as it is left. -/
def mergeSortedArray (key : α → Int) (a : List α) (aLen : Int) (b : List α) (bLen : Int)
    (result : List α) : Except Fault (List α) := do
  let s ← mergeLoop key a b aLen bLen ⟨0, 0, 0, result⟩
  let (i, result) ← copyLoop a aLen s.p s.i s.result
  let (_, result) ← copyLoop b bLen s.q i result
  return result

/-- The arrays `nums1` and `nums2` as they are left. The loops are those above, and
`result` is the local array, with what its cells hold when it is declared. -/
def merge (key : α → Int) (nums1 : List α) (_nums1Size m : Int) (nums2 : List α)
    (_nums2Size n : Int) (result : List α) : Except Fault (List α × List α) := do
  let result ← mergeSortedArray key nums1 m nums2 n result
  let nums1 ← forLoop 0 result.length nums1 (copyCell result)
  return (nums1, nums2)

/-- The order that the first loop compares by. -/
def le (key : α → Int) (x y : α) : Bool := key x ≤ key y

theorem copyLoop_ok (done xs rest out gap : List α) (hgap : xs.length ≤ gap.length) :
    copyLoop (done ++ xs ++ rest) (done ++ xs).length done.length out.length (out ++ gap) =
      .ok ((out ++ xs).length, out ++ xs ++ gap.drop xs.length) := by
  induction xs generalizing done out gap with
  | nil =>
    rw [copyLoop, if_neg (by simp)]
    simp
  | cons x xs ih =>
    cases gap with
    | nil => simp at hgap
    | cons g gap =>
      have hread : read (done ++ x :: xs ++ rest) done.length = .ok x := read_segment rfl
      have hwrite : write (out ++ g :: gap) out.length x = .ok ((out ++ [x]) ++ gap) := by
        rw [write_mid rfl]
        simp
      have hnext := ih (done ++ [x]) (out ++ [x]) gap (by simpa using hgap)
      simp only [List.append_assoc, List.length_append, List.length_cons, List.length_nil,
        List.cons_append, List.nil_append, Nat.zero_add] at hread hwrite hnext ⊢
      rw [copyLoop, if_pos (by omega), hread, ok_bind, hwrite, ok_bind, hnext]
      simp

theorem mergeLoop_step (key : α → Int) {a b out gap : List α} {aLen bLen : Int} {p q : Nat}
    {x y g : α} (hp : p < aLen) (hq : q < bLen) (hx : read a p = .ok x) (hy : read b q = .ok y) :
    mergeLoop key a b aLen bLen ⟨p, q, out.length, out ++ g :: gap⟩ =
      if le key x y then
        mergeLoop key a b aLen bLen ⟨p + 1, q, (out ++ [x]).length, (out ++ [x]) ++ gap⟩
      else mergeLoop key a b aLen bLen ⟨p, q + 1, (out ++ [y]).length, (out ++ [y]) ++ gap⟩ := by
  have hwrite : ∀ z, write (out ++ g :: gap) out.length z = .ok ((out ++ [z]) ++ gap) := by
    intro z
    rw [write_mid rfl]
    simp
  rw [mergeLoop, if_pos ⟨hp, hq⟩]
  simp only [hx, hy, hwrite, ok_bind, le, decide_eq_true_eq, List.length_append,
    List.length_cons, List.length_nil]

/-- The first loop writes the front part of the merged list and stops where one of the two
arrays has nothing left. -/
theorem mergeLoop_ok (key : α → Int) {a b : List α} (da xs ra db ys rb out gap : List α)
    (ha : a = da ++ xs ++ ra) (hb : b = db ++ ys ++ rb)
    (hgap : xs.length + ys.length ≤ gap.length) :
    ∃ front da' xs' db' ys', mergeLoop key a b (da ++ xs).length (db ++ ys).length
        ⟨da.length, db.length, out.length, out ++ gap⟩ =
      .ok ⟨da'.length, db'.length, (out ++ front).length, out ++ front ++ gap.drop front.length⟩ ∧
      da' ++ xs' = da ++ xs ∧ db' ++ ys' = db ++ ys ∧
      xs.merge ys (le key) = front ++ (xs' ++ ys') := by
  have hread : ∀ (d r l l' : List α) (z : α), l = d ++ z :: l' ++ r →
      read l d.length = .ok z := by
    intro d r l l' z hl
    rw [hl]
    exact read_segment rfl
  fun_induction List.merge xs ys (le key) generalizing da db out gap with
  | case1 ys =>
    refine ⟨[], da, [], db, ys, ?_, rfl, rfl, by simp⟩
    rw [mergeLoop, if_neg (by simp)]
    simp
  | case2 xs =>
    refine ⟨[], da, xs, db, [], ?_, rfl, rfl, by simp⟩
    rw [mergeLoop, if_neg (by simp)]
    simp
  | case3 x xs y ys hxy ih =>
    cases gap with
    | nil => simp at hgap
    | cons g gap =>
      obtain ⟨front, da', xs', db', ys', hloop, hda, hdb, hmerge⟩ :=
        ih (da ++ [x]) db (out ++ [x]) gap (by simp [ha]) hb (by
          simp only [List.length_cons] at hgap ⊢
          omega)
      refine ⟨x :: front, da', xs', db', ys', ?_, by simpa using hda, hdb, by simp [hmerge]⟩
      rw [mergeLoop_step key (length_lt_mid da xs x) (length_lt_mid db ys y)
        (hread _ _ _ _ _ ha) (hread _ _ _ _ _ hb), if_pos hxy]
      simpa using hloop
  | case4 x xs y ys hxy ih =>
    cases gap with
    | nil => simp at hgap
    | cons g gap =>
      obtain ⟨front, da', xs', db', ys', hloop, hda, hdb, hmerge⟩ :=
        ih da (db ++ [y]) (out ++ [y]) gap ha (by simp [hb]) (by
          simp only [List.length_cons] at hgap ⊢
          omega)
      refine ⟨y :: front, da', xs', db', ys', ?_, hda, by simpa using hdb, by simp [hmerge]⟩
      rw [mergeLoop_step key (length_lt_mid da xs x) (length_lt_mid db ys y)
        (hread _ _ _ _ _ ha) (hread _ _ _ _ _ hb), if_neg hxy]
      simpa using hloop

/-- Of `a` and `b` the cells `xs` and `ys` in front are merged. -/
theorem mergeSortedArray_ok (key : α → Int) (xs ra ys rb result : List α)
    (hlen : xs.length + ys.length ≤ result.length) :
    mergeSortedArray key (xs ++ ra) xs.length (ys ++ rb) ys.length result =
      .ok (xs.merge ys (le key) ++ result.drop (xs.length + ys.length)) := by
  obtain ⟨front, da, xs', db, ys', hloop, hda, hdb, hmerge⟩ :=
    mergeLoop_ok key [] xs ra [] ys rb [] result rfl rfl hlen
  simp only [List.nil_append, List.length_nil] at hloop hda hdb
  have htotal := congrArg List.length hmerge
  rw [List.length_merge, List.length_append, List.length_append] at htotal
  have hfirst := copyLoop_ok da xs' ra front (result.drop front.length)
    (by rw [List.length_drop]; omega)
  have hsecond := copyLoop_ok db ys' rb (front ++ xs')
    ((result.drop front.length).drop xs'.length) (by simp only [List.length_drop]; omega)
  rw [hda] at hfirst
  rw [hdb] at hsecond
  simp only [mergeSortedArray, hloop, hfirst, hsecond, ok_bind, pure_eq_ok]
  rw [hmerge, htotal, List.drop_drop, List.drop_drop]
  simp only [List.append_assoc]

theorem merge_ok (key : α → Int) (xs ys nums1 nums2 result : List α)
    (hxs : nums1.take xs.length = xs) (hys : nums2.take ys.length = ys)
    (hroom : xs.length + ys.length ≤ nums1.length)
    (hlen : result.length = xs.length + ys.length) :
    merge key nums1 nums1.length xs.length nums2 nums2.length ys.length result =
      .ok (xs.merge ys (le key) ++ nums1.drop (xs.length + ys.length), nums2) := by
  have hmerge := mergeSortedArray_ok key xs (nums1.drop xs.length) ys (nums2.drop ys.length)
    result (by omega)
  have h1 : xs ++ nums1.drop xs.length = nums1 := by
    conv_rhs => rw [← List.take_append_drop xs.length nums1, hxs]
  have h2 : ys ++ nums2.drop ys.length = nums2 := by
    conv_rhs => rw [← List.take_append_drop ys.length nums2, hys]
  rw [h1, h2, List.drop_eq_nil_of_le (by omega), List.append_nil] at hmerge
  have hback := copyCells_ok (xs.merge ys (le key)) nums1
    (by rw [List.length_merge]; omega)
  rw [merge, hmerge, ok_bind, hback, ok_bind, List.length_merge]
  rfl

theorem merge_ascending (key : α → Int) {xs ys : List α}
    (hxs : xs.Pairwise (fun x y => key x ≤ key y)) (hys : ys.Pairwise (fun x y => key x ≤ key y)) :
    (xs.merge ys (le key)).Pairwise (fun x y => key x ≤ key y) := by
  have htrans : ∀ x y z, le key x y = true → le key y z = true → le key x z = true := by
    simp only [le, decide_eq_true_eq]
    intro x y z hxy hyz
    omega
  have htotal : ∀ x y, (le key x y || le key y x) = true := by
    simp only [le, Bool.or_eq_true, decide_eq_true_eq]
    intro x y
    omega
  simpa [le] using List.pairwise_merge htrans htotal xs ys (by simpa [le] using hxs)
    (by simpa [le] using hys)

/-- Among cells of equal value those of the first array come first, each array's in its
own order. -/
theorem merge_stable (key : α → Int) {xs ys : List α}
    (hxs : xs.Pairwise (fun x y => key x ≤ key y)) (v : Int) :
    (xs.merge ys (le key)).filter (fun z => key z = v) =
      xs.filter (fun z => key z = v) ++ ys.filter (fun z => key z = v) := by
  fun_induction List.merge xs ys (le key) with
  | case1 ys => simp
  | case2 xs => simp
  | case3 x xs y ys hxy ih =>
    rw [List.filter_cons, ih (List.pairwise_cons.mp hxs).2, List.filter_cons (x := x)]
    split <;> simp
  | case4 x xs y ys hxy ih =>
    rw [List.filter_cons, ih hxs, List.filter_cons (x := y)]
    split
    · rename_i hv
      have hlarge : ∀ z ∈ x :: xs, key y < key z := by
        simp only [le, decide_eq_true_eq] at hxy
        intro z hz
        rcases List.mem_cons.mp hz with rfl | hz
        · omega
        · have := (List.pairwise_cons.mp hxs).1 z hz
          omega
      have hnone : (x :: xs).filter (fun z => key z = v) = [] := by
        apply List.filter_eq_nil_iff.mpr
        intro z hz
        have := hlarge z hz
        simp only [decide_eq_true_eq] at hv ⊢
        omega
      rw [hnone]
      rfl
    · rfl

/-- `mergeSortedArray` writes the cells of `a` and `b` in ascending order over the first
cells of `result`, those of `a` before equal ones of `b`, and `merge` leaves the same in
`nums1`, the rest of `nums1` and `nums2` as they were. -/
theorem merges_agree (key : α → Int) (a b : List α)
    (ha : a.Pairwise (fun x y => key x ≤ key y)) (hb : b.Pairwise (fun x y => key x ≤ key y)) :
    ∃ merged : List α, merged.length = a.length + b.length ∧
      merged.Pairwise (fun x y => key x ≤ key y) ∧ merged.Perm (a ++ b) ∧
      (∀ v, merged.filter (fun z => key z = v) =
        a.filter (fun z => key z = v) ++ b.filter (fun z => key z = v)) ∧
      (∀ result, a.length + b.length ≤ result.length →
        mergeSortedArray key a a.length b b.length result =
          .ok (merged ++ result.drop (a.length + b.length))) ∧
      ∀ nums1 nums2 result, nums1.take a.length = a → nums2.take b.length = b →
        a.length + b.length ≤ nums1.length → result.length = a.length + b.length →
        merge key nums1 nums1.length a.length nums2 nums2.length b.length result =
          .ok (merged ++ nums1.drop (a.length + b.length), nums2) := by
  refine ⟨a.merge b (le key), List.length_merge _ a b, merge_ascending key ha hb,
    List.merge_perm_append _, merge_stable key ha, ?_, ?_⟩
  · intro result hlen
    simpa using mergeSortedArray_ok key a [] b [] result hlen
  · intro nums1 nums2 result h1 h2 hroom hlen
    exact merge_ok key a b nums1 nums2 result h1 h2 hroom hlen

theorem merges_agree_ints :
    ∃ merged : List Int, merged.length = 5 ∧ merged.Pairwise (fun x y => x ≤ y) ∧
      merged.Perm ([1, 4, 6] ++ [4, 5]) ∧
      (∀ v, merged.filter (fun z => z = v) =
        [1, 4, 6].filter (fun z => z = v) ++ [4, 5].filter (fun z => z = v)) ∧
      (∀ result, 5 ≤ result.length →
        mergeSortedArray id [1, 4, 6] 3 [4, 5] 2 result = .ok (merged ++ result.drop 5)) ∧
      ∀ nums1 nums2 result, nums1.take 3 = [1, 4, 6] → nums2.take 2 = [4, 5] →
        5 ≤ nums1.length → result.length = 5 →
        merge id nums1 nums1.length 3 nums2 nums2.length 2 result =
          .ok (merged ++ nums1.drop 5, nums2) :=
  merges_agree id [1, 4, 6] [4, 5] (by simp) (by simp)

end BasicDemo.LeetCode.MergeSortedArray
