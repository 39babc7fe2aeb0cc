import BasicDemo.Library.Pivots

namespace BasicDemo.LeetCode.SortArray
open Library.Loops Library.Arrays Library.Pivots

/-- The array and the two indices of `partition`. -/
structure Scan where
  nums : List Int
  i : Int
  j : Int

section Programs

-- The accesses to the array are a parameter. With `plain` this is the program, and with
-- other ones it can be told which cells the program touches.
variable (A : Access Int)

/-- The first inner loop and the `if` behind it. -/
def fromRight (temp : Int) (s : Scan) : Except Fault Scan := do
  let j ← A.scanDown (fun x => x > temp) s.nums s.i s.j
  if s.i < j then
    let x ← A.read s.nums j
    let nums ← A.write s.nums s.i x
    return ⟨nums, s.i + 1, j⟩
  else return ⟨s.nums, s.i, j⟩

/-- The second inner loop and the `if` behind it. -/
def fromLeft (temp : Int) (s : Scan) : Except Fault Scan := do
  let i ← A.scanUp (fun x => x < temp) s.nums s.i s.j
  if i < s.j then
    let x ← A.read s.nums i
    let nums ← A.write s.nums s.j x
    return ⟨nums, i, s.j - 1⟩
  else return ⟨s.nums, i, s.j⟩

/-- One round of the outer loop. -/
def closeIn (temp : Int) (s : Scan) : Except (Stop Fault) (Round Scan Scan) :=
  if s.i < s.j then do
    let s ← fromRight A temp s
    let s ← fromLeft A temp s
    return .next s
  else .ok (.leave s)

/-- The array as it is left, with the place of the pivot. -/
def partitionBy (fuel : Nat) (nums : List Int) (left right : Int) :
    Except (Stop Fault) (List Int × Int) := do
  let temp ← A.read nums left
  let s ← whileLoop (closeIn A temp) fuel ⟨nums, left, right⟩
  let nums ← A.write s.nums s.i temp
  return (nums, s.i)

end Programs

def partition : Nat → List Int → Int → Int → Except (Stop Fault) (List Int × Int) :=
  partitionBy .plain

/-- Neither the calls nor the loops inside them go deeper than `fuel`. -/
def quickSortArray : Nat → List Int → Int → Int → Except (Stop Fault) (List Int)
  | 0, _, _, _ => .error .unfinished
  | fuel + 1, nums, left, right =>
    if left > right then .ok nums
    else do
      let (nums, j) ← partition fuel nums left right
      let nums ← quickSortArray fuel nums left (j - 1)
      quickSortArray fuel nums (j + 1) right

/-- The array as it is left, with what `*returnSize` is set to. -/
def sortArray (fuel : Nat) (nums : List Int) (numsSize : Int) :
    Except (Stop Fault) (List Int × Int) := do
  let returnSize := numsSize
  let nums ← quickSortArray fuel nums 0 (numsSize - 1)
  return (nums, returnSize)

/-- From the right, the first cell that is not larger goes into the free cell behind
`front`, and its own cell is free then. -/
theorem fromRight_ok (temp hole : Int) (front mid back : List Int) {i j : Int}
    (hi : i = front.length) (hj : j = (front ++ mid).length) :
    (fromRight .plain temp ⟨front ++ hole :: (mid ++ back), i, j⟩ =
        .ok ⟨front ++ hole :: (mid ++ back), i, i⟩ ∧ ∀ x ∈ mid, temp ≤ x) ∨
      ∃ rest y passed, mid = rest ++ y :: passed ∧ y ≤ temp ∧ (∀ x ∈ passed, temp ≤ x) ∧
        fromRight .plain temp ⟨front ++ hole :: (mid ++ back), i, j⟩ =
          .ok ⟨front ++ y :: rest ++ y :: (passed ++ back), i + 1, i + 1 + rest.length⟩ := by
  rw [List.length_append] at hj
  obtain ⟨rest, passed, rfl, hscan, hpassed, hrest⟩ := scanDown_ok (fun x => decide (x > temp))
    (front ++ [hole]) mid back (i := i) (j := j) (by simp [hi]) (by simp [hj]; omega)
  have hstop : Access.plain.scanDown (fun x => decide (x > temp))
      (front ++ hole :: (rest ++ passed ++ back)) i j = .ok (i + rest.length) := by
    rw [List.append_cons, ← List.append_assoc, hscan]
    simp only [List.length_append, List.length_singleton]
    congr 1
    omega
  have hpassed : ∀ x ∈ passed, temp ≤ x := by
    intro x hx
    exact Int.le_of_lt (by simpa using hpassed x hx)
  rcases List.eq_nil_or_concat' rest with rfl | ⟨rest, y, rfl⟩
  · refine Or.inl ⟨?_, hpassed⟩
    simp only [fromRight, hstop, ok_bind, List.length_nil]
    simp
  · have hy : y ≤ temp := by simpa using hrest y rest rfl
    refine Or.inr ⟨rest, y, passed, by simp, hy, hpassed, ?_⟩
    have hplace : i + ((rest ++ [y]).length : Int) = i + 1 + rest.length := by
      rw [List.length_append, List.length_singleton]
      omega
    have hsplit : ∀ z : Int, front ++ z :: (rest ++ [y] ++ passed ++ back) =
        front ++ z :: rest ++ y :: (passed ++ back) := by simp
    have hread : read (front ++ hole :: (rest ++ [y] ++ passed ++ back)) (i + 1 + rest.length) =
        .ok y := by
      rw [hsplit]
      exact read_mid (by rw [hi, List.length_append, List.length_cons]; omega)
    have hwrite : write (front ++ hole :: (rest ++ [y] ++ passed ++ back)) i y =
        .ok (front ++ y :: rest ++ y :: (passed ++ back)) := by
      rw [write_mid hi, hsplit]
    simp only [fromRight, Access.plain_read, Access.plain_write, hstop, hplace, hread, hwrite,
      ok_bind]
    rw [if_pos (by omega)]
    rfl

/-- From the left, the first cell that is not smaller goes into the free cell in front of
`back`. -/
theorem fromLeft_ok (temp hole : Int) (front mid back : List Int) {i j : Int}
    (hi : i = front.length) (hj : j = (front ++ mid).length) :
    (fromLeft .plain temp ⟨front ++ mid ++ hole :: back, i, j⟩ =
        .ok ⟨front ++ mid ++ hole :: back, j, j⟩ ∧ ∀ x ∈ mid, x ≤ temp) ∨
      ∃ passed z rest, mid = passed ++ z :: rest ∧ (∀ x ∈ passed, x ≤ temp) ∧ temp ≤ z ∧
        fromLeft .plain temp ⟨front ++ mid ++ hole :: back, i, j⟩ =
          .ok ⟨front ++ passed ++ z :: (rest ++ z :: back), i + passed.length, j - 1⟩ := by
  obtain ⟨passed, rest, rfl, hscan, hpassed, hrest⟩ := scanUp_ok (fun x => decide (x < temp))
    front mid (hole :: back) hi hj
  have hpassed : ∀ x ∈ passed, x ≤ temp := by
    intro x hx
    exact Int.le_of_lt (by simpa using hpassed x hx)
  have hstop : ((front ++ passed).length : Int) = i + passed.length := by
    rw [hi, List.length_append]
    omega
  rw [← List.append_assoc, List.length_append, Int.natCast_add, hstop] at hj
  cases rest with
  | nil =>
    refine Or.inl ⟨?_, by simpa using hpassed⟩
    rw [List.length_nil] at hj
    simp only [fromLeft, hscan, ok_bind, hstop]
    rw [if_neg (by omega), show i + (passed.length : Int) = j by omega]
    rfl
  | cons z rest =>
    have hz : temp ≤ z := by simpa using hrest z rest rfl
    refine Or.inr ⟨passed, z, rest, rfl, hpassed, hz, ?_⟩
    rw [List.length_cons] at hj
    have hsplit : ∀ w : Int, front ++ (passed ++ z :: rest) ++ w :: back =
        front ++ passed ++ z :: (rest ++ w :: back) := by simp
    have hread : read (front ++ (passed ++ z :: rest) ++ hole :: back) (i + passed.length) =
        .ok z := by
      rw [hsplit]
      exact read_mid hstop.symm
    have hwrite : write (front ++ (passed ++ z :: rest) ++ hole :: back) j z =
        .ok (front ++ passed ++ z :: (rest ++ z :: back)) := by
      rw [write_mid (by simp only [List.length_append, List.length_cons]; omega), hsplit]
    simp only [fromLeft, Access.plain_read, Access.plain_write, hscan, hstop, hread, hwrite,
      ok_bind]
    rw [if_pos (by omega)]
    rfl

/-- The cells other than the pivot: `low` and `high` are on their sides already. -/
structure Sides (temp : Int) (cells low mid high : List Int) : Prop where
  perm : (low ++ mid ++ high).Perm cells
  below : ∀ x ∈ low, x ≤ temp
  above : ∀ x ∈ high, temp ≤ x

/-- Cells of `mid` are moved to their sides. -/
theorem Sides.move {temp : Int} {cells low mid high : List Int}
    (h : Sides temp cells low mid high) (lows mid' highs : List Int)
    (hmid : (lows ++ mid' ++ highs).Perm mid) (hlow : ∀ x ∈ lows, x ≤ temp)
    (hhigh : ∀ x ∈ highs, temp ≤ x) :
    Sides temp cells (low ++ lows) mid' (highs ++ high) := by
  refine ⟨?_, List.forall_mem_append.mpr ⟨h.below, hlow⟩,
    List.forall_mem_append.mpr ⟨hhigh, h.above⟩⟩
  refine List.Perm.trans ?_ h.perm
  simpa using (hmid.append_left low).append_right high

/-- The segment between `pre` and `post`, while cell `i` is free. -/
def FreeLeft (temp : Int) (pre cells post : List Int) (s : Scan) : Prop :=
  ∃ low hole mid high, s.nums = pre ++ low ++ hole :: (mid ++ (high ++ post)) ∧
    s.i = (pre ++ low).length ∧ s.j = (pre ++ low ++ mid).length ∧
    Sides temp cells low mid high

/-- The segment while cell `j` is free. -/
def FreeRight (temp : Int) (pre cells post : List Int) (s : Scan) : Prop :=
  ∃ low mid hole high, s.nums = pre ++ low ++ mid ++ hole :: (high ++ post) ∧
    s.i = (pre ++ low).length ∧ s.j = (pre ++ low ++ mid).length ∧
    Sides temp cells low mid high

theorem FreeLeft.fromRight {temp : Int} {pre cells post : List Int} {s : Scan}
    (h : FreeLeft temp pre cells post s) (hlt : s.i < s.j) :
    ∃ t, fromRight .plain temp s = .ok t ∧ FreeRight temp pre cells post t ∧
      t.j - t.i < s.j - s.i := by
  obtain ⟨nums, i, j⟩ := s
  obtain ⟨low, hole, mid, high, hnums, hi, hj, hsides⟩ := h
  simp only at hnums hi hj hlt
  subst hnums
  rcases fromRight_ok temp hole (pre ++ low) mid (high ++ post) hi hj with
    ⟨hrun, hlarge⟩ | ⟨rest, y, passed, rfl, hy, hpassed, hrun⟩
  · refine ⟨_, hrun, ⟨low, [], hole, mid ++ high, by simp, hi, by simp [hi], ?_⟩,
      by simpa using hlt⟩
    simpa using hsides.move [] [] mid (by simp) (by simp) hlarge
  · refine ⟨_, hrun, ⟨low ++ [y], rest, y, passed ++ high, by simp, ?_, ?_, ?_⟩, ?_⟩
    · simp only [hi, List.length_append, List.length_singleton]
      omega
    · simp only [hi, List.length_append, List.length_singleton]
      omega
    · refine hsides.move [y] rest passed ?_ (by simpa using hy) hpassed
      exact List.perm_middle.symm
    · simp only [List.length_append, List.length_cons] at hi hj ⊢
      omega

theorem FreeRight.fromLeft {temp : Int} {pre cells post : List Int} {s : Scan}
    (h : FreeRight temp pre cells post s) :
    ∃ t, fromLeft .plain temp s = .ok t ∧ FreeLeft temp pre cells post t ∧
      t.j - t.i ≤ s.j - s.i := by
  obtain ⟨nums, i, j⟩ := s
  obtain ⟨low, mid, hole, high, hnums, hi, hj, hsides⟩ := h
  simp only at hnums hi hj
  subst hnums
  rcases fromLeft_ok temp hole (pre ++ low) mid (high ++ post) hi hj with
    ⟨hrun, hsmall⟩ | ⟨passed, z, rest, rfl, hpassed, hz, hrun⟩
  · refine ⟨_, hrun, ⟨low ++ mid, hole, [], high, by simp, by simp [hj], by simp [hj], ?_⟩, ?_⟩
    · exact hsides.move mid [] [] (by simp) hsmall (by simp)
    · simp only [List.length_append] at hi hj ⊢
      omega
  · refine ⟨_, hrun, ⟨low ++ passed, z, rest, z :: high, by simp, ?_, ?_, ?_⟩, ?_⟩
    · simp only [hi, List.length_append]
      omega
    · simp only [hj, List.length_append, List.length_cons]
      omega
    · refine hsides.move passed rest [z] ?_ hpassed (by simpa using hz)
      rw [List.append_assoc]
      exact (List.perm_append_singleton z rest).append_left passed
    · simp only [List.length_append, List.length_cons] at hi hj ⊢
      omega

/-- A round leaves cell `i` free, with fewer cells between the two indices. -/
theorem FreeLeft.step {temp : Int} {pre cells post : List Int} {s : Scan}
    (h : FreeLeft temp pre cells post s) :
    (∃ t, closeIn .plain temp s = .ok (.next t) ∧ FreeLeft temp pre cells post t ∧
      (t.j - t.i).toNat < (s.j - s.i).toNat) ∨
    ∃ t, closeIn .plain temp s = .ok (.leave t) ∧ FreeLeft temp pre cells post t ∧ t.j ≤ t.i := by
  by_cases hlt : s.i < s.j
  · obtain ⟨t, ht, hright, hless⟩ := h.fromRight hlt
    obtain ⟨u, hu, hleft, hle⟩ := hright.fromLeft
    refine Or.inl ⟨u, ?_, hleft, by omega⟩
    simp only [closeIn, if_pos hlt, ht, hu, lift_ok, ok_bind, pure_eq_ok]
  · exact Or.inr ⟨s, if_neg hlt, h, by omega⟩

/-- The segment behind `pre` is taken apart around its first element. -/
theorem partition_ok (pre cells post : List Int) (temp : Int) {fuel : Nat} {left right : Int}
    (hleft : left = pre.length) (hright : right = (pre ++ cells).length)
    (enough : cells.length < fuel) :
    ∃ low high, Parted (temp :: cells) low temp high ∧
      partition fuel (pre ++ temp :: cells ++ post) left right =
        .ok (pre ++ low ++ temp :: (high ++ post), (pre ++ low).length) := by
  have hstart : FreeLeft temp pre cells post ⟨pre ++ temp :: cells ++ post, left, right⟩ :=
    ⟨[], temp, cells, [], by simp, by simp [hleft], by simp [hright], by simp, by simp, by simp⟩
  have hloop : ∃ t,
      whileLoop (closeIn .plain temp) fuel ⟨pre ++ temp :: cells ++ post, left, right⟩ = .ok t ∧
      FreeLeft temp pre cells post t ∧ t.j ≤ t.i :=
    whileLoop_ok _ _ (fun s => (s.j - s.i).toNat) (fun s hs => hs.step) hstart (by
      simp only [hleft, hright, List.length_append]
      omega)
  obtain ⟨t, ht, ⟨low, hole, mid, high, hnums, hi, hj, hsides⟩, hend⟩ := hloop
  obtain rfl : mid = [] := by
    rw [List.length_append] at hj
    exact List.length_eq_zero_iff.mp (by omega)
  refine ⟨low, high, ⟨?_, hsides.below, hsides.above⟩, ?_⟩
  · have hperm := hsides.perm
    rw [List.append_nil] at hperm
    exact List.perm_middle.trans (hperm.cons temp)
  · have hread : read (pre ++ temp :: cells ++ post) left = .ok temp := read_segment hleft
    have hwrite : write t.nums t.i temp = .ok (pre ++ low ++ temp :: (high ++ post)) := by
      rw [hnums]
      exact write_mid hi temp
    simp only [partition, partitionBy, Access.plain_read, Access.plain_write, hread, ht, hwrite,
      lift_ok, ok_bind, pure_eq_ok]
    rw [hi]

/-- The segment behind `pre` is put in order, and nothing else is changed. -/
theorem quickSortArray_ok (fuel : Nat) (pre cells post : List Int) {left right : Int}
    (hleft : left = pre.length) (hright : right = (pre ++ cells).length - 1)
    (enough : cells.length < fuel) :
    ∃ out, quickSortArray fuel (pre ++ cells ++ post) left right = .ok (pre ++ out ++ post) ∧
      out.Perm cells ∧ out.Pairwise (· ≤ ·) := by
  induction fuel generalizing pre cells post left right with
  | zero => omega
  | succ fuel ih =>
    cases cells with
    | nil =>
      rw [List.append_nil] at hright
      refine ⟨[], ?_, List.Perm.refl _, List.Pairwise.nil⟩
      rw [quickSortArray, if_pos (by omega)]
    | cons temp rest =>
      rw [List.length_append, List.length_cons] at hright
      rw [List.length_cons] at enough
      have hlast : right = (pre ++ rest).length := by
        rw [hright, List.length_append]
        omega
      obtain ⟨low, high, hparted, hpartition⟩ :=
        partition_ok pre rest post temp hleft hlast (show rest.length < fuel by omega)
      have hlen := hparted.perm.length_eq
      simp only [List.length_append, List.length_cons] at hlen
      obtain ⟨low', hfirst, hlow, slow⟩ := ih pre low (temp :: (high ++ post)) hleft rfl (by omega)
      have hsplit : ∀ xs ys : List Int, pre ++ xs ++ temp :: (ys ++ post) =
          pre ++ xs ++ [temp] ++ ys ++ post := by simp
      have hstart : ((pre ++ low).length : Int) + 1 = (pre ++ low' ++ [temp]).length := by
        simp only [List.length_append, List.length_singleton, hlow.length_eq]
        omega
      have hstop : right = (pre ++ low' ++ [temp] ++ high).length - 1 := by
        simp only [hright, List.length_append, List.length_singleton, hlow.length_eq]
        omega
      obtain ⟨high', hsecond, hhigh, shigh⟩ :=
        ih (pre ++ low' ++ [temp]) high post hstart hstop (by omega)
      obtain ⟨hperm, hsorted⟩ := hparted.sorted hlow hhigh slow shigh
      refine ⟨low' ++ temp :: high', ?_, hperm, hsorted⟩
      rw [← hsplit, ← hsplit] at hsecond
      simp only [quickSortArray, if_neg (show ¬ left > right by omega), hpartition, hfirst, hsecond,
        ok_bind]
      simp

theorem partition_extends {fuel fuel' : Nat} (h : fuel ≤ fuel') (nums : List Int)
    (left right : Int) :
    Extends (partition fuel nums left right) (partition fuel' nums left right) := by
  refine (Extends.refl _).bind ?_
  intro temp
  refine (whileLoop_extends (fun s => Extends.refl _) h _).bind ?_
  intro s
  exact Extends.refl _

/-- With more fuel the sort does the same. -/
theorem quickSortArray_extends {fuel fuel' : Nat} (h : fuel ≤ fuel') (nums : List Int)
    (left right : Int) :
    Extends (quickSortArray fuel nums left right) (quickSortArray fuel' nums left right) := by
  induction fuel generalizing fuel' nums left right with
  | zero =>
    intro out hout
    cases hout
  | succ fuel ih =>
    obtain ⟨n, rfl⟩ : ∃ n, fuel' = n + 1 := ⟨fuel' - 1, by omega⟩
    have hn : fuel ≤ n := by omega
    rw [quickSortArray, quickSortArray]
    split
    · exact Extends.refl _
    · refine (partition_extends hn nums left right).bind ?_
      intro s
      exact (ih hn s.1 left (s.2 - 1)).bind (fun nums => ih hn nums (s.2 + 1) right)

/-- The sort comes to its end, with every access inside the array. -/
theorem sortArray_sorts (nums : List Int) :
    ∃ out, (∀ fuel, nums.length < fuel →
        sortArray fuel nums nums.length = .ok (out, nums.length)) ∧
      out.Perm nums ∧ out.Pairwise (· ≤ ·) := by
  obtain ⟨out, hout, hperm, hsorted⟩ := quickSortArray_ok (nums.length + 1) [] nums [] rfl rfl
    (Nat.lt_succ_self _)
  rw [List.nil_append, List.append_nil, List.nil_append, List.append_nil] at hout
  refine ⟨out, ?_, hperm, hsorted⟩
  intro fuel hfuel
  have hmore := quickSortArray_extends hfuel nums 0 (nums.length - 1) out hout
  rw [sortArray, hmore]
  rfl

end BasicDemo.LeetCode.SortArray
