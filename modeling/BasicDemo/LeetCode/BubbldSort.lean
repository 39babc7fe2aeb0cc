import BasicDemo.Library.Arrays

namespace BasicDemo.LeetCode.BubbldSort
open Library.Loops Library.Arrays

/-- One round of the inner loop. -/
def compareSwap (i j : Nat) (array : List Int) : Except Fault (List Int) := do
  let x ← read array i
  let y ← read array j
  if x < y then swap array i j else return array

def bubbldSort (array : List Int) (length : Int) : Except Fault (List Int) :=
  forLoop 0 length array (fun i array => forLoop 0 (length - 1) array (compareSwap i))

/-- A round on two cells, cell `i` in front of cell `j` or behind it. -/
theorem compareSwap_ok (as bs cs : List Int) (x y : Int) {i j : Nat} (hi : i = as.length)
    (hj : j = (as ++ x :: bs).length) :
    compareSwap i j (as ++ x :: bs ++ y :: cs) =
      .ok (if x < y then as ++ y :: bs ++ x :: cs else as ++ x :: bs ++ y :: cs) ∧
    compareSwap j i (as ++ x :: bs ++ y :: cs) =
      .ok (if y < x then as ++ y :: bs ++ x :: cs else as ++ x :: bs ++ y :: cs) := by
  obtain ⟨hswap, hswap'⟩ :=
    swap_mid as bs cs x y (congrArg Int.ofNat hi) (congrArg Int.ofNat hj)
  have hx : read (as ++ x :: bs ++ y :: cs) i = .ok x := read_segment (congrArg Int.ofNat hi)
  have hy : read (as ++ x :: bs ++ y :: cs) j = .ok y := read_mid (congrArg Int.ofNat hj)
  constructor
  · rw [compareSwap, hx, ok_bind, hy, ok_bind]
    split
    · exact hswap
    · rfl
  · rw [compareSwap, hy, ok_bind, hx, ok_bind]
    split
    · exact hswap'
    · rfl

/-- A cell compared with itself stays. -/
theorem compareSwap_self {as cs : List Int} {x : Int} {i : Nat} (hi : i = as.length) :
    compareSwap i i (as ++ x :: cs) = .ok (as ++ x :: cs) := by
  have hx : read (as ++ x :: cs) i = .ok x := read_mid (congrArg Int.ofNat hi)
  rw [compareSwap, hx, ok_bind, ok_bind, if_neg (by omega)]
  rfl

/-- The array before round `j` of pass `i`: the cells in front of cell `i` are in order,
and those of them that were compared with it hold nothing larger. -/
structure Inserting (nums : List Int) (i j : Nat) (array : List Int) : Prop where
  perm : array.Perm nums
  cells : ∃ small large x post, array = small ++ large ++ x :: post ∧
    (small ++ large).length = i ∧ small.length = min i j ∧
    (small ++ large).Pairwise (· ≤ ·) ∧ ∀ y ∈ small, y ≤ x

/-- A smaller value takes the place of `y`. -/
theorem pairwise_lower {small large : List Int} {x y : Int}
    (h : (small ++ y :: large).Pairwise (· ≤ ·)) (hx : ∀ z ∈ small, z ≤ x) (hxy : x ≤ y) :
    (small ++ x :: large).Pairwise (· ≤ ·) := by
  obtain ⟨hsmall, hrest, hcross⟩ := List.pairwise_append.mp h
  obtain ⟨hy, hlarge⟩ := List.pairwise_cons.mp hrest
  refine List.pairwise_append.mpr ⟨hsmall, List.pairwise_cons.mpr ⟨?_, hlarge⟩, ?_⟩
  · intro z hz
    exact Int.le_trans hxy (hy z hz)
  · intro z hz w hw
    rcases List.mem_cons.mp hw with rfl | hw
    · exact hx z hz
    · exact hcross z hz w (List.mem_cons_of_mem _ hw)

/-- In front of cell `i` the smaller of the two is put in its place. -/
theorem Inserting.before {nums array : List Int} {i j : Nat} (h : Inserting nums i j array)
    (hj : j < i) : ∃ t, compareSwap i j array = .ok t ∧ Inserting nums i (j + 1) t := by
  obtain ⟨small, large, x, post, rfl, hi, hsmall, hsorted, hle⟩ := h.cells
  rw [List.length_append] at hi
  cases large with
  | nil =>
    rw [List.length_nil] at hi
    omega
  | cons y large =>
    rw [List.length_cons] at hi
    have hround := (compareSwap_ok small large post y x (i := j) (j := i) (by omega)
      (by rw [List.length_append, List.length_cons]; omega)).2
    have hy : ∀ z ∈ small, z ≤ y := by
      intro z hz
      exact (List.pairwise_append.mp hsorted).2.2 z hz y List.mem_cons_self
    by_cases hxy : x < y
    · rw [if_pos hxy] at hround
      have hxy := Int.le_of_lt hxy
      refine ⟨_, hround, (exchange_perm _ _ _ _ _).trans h.perm, small ++ [x], large, y, post,
        by simp, ?_, ?_, ?_, List.forall_mem_append.mpr ⟨hy, by simpa using hxy⟩⟩
      · simp only [List.length_append, List.length_singleton]
        omega
      · rw [List.length_append, List.length_singleton]
        omega
      · simpa using pairwise_lower hsorted hle hxy
    · rw [if_neg hxy] at hround
      have hyx := Int.not_lt.mp hxy
      refine ⟨_, hround, h.perm, small ++ [y], large, x, post, by simp, ?_, ?_,
        by simpa using hsorted, List.forall_mem_append.mpr ⟨hle, by simpa using hyx⟩⟩
      · simp only [List.length_append, List.length_singleton]
        omega
      · rw [List.length_append, List.length_singleton]
        omega

/-- From cell `i` on the larger of the two is taken to it. -/
theorem Inserting.behind {nums array : List Int} {i j : Nat} (h : Inserting nums i j array)
    (hij : i ≤ j) (hj : j < nums.length) :
    ∃ t, compareSwap i j array = .ok t ∧ Inserting nums i (j + 1) t := by
  have hlen := h.perm.length_eq
  obtain ⟨small, large, x, post, rfl, hi, hsmall, hsorted, hle⟩ := h.cells
  obtain rfl : large = [] := by
    rw [List.length_append] at hi
    exact List.length_eq_zero_iff.mp (by omega)
  rw [List.append_nil] at hi hsorted hlen ⊢
  by_cases hsame : i = j
  · subst hsame
    refine ⟨_, compareSwap_self hi.symm, by simpa using h.perm, small, [], x, post, by simp,
      by simp [hi], by omega, by simpa using hsorted, hle⟩
  · rw [List.length_append, List.length_cons] at hlen
    obtain ⟨seen, y, rest, rfl, hseen⟩ := exists_cell (a := post) (n := j - i - 1) (by omega)
    have hround := (compareSwap_ok small seen rest x y (i := i) (j := j) hi.symm
      (by rw [List.length_append, List.length_cons]; omega)).1
    have hsplit : ∀ u v : Int,
        small ++ u :: seen ++ v :: rest = small ++ u :: (seen ++ v :: rest) := by simp
    rw [hsplit, hsplit] at hround
    by_cases hxy : x < y
    · rw [if_pos hxy] at hround
      refine ⟨_, hround, ?_, small, [], y, seen ++ x :: rest, by simp, by simp [hi], by omega,
        by simpa using hsorted, ?_⟩
      · refine List.Perm.trans ?_ h.perm
        simpa using exchange_perm small seen rest x y
      · intro z hz
        exact Int.le_trans (hle z hz) (Int.le_of_lt hxy)
    · rw [if_neg hxy] at hround
      exact ⟨_, hround, by simpa using h.perm, small, [], x, seen ++ y :: rest, by simp,
        by simp [hi], by omega, by simpa using hsorted, hle⟩

theorem Inserting.step {nums array : List Int} {i j : Nat} (h : Inserting nums i j array)
    (hj : j < nums.length) :
    ∃ t, compareSwap i j array = .ok t ∧ Inserting nums i (j + 1) t := by
  by_cases hij : j < i
  · exact h.before hij
  · exact h.behind (by omega) hj

/-- The array before pass `i`: the first `i` cells are in order. -/
def Sorted (nums : List Int) (i : Nat) (array : List Int) : Prop :=
  array.Perm nums ∧ ∃ front back, array = front ++ back ∧ front.length = i ∧
    front.Pairwise (· ≤ ·)

/-- A pass takes one more cell into the part that is in order. -/
theorem Sorted.step {nums array : List Int} {i : Nat} (h : Sorted nums i array)
    (hi : i < nums.length) :
    ∃ t, forLoop 0 (nums.length - 1) array (compareSwap i) = .ok t ∧ Sorted nums (i + 1) t := by
  obtain ⟨hperm, front, back, rfl, hfront, hsorted⟩ := h
  have hlen := hperm.length_eq
  rw [List.length_append] at hlen
  cases back with
  | nil =>
    rw [List.length_nil] at hlen
    omega
  | cons x back =>
    have hstart : Inserting nums i 0 (front ++ x :: back) :=
      ⟨hperm, [], front, x, back, by simp, by simpa using hfront, by simp, hsorted, by simp⟩
    have hloop : ∃ t, forLoop 0 (nums.length - 1) (front ++ x :: back) (compareSwap i) = .ok t ∧
        Inserting nums i (nums.length - 1) t :=
      forLoop_ok (by omega) _ hstart (fun j t _ hj ht => ht.step (by omega))
    obtain ⟨t, ht, hperm, small, large, y, post, rfl, hlen, hsmall, hsorted, hle⟩ := hloop
    obtain rfl : large = [] := by
      rw [List.length_append] at hlen
      exact List.length_eq_zero_iff.mp (by omega)
    rw [List.append_nil] at hlen hsorted
    refine ⟨_, ht, hperm, small ++ [y], post, by simp, by simp [hlen], ?_⟩
    refine List.pairwise_append.mpr ⟨hsorted, List.pairwise_singleton _ _, ?_⟩
    intro z hz w hw
    rw [List.mem_singleton.mp hw]
    exact hle z hz

/-- Every pass succeeds, so no access is outside the array, and the array is left in
ascending order. -/
theorem bubbldSort_sorts (array : List Int) :
    ∃ out, bubbldSort array array.length = .ok out ∧ out.Perm array ∧
      out.Pairwise (· ≤ ·) := by
  have hstart : Sorted array 0 array := ⟨List.Perm.refl _, [], array, rfl, rfl, List.Pairwise.nil⟩
  have hloop : ∃ out, bubbldSort array array.length = .ok out ∧ Sorted array array.length out :=
    forLoop_ok (by omega) _ hstart (fun i t _ hi ht => ht.step hi)
  obtain ⟨out, hout, hperm, front, back, rfl, hfront, hsorted⟩ := hloop
  have hlen := hperm.length_eq
  rw [List.length_append] at hlen
  obtain rfl : back = [] := List.length_eq_zero_iff.mp (by omega)
  exact ⟨_, hout, hperm, by simpa using hsorted⟩

end BasicDemo.LeetCode.BubbldSort
