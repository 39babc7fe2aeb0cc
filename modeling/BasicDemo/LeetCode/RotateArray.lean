import BasicDemo.Library.Arrays
import Mathlib.Data.List.Rotate
import Mathlib.Data.Nat.ModEq

namespace BasicDemo.LeetCode.RotateArray
open Library.Loops Library.Arrays

/-- One round of the inner loop, on the array and `previous`. -/
def shift (j : Nat) (s : List Int × Int) : Except Fault (List Int × Int) := do
  let temp ← read s.1 j
  let nums ← write s.1 j s.2
  return (nums, temp)

/-- One round of the outer loop: every element moves by one place. -/
def shiftAll (numsSize : Int) (_ : Nat) (nums : List Int) : Except Fault (List Int) := do
  let previous ← read nums (numsSize - 1)
  let s ← forLoop 0 numsSize (nums, previous) shift
  return s.1

def rotateArray (nums : List Int) (numsSize k : Int) : Except Fault (List Int) :=
  forLoop 0 k nums (shiftAll numsSize)

/-- `stop` is called `end` in the source. -/
def reverse (array : List Int) (start stop : Int) : Except Fault (List Int) :=
  if start < stop then do
    let temp ← read array start
    let last ← read array stop
    let array ← write array start last
    let array ← write array stop temp
    reverse array (start + 1) (stop - 1)
  else .ok array
termination_by (stop - start).toNat

def rotateArrayThree (nums : List Int) (numsSize k : Int) : Except Fault (List Int) := do
  let k ← rem k numsSize
  let nums ← reverse nums 0 (numsSize - 1)
  let nums ← reverse nums 0 (k - 1)
  reverse nums k (numsSize - 1)

/-- The index `(i + k)%numsSize`; the sum is one of `int`, in two's complement. -/
def place (numsSize k : Int) (i : Nat) : Except Fault Int := rem (wrap (i + k)) numsSize

/-- One round of the first loop. -/
def scatter (nums : List Int) (numsSize k : Int) (i : Nat) (array : List Int) :
    Except Fault (List Int) := do
  let p ← place numsSize k i
  let x ← read nums i
  write array p x

/-- `array` is the local array, with what its cells hold when it is declared. -/
def rotateArrayTwo (nums : List Int) (numsSize k : Int) (array : List Int) :
    Except Fault (List Int) := do
  let array ← forLoop 0 numsSize array (scatter nums numsSize k)
  forLoop 0 numsSize nums (copyCell array)

/-- What the inner loop has done before round `j`: the cells behind are as they were, and
those before it, followed by `previous`, are the last element and the cells shifted. -/
def Shifted (nums : List Int) (last : Int) (j : Nat) (s : List Int × Int) : Prop :=
  ∃ done rest out, nums = done ++ rest ∧ done.length = j ∧ s.1 = out ++ rest ∧
    out ++ [s.2] = last :: done

theorem Shifted.step {nums : List Int} {last : Int} {j : Nat} {s : List Int × Int}
    (h : Shifted nums last j s) (hj : j < nums.length) :
    ∃ t, shift j s = .ok t ∧ Shifted nums last (j + 1) t := by
  obtain ⟨done, rest, out, rfl, rfl, hs, hout⟩ := h
  cases rest with
  | nil => simp at hj
  | cons x rest =>
    have hlen : done.length = out.length := by
      have := congrArg List.length hout
      simp at this
      omega
    refine ⟨(out ++ s.2 :: rest, x), ?_, done ++ [x], rest, out ++ [s.2], ?_, ?_, ?_, ?_⟩
    · simp [shift, hs, read_mid, write_mid, hlen]
    · simp
    · simp
    · simp
    · simp [hout]

/-- One round of the outer loop takes the last element to the front. -/
theorem shiftAll_ok (init : List Int) (last : Int) (i : Nat) :
    shiftAll (init ++ [last]).length i (init ++ [last]) = .ok (last :: init) := by
  have hread : read (init ++ [last]) ((init ++ [last]).length - 1) = .ok last :=
    read_mid (by simp)
  have hloop : ∃ t, forLoop 0 (init ++ [last]).length (init ++ [last], last) shift = .ok t ∧
      Shifted (init ++ [last]) last (init ++ [last]).length t :=
    forLoop_ok (by omega) _ ⟨[], _, [], rfl, rfl, rfl, rfl⟩ (fun j s _ hj hs => hs.step hj)
  obtain ⟨t, ht, done, rest, out, hsplit, hlen, hfst, hout⟩ := hloop
  obtain rfl : rest = [] := by
    have hall := congrArg List.length hsplit
    rw [← hlen] at hall
    simpa using hall
  rw [List.append_nil] at hsplit hfst
  rw [← hsplit, ← hfst, ← List.cons_append] at hout
  have hinit : t.1 = last :: init := (List.append_inj' hout rfl).1
  rw [shiftAll, hread, ok_bind, ht, ok_bind, hinit]
  rfl

theorem rotate_last (init : List Int) (last : Int) :
    last :: init = (init ++ [last]).rotate init.length := by
  rw [List.rotate_append_length_eq]
  rfl

/-- After `k` rounds the array is rotated `k` times by one place. -/
theorem rotateArray_ok {nums : List Int} (hn : 1 ≤ nums.length) {k : Int} (hk : 0 ≤ k) :
    rotateArray nums nums.length k = .ok (nums.rotate (k.toNat * (nums.length - 1))) := by
  have hloop : ∃ out, forLoop 0 k nums (shiftAll nums.length) = .ok out ∧
      out = nums.rotate (k.toNat * (nums.length - 1)) := by
    refine forLoop_ok (by omega) (fun i out => out = nums.rotate (i * (nums.length - 1)))
      (by simp) ?_
    intro i s _ _ hs
    have hlen : s.length = nums.length := by rw [hs, List.length_rotate]
    have hne : s ≠ [] := List.ne_nil_of_length_pos (by omega)
    obtain ⟨init, last, rfl⟩ := (List.eq_nil_or_concat' s).resolve_left hne
    refine ⟨last :: init, ?_, ?_⟩
    · rw [← hlen]
      exact shiftAll_ok init last i
    · rw [rotate_last, hs, List.rotate_rotate]
      congr 1
      rw [Nat.succ_mul, ← hlen]
      simp
  obtain ⟨out, hout, rfl⟩ := hloop
  exact hout

/-- A round exchanges the first and the last cell of the segment. -/
theorem reverse_step (pre mid post : List Int) (a b : Int) {start stop : Int}
    (hs : start = pre.length) (he : stop = (pre ++ a :: mid).length) :
    reverse (pre ++ a :: mid ++ b :: post) start stop =
      reverse (pre ++ b :: mid ++ a :: post) (start + 1) (stop - 1) := by
  have hlt : start < stop := by
    rw [List.length_append, List.length_cons] at he
    omega
  have hround : reverse (pre ++ a :: mid ++ b :: post) start stop =
      swap (pre ++ a :: mid ++ b :: post) start stop >>= fun array =>
        reverse array (start + 1) (stop - 1) := by
    rw [reverse, if_pos hlt]
    simp only [swap_eq, bind_assoc]
  rw [hround, (swap_mid pre mid post a b hs he).1, ok_bind]

/-- `reverse` turns round the segment from `start` to `stop` and leaves the rest. -/
theorem reverse_ok (pre mid post : List Int) (start stop : Int) (hs : start = pre.length)
    (he : stop = pre.length + mid.length - 1) :
    reverse (pre ++ mid ++ post) start stop = .ok (pre ++ mid.reverse ++ post) := by
  induction mid using List.bidirectionalRec generalizing pre post start stop with
  | nil =>
    rw [List.length_nil] at he
    rw [reverse, if_neg (by omega)]
    rfl
  | singleton a =>
    rw [List.length_singleton] at he
    rw [reverse, if_neg (by omega)]
    rfl
  | cons_append a mid b ih =>
    simp only [List.length_cons, List.length_append, List.length_nil] at he
    have hsplit : pre ++ (a :: (mid ++ [b])) ++ post = pre ++ a :: mid ++ b :: post := by simp
    have hnext : pre ++ b :: mid ++ a :: post = pre ++ [b] ++ mid ++ a :: post := by simp
    have hlast : stop = (pre ++ a :: mid).length := by
      rw [List.length_append, List.length_cons]
      omega
    have hstart : start + 1 = (pre ++ [b]).length := by
      rw [List.length_append, List.length_singleton]
      omega
    have hstop : stop - 1 = (pre ++ [b]).length + mid.length - 1 := by
      rw [← hstart]
      omega
    rw [hsplit, reverse_step pre mid post a b hs hlast, hnext,
      ih (pre ++ [b]) (a :: post) _ _ hstart hstop]
    simp

/-- The three reversals exchange the last `k % numsSize` elements with the others. -/
theorem rotateArrayThree_ok {nums : List Int} (hn : 1 ≤ nums.length) {k : Int} (hk : 0 ≤ k) :
    rotateArrayThree nums nums.length k =
      .ok (nums.rotate (nums.length - k.toNat % nums.length)) := by
  obtain ⟨k, rfl⟩ := Int.eq_ofNat_of_zero_le hk
  have hmod : k % nums.length < nums.length := Nat.mod_lt k hn
  obtain ⟨a, b, hab, hb⟩ : ∃ a b, a ++ b = nums ∧ b.length = k % nums.length :=
    ⟨nums.take (nums.length - k % nums.length), nums.drop (nums.length - k % nums.length),
      List.take_append_drop _ _, by rw [List.length_drop]; omega⟩
  have hlen : nums.length = a.length + b.length := by rw [← hab, List.length_append]
  have hrem : rem k nums.length = .ok (b.length : Int) := by
    rw [rem, if_neg (by omega), hb]
    rfl
  have hall : reverse nums 0 (nums.length - 1) = .ok (b.reverse ++ a.reverse) := by
    have h := reverse_ok [] nums [] 0 (nums.length - 1) rfl (by simp)
    rw [← hab] at h ⊢
    simpa using h
  have hfront : reverse (b.reverse ++ a.reverse) 0 (b.length - 1) = .ok (b ++ a.reverse) := by
    simpa using reverse_ok [] b.reverse a.reverse 0 (b.length - 1) rfl (by simp)
  have hback : reverse (b ++ a.reverse) b.length (nums.length - 1) = .ok (b ++ a) := by
    simpa using reverse_ok b a.reverse [] b.length (nums.length - 1) rfl
      (by rw [List.length_reverse]; omega)
  have hrotate : nums.rotate (nums.length - k % nums.length) = b ++ a := by
    rw [← hb, hlen, Nat.add_sub_cancel, ← hab, List.rotate_append_length_eq]
  rw [rotateArrayThree, hrem, ok_bind, hall, ok_bind, hfront, ok_bind, hback, Int.toNat_natCast,
    hrotate]

/-- Rotating by one place to the right `k` times, or once by `k % n` places. -/
theorem rotate_amounts {n : Nat} (hn : 1 ≤ n) (k : Nat) :
    (k * (n - 1) + k) % n = 0 ∧ (n - k % n + k) % n = 0 := by
  obtain ⟨m, rfl⟩ : ∃ m, n = m + 1 := ⟨n - 1, by omega⟩
  have hmod : k % (m + 1) < m + 1 := Nat.mod_lt k (by omega)
  have hdiv := Nat.div_add_mod k (m + 1)
  constructor
  · rw [Nat.add_sub_cancel, ← Nat.mul_succ, Nat.mul_mod_left]
  · have : m + 1 - k % (m + 1) + k = (m + 1) * (1 + k / (m + 1)) := by
      rw [Nat.mul_add]
      omega
    rw [this, Nat.mul_mod_right]

/-- A rotation to the left by `r` undoes one to the right by `k` if the two add up to
whole turns. -/
theorem getElem?_rotate_back {nums : List Int} {r k : Nat} (h : (r + k) % nums.length = 0)
    {i : Nat} (hi : i < nums.length) :
    (nums.rotate r)[(i + k) % nums.length]? = nums[i]? := by
  rw [List.getElem?_rotate (Nat.mod_lt _ (by omega)), Nat.mod_add_mod,
    show i + k + r = i + (r + k) by omega, Nat.add_mod, h, Nat.add_zero, Nat.mod_mod,
    Nat.mod_eq_of_lt hi]

/-- Both ways of rotating succeed, so every access is inside the array, and both take
element `i` to place `(i + k) % numsSize`. -/
theorem rotations_agree (nums : List Int) (k : Int) (hn : 1 ≤ nums.length) (hk : 0 ≤ k) :
    ∃ out, rotateArray nums nums.length k = .ok out ∧
      rotateArrayThree nums nums.length k = .ok out ∧ out.length = nums.length ∧
      ∀ i < nums.length, out[(i + k.toNat) % nums.length]? = nums[i]? := by
  obtain ⟨hone, hthree⟩ := rotate_amounts hn k.toNat
  have hplace : ∀ i < nums.length,
      (nums.rotate (k.toNat * (nums.length - 1)))[(i + k.toNat) % nums.length]? = nums[i]? := by
    intro i hi
    exact getElem?_rotate_back hone hi
  have hsame : nums.rotate (nums.length - k.toNat % nums.length) =
      nums.rotate (k.toNat * (nums.length - 1)) := by
    rw [← List.rotate_mod, ← List.rotate_mod (n := k.toNat * (nums.length - 1))]
    congr 1
    exact Nat.ModEq.add_right_cancel' k.toNat (hthree.trans hone.symm)
  refine ⟨_, rotateArray_ok hn hk, ?_, List.length_rotate _ _, hplace⟩
  rw [rotateArrayThree_ok hn hk, hsame]

theorem rotations_agree_five :
    ∃ out, rotateArray [1, 2, 3, 4, 5] 5 7 = .ok out ∧
      rotateArrayThree [1, 2, 3, 4, 5] 5 7 = .ok out ∧ out.length = 5 ∧
      ∀ i < 5, out[(i + 7) % 5]? = ([1, 2, 3, 4, 5] : List Int)[i]? :=
  rotations_agree [1, 2, 3, 4, 5] 7 (by decide) (by decide)

/-- A sum in the range of `int` is reduced as one of natural numbers. -/
theorem place_ok {n i : Nat} {k : Int} (hn : 1 ≤ n) (hk : 0 ≤ k) (hfit : i + k ≤ 2147483647) :
    place n k i = .ok ↑((i + k.toNat) % n) := by
  obtain ⟨k, rfl⟩ := Int.eq_ofNat_of_zero_le hk
  have hwrap : wrap (i + k) = ((i + k : Nat) : Int) := by
    unfold wrap
    omega
  rw [place, hwrap, rem, if_neg (by omega)]
  rfl

/-- One that overflows is negative, and so is its remainder unless it is 0. -/
theorem place_wrapped {n i : Nat} {k : Int} (hn : 1 ≤ n) (hover : 2147483648 ≤ i + k)
    (hsum : i + k < 4294967296) :
    place n k i = .ok (-((4294967296 - (i + k)).tmod n)) := by
  have hwrap : wrap (i + k) = -(4294967296 - (i + k)) := by
    unfold wrap
    omega
  rw [place, hwrap, rem, if_neg (by omega), Int.neg_tmod]

/-- Every index is in range, every cell of the temporary array is written in one round,
and the array is left as by `rotateArrayThree`. -/
structure Rotates (nums array : List Int) (k : Int) : Prop where
  inRange : ∀ i < nums.length, ∃ p : Nat, p < nums.length ∧ place nums.length k i = .ok p
  once : ∀ c < nums.length, ∃! i : Nat, i < nums.length ∧ place nums.length k i = .ok c
  agrees : ∃ out, rotateArrayTwo nums nums.length k array = .ok out ∧
    rotateArrayThree nums nums.length k = .ok out

/-- No sum overflows, or only the last one, to a multiple of the size. -/
def SumsFit (n : Nat) (k : Int) : Prop :=
  k + n - 1 ≤ 2147483647 ∨ k + n - 1 = 2147483648 ∧ (n : Int) ∣ 2147483648

theorem place_of_sumsFit {n : Nat} {k : Int} (hn : 1 ≤ n) (hk : 0 ≤ k) (h : SumsFit n k)
    {i : Nat} (hi : i < n) : place n k i = .ok ↑((i + k.toNat) % n) := by
  by_cases hfit : i + k ≤ 2147483647
  · exact place_ok hn hk hfit
  · obtain ⟨hlast, hdvd⟩ : k + n - 1 = 2147483648 ∧ (n : Int) ∣ 2147483648 :=
      h.resolve_left (by omega)
    have hsum : (i : Int) + k = 2147483648 := by omega
    have hrem : (2147483648 : Int).tmod n = 0 := Int.tmod_eq_zero_of_dvd hdvd
    have hmod : (i + k.toNat) % n = 0 := by
      rw [show i + k.toNat = 2147483648 by omega]
      exact Nat.mod_eq_zero_of_dvd (Int.natCast_dvd_natCast.mp hdvd)
    rw [place_wrapped hn (by omega) (by omega), hsum, hmod]
    exact congrArg Except.ok (congrArg Neg.neg hrem)

/-- Two sums that overflow have different remainders, so one of the indices is negative. -/
theorem sumsFit_of_inRange {n : Nat} {k : Int} (hn : 1 ≤ n) (hsize : n ≤ 2147483647)
    (hk : k ≤ 2147483647)
    (h : ∀ i < n, ∃ p : Nat, p < n ∧ place n k i = .ok p) : SumsFit n k := by
  have hdvd : ∀ i < n, 2147483648 ≤ i + k → (n : Int) ∣ 4294967296 - (i + k) := by
    intro i hi hover
    obtain ⟨p, _, hp⟩ := h i hi
    rw [place_wrapped hn hover (by omega)] at hp
    have hp := Except.ok.inj hp
    have hnonneg := Int.tmod_nonneg (n : Int) (show 0 ≤ 4294967296 - (i + k) by omega)
    exact Int.dvd_of_tmod_eq_zero (by omega)
  by_cases hfit : k + n - 1 ≤ 2147483647
  · exact Or.inl hfit
  · have hlast := hdvd (n - 1) (by omega) (by omega)
    by_cases heq : k + n - 1 = 2147483648
    · refine Or.inr ⟨heq, ?_⟩
      rwa [show 4294967296 - (((n - 1 : Nat) : Int) + k) = 2147483648 by omega] at hlast
    · have hprev := hdvd (n - 2) (by omega) (by omega)
      have hone := Int.dvd_sub hprev hlast
      have hgap : 4294967296 - (((n - 2 : Nat) : Int) + k) -
          (4294967296 - (((n - 1 : Nat) : Int) + k)) = 1 := by omega
      rw [hgap] at hone
      have := Int.le_of_dvd (by omega) hone
      omega

/-- Different places stay different when they are moved round by `k`. -/
theorem add_mod_inj {n k i j : Nat} (hi : i < n) (hj : j < n) (h : (i + k) % n = (j + k) % n) :
    i = j := by
  have hmod : i ≡ j [MOD n] := Nat.ModEq.add_right_cancel' k h
  rwa [Nat.ModEq, Nat.mod_eq_of_lt hi, Nat.mod_eq_of_lt hj] at hmod

/-- Every place is taken. -/
theorem exists_add_mod {n : Nat} (hn : 1 ≤ n) (k : Nat) {c : Nat} (hc : c < n) :
    ∃ i < n, (i + k) % n = c := by
  obtain ⟨-, hback⟩ := rotate_amounts hn k
  refine ⟨(c + (n - k % n)) % n, Nat.mod_lt _ hn, ?_⟩
  rw [Nat.mod_add_mod, Nat.add_assoc, Nat.add_mod, hback, Nat.add_zero, Nat.mod_mod,
    Nat.mod_eq_of_lt hc]

/-- The temporary array before round `i`. -/
def Scattered (nums : List Int) (k i : Nat) (array : List Int) : Prop :=
  array.length = nums.length ∧ ∀ j < i, array[(j + k) % nums.length]? = nums[j]?

theorem Scattered.step {nums array : List Int} {k i : Nat} {numsSize shift : Int}
    (hplace : place numsSize shift i = .ok ↑((i + k) % nums.length))
    (h : Scattered nums k i array) (hi : i < nums.length) :
    ∃ t, scatter nums numsSize shift i array = .ok t ∧ Scattered nums k (i + 1) t := by
  obtain ⟨hlen, hcells⟩ := h
  have hlt : (i + k) % nums.length < array.length := by
    rw [hlen]
    exact Nat.mod_lt _ (by omega)
  refine ⟨array.set ((i + k) % nums.length) nums[i], ?_, by rw [List.length_set, hlen], ?_⟩
  · rw [scatter, hplace, ok_bind, read_at rfl hi, ok_bind, write_at rfl hlt]
  · intro j hj
    by_cases hji : j = i
    · subst hji
      rw [List.getElem?_set_self hlt, List.getElem?_eq_getElem hi]
    · have hne : (i + k) % nums.length ≠ (j + k) % nums.length := by
        intro he
        exact hji (add_mod_inj (by omega) hi he.symm)
      rw [List.getElem?_set_ne hne]
      exact hcells j (by omega)

/-- Written at these places, the cells are those of the array rotated. -/
theorem rotateArrayTwo_ok {nums array : List Int} {k : Int} (hn : 1 ≤ nums.length)
    (harray : array.length = nums.length)
    (hplace : ∀ i < nums.length,
      place nums.length k i = .ok ↑((i + k.toNat) % nums.length)) :
    rotateArrayTwo nums nums.length k array =
      .ok (nums.rotate (nums.length - k.toNat % nums.length)) := by
  have hloop : ∃ t, forLoop 0 nums.length array (scatter nums nums.length k) = .ok t ∧
      Scattered nums k.toNat nums.length t :=
    forLoop_ok (by omega) _ ⟨harray, by simp⟩ (fun i t _ hi ht => ht.step (hplace i hi) hi)
  obtain ⟨t, ht, hlen, hcells⟩ := hloop
  have hsame : t = nums.rotate (nums.length - k.toNat % nums.length) := by
    apply List.ext_getElem?'
    intro c hc
    rw [hlen, List.length_rotate, Nat.max_self] at hc
    obtain ⟨i, hi, rfl⟩ := exists_add_mod hn k.toNat hc
    rw [hcells i hi, getElem?_rotate_back (rotate_amounts hn k.toNat).2 hi]
  have hcopy := copyCells_ok t nums (by omega)
  rw [hlen, List.drop_length, List.append_nil] at hcopy
  rw [rotateArrayTwo, ht, ok_bind, hcopy, hsame]

/-- For a shift that makes sums overflow, one of the indices is outside the array, unless
the only sum that overflows is the last one and a multiple of the size. -/
theorem rotateArrayTwo_iff (nums array : List Int) (k : Int) (hn : 1 ≤ nums.length)
    (hsize : Representable nums.length) (hk : 0 ≤ k) (hint : Representable k)
    (harray : array.length = nums.length) :
    Rotates nums array k ↔ SumsFit nums.length k := by
  constructor
  · intro h
    exact sumsFit_of_inRange hn (by have := hsize.2; omega) hint.2 h.inRange
  · intro h
    have hplace : ∀ i < nums.length,
        place nums.length k i = .ok ↑((i + k.toNat) % nums.length) :=
      fun i hi => place_of_sumsFit hn hk h hi
    refine ⟨?_, ?_, _, rotateArrayTwo_ok hn harray hplace, rotateArrayThree_ok hn hk⟩
    · intro i hi
      exact ⟨_, Nat.mod_lt _ hn, hplace i hi⟩
    · intro c hc
      obtain ⟨i, hi, rfl⟩ := exists_add_mod hn k.toNat hc
      refine ⟨i, ⟨hi, hplace i hi⟩, ?_⟩
      intro j ⟨hj, hsame⟩
      rw [hplace j hj] at hsame
      exact add_mod_inj hj hi (Int.ofNat.inj (Except.ok.inj hsame))

theorem rotateArrayTwo_iff_five :
    Rotates [1, 2, 3, 4, 5] [0, 0, 0, 0, 0] 7 ∧
      ¬ Rotates [1, 2, 3, 4, 5] [0, 0, 0, 0, 0] 2147483647 := by
  have hiff : ∀ k, 0 ≤ k → Representable k →
      (Rotates [1, 2, 3, 4, 5] [0, 0, 0, 0, 0] k ↔ SumsFit 5 k) :=
    fun k hk hint => rotateArrayTwo_iff [1, 2, 3, 4, 5] [0, 0, 0, 0, 0] k (by simp) (by decide) hk
      hint rfl
  constructor
  · apply (hiff 7 (by omega) (by decide)).mpr
    exact Or.inl (by omega)
  · intro h
    rcases (hiff 2147483647 (by omega) (by decide)).mp h with hfit | ⟨heq, _⟩
    · omega
    · omega

/-- With the largest shift the second element of three goes to place -2. -/
theorem rotateArrayTwo_overflows :
    ¬ Rotates [1, 2, 3] [0, 0, 0] 2147483647 ∧ place 3 2147483647 1 = .ok (-2) ∧
      rotateArrayTwo [1, 2, 3] 3 2147483647 [0, 0, 0] = .error .outOfRange ∧
      rotateArrayThree [1, 2, 3] 3 2147483647 = .ok [3, 1, 2] := by
  have hplace : place 3 2147483647 1 = .ok (-2) := rfl
  refine ⟨?_, hplace, rfl, ?_⟩
  · intro h
    obtain ⟨p, _, hp⟩ := h.inRange 1 (by simp)
    have hp := Except.ok.inj (hplace.symm.trans hp)
    omega
  · have h : 1 ≤ ([1, 2, 3] : List Int).length := by simp
    exact rotateArrayThree_ok h (by omega)

end BasicDemo.LeetCode.RotateArray
