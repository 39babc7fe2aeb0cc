import BasicDemo.Library.Arrays
import Mathlib.Data.List.Nodup

namespace BasicDemo.LeetCode.ContainsDuplicate
open Library.Loops Library.Arrays

/-- One comparison of the brute force search. -/
def compare (nums : List Int) (i j : Nat) (duplicate : Bool) : Except Fault Bool :=
  if i = j then .ok duplicate
  else do
    let x ← read nums i
    let y ← read nums j
    if x = y then return true else return duplicate

/-- The answer, with the array as it is left. -/
def containsForceDuplicate (nums : List Int) (numsSize : Int) : Except Fault (Bool × List Int) := do
  let duplicate ← forLoop 0 numsSize false
    (fun i duplicate => forLoop 0 numsSize duplicate (compare nums i))
  return (duplicate, nums)

/-- One comparison of a pass, on the array and `flag`. -/
def exchange (j : Nat) (s : List Int × Int) : Except Fault (List Int × Int) := do
  let x ← read s.1 j
  let y ← read s.1 (j + 1)
  if x > y then
    let dataArray ← write s.1 j y
    let dataArray ← write dataArray (j + 1) x
    return (dataArray, 1)
  else return s

/-- One pass over the part not sorted yet; the last one if nothing was exchanged. -/
def pass (arraySize : Int) (i : Nat) (dataArray : List Int) :
    Except Fault (Round (List Int) (List Int)) := do
  let s ← forLoop 0 (arraySize - 1 - i) (dataArray, 0) exchange
  if s.2 = 0 then return .leave s.1 else return .next s.1

def bubbleSort (dataArray : List Int) (arraySize : Int) : Except Fault (List Int) := do
  let s ← forLoopUntil 0 arraySize dataArray (pass arraySize)
  return s.value

/-- The comparison of two neighbours. -/
def neighbours (nums : List Int) (i : Nat) (_ : Unit) : Except Fault (Round Unit Unit) := do
  let x ← read nums i
  let y ← read nums (i + 1)
  if x = y then return .leave () else return .next ()

def containsDuplicate (nums : List Int) (numsSize : Int) : Except Fault (Bool × List Int) := do
  let nums ← bubbleSort nums numsSize
  match ← forLoopUntil 0 (numsSize - 1) () (neighbours nums) with
  | .leave _ => return (true, nums)
  | .next _ => return (false, nums)

/-- The array before comparison `j` of a pass over `nums`: the largest element so far is
in cell `j`, and without an exchange the cells up to it were in order. -/
def Bubbled (nums : List Int) (j : Nat) (s : List Int × Int) : Prop :=
  ∃ seen done x rest, nums = seen ++ rest ∧ s.1 = done ++ x :: rest ∧ done.length = j ∧
    (done ++ [x]).Perm seen ∧ (∀ y ∈ done, y ≤ x) ∧
    (s.2 = 0 → done ++ [x] = seen ∧ seen.Pairwise (· ≤ ·))

/-- One comparison puts two neighbours in order. -/
theorem exchange_ok (done rest : List Int) (x y flag : Int) :
    exchange done.length (done ++ x :: y :: rest, flag) =
      .ok (if x > y then (done ++ y :: x :: rest, 1) else (done ++ x :: y :: rest, flag)) := by
  have hnext : ∀ u v : Int, done ++ u :: v :: rest = (done ++ [u]) ++ v :: rest := by simp
  have hplace : ∀ u : Int, (done.length : Int) + 1 = (done ++ [u]).length := by simp
  have hx : read (done ++ x :: y :: rest) done.length = .ok x := read_mid rfl
  have hy : read (done ++ x :: y :: rest) (done.length + 1) = .ok y := by
    rw [hnext]
    exact read_mid (hplace x)
  have hfirst : write (done ++ x :: y :: rest) done.length y = .ok (done ++ y :: y :: rest) :=
    write_mid rfl y
  have hsecond : write (done ++ y :: y :: rest) (done.length + 1) x =
      .ok (done ++ y :: x :: rest) := by
    rw [hnext, hnext]
    exact write_mid (hplace y) x
  by_cases hxy : x > y
  · simp only [exchange, hx, hy, hxy, hfirst, hsecond, ok_bind, if_true, pure_eq_ok]
  · simp only [exchange, hx, hy, hxy, ok_bind, if_false, pure_eq_ok]

theorem Bubbled.step {nums : List Int} {j : Nat} {s : List Int × Int} (h : Bubbled nums j s)
    (hj : j + 1 < nums.length) : ∃ t, exchange j s = .ok t ∧ Bubbled nums (j + 1) t := by
  obtain ⟨dataArray, flag⟩ := s
  obtain ⟨seen, done, x, rest, rfl, hs, rfl, hperm, hle, hflag⟩ := h
  have hlen := hperm.length_eq
  simp only [List.length_append, List.length_cons, List.length_nil] at hj hlen hs
  cases rest with
  | nil =>
    rw [List.length_nil] at hj
    omega
  | cons y rest =>
    rw [hs, exchange_ok]
    by_cases hxy : x > y
    · refine ⟨_, rfl, seen ++ [y], done ++ [y], x, rest, by simp, by simp [hxy], by simp, ?_,
        List.forall_mem_append.mpr ⟨hle, by simpa using Int.le_of_lt hxy⟩, by simp [hxy]⟩
      refine List.Perm.trans ?_ (hperm.append_right [y])
      rw [List.append_assoc, List.append_assoc]
      exact (List.Perm.swap x y []).append_left done
    · have hyx : x ≤ y := Int.not_lt.mp hxy
      have hle' : ∀ z ∈ done ++ [x], z ≤ y :=
        List.forall_mem_append.mpr ⟨fun z hz => Int.le_trans (hle z hz) hyx, by simpa using hyx⟩
      refine ⟨_, rfl, seen ++ [y], done ++ [x], y, rest, by simp, by simp [hxy], by simp,
        hperm.append_right [y], hle', ?_⟩
      intro h0
      rw [if_neg hxy] at h0
      obtain ⟨heq, hsorted⟩ := hflag h0
      refine ⟨by rw [heq], List.pairwise_append.mpr ⟨hsorted, by simp, ?_⟩⟩
      intro z hz w hw
      rw [List.mem_singleton.mp hw]
      exact hle' z (heq ▸ hz)

/-- A pass over `pre` takes its largest element to the end; if nothing was exchanged, it
was in order. -/
theorem pass_ok {pre : List Int} (hpre : 1 ≤ pre.length) (suf : List Int) :
    (∃ done x, pass (pre ++ suf).length suf.length (pre ++ suf) = .ok (.next (done ++ x :: suf)) ∧
      (done ++ [x]).Perm pre ∧ ∀ y ∈ done, y ≤ x) ∨
    pass (pre ++ suf).length suf.length (pre ++ suf) = .ok (.leave (pre ++ suf)) ∧
      pre.Pairwise (· ≤ ·) := by
  obtain ⟨a, as, rfl⟩ := List.exists_cons_of_length_pos hpre
  have hstart : Bubbled (a :: as ++ suf) 0 (a :: as ++ suf, 0) :=
    ⟨[a], [], a, as ++ suf, rfl, rfl, rfl, List.Perm.refl _, by simp, by simp⟩
  have hloop : ∃ t, forLoop 0 ((a :: as ++ suf).length - 1 - suf.length) (a :: as ++ suf, 0)
      exchange = .ok t ∧ Bubbled (a :: as ++ suf) as.length t :=
    forLoop_ok (by simp) _ hstart (fun j s _ hj hs => hs.step (by
      rw [List.length_append, List.length_cons]
      omega))
  obtain ⟨t, ht, seen, done, x, rest, hsplit, hs, hlen, hperm, hle, hflag⟩ := hloop
  have hseen : a :: as = seen ∧ suf = rest := by
    apply List.append_inj hsplit
    have := hperm.length_eq
    simp at this ⊢
    omega
  obtain ⟨rfl, rfl⟩ := hseen
  by_cases h0 : t.2 = 0
  · obtain ⟨heq, hsorted⟩ := hflag h0
    refine Or.inr ⟨?_, hsorted⟩
    have hsame : t.1 = a :: as ++ suf := by simp [hs, ← heq]
    simp only [pass, ht, ok_bind, h0, if_true, hsame, pure_eq_ok]
  · refine Or.inl ⟨done, x, ?_, hperm, hle⟩
    simp only [pass, ht, ok_bind, h0, if_false, hs, pure_eq_ok]

/-- The array before pass `i` of the sort: its last `i` cells are in order and hold the
largest elements. -/
def Settled (nums : List Int) (i : Nat) (dataArray : List Int) : Prop :=
  ∃ pre suf, dataArray = pre ++ suf ∧ suf.length = i ∧ (pre ++ suf).Perm nums ∧
    suf.Pairwise (· ≤ ·) ∧ ∀ x ∈ pre, ∀ y ∈ suf, x ≤ y

theorem Settled.step {nums : List Int} {i : Nat} {dataArray : List Int}
    (h : Settled nums i dataArray) (hi : i < nums.length) :
    (∃ t, pass nums.length i dataArray = .ok (.next t) ∧ Settled nums (i + 1) t) ∨
      ∃ r, pass nums.length i dataArray = .ok (.leave r) ∧ r.Perm nums ∧ r.Pairwise (· ≤ ·) := by
  obtain ⟨pre, suf, rfl, rfl, hperm, hsorted, hcross⟩ := h
  have hlen := hperm.length_eq
  rw [List.length_append] at hlen
  rw [← hperm.length_eq]
  have hpre : 1 ≤ pre.length := by omega
  rcases pass_ok hpre suf with ⟨done, x, hpass, hdone, hle⟩ | ⟨hpass, hpre⟩
  · have hmem : ∀ y, y ∈ done ++ [x] → y ∈ pre := fun y hy => hdone.mem_iff.mp hy
    refine Or.inl ⟨_, hpass, done, x :: suf, rfl, rfl, ?_, ?_, ?_⟩
    · refine List.Perm.trans ?_ hperm
      simpa using hdone.append_right suf
    · exact List.pairwise_cons.mpr ⟨hcross x (hmem x (by simp)), hsorted⟩
    · intro z hz y hy
      rcases List.mem_cons.mp hy with rfl | hy
      · exact hle z hz
      · exact hcross z (hmem z (by simp [hz])) y hy
  · exact Or.inr ⟨_, hpass, hperm, List.pairwise_append.mpr ⟨hpre, hsorted, hcross⟩⟩

theorem bubbleSort_ok (nums : List Int) :
    ∃ out, bubbleSort nums nums.length = .ok out ∧ out.Perm nums ∧ out.Pairwise (· ≤ ·) := by
  have hloop : (∃ t, forLoopUntil 0 nums.length nums (pass nums.length) = .ok (.next t) ∧
        Settled nums nums.length t) ∨
      ∃ r, forLoopUntil 0 nums.length nums (pass nums.length) = .ok (.leave r) ∧
        r.Perm nums ∧ r.Pairwise (· ≤ ·) :=
    forLoopUntil_ok (by omega) _ _ ⟨nums, [], by simp, rfl, by simp, by simp, by simp⟩
      (fun i s _ hi hs => hs.step hi)
  rcases hloop with ⟨t, ht, pre, suf, rfl, hlen, hperm, hsorted, _⟩ | ⟨r, hr, hperm, hsorted⟩
  · obtain rfl : pre = [] := by
      have := hperm.length_eq
      rw [List.length_append] at this
      exact List.length_eq_zero_iff.mp (by omega)
    exact ⟨suf, by rw [bubbleSort, ht]; rfl, hperm, hsorted⟩
  · exact ⟨r, by rw [bubbleSort, hr]; rfl, hperm, hsorted⟩

/-- In an array in order, equal elements are neighbours. -/
theorem nodup_of_neighbours {nums : List Int} (hsorted : nums.Pairwise (· ≤ ·))
    (h : ∀ i, i + 1 < nums.length → nums[i]? ≠ nums[i + 1]?) : nums.Nodup := by
  have hchain : nums.IsChain (· < ·) := by
    apply List.isChain_iff_getElem.mpr
    intro i hi
    have hle : nums[i] ≤ nums[i + 1] :=
      List.pairwise_iff_getElem.mp hsorted i (i + 1) (by omega) hi (by omega)
    have hne : nums[i] ≠ nums[i + 1] := by
      intro he
      apply h i hi
      rw [List.getElem?_eq_getElem (by omega), List.getElem?_eq_getElem hi, he]
    omega
  exact (List.isChain_iff_pairwise.mp hchain).imp (fun hlt => Int.ne_of_lt hlt)

theorem neighbours_ok {nums : List Int} {i : Nat} (hi : i + 1 < nums.length) :
    neighbours nums i () =
      .ok (if nums[i]? = nums[i + 1]? then .leave () else .next ()) := by
  have hx : read nums i = .ok nums[i] := read_at rfl (by omega)
  have hy : read nums (i + 1) = .ok nums[i + 1] := read_at (by simp) hi
  rw [neighbours, hx, ok_bind, hy, ok_bind, List.getElem?_eq_getElem (by omega),
    List.getElem?_eq_getElem hi]
  by_cases he : nums[i] = nums[i + 1] <;> simp [he]

/-- Two different places hold the same value. -/
def Duplicated (nums : List Int) : Prop :=
  ∃ i j, i ≠ j ∧ i < nums.length ∧ j < nums.length ∧ nums[i]? = nums[j]?

theorem duplicated_iff (nums : List Int) : Duplicated nums ↔ ¬ nums.Nodup := by
  rw [List.nodup_iff_getElem?_ne_getElem?]
  constructor
  · intro ⟨i, j, hne, hi, hj, he⟩ hall
    rcases Nat.lt_or_gt_of_ne hne with h | h
    · exact hall i j h hj he
    · exact hall j i h hi he.symm
  · intro h
    push Not at h
    obtain ⟨i, j, hij, hj, he⟩ := h
    exact ⟨i, j, by omega, by omega, hj, he⟩

theorem containsDuplicate_ok (nums : List Int) :
    ∃ found out, containsDuplicate nums nums.length = .ok (found, out) ∧
      (found = true ↔ Duplicated nums) ∧ out.Perm nums ∧ out.Pairwise (· ≤ ·) := by
  obtain ⟨out, hout, hperm, hsorted⟩ := bubbleSort_ok nums
  have hlen := hperm.length_eq
  have hloop : (∃ t, forLoopUntil 0 (nums.length - 1) () (neighbours out) = .ok (.next t) ∧
        ∀ k < nums.length - 1, out[k]? ≠ out[k + 1]?) ∨
      ∃ r, forLoopUntil 0 (nums.length - 1) () (neighbours out) = .ok (.leave r) ∧
        ¬ out.Nodup := by
    refine forLoopUntil_ok (by omega) (fun i _ => ∀ k < i, out[k]? ≠ out[k + 1]?)
      (fun _ => ¬ out.Nodup) (by simp) ?_
    intro i s _ hi hs
    rw [neighbours_ok (by omega)]
    by_cases he : out[i]? = out[i + 1]?
    · refine Or.inr ⟨(), by simp [he], ?_⟩
      exact (duplicated_iff out).mp ⟨i, i + 1, by omega, by omega, by omega, he⟩
    · refine Or.inl ⟨(), by simp [he], ?_⟩
      intro k hk
      by_cases hki : k = i
      · subst hki
        exact he
      · exact hs k (by omega)
  rcases hloop with ⟨t, ht, hne⟩ | ⟨r, hr, hdup⟩
  · refine ⟨false, out, by simp [containsDuplicate, hout, ht], ?_, hperm, hsorted⟩
    have hnodup := nodup_of_neighbours hsorted (fun i hi => hne i (by omega))
    simp [duplicated_iff, ← hperm.nodup_iff, hnodup]
  · refine ⟨true, out, by simp [containsDuplicate, hout, hr], ?_, hperm, hsorted⟩
    simp [duplicated_iff, ← hperm.nodup_iff, hdup]

/-- What the brute force search knows of the pairs that `P` allows. -/
def Found (nums : List Int) (P : Nat → Nat → Prop) (duplicate : Bool) : Prop :=
  duplicate = true ↔
    ∃ i j, P i j ∧ i ≠ j ∧ i < nums.length ∧ j < nums.length ∧ nums[i]? = nums[j]?

theorem compare_ok {nums : List Int} {i j : Nat} (hi : i < nums.length) (hj : j < nums.length)
    (duplicate : Bool) : compare nums i j duplicate =
      .ok (duplicate || decide (i ≠ j ∧ nums[i]? = nums[j]?)) := by
  unfold compare
  by_cases hij : i = j
  · simp [hij]
  · simp only [hij, if_false, read_at rfl hi, read_at rfl hj, ok_bind,
      List.getElem?_eq_getElem hi, List.getElem?_eq_getElem hj]
    by_cases he : nums[i] = nums[j] <;> simp [he, hij]

theorem Found.congr {nums : List Int} {P Q : Nat → Nat → Prop} {duplicate : Bool}
    (h : Found nums P duplicate)
    (same : ∀ i j, i < nums.length → j < nums.length → (P i j ↔ Q i j)) :
    Found nums Q duplicate := by
  refine h.trans ⟨?_, ?_⟩
  · intro ⟨i, j, hP, hne, hi, hj, he⟩
    exact ⟨i, j, (same i j hi hj).mp hP, hne, hi, hj, he⟩
  · intro ⟨i, j, hQ, hne, hi, hj, he⟩
    exact ⟨i, j, (same i j hi hj).mpr hQ, hne, hi, hj, he⟩

theorem Found.compare {nums : List Int} {P : Nat → Nat → Prop} {duplicate : Bool}
    (h : Found nums P duplicate) {i j : Nat} (hi : i < nums.length) (hj : j < nums.length) :
    Found nums (fun a b => P a b ∨ a = i ∧ b = j)
      (duplicate || decide (i ≠ j ∧ nums[i]? = nums[j]?)) := by
  unfold Found at h ⊢
  rw [Bool.or_eq_true, h, decide_eq_true_iff]
  constructor
  · intro hor
    rcases hor with ⟨a, b, hP, hrest⟩ | ⟨hne, he⟩
    · exact ⟨a, b, Or.inl hP, hrest⟩
    · exact ⟨i, j, Or.inr ⟨rfl, rfl⟩, hne, hi, hj, he⟩
  · intro ⟨a, b, hor, hne, ha, hb, he⟩
    rcases hor with hP | ⟨rfl, rfl⟩
    · exact Or.inl ⟨a, b, hP, hne, ha, hb, he⟩
    · exact Or.inr ⟨hne, he⟩

theorem containsForceDuplicate_ok (nums : List Int) :
    ∃ found, containsForceDuplicate nums nums.length = .ok (found, nums) ∧
      (found = true ↔ Duplicated nums) := by
  have hloop : ∃ d, forLoop 0 nums.length false
        (fun i d => forLoop 0 nums.length d (compare nums i)) = .ok d ∧
      Found nums (fun a _ => a < nums.length) d := by
    refine forLoop_ok (by omega) (fun i d => Found nums (fun a _ => a < i) d)
      (by simp [Found]) ?_
    intro i d _ hi hd
    have hrow : ∃ t, forLoop 0 nums.length d (compare nums i) = .ok t ∧
        Found nums (fun a b => a < i ∨ a = i ∧ b < nums.length) t := by
      refine forLoop_ok (by omega) (fun j t => Found nums (fun a b => a < i ∨ a = i ∧ b < j) t)
        (hd.congr (by omega)) ?_
      intro j t _ hj ht
      exact ⟨_, compare_ok hi hj t, (ht.compare hi hj).congr (by omega)⟩
    obtain ⟨t, ht, hfound⟩ := hrow
    exact ⟨t, ht, hfound.congr (by omega)⟩
  obtain ⟨d, hd, hfound⟩ := hloop
  refine ⟨d, by simp [containsForceDuplicate, hd], ?_⟩
  have hall : Found nums (fun _ _ => True) d := hfound.congr (fun i j hi _ => by simp [hi])
  simpa [Found, Duplicated] using hall

/-- Both searches find the same answer; one leaves the array, the other sorts it. -/
theorem duplicates_agree (nums : List Int) :
    ∃ found out, containsDuplicate nums nums.length = .ok (found, out) ∧
      containsForceDuplicate nums nums.length = .ok (found, nums) ∧
      (found = true ↔
        ∃ i j, i ≠ j ∧ i < nums.length ∧ j < nums.length ∧ nums[i]? = nums[j]?) ∧
      out.Perm nums ∧ out.Pairwise (· ≤ ·) := by
  obtain ⟨found, out, hsort, hfound, hperm, hsorted⟩ := containsDuplicate_ok nums
  obtain ⟨found', hforce, hfound'⟩ := containsForceDuplicate_ok nums
  obtain rfl : found = found' := Bool.eq_iff_iff.mpr (hfound.trans hfound'.symm)
  exact ⟨found, out, hsort, hforce, hfound, hperm, hsorted⟩

end BasicDemo.LeetCode.ContainsDuplicate
