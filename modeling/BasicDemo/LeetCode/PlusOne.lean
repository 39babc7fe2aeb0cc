import BasicDemo.Library.Stdlib

namespace BasicDemo.LeetCode.PlusOne
open Library.Loops Library.Arrays Library.Stdlib

/-- The loop, for the rounds from `i - 1` down to 0. It is left with the array by the
`return`. -/
def carry : Nat → List Int → Except Fault (Round (List Int) (List Int))
  | 0, digits => .ok (.next digits)
  | i + 1, digits => do
    let d ← read digits i
    if d < 9 then
      let digits ← write digits i (d + 1)
      return .leave digits
    else
      let digits ← write digits i 0
      carry i digits

/-- The caller's array and `*returnSize` afterwards, and the array that is returned. -/
structure Outcome where
  digits : List Int
  returnSize : Int
  returned : List Int

/-- A block that is NULL has no cell that could be written. -/
def plusOne (malloc : Malloc Int) (digits : List Int) (digitsSize : Int) :
    Except Fault Outcome := do
  match ← carry digitsSize.toNat digits with
  | .leave digits => return ⟨digits, digitsSize, digits⟩
  | .next digits =>
    let array := (malloc.alloc (digitsSize + 1).toNat).getD []
    let array ← write array 0 1
    let array ← forLoop 1 (digitsSize + 1) array (fun i array => write array i 0)
    return ⟨digits, digitsSize + 1, array⟩

/-- The number that a row of decimal digits denotes. -/
def value (digits : List Int) : Int := digits.foldl (fun n d => n * 10 + d) 0

/-- Nines behind any number: one more is the next number with zeros behind it. -/
theorem value_nines (n : Int) (k : Nat) :
    (List.replicate k 9).foldl (fun n d => n * 10 + d) n + 1 =
      (List.replicate k 0).foldl (fun n d => n * 10 + d) (n + 1) := by
  induction k generalizing n with
  | zero => rfl
  | succ k ih =>
    have hnext : n * 10 + 9 + 1 = (n + 1) * 10 + 0 := by omega
    rw [List.replicate_succ, List.foldl_cons, ih, List.replicate_succ, List.foldl_cons, hnext]

theorem value_carry (front : List Int) (d : Int) (k : Nat) :
    value (front ++ (d + 1) :: List.replicate k 0) =
      value (front ++ d :: List.replicate k 9) + 1 := by
  unfold value
  rw [List.foldl_append, List.foldl_append, List.foldl_cons, List.foldl_cons, value_nines,
    Int.add_assoc]

theorem value_overflow (k : Nat) :
    value (1 :: List.replicate k 0) = value (List.replicate k 9) + 1 := by
  unfold value
  rw [value_nines, List.foldl_cons]
  rfl

/-- The loop sets nines at the end to zero. -/
theorem carry_nines (front post : List Int) (k : Nat) :
    carry (front.length + k) (front ++ List.replicate k 9 ++ post) =
      carry front.length (front ++ List.replicate k 0 ++ post) := by
  induction k generalizing post with
  | zero => rfl
  | succ k ih =>
    have hnine : front ++ List.replicate (k + 1) 9 ++ post =
        front ++ List.replicate k 9 ++ 9 :: post := by
      simp [List.replicate_succ']
    have hzero : front ++ List.replicate (k + 1) 0 ++ post =
        front ++ List.replicate k 0 ++ 0 :: post := by
      simp [List.replicate_succ']
    have hplace : ((front.length + k : Nat) : Int) = (front ++ List.replicate k (9 : Int)).length := by
      simp
    rw [hnine, hzero, ← ih, ← Nat.add_assoc, carry, read_mid hplace, ok_bind,
      if_neg (by decide), write_mid hplace, ok_bind]

/-- The loop ends with the first digit below nine. -/
theorem carry_leaves (front : List Int) {d : Int} (hd : d < 9) (k : Nat) :
    carry (front ++ d :: List.replicate k 9).length (front ++ d :: List.replicate k 9) =
      .ok (.leave (front ++ (d + 1) :: List.replicate k 0)) := by
  have hnines := carry_nines (front ++ [d]) [] k
  simp only [List.append_nil, List.append_assoc, List.singleton_append, List.length_append,
    List.length_singleton] at hnines
  rw [List.length_append, List.length_cons, List.length_replicate, Nat.add_comm k 1,
    ← Nat.add_assoc, hnines, carry, read_mid rfl, ok_bind, if_pos hd, write_mid rfl]
  rfl

theorem carry_ends (k : Nat) :
    carry k (List.replicate k 9) = .ok (.next (List.replicate k 0)) := by
  have hnines := carry_nines [] [] k
  simp only [List.append_nil, List.nil_append, List.length_nil, Nat.zero_add] at hnines
  rw [hnines]
  rfl

/-- Digits are nines all of them, or nines behind a smaller digit. -/
theorem nines_or_smaller (digits : List Int) (h : ∀ d ∈ digits, d ≤ 9) :
    digits = List.replicate digits.length 9 ∨
      ∃ front d k, digits = front ++ d :: List.replicate k 9 ∧ d < 9 := by
  induction digits using List.reverseRecOn with
  | nil => exact Or.inl rfl
  | append_singleton digits d ih =>
    rcases Int.lt_or_eq_of_le (h d (by simp)) with hd | rfl
    · exact Or.inr ⟨digits, d, 0, rfl, hd⟩
    · rcases ih (fun e he => h e (List.mem_append_left _ he)) with hnines | ⟨front, e, k, rfl, he⟩
      · refine Or.inl ?_
        rw [List.length_append, List.length_singleton, List.replicate_succ', ← hnines]
      · refine Or.inr ⟨front, e, k + 1, ?_, he⟩
        rw [List.append_assoc, List.cons_append, List.replicate_succ']

theorem plusOne_smaller (malloc : Malloc Int) (front : List Int) {d : Int} (hd : d < 9) (k : Nat) :
    plusOne malloc (front ++ d :: List.replicate k 9) (front ++ d :: List.replicate k 9).length =
      .ok ⟨front ++ (d + 1) :: List.replicate k 0, (front ++ d :: List.replicate k 9).length,
        front ++ (d + 1) :: List.replicate k 0⟩ := by
  rw [plusOne, Int.toNat_natCast, carry_leaves front hd]
  rfl

theorem plusOne_nines {malloc : Malloc Int} {k : Nat} (hmem : (malloc.alloc (k + 1)).isSome) :
    plusOne malloc (List.replicate k 9) k =
      .ok ⟨List.replicate k 0, k + 1, 1 :: List.replicate k 0⟩ := by
  obtain ⟨block, hblock⟩ := Option.isSome_iff_exists.mp hmem
  have hlen := malloc.length hblock
  obtain ⟨x, rest, rfl⟩ := List.exists_cons_of_length_eq_add_one hlen
  have hrest : rest.length = k := by simpa using hlen
  have hfill : forLoop 1 (k + 1 : Int) (1 :: rest) (fun i array => write array i 0) =
      .ok (1 :: List.replicate k 0) := by
    have hall := fill_ok [1] rest (0 : Int)
    simpa [hrest] using hall
  have hwrite : write ([] ++ x :: rest) 0 1 = .ok ([] ++ 1 :: rest) := write_mid rfl 1
  rw [List.nil_append, List.nil_append] at hwrite
  rw [plusOne, Int.toNat_natCast, carry_ends, ok_bind]
  simp only [show ((k : Int) + 1).toNat = k + 1 by omega, hblock, Option.getD_some, hwrite,
    ok_bind, hfill, pure_eq_ok]

/-- More than one digit, of which the first is zero. -/
def LeadingZero (digits : List Int) : Prop := 1 < digits.length ∧ digits.head? = some 0

section Raised
variable {front : List Int} {d : Int} {k : Nat}
  (hdigits : ∀ e ∈ front ++ d :: List.replicate k 9, 0 ≤ e ∧ e ≤ 9)
include hdigits

theorem raised_digits (hd : d < 9) :
    ∀ e ∈ front ++ (d + 1) :: List.replicate k 0, 0 ≤ e ∧ e ≤ 9 := by
  have hdigit := hdigits d (by simp)
  intro e he
  rcases List.mem_append.mp he with he | he
  · exact hdigits e (List.mem_append_left _ he)
  · rcases List.mem_cons.mp he with rfl | he
    · omega
    · rw [List.eq_of_mem_replicate he]
      decide

/-- The first digit is the one before, or one more than the one before. -/
theorem raised_leading (hlead : ¬ LeadingZero (front ++ d :: List.replicate k 9)) :
    ¬ LeadingZero (front ++ (d + 1) :: List.replicate k 0) := by
  cases front with
  | nil =>
    have hdigit := hdigits d (by simp)
    rintro ⟨_, hzero⟩
    simp only [List.nil_append, List.head?_cons, Option.some.injEq] at hzero
    omega
  | cons a front => simpa [LeadingZero] using hlead

end Raised

/-- `plusOne` returns the digits of the next number. The block for a further digit is only
needed, and has to be there, if all digits are nines. -/
theorem plusOne_ok (malloc : Malloc Int) (digits : List Int)
    (hdigits : ∀ d ∈ digits, 0 ≤ d ∧ d ≤ 9)
    (hmem : (∀ d ∈ digits, d = 9) → (malloc.alloc (digits.length + 1)).isSome) :
    ∃ out, plusOne malloc digits digits.length = .ok out ∧
      out.returned.length = out.returnSize ∧ (∀ d ∈ out.returned, 0 ≤ d ∧ d ≤ 9) ∧
      value out.returned = value digits + 1 ∧
      (out.returnSize = digits.length ∨ out.returnSize = digits.length + 1) ∧
      (out.returnSize = digits.length + 1 ↔ ∀ d ∈ digits, d = 9) ∧
      (¬ LeadingZero digits → ¬ LeadingZero out.returned) := by
  rcases nines_or_smaller digits (fun d hd => (hdigits d hd).2) with hnines | ⟨front, d, k, rfl, hd⟩
  · have hall : ∀ d ∈ digits, d = 9 := by
      rw [hnines]
      exact fun d hd => List.eq_of_mem_replicate hd
    have hcall := plusOne_nines (hmem hall)
    rw [← hnines] at hcall
    refine ⟨_, hcall, by simp, ?_, ?_, Or.inr rfl, by simpa using hall, ?_⟩
    · intro e he
      rcases List.mem_cons.mp he with rfl | he
      · decide
      · rw [List.eq_of_mem_replicate he]
        decide
    · rw [value_overflow, ← hnines]
    · simp [LeadingZero]
  · refine ⟨_, plusOne_smaller malloc front hd k, by simp, raised_digits hdigits hd,
      value_carry front d k, Or.inl rfl, ?_, raised_leading hdigits⟩
    constructor
    · intro hsize
      simp only at hsize
      omega
    · intro hall
      have hnine := hall d (by simp)
      omega

theorem plusOne_carried :
    ∃ out, plusOne (Malloc.cleared 7) [1, 9, 9] 3 = .ok out ∧
      out.returned.length = out.returnSize ∧ (∀ d ∈ out.returned, 0 ≤ d ∧ d ≤ 9) ∧
      value out.returned = value [1, 9, 9] + 1 ∧
      (out.returnSize = 3 ∨ out.returnSize = 3 + 1) ∧
      (out.returnSize = 3 + 1 ↔ ∀ d ∈ [1, 9, 9], d = (9 : Int)) ∧
      (¬ LeadingZero [1, 9, 9] → ¬ LeadingZero out.returned) :=
  plusOne_ok (Malloc.cleared 7) [1, 9, 9] (by decide) (fun _ => rfl)

end BasicDemo.LeetCode.PlusOne
