import Mathlib.Algebra.Ring.Int.Defs
import Mathlib.Data.List.Basic
import Mathlib.Tactic.Common

namespace BasicDemo.LeetCode.AddTwoNumbers

/-- The loop, from the nodes `p` and `q` on: the carry, and the digits in the nodes behind
`dummyHead` up to `curr`. A list of nodes is the list of its values, and `null` is the
empty one. -/
def adding (p q : List Int) (carry : Int) (digits : List Int) : Int × List Int :=
  if p ≠ [] ∨ q ≠ [] then
    let x := p.headD 0
    let y := q.headD 0
    let sum := carry + x + y
    adding p.tail q.tail (sum.tdiv 10) (digits ++ [sum.tmod 10])
  else (carry, digits)
termination_by p.length + q.length
decreasing_by
  rename_i h
  have hpos : 0 < p.length ∨ 0 < q.length := by simpa only [List.length_pos_iff] using h
  rw [List.length_tail, List.length_tail]
  omega

def addTwoNumbers (l1 l2 : List Int) : List Int :=
  let (carry, digits) := adding l1 l2 0 []
  if carry > 0 then digits ++ [carry] else digits

/-- Decimal digits. -/
def Digits (digits : List Int) : Prop := ∀ d ∈ digits, 0 ≤ d ∧ d ≤ 9

/-- The number that digits denote, the least significant one first. -/
def value (digits : List Int) : Int := digits.foldr (fun d n => d + 10 * n) 0

/-- More than one digit, of which the most significant is zero. -/
def LeadingZero (digits : List Int) : Prop := 1 < digits.length ∧ digits.getLast? = some 0

theorem value_cons (d : Int) (digits : List Int) : value (d :: digits) = d + 10 * value digits :=
  rfl

/-- The first digit, or zero if there is none, and the others. -/
theorem value_eq (digits : List Int) :
    value digits = digits.headD 0 + 10 * value digits.tail := by
  cases digits <;> rfl

theorem value_concat (digits : List Int) (d : Int) :
    value (digits ++ [d]) = value digits + 10 ^ digits.length * d := by
  induction digits with
  | nil => simp [value]
  | cons e digits ih =>
    rw [List.cons_append, value_cons, ih, value_cons, List.length_cons, pow_succ', mul_add,
      mul_assoc, add_assoc]

theorem Digits.value_nonneg {digits : List Int} (h : Digits digits) : 0 ≤ value digits := by
  induction digits with
  | nil => exact Int.le_refl 0
  | cons d digits ih =>
    have hd := h d List.mem_cons_self
    have hrest := ih (fun e he => h e (List.mem_cons_of_mem d he))
    rw [value_cons]
    omega

theorem Digits.value_lt {digits : List Int} (h : Digits digits) :
    value digits < 10 ^ digits.length := by
  induction digits with
  | nil => decide
  | cons d digits ih =>
    have hd := h d List.mem_cons_self
    have hrest := ih (fun e he => h e (List.mem_cons_of_mem d he))
    rw [value_cons, List.length_cons, pow_succ']
    omega

/-- The remaining digits of the sum, with the carry as one more digit. -/
structure Added (p q : List Int) (carry : Int) (rest : List Int) (last : Int) : Prop where
  digits : Digits rest
  carried : last = 0 ∨ last = 1
  length : rest.length = max p.length q.length
  sum : value (rest ++ [last]) = carry + value p + value q

theorem headD_digit {digits : List Int} (h : Digits digits) :
    0 ≤ digits.headD 0 ∧ digits.headD 0 ≤ 9 := by
  cases digits with
  | nil => decide
  | cons d digits => exact h d List.mem_cons_self

theorem tail_digits {digits : List Int} (h : Digits digits) : Digits digits.tail :=
  fun d hd => h d (List.mem_of_mem_tail hd)

/-- A round adds one digit of the sum and keeps the rest of it. -/
theorem adding_ok {p q : List Int} {carry : Int} (digits : List Int) (hp : Digits p)
    (hq : Digits q) (hcarry : carry = 0 ∨ carry = 1) :
    ∃ rest last, adding p q carry digits = (last, digits ++ rest) ∧
      Added p q carry rest last := by
  fun_induction adding p q carry digits with
  | case1 p q carry digits hmore x y sum ih =>
    have hx : 0 ≤ x ∧ x ≤ 9 := headD_digit hp
    have hy : 0 ≤ y ∧ y ≤ 9 := headD_digit hq
    have hdiv : sum.tdiv 10 = sum / 10 := Int.tdiv_eq_ediv_of_nonneg (by omega)
    have hmod : sum.tmod 10 = sum % 10 := Int.tmod_eq_emod_of_nonneg (by omega)
    obtain ⟨rest, last, hrun, hadded⟩ := ih (tail_digits hp) (tail_digits hq) (by omega)
    refine ⟨sum.tmod 10 :: rest, last, by simp [hrun], ?_, hadded.carried, ?_, ?_⟩
    · intro d hd
      rcases List.mem_cons.mp hd with rfl | hd
      · omega
      · exact hadded.digits d hd
    · have hlength := hadded.length
      rw [List.length_tail, List.length_tail] at hlength
      have hpos : 0 < p.length ∨ 0 < q.length := by
        simpa only [List.length_pos_iff] using hmore
      rw [List.length_cons, hlength]
      omega
    · have hvalue := hadded.sum
      have hp' : value p = x + 10 * value p.tail := value_eq p
      have hq' : value q = y + 10 * value q.tail := value_eq q
      rw [List.cons_append, value_cons, hvalue, hp', hq', hdiv, hmod]
      omega
  | case2 p q carry digits hnone =>
    obtain ⟨rfl, rfl⟩ : p = [] ∧ q = [] := by simpa using hnone
    refine ⟨[], carry, by simp, by simp [Digits], hcarry, rfl, ?_⟩
    simp [value]

theorem adding_comm (p q : List Int) (carry : Int) (digits : List Int) :
    adding q p carry digits = adding p q carry digits := by
  fun_induction adding p q carry digits with
  | case1 p q carry digits hmore x y sum ih =>
    have hsum : carry + q.headD 0 + p.headD 0 = sum := by omega
    rw [adding, if_pos hmore.symm]
    simp only [hsum, ih]
  | case2 p q carry digits hnone =>
    rw [adding, if_neg (fun h => hnone h.symm)]

/-- A number of more than one digit is not small, unless its most significant digit is a
zero. -/
theorem Digits.le_value {digits : List Int} (h : Digits digits) (lead : ¬ LeadingZero digits)
    {n : Nat} (hn : 1 ≤ n) (hlen : digits.length = n + 1) : 10 ^ n ≤ value digits := by
  rcases List.eq_nil_or_concat' digits with rfl | ⟨front, d, rfl⟩
  · cases hlen
  · have hd : d ≠ 0 := by
      rintro rfl
      exact lead ⟨by omega, List.getLast?_concat⟩
    have hdigit := h d (by simp)
    have hfront : front.length = n := by simpa using hlen
    have hnonneg : 0 ≤ value front :=
      Digits.value_nonneg (fun e he => h e (List.mem_append_left _ he))
    have hpow : (10 : Int) ^ n * 1 ≤ 10 ^ n * d :=
      Int.mul_le_mul_of_nonneg_left (by omega) (Int.pow_nonneg (by decide))
    rw [value_concat, hfront]
    omega

/-- A number with as many digits as the longer of two numbers has a smaller value than their
sum if its most significant digit is a zero and theirs are not. -/
theorem Added.not_leadingZero {p q rest : List Int} (h : Added p q 0 rest 0) (hp : Digits p)
    (hq : Digits q) (leadp : ¬ LeadingZero p) (leadq : ¬ LeadingZero q) : ¬ LeadingZero rest := by
  rintro ⟨hlong, hzero⟩
  obtain ⟨front, rfl⟩ := List.getLast?_eq_some_iff.mp hzero
  have hlength := h.length
  have hvalue := h.sum
  rw [List.length_append, List.length_singleton] at hlong hlength
  rw [value_concat, value_concat, mul_zero, mul_zero, add_zero, add_zero, zero_add] at hvalue
  have hsmall : value front < 10 ^ front.length :=
    Digits.value_lt (fun d hd => h.digits d (List.mem_append_left _ hd))
  have hpn := hp.value_nonneg
  have hqn := hq.value_nonneg
  -- The longer number alone is larger than all that fits in front of the zero.
  rcases Nat.le_total p.length q.length with hle | hle
  · have hlarge := hq.le_value leadq (n := front.length) (by omega) (by omega)
    omega
  · have hlarge := hp.le_value leadp (n := front.length) (by omega) (by omega)
    omega

/-- `addTwoNumbers` returns the digits of the sum. -/
theorem addTwoNumbers_ok (l1 l2 : List Int) (h1 : Digits l1) (h2 : Digits l2) :
    Digits (addTwoNumbers l1 l2) ∧ value (addTwoNumbers l1 l2) = value l1 + value l2 ∧
      (addTwoNumbers l1 l2).length = max l1.length l2.length +
        (if (adding l1 l2 0 []).1 = 1 then 1 else 0) ∧
      (¬ LeadingZero l1 → ¬ LeadingZero l2 → ¬ LeadingZero (addTwoNumbers l1 l2)) ∧
      addTwoNumbers l2 l1 = addTwoNumbers l1 l2 := by
  have hcomm : addTwoNumbers l2 l1 = addTwoNumbers l1 l2 := by
    unfold addTwoNumbers
    rw [adding_comm]
  obtain ⟨rest, last, hrun, hadded⟩ := adding_ok [] h1 h2 (Or.inl rfl)
  rw [List.nil_append] at hrun
  have hvalue := hadded.sum
  rw [zero_add] at hvalue
  rcases hadded.carried with rfl | rfl
  · have hsum : addTwoNumbers l1 l2 = rest := by simp [addTwoNumbers, hrun]
    rw [hcomm, hsum, hrun]
    refine ⟨hadded.digits, ?_, hadded.length, hadded.not_leadingZero h1 h2, rfl⟩
    rw [← hvalue, value_concat, mul_zero, add_zero]
  · have hsum : addTwoNumbers l1 l2 = rest ++ [1] := by simp [addTwoNumbers, hrun]
    rw [hcomm, hsum, hrun]
    refine ⟨?_, hvalue, by simp [hadded.length], ?_, rfl⟩
    · intro d hd
      rcases List.mem_append.mp hd with hd | hd
      · exact hadded.digits d hd
      · rw [List.mem_singleton.mp hd]
        decide
    · intro _ _ hlead
      simp [LeadingZero] at hlead

/-- The example of the notes. -/
theorem addTwoNumbers_example :
    value (addTwoNumbers [2, 4, 3] [5, 6, 4]) = value [2, 4, 3] + value [5, 6, 4] ∧
      ¬ LeadingZero (addTwoNumbers [2, 4, 3] [5, 6, 4]) := by
  obtain ⟨_, hvalue, _, hlead, _⟩ := addTwoNumbers_ok [2, 4, 3] [5, 6, 4]
    (by unfold Digits; decide) (by unfold Digits; decide)
  exact ⟨hvalue, hlead (by simp [LeadingZero]) (by simp [LeadingZero])⟩

end BasicDemo.LeetCode.AddTwoNumbers
