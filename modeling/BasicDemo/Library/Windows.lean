import BasicDemo.Library.Arrays

namespace BasicDemo.Library.Arrays.Access
open Library.Loops

variable {α : Type}

/-- Any access to a cell other than `lo`, ..., `hi` is a fault. -/
def within (lo hi : Int) : Access α where
  read a i := if lo ≤ i ∧ i ≤ hi then Arrays.read a i else .error .outOfRange
  write a i x := if lo ≤ i ∧ i ≤ hi then Arrays.write a i x else .error .outOfRange

/-- The cells `lo`, ..., `hi` are open. -/
structure Covers (A : Access α) (lo hi : Int) : Prop where
  read : ∀ a {i}, lo ≤ i → i ≤ hi → A.read a i = plain.read a i
  write : ∀ a {i} x, lo ≤ i → i ≤ hi → A.write a i x = plain.write a i x

theorem within_covers (lo hi : Int) : (within lo hi : Access α).Covers lo hi :=
  ⟨fun _ _ hlo hhi => if_pos ⟨hlo, hhi⟩, fun _ _ _ hlo hhi => if_pos ⟨hlo, hhi⟩⟩

namespace Covers

variable {A : Access α} {lo hi : Int} (h : A.Covers lo hi)
include h

theorem swap (a : List α) {i j : Int} (hi₁ : lo ≤ i) (hi₂ : i ≤ hi) (hj₁ : lo ≤ j)
    (hj₂ : j ≤ hi) : A.swap a i j = plain.swap a i j := by
  unfold Access.swap
  simp only [h.read a hi₁ hi₂, h.read a hj₁ hj₂, h.write _ _ hi₁ hi₂, h.write _ _ hj₁ hj₂]

theorem scanUp (p : α → Bool) (a : List α) {i j : Int} (hlo : lo ≤ i) (hhi : j ≤ hi + 1) :
    A.scanUp p a i j = plain.scanUp p a i j := by
  fun_induction Access.scanUp plain p a i j with
  | case1 i hlt ih =>
    rw [Access.scanUp, if_pos hlt, h.read a hlo (by omega)]
    refine bind_congr_ok ?_
    intro x _
    rw [ih (by omega)]
  | case2 i hge => rw [Access.scanUp, if_neg hge]

theorem scanDown (p : α → Bool) (a : List α) {i j : Int} (hlo : lo ≤ i + 1) (hhi : j ≤ hi) :
    A.scanDown p a i j = plain.scanDown p a i j := by
  fun_induction Access.scanDown plain p a i j with
  | case1 j hlt ih =>
    rw [Access.scanDown, if_pos hlt, h.read a (by omega) hhi]
    refine bind_congr_ok ?_
    intro x _
    rw [ih (by omega)]
  | case2 j hge => rw [Access.scanDown, if_neg hge]

end Covers

variable {A : Access α}

/-- A scan from the left does not pass the other index. -/
theorem scanUp_between {p : α → Bool} {a : List α} {i j r : Int}
    (h : A.scanUp p a i j = .ok r) : i ≤ r ∧ (r ≤ i ∨ r ≤ j) := by
  fun_induction Access.scanUp A p a i j with
  | case1 i hlt ih =>
    obtain ⟨x, -, hx⟩ := bind_eq_ok.mp h
    split at hx
    · have hrest := ih hx
      omega
    · cases hx
      omega
  | case2 i hge =>
    cases h
    omega

/-- A scan from the right does not pass the other index. -/
theorem scanDown_between {p : α → Bool} {a : List α} {i j r : Int}
    (h : A.scanDown p a i j = .ok r) : r ≤ j ∧ (j ≤ r ∨ i ≤ r) := by
  fun_induction Access.scanDown A p a i j with
  | case1 j hlt ih =>
    obtain ⟨x, -, hx⟩ := bind_eq_ok.mp h
    split at hx
    · have hrest := ih hx
      omega
    · cases hx
      omega
  | case2 j hge =>
    cases h
    omega

end BasicDemo.Library.Arrays.Access
