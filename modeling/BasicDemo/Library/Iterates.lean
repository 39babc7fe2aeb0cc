import Mathlib.Data.Fintype.Option
import Mathlib.Data.Fintype.Pigeonhole
import Mathlib.Logic.Function.Iterate
import Mathlib.Logic.Relation

namespace BasicDemo.Library.Iterates

variable {α : Type*}

/-- An orbit that comes back after `p` steps keeps coming back. -/
theorem iterate_period {f : α → α} {x : α} {m p : Nat} (h : f^[m] x = f^[m + p] x)
    (j k : Nat) : f^[m + j + p * k] x = f^[m + j] x := by
  induction k with
  | zero => rfl
  | succ k ih =>
    have hsplit : m + j + p * (k + 1) = (j + p * k) + (m + p) := by
      rw [Nat.mul_succ]
      omega
    have hjoin : (j + p * k) + m = m + j + p * k := by omega
    rw [hsplit, Function.iterate_add_apply, ← h, ← Function.iterate_add_apply, hjoin]
    exact ih

theorem exists_repetition [Fintype α] (f : α → α) (x : α) :
    ∃ m p, 0 < p ∧ m + p ≤ Fintype.card α ∧ f^[m] x = f^[m + p] x := by
  obtain ⟨i, j, hne, he⟩ := Fintype.exists_ne_map_eq_of_card_lt
    (fun i : Fin (Fintype.card α + 1) => f^[i.val] x) (by simp)
  have hi := i.isLt
  have hj := j.isLt
  have hval : i.val ≠ j.val := fun h => hne (Fin.ext h)
  rcases Nat.lt_or_gt_of_ne hval with hlt | hlt
  · refine ⟨i, j - i, by omega, by omega, ?_⟩
    rw [Nat.add_sub_cancel' hlt.le]
    exact he
  · refine ⟨j, i - j, by omega, by omega, ?_⟩
    rw [Nat.add_sub_cancel' hlt.le]
    exact he.symm

/-- The tortoise and the hare meet within as many steps as there are places. -/
theorem exists_meeting [Fintype α] (f : α → α) (x : α) :
    ∃ i, 0 < i ∧ i ≤ Fintype.card α ∧ f^[2 * i] x = f^[i] x := by
  obtain ⟨m, p, hp, hcard, he⟩ := exists_repetition f x
  -- the first multiple of the period on the cycle
  obtain ⟨q, hq⟩ : ∃ q, m ≤ p * (q + 1) ∧ p * (q + 1) ≤ m + p := by
    refine ⟨(m - 1) / p, ?_, ?_⟩
    · have := Nat.lt_mul_div_succ (m - 1) hp
      omega
    · have := Nat.mul_div_le (m - 1) p
      rw [Nat.mul_succ]
      omega
  refine ⟨p * (q + 1), Nat.mul_pos hp (Nat.succ_pos q), by omega, ?_⟩
  have hperiod := iterate_period he (p * (q + 1) - m) (q + 1)
  rw [Nat.add_sub_cancel' hq.1] at hperiod
  rw [Nat.two_mul]
  exact hperiod

/-- One step of a partial function from a place that may be the end. -/
def advance (g : α → Option α) (p : Option α) : Option α := p.bind g

/-- The places on the way. -/
def Reaches (g : α → Option α) : α → α → Prop := Relation.ReflTransGen (fun a b => g a = some b)

/-- A place on the way comes back to itself. -/
def Cyclic (g : α → Option α) (a : α) : Prop :=
  ∃ x y, Reaches g a x ∧ g x = some y ∧ Reaches g y x

variable {g : α → Option α}

theorem advance_none (n : Nat) : (advance g)^[n] none = none :=
  Function.iterate_fixed rfl n

/-- What has ended stays ended. -/
theorem ended_mono {p : Option α} {m n : Nat} (h : (advance g)^[m] p = none) (hmn : m ≤ n) :
    (advance g)^[n] p = none := by
  obtain ⟨k, rfl⟩ := Nat.exists_eq_add_of_le' hmn
  rw [Function.iterate_add_apply, h, advance_none]

theorem reaches_iff_iterate {a b : α} :
    Reaches g a b ↔ ∃ n, (advance g)^[n] (some a) = some b := by
  constructor
  · intro h
    induction h with
    | refl => exact ⟨0, rfl⟩
    | tail _ hstep ih =>
      obtain ⟨n, hn⟩ := ih
      refine ⟨n + 1, ?_⟩
      rw [Function.iterate_succ_apply', hn]
      exact hstep
  · intro ⟨n, hn⟩
    induction n generalizing b with
    | zero =>
      cases hn
      exact .refl
    | succ n ih =>
      rw [Function.iterate_succ_apply'] at hn
      obtain ⟨c, hc, hstep⟩ := Option.bind_eq_some_iff.mp hn
      exact (ih hc).tail hstep

theorem cyclic_of_meeting {a x : α} {i : Nat} (hi : 0 < i)
    (hx : (advance g)^[i] (some a) = some x) (hmeet : (advance g)^[2 * i] (some a) = some x) :
    Cyclic g a := by
  obtain ⟨n, rfl⟩ := Nat.exists_eq_add_of_lt hi
  rw [Nat.two_mul, Function.iterate_add_apply, hx, Nat.zero_add, Function.iterate_succ_apply]
    at hmeet
  cases hy : g x with
  | none =>
    have hend : advance g (some x) = none := hy
    rw [hend, advance_none] at hmeet
    cases hmeet
  | some y =>
    have hnext : advance g (some x) = some y := hy
    rw [hnext] at hmeet
    exact ⟨x, y, reaches_iff_iterate.mpr ⟨_, hx⟩, hy, reaches_iff_iterate.mpr ⟨n, hmeet⟩⟩

theorem Cyclic.endless {a : α} (h : Cyclic g a) (n : Nat) :
    (advance g)^[n] (some a) ≠ none := by
  obtain ⟨x, y, hax, hxy, hyx⟩ := h
  obtain ⟨m, hm⟩ := reaches_iff_iterate.mp hax
  obtain ⟨k, hk⟩ := reaches_iff_iterate.mp hyx
  have hround : (advance g)^[k + 1] (some x) = some x := by
    rw [Function.iterate_succ_apply]
    have hnext : advance g (some x) = some y := hxy
    rw [hnext, hk]
  have hperiod : (advance g)^[m] (some a) = (advance g)^[m + (k + 1)] (some a) := by
    rw [Nat.add_comm, Function.iterate_add_apply, hm, hround]
  have hback := iterate_period hperiod 0 n
  rw [Nat.add_zero, hm] at hback
  intro hend
  have hle : n ≤ m + (k + 1) * n :=
    (Nat.le_mul_of_pos_left n (Nat.succ_pos k)).trans (Nat.le_add_left _ m)
  rw [ended_mono hend hle] at hback
  cases hback

end BasicDemo.Library.Iterates
