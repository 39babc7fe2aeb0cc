import BasicDemo.Library.Runs

namespace BasicDemo.Library

section places

variable {α : Type*} {l : List α} {i : Nat} {old : α}

theorem set_of_getElem? (h : l[i]? = some old) : l.set i old = l := by
  obtain ⟨hlt, rfl⟩ := List.getElem?_eq_some_iff.mp h
  exact List.set_getElem_self hlt

/-- One place changes, and the count of the places with it. -/
theorem countP_set_add (h : l[i]? = some old) (new : α) (p : α → Bool) :
    (l.set i new).countP p + (p old).toNat = l.countP p + (p new).toNat := by
  have hcons : ∀ (x : α) (xs : List α), (x :: xs).countP p = xs.countP p + (p x).toNat := by
    intro x xs
    rw [List.countP_cons]
    cases p x <;> rfl
  induction l generalizing i with
  | nil => cases h
  | cons x xs ih =>
    cases i with
    | zero =>
      obtain rfl := Option.some.inj h
      rw [List.set_cons_zero, hcons, hcons]
      omega
    | succ i =>
      have := ih h
      rw [List.set_cons_succ, hcons, hcons]
      omega

/-- What the places weigh together. -/
def weight (f : α → Nat) : List α → Nat
  | [] => 0
  | x :: xs => f x + weight f xs

theorem weight_set_add (h : l[i]? = some old) (new : α) (f : α → Nat) :
    weight f (l.set i new) + f old = weight f l + f new := by
  induction l generalizing i with
  | nil => cases h
  | cons x xs ih =>
    cases i with
    | zero =>
      obtain rfl := Option.some.inj h
      rw [List.set_cons_zero, weight, weight]
      omega
    | succ i =>
      have := ih h
      rw [List.set_cons_succ, weight, weight]
      omega

theorem weight_replicate (f : α → Nat) (n : Nat) (x : α) :
    weight f (List.replicate n x) = n * f x := by
  induction n with
  | zero => exact (Nat.zero_mul _).symm
  | succ n ih => rw [List.replicate_succ, weight, ih, Nat.succ_mul, Nat.add_comm]

end places

namespace Counting

/-- A counting semaphore: tokens that may be taken, and callers that want one. -/
structure Semaphore where
  tokens : Nat
  waiters : Nat
  deriving DecidableEq

inductive Op where
  | signal
  | arrive
  | acquire
  | giveUp
  deriving DecidableEq

/-- A caller gives up only while there are not enough tokens for all that wait. -/
def step (s : Semaphore) : Op → Option Semaphore
  | .signal => some ⟨s.tokens + 1, s.waiters⟩
  | .arrive => some ⟨s.tokens, s.waiters + 1⟩
  | .acquire =>
    if 0 < s.tokens ∧ 0 < s.waiters then some ⟨s.tokens - 1, s.waiters - 1⟩ else none
  | .giveUp => if s.tokens < s.waiters then some ⟨s.tokens, s.waiters - 1⟩ else none

/-- Tokens come with signals and go with acquisitions, and only so. -/
theorem step_tokens {a b : Semaphore} {op : Op} (h : step a op = some b) :
    b.tokens + [op].count .acquire = a.tokens + [op].count .signal := by
  cases op with
  | signal =>
    obtain rfl := Option.some.inj h
    rfl
  | arrive =>
    obtain rfl := Option.some.inj h
    rfl
  | acquire =>
    obtain ⟨htokens, ⟨⟩⟩ := Option.ite_none_right_eq_some.mp h
    exact Nat.sub_add_cancel htokens.1
  | giveUp =>
    obtain ⟨-, ⟨⟩⟩ := Option.ite_none_right_eq_some.mp h
    rfl

theorem run_tokens {a b : Semaphore} {ops : List Op} (h : Runs.run step a ops = some b) :
    b.tokens + ops.count .acquire = a.tokens + ops.count .signal := by
  induction ops generalizing a with
  | nil =>
    cases h
    rfl
  | cons op ops ih =>
    obtain ⟨c, hc, hrest⟩ := Option.bind_eq_some_iff.mp h
    have hstep := step_tokens hc
    have hrun := ih hrest
    have hcount : ∀ o, ([op] ++ ops).count o = [op].count o + ops.count o :=
      fun _ => List.count_append
    change b.tokens + ([op] ++ ops).count .acquire = a.tokens + ([op] ++ ops).count .signal
    rw [hcount, hcount]
    omega

end Counting
end BasicDemo.Library
