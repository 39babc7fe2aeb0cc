import BasicDemo.Library.Loops
import Mathlib.Data.List.Induction

namespace BasicDemo.Library.Arrays
open Library.Loops

variable {α : Type*}

/-- What makes a program on arrays undefined. -/
inductive Fault where
  | outOfRange
  | overflow
  | divisionByZero
  deriving DecidableEq

/-- The value of `a[i]`. -/
def read (a : List α) (i : Int) : Except Fault α :=
  if 0 ≤ i then
    match a[i.toNat]? with
    | some x => .ok x
    | none => .error .outOfRange
  else .error .outOfRange

/-- The array after `a[i] = x`. -/
def write (a : List α) (i : Int) (x : α) : Except Fault (List α) :=
  if 0 ≤ i ∧ i < a.length then .ok (a.set i.toNat x) else .error .outOfRange

/-- The `int` expression `x % y`, with the sign of `x`. -/
def rem (x y : Int) : Except Fault Int :=
  if y = 0 then .error .divisionByZero else .ok (x.tmod y)

/-- The values of the 32-bit type `int`. -/
def Representable (z : Int) : Prop := -2147483648 ≤ z ∧ z ≤ 2147483647

instance (z : Int) : Decidable (Representable z) := by
  unfold Representable
  infer_instance

/-- The value of `int` that stands for `z` in two's complement. -/
def wrap (z : Int) : Int := (z + 2147483648) % 4294967296 - 2147483648

/-- The `int` expression `x - y`. -/
def sub (x y : Int) : Except Fault Int :=
  if Representable (x - y) then .ok (x - y) else .error .overflow

/-- The `int` expression `x * y`. -/
def mul (x y : Int) : Except Fault Int :=
  if Representable (x * y) then .ok (x * y) else .error .overflow

/-- The array `b` after `b[i] = a[i]`. -/
def copyCell (a : List α) (i : Nat) (b : List α) : Except Fault (List α) := do
  let x ← read a i
  write b i x

/-- How a program gets at the cells of an array. -/
structure Access (α : Type*) where
  read : List α → Int → Except Fault α
  write : List α → Int → α → Except Fault (List α)

namespace Access

/-- Every cell of the array is open. -/
def plain : Access α := ⟨Arrays.read, Arrays.write⟩

@[simp] theorem plain_read (a : List α) (i : Int) : plain.read a i = Arrays.read a i := rfl

@[simp] theorem plain_write (a : List α) (i : Int) (x : α) :
    plain.write a i x = Arrays.write a i x := rfl

/-- The array after `temp = a[i]; a[i] = a[j]; a[j] = temp`. -/
def swap (A : Access α) (a : List α) (i j : Int) : Except Fault (List α) := do
  let temp ← A.read a i
  let y ← A.read a j
  let a ← A.write a i y
  A.write a j temp

/-- The value of `i` after `while (i < j && p(a[i])) i++`. -/
def scanUp {α : Type} (A : Access α) (p : α → Bool) (a : List α) (i j : Int) :
    Except Fault Int :=
  if i < j then do
    let x ← A.read a i
    if p x then A.scanUp p a (i + 1) j else return i
  else .ok i
termination_by (j - i).toNat

/-- The value of `j` after `while (i < j && p(a[j])) j--`. -/
def scanDown {α : Type} (A : Access α) (p : α → Bool) (a : List α) (i j : Int) :
    Except Fault Int :=
  if i < j then do
    let x ← A.read a j
    if p x then A.scanDown p a i (j - 1) else return j
  else .ok j
termination_by (j - i).toNat

end Access

/-- The exchange of two cells where all cells are open. -/
def swap (a : List α) (i j : Int) : Except Fault (List α) := Access.plain.swap a i j

theorem swap_eq (a : List α) (i j : Int) :
    swap a i j = (do
      let temp ← read a i
      let y ← read a j
      let a ← write a i y
      write a j temp) := rfl

theorem sub_ok {x y : Int} (h : Representable (x - y)) : sub x y = .ok (x - y) := if_pos h

theorem mul_eq_ok {x y z : Int} : mul x y = .ok z ↔ Representable (x * y) ∧ z = x * y := by
  unfold mul
  split <;> rename_i h <;> simp [h, eq_comm]

theorem read_at {a : List α} {i : Int} {n : Nat} (hi : i = n) (hn : n < a.length) :
    read a i = .ok a[n] := by
  subst hi
  simp [read, hn]

theorem read_some {a : List α} {n : Nat} {x : α} (h : a[n]? = some x) :
    read a n = .ok x := by
  simp [read, h]

theorem write_at {a : List α} {i : Int} {n : Nat} (hi : i = n) (hn : n < a.length) (x : α) :
    write a i x = .ok (a.set n x) := by
  subst hi
  simp [write, hn]

theorem write_eq_ok {a b : List α} {n : Nat} {x : α} :
    write a n x = .ok b ↔ n < a.length ∧ b = a.set n x := by
  by_cases hn : n < a.length
  · rw [write_at rfl hn]
    simp [hn, eq_comm]
  · simp [write, hn]

/-- The cells around cell `n`. -/
theorem exists_cell {a : List α} {n : Nat} (h : n < a.length) :
    ∃ front x back, a = front ++ x :: back ∧ front.length = n := by
  refine ⟨a.take n, a[n], a.drop (n + 1), ?_, by rw [List.length_take]; omega⟩
  rw [List.getElem_cons_drop, List.take_append_drop]

theorem getElem?_behind (xs ys : List α) (x : α) (k : Nat) :
    (xs ++ x :: ys)[xs.length + k + 1]? = ys[k]? := by
  rw [Nat.add_assoc, List.getElem?_append_right (Nat.le_add_right _ _), Nat.add_sub_cancel_left,
    List.getElem?_cons_succ]

/-- The cell behind `xs`, without counting the cells. -/
theorem read_mid {xs ys : List α} {x : α} {i : Int} (hi : i = xs.length) :
    read (xs ++ x :: ys) i = .ok x := by
  rw [read_at hi (by simp)]
  simp

theorem write_mid {xs ys : List α} {x : α} {i : Int} (hi : i = xs.length) (y : α) :
    write (xs ++ x :: ys) i y = .ok (xs ++ y :: ys) := by
  rw [write_at hi (by simp)]
  simp

/-- The first cell of a segment. -/
theorem read_segment {xs ys zs : List α} {x : α} {i : Int} (hi : i = xs.length) :
    read (xs ++ x :: ys ++ zs) i = .ok x := by
  rw [List.append_assoc]
  exact read_mid hi

theorem write_segment {xs ys zs : List α} {x : α} {i : Int} (hi : i = xs.length) (y : α) :
    write (xs ++ x :: ys ++ zs) i y = .ok (xs ++ y :: ys ++ zs) := by
  rw [List.append_assoc, List.append_assoc]
  exact write_mid hi y

/-- A cell lies in front of the end of the array. -/
theorem length_lt_mid (xs ys : List α) (x : α) : (xs.length : Int) < (xs ++ x :: ys).length := by
  rw [List.length_append, List.length_cons]
  omega

/-- A cell that can be read can be written. -/
theorem write_of_read {a : List α} {i : Int} {y : α} (h : read a i = .ok y) (x : α) :
    write a i x = .ok (a.set i.toNat x) := by
  unfold read at h
  split at h
  · cases hget : a[i.toNat]? with
    | none => simp [hget] at h
    | some z =>
      have hlt := (List.getElem?_eq_some_iff.mp hget).1
      exact if_pos ⟨by omega, by omega⟩
  · cases h

/-- A write is seen by reads of its cell and by no others. -/
theorem read_write {a b : List α} {i : Int} {x : α} (h : write a i x = .ok b) (j : Int) :
    read b j = if j = i then .ok x else read a j := by
  unfold write at h
  split at h
  · rename_i hi
    cases h
    unfold read
    by_cases hj : 0 ≤ j
    · simp only [hj, if_true, List.getElem?_set]
      by_cases hij : j = i
      · subst hij
        have hlt : j.toNat < a.length := by omega
        simp [hlt]
      · have hne : ¬ i.toNat = j.toNat := by omega
        simp [hij, hne]
    · have hne : ¬ j = i := by omega
      simp [hj, hne]
  · cases h

/-- A read outside the array has no value. -/
theorem read_outside {a : List α} {i : Int} (h : i < 0 ∨ a.length ≤ i) :
    read a i = .error .outOfRange := by
  unfold read
  split
  · have hnone : a[i.toNat]? = none := List.getElem?_eq_none (by omega)
    rw [hnone]
  · rfl

/-- Two cells, one behind the other, are exchanged, whichever is named first. -/
theorem swap_mid (as bs cs : List α) (x y : α) {i j : Int} (hi : i = as.length)
    (hj : j = (as ++ x :: bs).length) :
    swap (as ++ x :: bs ++ y :: cs) i j = .ok (as ++ y :: bs ++ x :: cs) ∧
      swap (as ++ x :: bs ++ y :: cs) j i = .ok (as ++ y :: bs ++ x :: cs) := by
  have hj' : ∀ u : α, j = (as ++ u :: bs).length := by
    intro u
    rw [hj, List.length_append, List.length_append, List.length_cons, List.length_cons]
  constructor
  · rw [swap_eq, read_segment hi, ok_bind, read_mid hj, ok_bind, write_segment hi, ok_bind,
      write_mid (hj' y)]
  · rw [swap_eq, read_mid hj, ok_bind, read_segment hi, ok_bind, write_mid hj, ok_bind,
      write_segment hi]

theorem exchange_perm (as bs cs : List α) (x y : α) :
    (as ++ y :: bs ++ x :: cs).Perm (as ++ x :: bs ++ y :: cs) := by
  rw [List.append_assoc, List.append_assoc]
  apply List.Perm.append_left
  calc (y :: bs ++ x :: cs).Perm (y :: x :: (bs ++ cs)) := List.perm_middle.cons y
    List.Perm _ (x :: y :: (bs ++ cs)) := List.Perm.swap x y _
    List.Perm _ (x :: bs ++ y :: cs) := List.perm_middle.symm.cons x

/-- A cell is exchanged with itself. -/
theorem swap_self {as cs : List α} {x : α} {i j : Int} (hi : i = as.length)
    (hj : j = as.length) : swap (as ++ x :: cs) i j = .ok (as ++ x :: cs) := by
  rw [swap_eq, read_mid hi, ok_bind, read_mid hj, ok_bind, write_mid hi, ok_bind, write_mid hj]

/-- The scan passes cells of `mid` from the front, up to the first one without `p`. -/
theorem scanUp_ok {α : Type} (p : α → Bool) (pre mid post : List α) {i j : Int}
    (hi : i = pre.length) (hj : j = (pre ++ mid).length) :
    ∃ passed rest, mid = passed ++ rest ∧
      Access.plain.scanUp p (pre ++ mid ++ post) i j = .ok ↑(pre ++ passed).length ∧
      (∀ x ∈ passed, p x = true) ∧ ∀ x xs, rest = x :: xs → p x = false := by
  induction mid generalizing pre i with
  | nil =>
    rw [List.append_nil] at hj
    refine ⟨[], [], rfl, ?_, by simp, by simp⟩
    rw [Access.scanUp, if_neg (by omega), hi, List.append_nil]
  | cons x mid ih =>
    rw [List.length_append, List.length_cons] at hj
    rw [Access.scanUp, if_pos (by omega), Access.plain_read, read_segment hi, ok_bind]
    cases hx : p x with
    | false =>
      refine ⟨[], x :: mid, rfl, by simp [hi], by simp, ?_⟩
      intro y ys he
      cases he
      exact hx
    | true =>
      obtain ⟨passed, rest, rfl, hscan, hpassed, hrest⟩ :=
        ih (pre ++ [x]) (i := i + 1) (by simp [hi]) (by simp [hj])
      refine ⟨x :: passed, rest, rfl, ?_, List.forall_mem_cons.mpr ⟨hx, hpassed⟩, hrest⟩
      simpa using hscan

/-- The scan passes cells of `mid` from the end, up to the last one without `p`. -/
theorem scanDown_ok {α : Type} (p : α → Bool) (pre mid post : List α) {i j : Int}
    (hi : i = pre.length - 1) (hj : j = (pre ++ mid).length - 1) :
    ∃ rest passed, mid = rest ++ passed ∧
      Access.plain.scanDown p (pre ++ mid ++ post) i j = .ok (↑(pre ++ rest).length - 1) ∧
      (∀ x ∈ passed, p x = true) ∧ ∀ x xs, rest = xs ++ [x] → p x = false := by
  induction mid using List.reverseRecOn generalizing post j with
  | nil =>
    rw [List.append_nil] at hj
    refine ⟨[], [], rfl, ?_, by simp, by simp⟩
    rw [Access.scanDown, if_neg (by omega), hj, List.append_nil]
  | append_singleton mid x ih =>
    simp only [List.length_append, List.length_cons, List.length_nil] at hj
    have hsplit : pre ++ (mid ++ [x]) ++ post = (pre ++ mid) ++ x :: post := by simp
    have hread : read ((pre ++ mid) ++ x :: post) j = .ok x :=
      read_mid (by rw [hj, List.length_append]; omega)
    rw [Access.scanDown, if_pos (by omega), hsplit, Access.plain_read, hread, ok_bind]
    cases hx : p x with
    | false =>
      refine ⟨mid ++ [x], [], by simp, by simp [hj], by simp, ?_⟩
      intro y ys he
      obtain rfl : x = y := by simpa using (List.append_inj' he rfl).2
      exact hx
    | true =>
      obtain ⟨rest, passed, hmid, hscan, hpassed, hrest⟩ :=
        ih (x :: post) (j := j - 1) (by rw [hj, List.length_append]; omega)
      refine ⟨rest, passed ++ [x], by simp [hmid], hscan, ?_, hrest⟩
      exact List.forall_mem_append.mpr ⟨hpassed, by simpa using hx⟩

/-- Before round `i` of a loop that sets every cell behind `front`. -/
def Filled (front : List α) (x : α) (size i : Nat) (a : List α) : Prop :=
  ∃ rest, a = front ++ List.replicate (i - front.length) x ++ rest ∧ i + rest.length = size

theorem Filled.step {front a : List α} {x : α} {size i : Nat} (h : Filled front x size i a)
    (hi : front.length ≤ i) (hlt : i < size) :
    ∃ t, write a i x = .ok t ∧ Filled front x size (i + 1) t := by
  obtain ⟨rest, rfl, hlen⟩ := h
  cases rest with
  | nil =>
    rw [List.length_nil] at hlen
    omega
  | cons r rest =>
    rw [List.length_cons] at hlen
    have hplace : (i : Int) = (front ++ List.replicate (i - front.length) x).length := by
      rw [List.length_append, List.length_replicate]
      omega
    refine ⟨_, write_mid hplace x, rest, ?_, by omega⟩
    rw [Nat.succ_sub hi, List.replicate_succ']
    simp

/-- `for (i = lo; i < size; i++) a[i] = x`, whatever the cells hold before. -/
theorem fill_ok (front gap : List α) (x : α) :
    forLoop front.length (front ++ gap).length (front ++ gap) (fun i a => write a i x) =
      .ok (front ++ List.replicate gap.length x) := by
  have hloop : ∃ t, forLoop front.length (front ++ gap).length (front ++ gap)
        (fun i a => write a i x) = .ok t ∧
      Filled front x (front ++ gap).length (front ++ gap).length t :=
    forLoop_ok (by rw [List.length_append]; omega) _ ⟨gap, by simp, by simp⟩
      (fun i t hi hlt ht => ht.step hi hlt)
  obtain ⟨t, ht, rest, rfl, hlen⟩ := hloop
  obtain rfl : rest = [] := List.length_eq_zero_iff.mp (by omega)
  rw [ht]
  simp

/-- `for (i = 0; i < size; i++) b[i] = a[i]`, over all of `a`. -/
theorem copyCells_ok (a b : List α) (hlen : a.length ≤ b.length) :
    forLoop 0 a.length b (copyCell a) = .ok (a ++ b.drop a.length) := by
  have hloop : ∃ t, forLoop 0 a.length b (copyCell a) = .ok t ∧
      t = a.take a.length ++ b.drop a.length := by
    refine forLoop_ok (by omega) (fun i t => t = a.take i ++ b.drop i) (by simp) ?_
    intro i t _ hi ht
    have hi' : i < b.length := by omega
    rw [List.drop_eq_getElem_cons hi'] at ht
    have htake : a.take (i + 1) = a.take i ++ [a[i]] := by
      rw [List.take_add_one, List.getElem?_eq_getElem hi]
      rfl
    refine ⟨a.take i ++ a[i] :: b.drop (i + 1), ?_, ?_⟩
    · rw [copyCell, read_at rfl hi, ok_bind, ht, write_mid (by rw [List.length_take]; omega)]
    · rw [htake, List.append_assoc]
      rfl
  obtain ⟨t, ht, rfl⟩ := hloop
  rw [ht, List.take_length]

/-- The counter of every `c` in `D` says how often `c` has been seen. -/
def Tallied [DecidableEq α] (key : α → Int) (D : α → Prop) (table : List Int) (seen : List α) :
    Prop :=
  ∀ c, D c → read table (key c) = .ok (seen.count c : Int)

/-- One element more, by `table[key(c)]++`. -/
theorem Tallied.increment [DecidableEq α] {key : α → Int} (inj : Function.Injective key)
    {D : α → Prop} {table : List Int} {seen : List α} (h : Tallied key D table seen) {c : α}
    (hc : D c) :
    ∃ t, write table (key c) (seen.count c + 1) = .ok t ∧ Tallied key D t (seen ++ [c]) := by
  have hwrite := write_of_read (h c hc) (seen.count c + 1 : Int)
  refine ⟨_, hwrite, ?_⟩
  intro d hd
  rw [read_write hwrite, List.count_append]
  by_cases hdc : d = c
  · subst hdc
    simp
  · have hne : ¬ key d = key c := fun he => hdc (inj he)
    rw [if_neg hne, h d hd, List.count_singleton, if_neg (by simpa using Ne.symm hdc)]
    rfl

end BasicDemo.Library.Arrays
