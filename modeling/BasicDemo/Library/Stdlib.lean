import BasicDemo.Library.Arrays
import Mathlib.Data.List.Sort

namespace BasicDemo.Library.Stdlib
open Library.Arrays

variable {α : Type}

/-- What `qsort` asks of a function that compares cells. -/
structure Comparison (compar : α → α → Int) : Prop where
  total : ∀ x y, compar x y ≤ 0 ∨ compar y x ≤ 0
  trans : ∀ x y z, compar x y ≤ 0 → compar y z ≤ 0 → compar x z ≤ 0

/-- An implementation of `qsort`. In which order cells that compare equal come, and what a
function does that is not a comparison, is up to it. -/
structure Qsort (α : Type) where
  sort : (α → α → Int) → List α → List α
  perm : ∀ {compar}, Comparison compar → ∀ a, (sort compar a).Perm a
  ascending : ∀ {compar}, Comparison compar →
    ∀ a, (sort compar a).Pairwise (fun x y => compar x y ≤ 0)

/-- The array after `qsort(a, nel, sizeof(a[0]), compar)`. -/
def Qsort.call (qsort : Qsort α) (a : List α) (nel : Int) (compar : α → α → Int) :
    Except Fault (List α) :=
  if 0 ≤ nel ∧ nel ≤ a.length then
    .ok (qsort.sort compar (a.take nel.toNat) ++ a.drop nel.toNat)
  else .error .outOfRange

theorem Qsort.call_all (qsort : Qsort α) (a : List α) (compar : α → α → Int) :
    qsort.call a a.length compar = .ok (qsort.sort compar a) := by
  rw [Qsort.call, if_pos (by omega)]
  simp

theorem Comparison.mergeSort_ascending {compar : α → α → Int} (h : Comparison compar)
    (a : List α) :
    (a.mergeSort (fun x y => compar x y ≤ 0)).Pairwise (fun x y => compar x y ≤ 0) := by
  have hsorted : (a.mergeSort (fun x y => compar x y ≤ 0)).Pairwise
      (fun x y => decide (compar x y ≤ 0) = true) := by
    apply List.pairwise_mergeSort
    · simp only [decide_eq_true_eq]
      exact h.trans
    · simp only [Bool.or_eq_true, decide_eq_true_eq]
      exact h.total
  simpa using hsorted

/-- There is one: merge sort. -/
def Qsort.byMerging : Qsort α where
  sort compar a := a.mergeSort (fun x y => compar x y ≤ 0)
  perm _ a := List.mergeSort_perm a _
  ascending h a := h.mergeSort_ascending a

/-- An implementation of `malloc` for cells of type `α`: `none` is `NULL`, and a block comes
with whatever its cells hold. -/
structure Malloc (α : Type) where
  alloc : Nat → Option (List α)
  length : ∀ {n block}, alloc n = some block → block.length = n

/-- Memory that never runs out and is cleared. -/
def Malloc.cleared (x : α) : Malloc α where
  alloc n := some (List.replicate n x)
  length h := by
    cases h
    exact List.length_replicate

end BasicDemo.Library.Stdlib
