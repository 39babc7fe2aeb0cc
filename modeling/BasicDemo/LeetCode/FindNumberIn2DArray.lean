import BasicDemo.Library.Grids
import Mathlib.Data.Int.Order.Basic

namespace BasicDemo.LeetCode.FindNumberIn2DArray
open Library.Loops Library.Arrays Library.Grids

/-- The loop of `findNumberIn2DArray`. -/
def search (matrix : List (List Int)) (matrixSize target row column : Int) :
    Except Fault Bool :=
  if row ≤ matrixSize - 1 ∧ column ≥ 0 then do
    let x ← readCell matrix row column
    if target = x then return true
    else if target > x then search matrix matrixSize target (row + 1) column
    else search matrix matrixSize target row (column - 1)
  else .ok false
termination_by (matrixSize - row).toNat + (column + 1).toNat

/-- `none` is a `NULL` matrix. Of `matrixColSize` only the first cell is read, and only for a
matrix with rows. -/
def findNumberIn2DArray (matrix : Option (List (List Int))) (matrixSize : Int)
    (matrixColSize : List Int) (target : Int) : Except Fault Bool :=
  match matrix with
  | none => .ok false
  | some matrix =>
    if matrixSize ≤ 0 then .ok false
    else do
      let columns ← read matrixColSize 0
      if columns = 0 then return false
      else search matrix matrixSize target 0 (columns - 1)

theorem search_staircase {rows columns : Nat} (matrix : Grid Int rows columns) (target : Int) :
    Staircase target matrix.rows (search matrix.rows rows target) where
  outside row column h := by
    rw [matrix.rows_length] at h
    rw [search, if_neg (by omega)]
  inside row column x hrow hcolumn hx := by
    rw [matrix.rows_length] at hrow
    rw [search, if_pos (by omega), hx, ok_bind]
    rcases lt_trichotomy x target with hlt | heq | hgt
    · rw [if_neg (by omega), if_pos (by omega), if_neg (by omega), if_neg (by omega)]
    · rw [if_pos heq.symm, if_pos heq]
      rfl
    · rw [if_neg (by omega), if_neg (by omega), if_neg (by omega), if_pos (by omega)]

/-- In a matrix ordered both ways `findNumberIn2DArray` tells whether the target occurs. -/
theorem findNumberIn2DArray_occurs {rows columns : Nat} (matrix : Grid Int rows columns)
    (matrixColSize : List Int) (hcolumns : 0 < rows → matrixColSize.head? = some (columns : Int))
    (left_to_right : RowsAscend matrix.rows) (top_to_bottom : ColumnsAscend matrix.rows)
    (target : Int) :
    ∃ found, findNumberIn2DArray (some matrix.rows) rows matrixColSize target = .ok found ∧
      (found = true ↔ Occurs target matrix.rows) := by
  rw [← visible_iff_occurs matrix top_to_bottom]
  simp only [findNumberIn2DArray]
  by_cases hrows : (rows : Int) ≤ 0
  · rw [if_pos hrows]
    exact ⟨false, rfl, by simp [matrix.not_visible_of_empty (Or.inl (by omega))]⟩
  · have hread : read matrixColSize 0 = .ok (columns : Int) := by
      have hhead := hcolumns (by omega)
      rw [List.head?_eq_getElem?] at hhead
      exact read_some hhead
    rw [if_neg hrows, hread, ok_bind]
    by_cases hzero : (columns : Int) = 0
    · rw [if_pos hzero]
      exact ⟨false, rfl, by simp [matrix.not_visible_of_empty (Or.inr (by omega))]⟩
    · rw [if_neg hzero]
      exact (search_staircase matrix target).ok left_to_right

/-- The matrix of the exercise. -/
def exercise : Grid Int 5 5 where
  rows := [[1, 4, 7, 11, 15], [2, 5, 8, 12, 19], [3, 6, 9, 16, 22], [10, 13, 14, 17, 24],
    [18, 21, 23, 26, 30]]
  rows_length := rfl
  row_length := by decide

theorem exercise_rowsAscend : RowsAscend exercise.rows := by
  unfold RowsAscend
  decide

theorem exercise_columnsAscend : ColumnsAscend exercise.rows := by
  rintro (_ | _ | _ | _ | _ | j)
  all_goals simp [column, exercise]

theorem findNumberIn2DArray_occurs_exercise :
    findNumberIn2DArray (some exercise.rows) 5 [5, 5, 5, 5, 5] 5 = .ok true := by
  obtain ⟨found, hrun, hfound⟩ := findNumberIn2DArray_occurs exercise [5, 5, 5, 5, 5]
    (fun _ => rfl) exercise_rowsAscend exercise_columnsAscend 5
  have hoccurs : Occurs 5 exercise.rows := ⟨[2, 5, 8, 12, 19], by decide, by decide⟩
  rw [hfound.mpr hoccurs] at hrun
  exact hrun

end BasicDemo.LeetCode.FindNumberIn2DArray
