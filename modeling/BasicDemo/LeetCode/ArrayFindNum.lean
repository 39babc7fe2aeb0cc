import BasicDemo.Library.Grids
import Mathlib.Data.Int.Order.Basic

namespace BasicDemo.LeetCode.ArrayFindNum
open Library.Loops Library.Arrays Library.Grids

/-- One comparison of the exhaustive search. -/
def compare (num : List (List Int)) (result : Int) (i j : Nat) (_ : Unit) :
    Except Fault (Round Bool Unit) := do
  let x ← readCell num i j
  if x = result then return .leave true else return .next ()

def findNumFromArray (num : List (List Int)) (row column result : Int) : Except Fault Bool :=
  if row > 0 ∧ column > 0 then do
    match ← forLoopUntil 0 row () (fun i _ => forLoopUntil 0 column () (compare num result i)) with
    | .leave found => return found
    | .next _ => return false
  else .ok false

/-- The loop of `findNumFromArrayTwo`. -/
def search (num : List (List Int)) (row result rowR columnR : Int) : Except Fault Bool :=
  if rowR < row ∧ columnR ≥ 0 then do
    let x ← readCell num rowR columnR
    if x = result then return true
    else if x > result then search num row result rowR (columnR - 1)
    else search num row result (rowR + 1) columnR
  else .ok false
termination_by (row - rowR).toNat + (columnR + 1).toNat

def findNumFromArrayTwo (num : List (List Int)) (row column result : Int) : Except Fault Bool :=
  if row > 0 ∧ column > 0 then search num row result 0 (column - 1) else .ok false

/-- The array in `init`. -/
def initArray : Grid Int 4 4 where
  rows := [[1, 4, 5, 6], [2, 3, 7, 9], [10, 11, 13, 15], [12, 18, 19, 20]]
  rows_length := rfl
  row_length := by decide

section

variable {rows columns : Nat} (num : Grid Int rows columns) (result : Int)

theorem compare_ok {i j : Nat} {r : List Int} {x : Int} (hr : num.rows[i]? = some r)
    (hx : r[j]? = some x) :
    compare num.rows result i j () = .ok (if x = result then .leave true else .next ()) := by
  rw [compare, readCell, read_some hr, ok_bind, read_some hx, ok_bind]
  split <;> rfl

/-- The inner loop over row `r`. -/
theorem compare_row {i : Nat} {r : List Int} (hr : num.rows[i]? = some r) :
    (∃ t, forLoopUntil 0 columns () (compare num.rows result i) = .ok (.next t) ∧ result ∉ r) ∨
      ∃ found, forLoopUntil 0 columns () (compare num.rows result i) = .ok (.leave found) ∧
        found = true ∧ result ∈ r := by
  have hlength := num.row_length r (List.mem_of_getElem? hr)
  have hloop :
      (∃ t, forLoopUntil 0 columns () (compare num.rows result i) = .ok (.next t) ∧
        result ∉ r.take r.length) ∨
      ∃ found, forLoopUntil 0 columns () (compare num.rows result i) = .ok (.leave found) ∧
        found = true ∧ result ∈ r := by
    refine forLoopUntil_ok (by omega) (fun j _ => result ∉ r.take j)
      (fun found => found = true ∧ result ∈ r) (by simp) ?_
    intro j _ _ hj hnot
    have hx := List.getElem?_eq_getElem hj
    rw [compare_ok num result hr hx]
    by_cases heq : r[j] = result
    · rw [if_pos heq]
      exact Or.inr ⟨true, rfl, rfl, heq ▸ List.getElem_mem hj⟩
    · rw [if_neg heq]
      refine Or.inl ⟨(), rfl, ?_⟩
      rw [List.take_add_one, hx]
      intro hmem
      rcases List.mem_append.mp hmem with hmem | hmem
      · exact hnot hmem
      · exact heq (List.mem_singleton.mp hmem).symm
  rwa [List.take_length] at hloop

/-- The outer loop. -/
theorem compare_rows :
    (∃ t, forLoopUntil 0 rows ()
        (fun i _ => forLoopUntil 0 columns () (compare num.rows result i)) = .ok (.next t) ∧
      ¬ Occurs result num.rows) ∨
    ∃ found, forLoopUntil 0 rows ()
        (fun i _ => forLoopUntil 0 columns () (compare num.rows result i)) = .ok (.leave found) ∧
      found = true ∧ Occurs result num.rows := by
  have hall : num.rows.take rows = num.rows :=
    List.take_of_length_le (Nat.le_of_eq num.rows_length)
  conv in ¬ _ => rw [← hall]
  refine forLoopUntil_ok (by omega) (fun i _ => ¬ Occurs result (num.rows.take i))
    (fun found => found = true ∧ Occurs result num.rows) (by simp [Occurs]) ?_
  intro i _ _ hi hnot
  have hr := List.getElem?_eq_getElem (num.rows_length.symm ▸ hi : i < num.rows.length)
  rcases compare_row num result hr with ⟨t, hrow, hmissed⟩ | ⟨found, hrow, hfound, hmem⟩
  · refine Or.inl ⟨t, hrow, ?_⟩
    rw [List.take_add_one, hr]
    rintro ⟨s, hs, hmem⟩
    rcases List.mem_append.mp hs with hs | hs
    · exact hnot ⟨s, hs, hmem⟩
    · obtain rfl := List.mem_singleton.mp hs
      exact hmissed hmem
  · exact Or.inr ⟨found, hrow, hfound, _, List.mem_of_getElem? hr, hmem⟩

/-- The exhaustive search finds what occurs. -/
theorem findNumFromArray_ok :
    ∃ found, findNumFromArray num.rows rows columns result = .ok found ∧
      (found = true ↔ Occurs result num.rows) := by
  unfold findNumFromArray
  split
  · rcases compare_rows num result with ⟨t, hloop, hnot⟩ | ⟨found, hloop, hfound, hoccurs⟩
    · rw [hloop, ok_bind]
      exact ⟨false, rfl, by simp [hnot]⟩
    · rw [hloop, ok_bind]
      exact ⟨found, rfl, iff_of_true hfound hoccurs⟩
  · exact ⟨false, rfl, by simp [num.not_occurs_of_empty (by omega)]⟩

theorem search_staircase : Staircase result num.rows (search num.rows rows result) where
  outside rowR columnR h := by
    rw [num.rows_length] at h
    rw [search, if_neg (by omega)]
  inside rowR columnR x hrow hcolumn hx := by
    rw [num.rows_length] at hrow
    rw [search, if_pos (by omega), hx, ok_bind]
    rfl

theorem findNumFromArrayTwo_ok (ascending : RowsAscend num.rows) :
    ∃ found, findNumFromArrayTwo num.rows rows columns result = .ok found ∧
      (found = true ↔ Visible result num.rows columns) := by
  unfold findNumFromArrayTwo
  split
  · exact (search_staircase num result).ok ascending
  · exact ⟨false, rfl, by simp [num.not_visible_of_empty (by omega)]⟩

end

/-- On rows that ascend the two searches agree for every number that is missing from the
array or stands somewhere under smaller numbers only, and for no other. -/
theorem searches_agree_iff (num : Grid Int 4 4) (ascending : RowsAscend num.rows) (result : Int) :
    ∃ fast full, findNumFromArrayTwo num.rows 4 4 result = .ok fast ∧
      findNumFromArray num.rows 4 4 result = .ok full ∧
      (fast = full ↔ (Occurs result num.rows → Visible result num.rows 4)) := by
  obtain ⟨fast, hfast, hvisible⟩ := findNumFromArrayTwo_ok num result ascending
  obtain ⟨full, hfull, hoccurs⟩ := findNumFromArray_ok num result
  refine ⟨fast, full, hfast, hfull, ?_⟩
  rw [← hvisible, ← hoccurs, Bool.eq_iff_iff]
  constructor
  · exact Iff.mpr
  · intro h
    refine ⟨fun hf => ?_, h⟩
    exact hoccurs.mpr (hvisible.mp hf).occurs

theorem initArray_rowsAscend : RowsAscend initArray.rows := by
  unfold RowsAscend
  decide

/-- The call in `init` looks for 10, in the first column under 1 and 2. -/
theorem searches_agree_iff_init : ∃ found,
    findNumFromArrayTwo initArray.rows 4 4 10 = .ok found ∧
      findNumFromArray initArray.rows 4 4 10 = .ok found := by
  obtain ⟨fast, full, hfast, hfull, hiff⟩ := searches_agree_iff initArray initArray_rowsAscend 10
  have hvisible : Visible 10 initArray.rows 4 :=
    ⟨[[1, 4, 5, 6], [2, 3, 7, 9]], [10, 11, 13, 15], [[12, 18, 19, 20]], 0, rfl, by decide, rfl,
      by simp⟩
  obtain rfl := hiff.mpr (fun _ => hvisible)
  exact ⟨fast, hfast, hfull⟩

/-- For 3, which stands under 4, the walk leaves the first row at 1, the second at 2 and the
array at 10. -/
theorem initArray_misses_three :
    RowsAscend initArray.rows ∧ findNumFromArrayTwo initArray.rows 4 4 3 = .ok false ∧
      findNumFromArray initArray.rows 4 4 3 = .ok true := by
  refine ⟨initArray_rowsAscend, ?_, rfl⟩
  have h := search_staircase initArray 3
  calc search initArray.rows 4 3 0 3
      = search initArray.rows 4 3 0 2 := h.inside 0 3 6 (by decide) (by decide) rfl
    _ = search initArray.rows 4 3 0 1 := h.inside 0 2 5 (by decide) (by decide) rfl
    _ = search initArray.rows 4 3 0 0 := h.inside 0 1 4 (by decide) (by decide) rfl
    _ = search initArray.rows 4 3 1 0 := h.inside 0 0 1 (by decide) (by decide) rfl
    _ = search initArray.rows 4 3 2 0 := h.inside 1 0 2 (by decide) (by decide) rfl
    _ = search initArray.rows 4 3 2 (-1) := h.inside 2 0 10 (by decide) (by decide) rfl
    _ = .ok false := h.outside 2 (-1) (by decide)

end BasicDemo.LeetCode.ArrayFindNum
