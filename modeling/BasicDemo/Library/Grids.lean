import BasicDemo.Library.Arrays
import Mathlib.Order.Lattice

namespace BasicDemo.Library.Grids
open Library.Loops Library.Arrays

variable {α : Type}

/-- A matrix with `height` rows of `width` cells. -/
structure Grid (α : Type) (height width : Nat) where
  rows : List (List α)
  rows_length : rows.length = height
  row_length : ∀ r ∈ rows, r.length = width

/-- The value of `m[i][j]`. -/
def readCell (m : List (List α)) (i j : Int) : Except Fault α := do
  let r ← read m i
  read r j

/-- The cell in row `i` and column `j`, if there is one. -/
def cellAt (m : List (List α)) (i j : Nat) : Option α := m[i]?.bind (fun r => r[j]?)

def column (m : List (List α)) (j : Nat) : List α := m.filterMap (fun r => r[j]?)

def Occurs (target : α) (m : List (List α)) : Prop := ∃ r ∈ m, target ∈ r

theorem readCell_some {m : List (List α)} {i j : Nat} {x : α} (h : cellAt m i j = some x) :
    readCell m i j = .ok x := by
  obtain ⟨r, hr, hx⟩ := Option.bind_eq_some_iff.mp h
  rw [readCell, read_some hr, ok_bind, read_some hx]

theorem cellAt_mem {m : List (List α)} {i j : Nat} {x : α} (h : cellAt m i j = some x) :
    ∃ r ∈ m, x ∈ r := by
  obtain ⟨r, hr, hx⟩ := Option.bind_eq_some_iff.mp h
  exact ⟨r, List.mem_of_getElem? hr, List.mem_of_getElem? hx⟩

theorem Grid.exists_cellAt_iff {height width : Nat} (m : Grid α height width) (i j : Nat) :
    (∃ x, cellAt m.rows i j = some x) ↔ i < height ∧ j < width := by
  constructor
  · rintro ⟨x, h⟩
    obtain ⟨r, hr, hx⟩ := Option.bind_eq_some_iff.mp h
    obtain ⟨hi, rfl⟩ := List.getElem?_eq_some_iff.mp hr
    obtain ⟨hj, -⟩ := List.getElem?_eq_some_iff.mp hx
    rw [m.row_length _ (List.getElem_mem hi)] at hj
    exact ⟨m.rows_length ▸ hi, hj⟩
  · rintro ⟨hi, hj⟩
    have hi' : i < m.rows.length := m.rows_length.symm ▸ hi
    have hj' : j < (m.rows[i]).length := by
      rw [m.row_length _ (List.getElem_mem hi')]
      exact hj
    exact ⟨m.rows[i][j], by simp [cellAt, hi', hj']⟩

theorem readCell_mid {above below : List (List α)} {r : List α} {i j : Int} {n : Nat} {x : α}
    (hi : i = above.length) (hj : j = n) (hx : r[n]? = some x) :
    readCell (above ++ r :: below) i j = .ok x := by
  subst hj
  rw [readCell, read_mid hi, ok_bind, read_some hx]

theorem Grid.not_occurs_of_empty {height width : Nat} (m : Grid α height width) {target : α}
    (h : height = 0 ∨ width = 0) : ¬ Occurs target m.rows := by
  rintro ⟨r, hr, hmem⟩
  have hheight := List.length_pos_of_mem hr
  have hwidth := List.length_pos_of_mem hmem
  rw [m.rows_length] at hheight
  rw [m.row_length r hr] at hwidth
  omega

section

variable [LinearOrder α]

/-- From left to right. -/
def RowsAscend (m : List (List α)) : Prop := ∀ r ∈ m, r.Pairwise (· ≤ ·)

/-- From top to bottom. -/
def ColumnsAscend (m : List (List α)) : Prop := ∀ j, (column m j).Pairwise (· ≤ ·)

/-- One of the first `width` columns holds `target`, under smaller values only. -/
def Visible (target : α) (m : List (List α)) (width : Nat) : Prop :=
  ∃ above r below j, m = above ++ r :: below ∧ j < width ∧ r[j]? = some target ∧
    ∀ s ∈ above, ∀ y, s[j]? = some y → y < target

variable {target x : α} {r : List α} {m : List (List α)} {n : Nat}

theorem Visible.occurs (h : Visible target m n) : Occurs target m := by
  obtain ⟨above, r, below, j, rfl, -, hr, -⟩ := h
  exact ⟨r, List.mem_append_right above List.mem_cons_self, List.mem_of_getElem? hr⟩

theorem not_visible_nil : ¬ Visible target [] n := by
  rintro ⟨above, r, below, j, hm, -⟩
  simp at hm

theorem not_visible_zero : ¬ Visible target m 0 := by
  rintro ⟨above, r, below, j, -, hj, -⟩
  omega

theorem Grid.not_visible_of_empty {height width : Nat} (m : Grid α height width)
    (h : height = 0 ∨ width = 0) : ¬ Visible target m.rows width :=
  fun hvisible => m.not_occurs_of_empty h hvisible.occurs

/-- A cell in the first row has nothing above it. -/
theorem visible_first (h : r[n]? = some target) : Visible target (r :: m) (n + 1) :=
  ⟨[], r, m, n, rfl, Nat.lt_succ_self n, h, by simp⟩

/-- A larger value on top hides the last column. -/
theorem visible_left (h : r[n]? = some x) (hlt : target < x) :
    Visible target (r :: m) (n + 1) ↔ Visible target (r :: m) n := by
  constructor
  · rintro ⟨above, s, below, j, hm, hj, hs, habove⟩
    refine ⟨above, s, below, j, hm, ?_, hs, habove⟩
    by_contra hge
    obtain rfl : j = n := by omega
    cases above with
    | nil =>
      cases hm
      rw [h] at hs
      cases hs
      exact lt_irrefl _ hlt
    | cons u above =>
      cases hm
      exact lt_asymm hlt (habove r List.mem_cons_self x h)
  · rintro ⟨above, s, below, j, hm, hj, hs, habove⟩
    exact ⟨above, s, below, j, hm, by omega, hs, habove⟩

/-- A row whose last value is smaller than `target` hides nothing below it. -/
theorem visible_down (ascending : r.Pairwise (· ≤ ·)) (h : r[n]? = some x) (hlt : x < target) :
    Visible target (r :: m) (n + 1) ↔ Visible target m (n + 1) := by
  have hsmall : ∀ j y, j < n + 1 → r[j]? = some y → y < target := by
    intro j y hj hy
    rcases Nat.lt_succ_iff_lt_or_eq.mp hj with hlt' | rfl
    · obtain ⟨hjr, rfl⟩ := List.getElem?_eq_some_iff.mp hy
      obtain ⟨hnr, rfl⟩ := List.getElem?_eq_some_iff.mp h
      exact lt_of_le_of_lt (List.pairwise_iff_getElem.mp ascending j n hjr hnr hlt') hlt
    · rw [h] at hy
      cases hy
      exact hlt
  constructor
  · rintro ⟨above, s, below, j, hm, hj, hs, habove⟩
    cases above with
    | nil =>
      cases hm
      exact absurd (hsmall j target hj hs) (lt_irrefl target)
    | cons u above =>
      cases hm
      exact ⟨above, s, below, j, rfl, hj, hs, fun t ht => habove t (List.mem_cons_of_mem r ht)⟩
  · rintro ⟨above, s, below, j, rfl, hj, hs, habove⟩
    refine ⟨r :: above, s, below, j, rfl, hj, hs, ?_⟩
    exact List.forall_mem_cons.mpr ⟨fun y hy => hsmall j y hj hy, habove⟩

/-- Where columns ascend, the topmost of the cells of a column that hold `target` is under
smaller values only. -/
theorem ColumnsAscend.topmost (ascending : ColumnsAscend m) {s : List α} {j : Nat} (hs : s ∈ m)
    (hj : s[j]? = some target) :
    ∃ above r below, m = above ++ r :: below ∧ r[j]? = some target ∧
      ∀ s ∈ above, ∀ y, s[j]? = some y → y < target := by
  have hcolumn := List.pairwise_filterMap.mp (ascending j)
  clear ascending
  induction m with
  | nil => cases hs
  | cons r m ih =>
    obtain ⟨hfirst, hrest⟩ := List.pairwise_cons.mp hcolumn
    by_cases hr : r[j]? = some target
    · exact ⟨[], r, m, rfl, hr, by simp⟩
    · rcases List.mem_cons.mp hs with rfl | hs
      · exact absurd hj hr
      · obtain ⟨above, t, below, rfl, ht, habove⟩ := ih hs hrest
        refine ⟨r :: above, t, below, rfl, ht, List.forall_mem_cons.mpr ⟨?_, habove⟩⟩
        intro y hy
        refine lt_of_le_of_ne (hfirst s hs y hy target hj) ?_
        rintro rfl
        exact hr hy

theorem visible_iff_occurs {height width : Nat} (m : Grid α height width)
    (ascending : ColumnsAscend m.rows) : Visible target m.rows width ↔ Occurs target m.rows := by
  constructor
  · exact Visible.occurs
  · rintro ⟨s, hs, hmem⟩
    obtain ⟨j, hj⟩ := List.mem_iff_getElem?.mp hmem
    obtain ⟨above, r, below, hm, hr, habove⟩ := ascending.topmost hs hj
    have hlt := (List.getElem?_eq_some_iff.mp hj).1
    rw [m.row_length s hs] at hlt
    exact ⟨above, r, below, j, hm, hlt, hr, habove⟩

/-- A search that goes left from a larger value and down from a smaller one. -/
structure Staircase (target : α) (m : List (List α)) (walk : Int → Int → Except Fault Bool) :
    Prop where
  outside : ∀ i j, m.length ≤ i ∨ j < 0 → walk i j = .ok false
  inside : ∀ i j x, i < m.length → 0 ≤ j → readCell m i j = .ok x →
    walk i j =
      if x = target then .ok true else if target < x then walk i (j - 1) else walk (i + 1) j

/-- In the rows `below` and their first `n` columns the search finds what is visible. -/
theorem Staircase.visible {walk : Int → Int → Except Fault Bool} (h : Staircase target m walk)
    (ascending : RowsAscend m) (above below : List (List α)) (hm : m = above ++ below)
    (hn : ∀ r ∈ below, n ≤ r.length) :
    ∃ found, walk above.length (n - 1) = .ok found ∧
      (found = true ↔ Visible target below n) := by
  induction below generalizing above n with
  | nil =>
    refine ⟨false, h.outside _ _ (Or.inl (by simp [hm])), ?_⟩
    simp [not_visible_nil]
  | cons r below down =>
    have hlength : above.length < m.length := by
      rw [hm, List.length_append, List.length_cons]
      omega
    induction n with
    | zero =>
      refine ⟨false, h.outside _ _ (Or.inr (by omega)), ?_⟩
      simp [not_visible_zero]
    | succ n left =>
      obtain ⟨x, hx⟩ : ∃ x, r[n]? = some x :=
        ⟨_, List.getElem?_eq_getElem (hn r List.mem_cons_self)⟩
      have hread : readCell m above.length ((n + 1 : Nat) - 1) = .ok x := by
        rw [hm]
        exact readCell_mid rfl (by omega) hx
      rw [h.inside _ _ _ (by omega) (by omega) hread]
      rcases lt_trichotomy x target with hlt | heq | hgt
      · rw [if_neg (ne_of_lt hlt), if_neg (lt_asymm hlt),
          visible_down (ascending r (by simp [hm])) hx hlt]
        obtain ⟨found, hwalk, hfound⟩ := down (above ++ [r]) (by simp [hm])
          (fun s hs => hn s (List.mem_cons_of_mem r hs))
        exact ⟨found, by simpa using hwalk, hfound⟩
      · rw [if_pos heq]
        exact ⟨true, rfl, iff_of_true rfl (visible_first (heq ▸ hx))⟩
      · rw [if_neg (Ne.symm (ne_of_lt hgt)), if_pos hgt, visible_left hx hgt]
        obtain ⟨found, hwalk, hfound⟩ := left (fun s hs => by have := hn s hs; omega)
        exact ⟨found, by simpa using hwalk, hfound⟩

/-- From the top right corner the search finds what is visible in the whole matrix. -/
theorem Staircase.ok {height width : Nat} {m : Grid α height width}
    {walk : Int → Int → Except Fault Bool} (h : Staircase target m.rows walk)
    (ascending : RowsAscend m.rows) :
    ∃ found, walk 0 (width - 1) = .ok found ∧
      (found = true ↔ Visible target m.rows width) :=
  h.visible ascending [] m.rows rfl (fun r hr => Nat.le_of_eq (m.row_length r hr).symm)

end

end BasicDemo.Library.Grids
