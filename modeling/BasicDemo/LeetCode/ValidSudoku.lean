import BasicDemo.Library.Grids
import BasicDemo.LeetCode.ValidParentheses
import Mathlib.Data.List.Nodup

namespace BasicDemo.LeetCode.ValidSudoku
open Library.Loops Library.Arrays Library.Grids ValidParentheses

def trans (cur : Int8) : Int :=
  if cur = ascii '.' then -1 else cur.toInt - (ascii '1').toInt

/-- The body of the innermost loops, at the cell `board[j][k]`. -/
def mark (board : List (List Int8)) (j k : Nat) (hash : List Int) :
    Except Fault (Round Bool (List Int)) := do
  let cur ← readCell board j k
  let inx := trans cur
  if inx = -1 then return .next hash
  else
    let n ← read hash inx
    if n ≠ 0 then return .leave false
    else
      let hash ← write hash inx (n + 1)
      return .next hash

/-- The array after `memset(hash, 0x00, sizeof(int)*9)`. -/
def cleared : List Int := List.replicate 9 0

/-- A round of the outermost loops, with the table cleared. -/
def visit (unit : Nat → List Int → Except Fault (Round Bool (List Int))) (i : Nat) (_ : Unit) :
    Except Fault (Round Bool Unit) := do
  match ← unit i cleared with
  | .next _ => return .next ()
  | .leave r => return .leave r

/-- The outermost loops, over the nine rows, columns or boxes. -/
def allUnits (unit : Nat → List Int → Except Fault (Round Bool (List Int))) :
    Except Fault Bool := do
  match ← forLoopUntil 0 9 () (visit unit) with
  | .next _ => return true
  | .leave r => return r

def isSqureValid (board : List (List Int8)) : Except Fault Bool :=
  allUnits (fun i hash =>
    let x := i / 3 * 3
    let y := i % 3 * 3
    forLoopUntil x (x + 3 : Nat) hash (fun j hash =>
      forLoopUntil y (y + 3 : Nat) hash (fun k hash => mark board j k hash)))

def isRowValid (board : List (List Int8)) : Except Fault Bool :=
  allUnits (fun i hash => forLoopUntil 0 9 hash (fun j hash => mark board i j hash))

def isColumnValid (board : List (List Int8)) : Except Fault Bool :=
  allUnits (fun i hash => forLoopUntil 0 9 hash (fun j hash => mark board j i hash))

def isValidSudoku (board : List (List Int8)) : Except Fault Bool := do
  if ← isSqureValid board then
    if ← isRowValid board then isColumnValid board
    else return false
  else return false

def alphabet : List Int8 := ".123456789".toList.map ascii

/-- A board of nine rows and nine columns, partly filled with digits. -/
structure Board extends Grid Int8 9 9 where
  allowed : ∀ r ∈ rows, ∀ c ∈ r, c ∈ alphabet

theorem trans_range : ∀ c ∈ alphabet, c ≠ ascii '.' → 0 ≤ trans c ∧ trans c < 9 :=
  forall_mem_of_all (by decide)

theorem trans_inj {c d : Int8} (hc : c ≠ ascii '.') (hd : d ≠ ascii '.')
    (h : trans c = trans d) : c = d := by
  rw [trans, if_neg hc, trans, if_neg hd] at h
  exact Int8.toInt_inj.mp (by omega)

/-- No two of these cells hold the same digit. -/
def Distinct (board : List (List Int8)) (cells : List (Nat × Nat)) : Prop :=
  ∀ p ∈ cells, ∀ q ∈ cells, p ≠ q → ∀ c, cellAt board p.1 p.2 = some c →
    cellAt board q.1 q.2 = some c → c = ascii '.'

/-- One of these cells has the entry `d` of the table. -/
def Met (board : List (List Int8)) (cells : List (Nat × Nat)) (d : Nat) : Prop :=
  ∃ p ∈ cells, ∃ c, cellAt board p.1 p.2 = some c ∧ trans c = d

/-- The table after the cells of `done`: an entry is set if its digit has been met. -/
structure Seen (board : List (List Int8)) (done : List (Nat × Nat)) (hash : List Int) : Prop where
  size : hash.length = 9
  marked : ∀ (d : Nat) (n : Int), hash[d]? = some n → (n ≠ 0 ↔ Met board done d)

theorem seen_cleared (board : List (List Int8)) : Seen board [] cleared where
  size := rfl
  marked d n h := by
    have hzero : n = 0 := List.eq_of_mem_replicate (List.mem_of_getElem? h)
    simp [hzero, Met]

section Steps
variable {board : List (List Int8)} {done : List (Nat × Nat)} {hash : List Int} {p : Nat × Nat}
  {c : Int8}

theorem met_append (hp : cellAt board p.1 p.2 = some c) (d : Nat) :
    Met board (done ++ [p]) d ↔ Met board done d ∨ trans c = d := by
  constructor
  · rintro ⟨q, hq, e, he, hd⟩
    rcases List.mem_append.mp hq with hq | hq
    · exact Or.inl ⟨q, hq, e, he, hd⟩
    · rw [List.mem_singleton.mp hq, hp] at he
      cases he
      exact Or.inr hd
  · rintro (⟨q, hq, e, he, hd⟩ | hd)
    · exact ⟨q, List.mem_append_left _ hq, e, he, hd⟩
    · exact ⟨p, by simp, c, hp, hd⟩

theorem Seen.skip (h : Seen board done hash) (hp : cellAt board p.1 p.2 = some c)
    (hdot : trans c = -1) : Seen board (done ++ [p]) hash where
  size := h.size
  marked d n hn := by
    rw [h.marked d n hn, met_append hp, hdot]
    exact (or_iff_left (by omega)).symm

theorem Seen.set (h : Seen board done hash) (hp : cellAt board p.1 p.2 = some c) {k : Nat}
    (hk : trans c = k) (hlt : k < hash.length) : Seen board (done ++ [p]) (hash.set k 1) where
  size := by rw [List.length_set, h.size]
  marked d n hn := by
    rw [met_append hp, hk, Int.natCast_inj]
    by_cases hd : k = d
    · subst hd
      rw [List.getElem?_set_self hlt] at hn
      cases hn
      simp
    · rw [List.getElem?_set_ne hd] at hn
      rw [h.marked d n hn]
      exact (or_iff_left hd).symm

theorem Distinct.append (h : Distinct board done) (hp : cellAt board p.1 p.2 = some c)
    (hnew : ∀ q ∈ done, cellAt board q.1 q.2 = some c → c = ascii '.') :
    Distinct board (done ++ [p]) := by
  intro q hq r hr hne e hqe hre
  rcases List.mem_append.mp hq with hq | hq <;> rcases List.mem_append.mp hr with hr | hr
  · exact h q hq r hr hne e hqe hre
  · rw [List.mem_singleton.mp hr, hp] at hre
    cases hre
    exact hnew q hq hqe
  · rw [List.mem_singleton.mp hq, hp] at hqe
    cases hqe
    exact hnew r hr hre
  · exact absurd ((List.mem_singleton.mp hq).trans (List.mem_singleton.mp hr).symm) hne

/-- A cell either is the first one with its digit, or ends the search. -/
theorem mark_step (h : Seen board done hash) (hd : Distinct board done)
    (hp : cellAt board p.1 p.2 = some c) (hc : c ∈ alphabet) :
    (∃ t, mark board p.1 p.2 hash = .ok (.next t) ∧ Seen board (done ++ [p]) t ∧
      Distinct board (done ++ [p])) ∨
    mark board p.1 p.2 hash = .ok (.leave false) ∧
      ∃ q ∈ done, cellAt board q.1 q.2 = some c ∧ c ≠ ascii '.' := by
  by_cases hdot : c = ascii '.'
  · have htrans : trans c = -1 := if_pos hdot
    refine Or.inl ⟨hash, ?_, h.skip hp htrans, hd.append hp (fun _ _ _ => hdot)⟩
    rw [mark, readCell_some hp, ok_bind]
    simp [htrans]
  · obtain ⟨hlow, hhigh⟩ := trans_range c hc hdot
    obtain ⟨k, hk⟩ := Int.eq_ofNat_of_zero_le hlow
    have hlt : k < hash.length := by
      rw [h.size]
      omega
    have hmark := h.marked k _ (List.getElem?_eq_getElem hlt)
    have hread : read hash (trans c) = .ok hash[k] := read_at hk hlt
    have hinx : ¬ trans c = -1 := by omega
    rw [mark, readCell_some hp, ok_bind]
    simp only [if_neg hinx, hread, ok_bind]
    by_cases hzero : hash[k] = 0
    · have hwrite : write hash (trans c) (0 + 1) = .ok (hash.set k 1) := write_at hk hlt _
      refine Or.inl ⟨hash.set k 1, ?_, h.set hp hk hlt, hd.append hp ?_⟩
      · simp only [hzero, ne_eq, not_true_eq_false, if_false, hwrite, ok_bind, pure_eq_ok]
      · intro q hq hqc
        exact absurd hzero (hmark.mpr ⟨q, hq, c, hqc, hk⟩)
    · obtain ⟨q, hq, e, hqe, hek⟩ := hmark.mp hzero
      have hedot : e ≠ ascii '.' := by
        rintro rfl
        rw [trans, if_pos rfl] at hek
        omega
      cases trans_inj hedot hdot (hek.trans hk.symm)
      exact Or.inr ⟨by simp [hzero], q, hq, hqe, hdot⟩

end Steps

/-- The outcome of a search, for units that are right if `P`. -/
def Decides (x : Except Fault (Round Bool (List Int))) (P : Prop) : Prop :=
  (∃ t, x = .ok (.next t) ∧ P) ∨ x = .ok (.leave false) ∧ ¬ P

theorem marks_decide (board : Board) {cells : List (Nat × Nat)} (nodup : cells.Nodup)
    (inside : ∀ p ∈ cells, p.1 < 9 ∧ p.2 < 9) :
    Decides (eachUntil (fun p => mark board.rows p.1 p.2) cells cleared)
      (Distinct board.rows cells) := by
  have hloop : (∃ t, eachUntil (fun p => mark board.rows p.1 p.2) cells cleared = .ok (.next t) ∧
        Seen board.rows cells t ∧ Distinct board.rows cells) ∨
      ∃ r, eachUntil (fun p => mark board.rows p.1 p.2) cells cleared = .ok (.leave r) ∧
        r = false ∧ ¬ Distinct board.rows cells := by
    refine eachUntil_ok (fun done hash => Seen board.rows done hash ∧ Distinct board.rows done) _
      ⟨seen_cleared board.rows, by simp [Distinct]⟩ ?_
    rintro front p back hash rfl ⟨hseen, hdistinct⟩
    have hmem : p ∈ front ++ p :: back := by simp
    obtain ⟨c, hc⟩ := (board.exists_cellAt_iff p.1 p.2).mpr (inside p hmem)
    obtain ⟨r, hr, hcr⟩ := cellAt_mem hc
    rcases mark_step hseen hdistinct hc (board.allowed r hr c hcr) with
      hnext | ⟨hleave, q, hq, hqc, hdot⟩
    · exact Or.inl hnext
    · refine Or.inr ⟨false, hleave, rfl, ?_⟩
      intro hall
      have hne : q ≠ p := by
        rintro rfl
        exact List.disjoint_of_nodup_append nodup hq List.mem_cons_self
      exact hdot (hall q (List.mem_append_left _ hq) p hmem hne c hqc hc)
  rcases hloop with ⟨t, ht, _, hdistinct⟩ | ⟨r, hr, rfl, hnot⟩
  · exact Or.inl ⟨t, ht, hdistinct⟩
  · exact Or.inr ⟨hr, hnot⟩

theorem allUnits_ok {unit : Nat → List Int → Except Fault (Round Bool (List Int))}
    {P : Nat → Prop} (h : ∀ i < 9, Decides (unit i cleared) (P i)) :
    ∃ b, allUnits unit = .ok b ∧ (b = true ↔ ∀ i < 9, P i) := by
  have hloop : (∃ t, forLoopUntil 0 9 () (visit unit) = .ok (.next t) ∧ ∀ i < 9, P i) ∨
      ∃ r, forLoopUntil 0 9 () (visit unit) = .ok (.leave r) ∧ r = false ∧ ¬ ∀ i < 9, P i := by
    refine forLoopUntil_ok rfl (fun n _ => ∀ i < n, P i) _ (by simp) ?_
    intro i _ _ hi hall
    rcases h i hi with ⟨t, ht, hP⟩ | ⟨hr, hnot⟩
    · refine Or.inl ⟨(), by simp [visit, ht], ?_⟩
      intro k hk
      rcases Nat.lt_succ_iff_lt_or_eq.mp hk with hk | rfl
      · exact hall k hk
      · exact hP
    · exact Or.inr ⟨false, by simp [visit, hr], rfl, fun hfull => hnot (hfull i hi)⟩
  rcases hloop with ⟨t, ht, hall⟩ | ⟨r, hr, rfl, hnot⟩
  · exact ⟨true, by simp [allUnits, ht], by simpa using hall⟩
  · exact ⟨false, by simp [allUnits, hr], by simpa using hnot⟩

/-- The cells of a row, in the order of the loops. -/
def rowCells (i : Nat) : List (Nat × Nat) := (List.range' 0 9).map (fun j => (i, j))

def columnCells (i : Nat) : List (Nat × Nat) := (List.range' 0 9).map (fun j => (j, i))

def boxCells (i : Nat) : List (Nat × Nat) :=
  List.range' (i / 3 * 3) 3 ×ˢ List.range' (i % 3 * 3) 3

theorem mem_rowCells {i : Nat} {p : Nat × Nat} : p ∈ rowCells i ↔ p.1 = i ∧ p.2 < 9 := by
  simp [rowCells, List.mem_range'_1, Prod.ext_iff]
  tauto

theorem mem_columnCells {i : Nat} {p : Nat × Nat} : p ∈ columnCells i ↔ p.2 = i ∧ p.1 < 9 := by
  simp [columnCells, List.mem_range'_1, Prod.ext_iff]
  tauto

/-- Every cell is in the box counted by its place, and in no other. -/
theorem mem_boxCells {i : Nat} (hi : i < 9) {p : Nat × Nat} :
    p ∈ boxCells i ↔ p.1 / 3 * 3 + p.2 / 3 = i ∧ p.1 < 9 ∧ p.2 < 9 := by
  obtain ⟨j, k⟩ := p
  simp only [boxCells, List.mem_product, List.mem_range'_1]
  omega

/-- The loop over one index, whose cells are all different. -/
theorem line_decides (board : Board) (place : Nat → Nat × Nat) (inj : Function.Injective place)
    (inside : ∀ j < 9, (place j).1 < 9 ∧ (place j).2 < 9) :
    Decides (forLoopUntil 0 9 cleared (fun j hash => mark board.rows (place j).1 (place j).2 hash))
      (Distinct board.rows ((List.range' 0 9).map place)) := by
  have hinside : ∀ p ∈ (List.range' 0 9).map place, p.1 < 9 ∧ p.2 < 9 := by
    intro p hp
    obtain ⟨j, hj, rfl⟩ := List.mem_map.mp hp
    exact inside j (by simpa using (List.mem_range'_1.mp hj).2)
  have hmarks := marks_decide board (List.Nodup.map inj List.nodup_range') hinside
  rw [eachUntil_map] at hmarks
  rw [forLoopUntil_eq_each rfl]
  exact hmarks

theorem isRowValid_ok (board : Board) :
    ∃ b, isRowValid board.rows = .ok b ∧
      (b = true ↔ ∀ i < 9, Distinct board.rows (rowCells i)) := by
  apply allUnits_ok
  intro i hi
  exact line_decides board (fun j => (i, j)) (fun j k h => (Prod.ext_iff.mp h).2)
    (fun j hj => ⟨hi, hj⟩)

theorem isColumnValid_ok (board : Board) :
    ∃ b, isColumnValid board.rows = .ok b ∧
      (b = true ↔ ∀ i < 9, Distinct board.rows (columnCells i)) := by
  apply allUnits_ok
  intro i hi
  exact line_decides board (fun j => (j, i)) (fun j k h => (Prod.ext_iff.mp h).1)
    (fun j hj => ⟨hj, hi⟩)

theorem isSqureValid_ok (board : Board) :
    ∃ b, isSqureValid board.rows = .ok b ∧
      (b = true ↔ ∀ i < 9, Distinct board.rows (boxCells i)) := by
  apply allUnits_ok
  intro i hi
  have nodup : (boxCells i).Nodup := List.Nodup.product List.nodup_range' List.nodup_range'
  have hunit := marks_decide board nodup (fun p hp => ((mem_boxCells hi).mp hp).2)
  rw [boxCells, ← eachUntil_product] at hunit
  have hthree : ∀ (lo : Nat) (hash : List Int)
      (body : Nat → List Int → Except Fault (Round Bool (List Int))),
      forLoopUntil lo (lo + 3 : Nat) hash body = eachUntil body (List.range' lo 3) hash :=
    fun lo hash body => forLoopUntil_eq_each (by omega) hash body
  simp only [hthree]
  exact hunit

/-- The rules: no digit occurs twice in a row, in a column or in a box. -/
def Valid (board : List (List Int8)) : Prop :=
  ∀ i j i' j' c, (i, j) ≠ (i', j') →
    (i = i' ∨ j = j' ∨ (i / 3 = i' / 3 ∧ j / 3 = j' / 3)) →
    cellAt board i j = some c → cellAt board i' j' = some c → c = ascii '.'

theorem valid_iff_units (board : Board) :
    Valid board.rows ↔
      (∀ i < 9, Distinct board.rows (boxCells i)) ∧ (∀ i < 9, Distinct board.rows (rowCells i)) ∧
        ∀ i < 9, Distinct board.rows (columnCells i) := by
  constructor
  · intro h
    refine ⟨?_, ?_, ?_⟩
    · intro i hi p hp q hq hne c
      have hp := (mem_boxCells hi).mp hp
      have hq := (mem_boxCells hi).mp hq
      exact h p.1 p.2 q.1 q.2 c hne (Or.inr (Or.inr (by omega)))
    · intro i hi p hp q hq hne c
      have hsame : p.1 = q.1 := (mem_rowCells.mp hp).1.trans (mem_rowCells.mp hq).1.symm
      exact h p.1 p.2 q.1 q.2 c hne (Or.inl hsame)
    · intro i hi p hp q hq hne c
      have hsame : p.2 = q.2 := (mem_columnCells.mp hp).1.trans (mem_columnCells.mp hq).1.symm
      exact h p.1 p.2 q.1 q.2 c hne (Or.inr (Or.inl hsame))
  · rintro ⟨hbox, hrow, hcolumn⟩ i j i' j' c hne hunit hc hc'
    obtain ⟨hi, hj⟩ := (board.exists_cellAt_iff i j).mp ⟨c, hc⟩
    obtain ⟨hi', hj'⟩ := (board.exists_cellAt_iff i' j').mp ⟨c, hc'⟩
    rcases hunit with rfl | rfl | ⟨hdown, hacross⟩
    · exact hrow i hi (i, j) (mem_rowCells.mpr ⟨rfl, hj⟩) (i, j') (mem_rowCells.mpr ⟨rfl, hj'⟩)
        hne c hc hc'
    · exact hcolumn j hj (i, j) (mem_columnCells.mpr ⟨rfl, hi⟩) (i', j)
        (mem_columnCells.mpr ⟨rfl, hi'⟩) hne c hc hc'
    · have hplace : i / 3 * 3 + j / 3 < 9 := by omega
      exact hbox _ hplace (i, j) ((mem_boxCells hplace).mpr ⟨rfl, hi, hj⟩) (i', j')
        ((mem_boxCells hplace).mpr ⟨by simp only; omega, hi', hj'⟩) hne c hc hc'

/-- `isValidSudoku` never leaves the board or the table of nine counters, and answers
whether the rules are kept. -/
theorem isValidSudoku_iff (board : Board) :
    ∃ b, isValidSudoku board.rows = .ok b ∧ (b = true ↔ Valid board.rows) := by
  obtain ⟨square, hsquare, hbox⟩ := isSqureValid_ok board
  obtain ⟨row, hrow, hrows⟩ := isRowValid_ok board
  obtain ⟨column, hcolumn, hcolumns⟩ := isColumnValid_ok board
  refine ⟨square && row && column, ?_, ?_⟩
  · rw [isValidSudoku, hsquare, ok_bind, hrow, hcolumn]
    cases square <;> cases row <;> rfl
  · rw [valid_iff_units, ← hbox, ← hrows, ← hcolumns, Bool.and_eq_true, Bool.and_eq_true, and_assoc]

/-- The boards of the header, which differ in the digit of the first cell. -/
def sample (first : Char) (h : ascii first ∈ alphabet) : Board where
  rows := (ascii first :: "3..7....".toList.map ascii) ::
    ["6..195...", ".98....6.", "8...6...3", "4..8.3..1", "7...2...6", ".6....28.", "...419..5",
      "....8..79"].map (·.toList.map ascii)
  rows_length := rfl
  row_length := by simp
  allowed :=
    List.forall_mem_cons.mpr ⟨List.forall_mem_cons.mpr ⟨h, by decide +kernel⟩, by decide +kernel⟩

theorem isValidSudoku_samples :
    Valid (sample '5' (by decide)).rows ∧ ¬ Valid (sample '8' (by decide)).rows := by
  constructor
  · obtain ⟨b, hb, hvalid⟩ := isValidSudoku_iff (sample '5' (by decide))
    have hanswer : isValidSudoku (sample '5' (by decide)).rows = .ok true := by decide +kernel
    exact hvalid.mp (Except.ok.inj (hb.symm.trans hanswer))
  · obtain ⟨b, hb, hvalid⟩ := isValidSudoku_iff (sample '8' (by decide))
    have hanswer : isValidSudoku (sample '8' (by decide)).rows = .ok false := by decide +kernel
    rw [← hvalid, Except.ok.inj (hb.symm.trans hanswer)]
    exact Bool.false_ne_true

end BasicDemo.LeetCode.ValidSudoku
