import BasicDemo.Library.Stdlib
import Mathlib.Algebra.BigOperators.Group.List.Basic
import Mathlib.Algebra.Ring.Int.Defs

namespace BasicDemo.LeetCode.ConstructArr
open Library.Loops Library.Arrays Library.Stdlib

/-- The `int` as an argument of `malloc`: a 64-bit `size_t`. -/
def bytes (z : Int) : Nat := (z % 18446744073709551616).toNat

/-- A round of the inner loop. -/
def multiply (a : List Int) (i j : Nat) (result : Int) : Except Fault Int :=
  if i = j then .ok result
  else do
    let x ← read a j
    mul result x

/-- The inner loop: the product of the cells but `a[i]`. -/
def product (a : List Int) (aSize : Int) (i : Nat) : Except Fault Int :=
  forLoop 0 aSize 1 (multiply a i)

/-- A round of the outer loop. -/
def store (a : List Int) (aSize : Int) (i : Nat) (resultArray : List Int) :
    Except Fault (List Int) := do
  let result ← product a aSize i
  write resultArray i result

/-- The pointer returned, as the cells it points to, with `*returnSize`. The block has
four bytes to a cell; `NULL` has no cell that could be written. -/
def constructArr (malloc : Malloc Int) (a : Option (List Int)) (aSize returnSize : Int) :
    Except Fault (Option (List Int) × Int) :=
  match a with
  | none => .ok (none, returnSize)
  | some a =>
    if aSize ≤ 0 then .ok (none, returnSize)
    else do
      let resultArray := (malloc.alloc (bytes returnSize / 4)).getD []
      let resultArray ← forLoop 0 aSize resultArray (store a aSize)
      return (some resultArray, returnSize)

/-- The cells before `j` but `a[i]`. -/
def others (a : List Int) (i j : Nat) : List Int := (a.take j).eraseIdx i

/-- No product that is formed on the way overflows. -/
def Representables (a : List Int) (i : Nat) : Prop :=
  ∀ j < a.length, i ≠ j → Representable (others a i (j + 1)).prod

instance (a : List Int) (i : Nat) : Decidable (Representables a i) := by
  unfold Representables
  infer_instance

theorem others_self (a : List Int) (i : Nat) : others a i (i + 1) = others a i i := by
  simp [others, List.eraseIdx_eq_take_drop_succ, List.take_take, List.drop_take]

theorem others_succ {a : List Int} {i j : Nat} (hj : j < a.length) (hne : i ≠ j) :
    others a i (j + 1) = others a i j ++ [a[j]] := by
  unfold others
  rw [List.take_succ_eq_append_getElem hj]
  rcases Nat.lt_or_gt_of_ne hne with hlt | hgt
  · rw [List.eraseIdx_append_of_lt_length]
    simp
    omega
  · rw [List.eraseIdx_of_length_le, List.eraseIdx_of_length_le]
    · simp
      omega
    · simp
      omega

theorem multiply_eq_ok {a : List Int} {i j : Nat} (hj : j < a.length) (t : Int) :
    multiply a i j (others a i j).prod = .ok t ↔
      (i ≠ j → Representable (others a i (j + 1)).prod) ∧ t = (others a i (j + 1)).prod := by
  unfold multiply
  by_cases hij : i = j
  · subst hij
    rw [if_pos rfl, others_self]
    simp [eq_comm]
  · rw [if_neg hij, read_at rfl hj, ok_bind, mul_eq_ok, others_succ hj hij,
      List.prod_append, List.prod_singleton]
    simp [hij]

theorem product_eq_ok {a : List Int} {i : Nat} {r : Int} :
    product a a.length i = .ok r ↔ Representables a i ∧ r = (a.eraseIdx i).prod := by
  have hloop : product a a.length i = .ok r ↔
      (∀ j, 0 ≤ j → j < a.length → i ≠ j → Representable (others a i (j + 1)).prod) ∧
        r = (others a i a.length).prod :=
    forLoop_iff (by omega) (fun j => (others a i j).prod) _
      (fun j _ hj => multiply_eq_ok hj) r
  rw [hloop, others, List.take_length]
  simp [Representables]

def products (a : List Int) : List Int :=
  (List.range a.length).map (fun i => (a.eraseIdx i).prod)

theorem products_getElem? {a : List Int} {i : Nat} (h : i < a.length) :
    (products a)[i]? = some (a.eraseIdx i).prod := by
  simp [products, h]

/-- The block before round `i`. -/
def stored (a block : List Int) (i : Nat) : List Int := (products a).take i ++ block.drop i

theorem store_eq_ok {a block : List Int} {i : Nat} (hi : i < a.length) (t : List Int) :
    store a a.length i (stored a block i) = .ok t ↔
      (Representables a i ∧ i < block.length) ∧ t = stored a block (i + 1) := by
  have hfront : ((products a).take i).length = i := by
    simp [products]
    omega
  have hroom : i < (stored a block i).length ↔ i < block.length := by
    rw [stored, List.length_append, hfront, List.length_drop]
    omega
  have hset : i < block.length →
      (stored a block i).set i (a.eraseIdx i).prod = stored a block (i + 1) := by
    intro h
    have hcell : block.drop i = block[i] :: block.drop (i + 1) := List.drop_eq_getElem_cons h
    rw [stored, hcell, List.set_append_right _ _ (by omega), hfront, Nat.sub_self,
      List.set_cons_zero, stored, List.take_add_one, products_getElem? hi]
    simp
  rw [store, bind_eq_ok]
  simp only [product_eq_ok, write_eq_ok, hroom]
  constructor
  · rintro ⟨r, ⟨hrep, rfl⟩, hlt, rfl⟩
    exact ⟨⟨hrep, hlt⟩, hset hlt⟩
  · rintro ⟨⟨hrep, hlt⟩, rfl⟩
    exact ⟨_, ⟨hrep, rfl⟩, hlt, (hset hlt).symm⟩

theorem stores_eq_ok {a block t : List Int} :
    forLoop 0 a.length block (store a a.length) = .ok t ↔
      (∀ i < a.length, Representables a i ∧ i < block.length) ∧
        t = products a ++ block.drop a.length := by
  have hloop : forLoop 0 a.length (stored a block 0) (store a a.length) = .ok t ↔
      (∀ i, 0 ≤ i → i < a.length → Representables a i ∧ i < block.length) ∧
        t = stored a block a.length :=
    forLoop_iff (by omega) (stored a block) _ (fun i _ hi => store_eq_ok hi) t
  have hlast : stored a block a.length = products a ++ block.drop a.length := by
    rw [stored, List.take_of_length_le (by simp [products])]
  rw [hlast] at hloop
  simpa [stored] using hloop

/-- The call comes to its end exactly if the block has a cell for every product. -/
theorem constructArr_eq_ok {malloc : Malloc Int} {a : List Int} (hne : a ≠ []) {r : Int}
    {result : Option (List Int)} {size : Int} :
    constructArr malloc (some a) a.length r = .ok (result, size) ↔
      ∃ block, malloc.alloc (bytes r / 4) = some block ∧ a.length ≤ block.length ∧
        (∀ i < a.length, Representables a i) ∧
        result = some (products a ++ block.drop a.length) ∧ size = r := by
  have hpos : 0 < a.length := List.length_pos_iff.mpr hne
  simp only [constructArr, if_neg (show ¬ (a.length : Int) ≤ 0 by omega), bind_eq_ok,
    stores_eq_ok, pure_eq_ok, Except.ok.injEq, Prod.mk.injEq]
  constructor
  · rintro ⟨t, ⟨hall, rfl⟩, rfl, rfl⟩
    have hlast := (hall (a.length - 1) (by omega)).2
    cases hblock : malloc.alloc (bytes r / 4) with
    | none =>
      rw [hblock] at hlast
      cases hlast
    | some block =>
      rw [hblock, Option.getD_some] at hlast
      exact ⟨block, rfl, by omega, fun i hi => (hall i hi).1, rfl, rfl⟩
  · rintro ⟨block, hblock, hlen, hall, rfl, rfl⟩
    refine ⟨_, ⟨?_, rfl⟩, by rw [hblock]; rfl, rfl⟩
    intro i hi
    rw [hblock]
    exact ⟨hall i hi, Nat.lt_of_lt_of_le hi hlen⟩

/-- The products are stored in time exactly if the incoming `*returnSize` counts the bytes
of the result. It is reported as it came in, so it is right exactly if it counted the
cells. The two exclude each other. -/
theorem constructArr_iff (malloc : Malloc Int) (a : List Int) (hne : a ≠ []) (r : Int) :
    ((∃ block size, constructArr malloc (some a) a.length r = .ok (some block, size) ∧
        ∀ i < a.length, block[i]? = some (a.eraseIdx i).prod) ↔
      (malloc.alloc (bytes r / 4)).isSome ∧ 4 * a.length ≤ bytes r ∧
        ∀ i < a.length, Representables a i) ∧
    (∀ result size, constructArr malloc (some a) a.length r = .ok (result, size) →
      (size = a.length ↔ r = a.length)) ∧
    ¬ ∃ block, constructArr malloc (some a) a.length r = .ok (some block, (a.length : Int)) := by
  have hpos : 0 < a.length := List.length_pos_iff.mpr hne
  refine ⟨⟨?_, ?_⟩, ?_, ?_⟩
  · rintro ⟨_, size, hcall, _⟩
    obtain ⟨block, hblock, hlen, hall, _⟩ := (constructArr_eq_ok hne).mp hcall
    have hcells := malloc.length hblock
    exact ⟨by rw [hblock]; rfl, by omega, hall⟩
  · rintro ⟨hsome, hroom, hall⟩
    obtain ⟨block, hblock⟩ := Option.isSome_iff_exists.mp hsome
    have hcells := malloc.length hblock
    refine ⟨_, r, (constructArr_eq_ok hne).mpr ⟨block, hblock, by omega, hall, rfl, rfl⟩, ?_⟩
    intro i hi
    rw [List.getElem?_append_left (by simpa [products] using hi), products_getElem? hi]
  · intro result size hcall
    obtain ⟨_, _, _, _, _, rfl⟩ := (constructArr_eq_ok hne).mp hcall
    exact Iff.rfl
  · rintro ⟨_, hcall⟩
    obtain ⟨block, hblock, hlen, _, _, rfl⟩ := (constructArr_eq_ok hne).mp hcall
    have hcells := malloc.length hblock
    have hbytes : bytes a.length ≤ a.length := by
      unfold bytes
      omega
    omega

theorem constructArr_twenty :
    ∃ block size, constructArr (Malloc.cleared 0) (some [1, 2, 3, 4, 5]) 5 20 =
        .ok (some block, size) ∧
      ∀ i < 5, block[i]? = some ([1, 2, 3, 4, 5].eraseIdx i).prod := by
  apply (constructArr_iff (Malloc.cleared 0) [1, 2, 3, 4, 5] (by decide) 20).1.mpr
  exact ⟨rfl, by decide, by decide⟩

/-- The example of the header, called with the number of cells. -/
theorem constructArr_five : constructArr (Malloc.cleared 0) (some [1, 2, 3, 4, 5]) 5 5 =
    .error .outOfRange := rfl

end BasicDemo.LeetCode.ConstructArr
