import BasicDemo.Library.Arrays
import Mathlib.Logic.Function.Basic

namespace BasicDemo.LeetCode.TwoSum
open Library.Loops Library.Arrays

/-- The sum of two `int`s in C++, where overflow is undefined. -/
def addCpp (x y : Int32) : Except Fault Int32 :=
  if Representable (x.toInt + y.toInt) then .ok (x + y) else .error .overflow

/-- The sum of two `int`s in Java, taken in two's complement. -/
def addJava (x y : Int32) : Except Fault Int32 := .ok (x + y)

section Programs

-- The nested loops are the same in both languages, up to what a sum is.
variable (add : Int32 → Int32 → Except Fault Int32)

/-- A round of the inner loops. -/
def compare (nums : List Int32) (target : Int32) (i j : Nat) (_ : Unit) :
    Except Fault (Round (List Int) Unit) := do
  let x ← read nums i
  let y ← read nums j
  let sum ← add x y
  if sum = target then return .leave [(i : Int), (j : Int)] else return .next ()

/-- The inner loops, which compare cell `i` with all cells behind it. -/
def inner (nums : List Int32) (target : Int32) (i : Nat) :
    Except Fault (Round (List Int) Unit) :=
  forLoopUntil (i + 1) nums.length () (compare add nums target i)

end Programs

/-- A round of the outer loop in C++, with what `j` holds behind the inner one. -/
def row (nums : List Int32) (target : Int32) (i : Nat) (_ : Int) :
    Except Fault (Round (List Int) Int) := do
  match ← inner addCpp nums target i with
  | .leave r => return .leave r
  | .next _ => return .next nums.length

/-- The nested loops in C++. `j` holds anything at first; for the empty vector
`nums.size()-1` is the greatest `size_t`, and `i` overflows on the way there. -/
def twoSumCpp (nums : List Int32) (target : Int32) (j : Int) : Except Fault (List Int) :=
  if nums.length = 0 then .error .overflow
  else do
    match ← forLoopUntil 0 (nums.length - 1) j (row nums target) with
    | .leave r => return r
    | .next j => return [(nums.length : Int) - 1, j]

/-- How a method ends. -/
inductive Outcome where
  | returned (indices : List Int)
  | illegalArgument (message : String)
  deriving DecidableEq

/-- The nested loops in Java. -/
def twoSumJava (nums : List Int32) (target : Int32) : Except Fault Outcome := do
  match ← forLoopUntil 0 (nums.length - 1) () (fun i _ => inner addJava nums target i) with
  | .leave r => return .returned r
  | .next _ => return .illegalArgument "找不到这样的数字"

/-- A round of the loop with the `HashMap`. -/
def lookUp (nums : List Int32) (target : Int32) (i : Nat) (hash : Int32 → Option Int) :
    Except Fault (Round (List Int) (Int32 → Option Int)) := do
  let x ← read nums i
  match hash x with
  | some k => return .leave [k, (i : Int)]
  | none => return .next (Function.update hash (target - x) (some (i : Int)))

def twoSumHash (nums : List Int32) (target : Int32) : Except Fault (List Int) := do
  match ← forLoopUntil 0 nums.length (fun _ => none) (lookUp nums target) with
  | .leave r => return r
  | .next _ => return []

/-- The indices `i < j` are a solution: the exact sum of their cells is the target. -/
def Solves (nums : List Int32) (target : Int32) (i j : Nat) : Prop :=
  i < j ∧ ∃ x y, nums[i]? = some x ∧ nums[j]? = some y ∧ x.toInt + y.toInt = target.toInt

instance (nums : List Int32) (target : Int32) (i j : Nat) : Decidable (Solves nums target i j) :=
  decidable_of_iff (i < j ∧ ∃ x ∈ nums[i]?, ∃ y ∈ nums[j]?, x.toInt + y.toInt = target.toInt)
    (by simp [Solves])

theorem Solves.bounds {nums : List Int32} {target : Int32} {i j : Nat}
    (h : Solves nums target i j) : i < j ∧ j < nums.length := by
  obtain ⟨hlt, x, y, _, hy, _⟩ := h
  exact ⟨hlt, (List.getElem?_eq_some_iff.mp hy).1⟩

theorem toInt_add_of_representable {x y : Int32} (h : Representable (x.toInt + y.toInt)) :
    (x + y).toInt = x.toInt + y.toInt := by
  obtain ⟨hlo, hhi⟩ := h
  rw [Int32.toInt_add]
  exact Int.bmod_eq_of_le (by omega) (by omega)

theorem representable_toInt (x : Int32) : Representable x.toInt :=
  ⟨Int32.le_toInt x, by have := Int32.toInt_lt x; omega⟩

/-- The sums of a pair of cells, exact and in two's complement, are the same if the exact one
is that of a value. -/
theorem add_eq_iff {x y target : Int32} (h : Representable (x.toInt + y.toInt)) :
    x + y = target ↔ x.toInt + y.toInt = target.toInt := by
  rw [← Int32.toInt_inj, toInt_add_of_representable h]

theorem add_eq_of_exact {x y target : Int32} (h : x.toInt + y.toInt = target.toInt) :
    x + y = target :=
  (add_eq_iff (h ▸ representable_toInt target)).mpr h

section Nested

variable (add : Int32 → Int32 → Except Fault Int32) (nums : List Int32) (target : Int32)

/-- The comparison of the cells `k` and `l` goes on to the next pair. -/
def Passes (k l : Nat) : Prop :=
  ∃ x y sum, nums[k]? = some x ∧ nums[l]? = some y ∧ add x y = .ok sum ∧ sum ≠ target

/-- The comparison of the cells `k` and `l` ends the search. -/
def Hits (k l : Nat) : Prop :=
  ∃ x y, nums[k]? = some x ∧ nums[l]? = some y ∧ add x y = .ok target

/-- The pair `(k, l)` is compared before the pair `(i, j)`. -/
def Before (i j k l : Nat) : Prop := k < i ∨ k = i ∧ l < j

variable {add nums target}

theorem compare_next_iff {i j : Nat} (hi : i < nums.length) (hj : j < nums.length) (s : Unit) :
    (∃ t, compare add nums target i j s = .ok (.next t)) ↔ Passes add nums target i j := by
  rw [compare, read_at rfl hi, ok_bind, read_at rfl hj, ok_bind, Passes]
  simp only [List.getElem?_eq_getElem hi, List.getElem?_eq_getElem hj, Option.some.injEq]
  constructor
  · rintro ⟨t, ht⟩
    obtain ⟨sum, hsum, ht⟩ := bind_eq_ok.mp ht
    split at ht
    · cases ht
    · next hne => exact ⟨_, _, sum, rfl, rfl, hsum, hne⟩
  · rintro ⟨x, y, sum, rfl, rfl, hsum, hne⟩
    rw [hsum, ok_bind, if_neg hne]
    exact ⟨(), rfl⟩

theorem compare_leave_iff {i j : Nat} (hi : i < nums.length) (hj : j < nums.length) (s : Unit)
    (r : List Int) :
    compare add nums target i j s = .ok (.leave r) ↔
      r = [(i : Int), (j : Int)] ∧ Hits add nums target i j := by
  rw [compare, read_at rfl hi, ok_bind, read_at rfl hj, ok_bind, Hits]
  simp only [List.getElem?_eq_getElem hi, List.getElem?_eq_getElem hj, Option.some.injEq]
  constructor
  · intro h
    obtain ⟨sum, hsum, h⟩ := bind_eq_ok.mp h
    split at h
    · next heq =>
      cases h
      exact ⟨rfl, _, _, rfl, rfl, heq ▸ hsum⟩
    · cases h
  · rintro ⟨rfl, x, y, rfl, rfl, hsum⟩
    rw [hsum, ok_bind, if_pos rfl]
    rfl

theorem inner_next_iff {i : Nat} (hi : i < nums.length) :
    (∃ t, inner add nums target i = .ok (.next t)) ↔
      ∀ l, i < l → l < nums.length → Passes add nums target i l :=
  forLoopUntil_next_iff (by omega) (fun _ s _ hl => compare_next_iff hi hl s) ()

theorem inner_leave_iff {i : Nat} (hi : i < nums.length) (r : List Int) :
    inner add nums target i = .ok (.leave r) ↔
      ∃ j : Nat, i < j ∧ j < nums.length ∧ (∀ l, i < l → l < j → Passes add nums target i l) ∧
        r = [(i : Int), (j : Int)] ∧ Hits add nums target i j := by
  refine (forLoopUntil_leave_iff (P := fun l => l < nums.length → Passes add nums target i l)
    (by omega) ?_ (fun _ s r _ hl => compare_leave_iff hi hl s r) () r).trans ?_
  · intro l s _ hl
    rw [compare_next_iff hi hl s]
    exact ⟨fun h _ => h, fun h => h hl⟩
  · refine exists_congr (fun j => and_congr_right (fun hij => and_congr_right (fun hj => ?_)))
    refine and_congr_left (fun _ => ?_)
    exact ⟨fun h l hil hlj => h l hil hlj (by omega), fun h l hil hlj _ => h l hil hlj⟩

/-- Nested loops, whatever variables they carry along, return a pair exactly if it ends the
search and all pairs before it pass. -/
theorem nested_iff {σ : Type} (body : Nat → σ → Except Fault (Round (List Int) σ))
    (passes : ∀ k s, (∃ t, body k s = .ok (.next t)) ↔ ∃ t, inner add nums target k = .ok (.next t))
    (leaves : ∀ k s r, body k s = .ok (.leave r) ↔ inner add nums target k = .ok (.leave r))
    (s : σ) {i j : Nat} (hij : i < j) (hj : j < nums.length) :
    forLoopUntil 0 (nums.length - 1) s body = .ok (.leave [(i : Int), (j : Int)]) ↔
      Hits add nums target i j ∧
        ∀ k l, k < l → l < nums.length → Before i j k l → Passes add nums target k l := by
  rw [forLoopUntil_leave_iff (n := nums.length - 1)
    (P := fun k => ∀ l, k < l → l < nums.length → Passes add nums target k l) (by omega)
    (fun k s _ hk => (passes k s).trans (inner_next_iff (by omega)))
    (fun k s r _ hk => (leaves k s r).trans (inner_leave_iff (by omega) r))]
  constructor
  · rintro ⟨i', -, -, hrows, j', -, -, hcells, hr, hhits⟩
    obtain ⟨rfl, rfl⟩ : i = i' ∧ j = j' := by
      simp only [List.cons.injEq, and_true] at hr
      omega
    refine ⟨hhits, ?_⟩
    rintro k l hkl hl (hki | ⟨rfl, hlj⟩)
    · exact hrows k (Nat.zero_le k) hki l hkl hl
    · exact hcells l hkl hlj
  · rintro ⟨hhits, hbefore⟩
    refine ⟨i, Nat.zero_le i, by omega, ?_, j, hij, hj, ?_, rfl, hhits⟩
    · exact fun k _ hki l hkl hl => hbefore k l hkl hl (Or.inl hki)
    · exact fun l hil hlj => hbefore i l hil (by omega) (Or.inr ⟨rfl, hlj⟩)

theorem row_next_iff (k : Nat) (j : Int) :
    (∃ t, row nums target k j = .ok (.next t)) ↔
      ∃ t, inner addCpp nums target k = .ok (.next t) := by
  constructor
  · rintro ⟨t, ht⟩
    obtain ⟨round, hround, ht⟩ := bind_eq_ok.mp ht
    cases round with
    | next u => exact ⟨u, hround⟩
    | leave r => cases ht
  · rintro ⟨t, ht⟩
    rw [row, ht]
    exact ⟨_, rfl⟩

theorem row_leave_iff (k : Nat) (j : Int) (r : List Int) :
    row nums target k j = .ok (.leave r) ↔ inner addCpp nums target k = .ok (.leave r) := by
  constructor
  · intro h
    obtain ⟨round, hround, h⟩ := bind_eq_ok.mp h
    cases round with
    | next u => cases h
    | leave r' =>
      cases h
      exact hround
  · intro h
    rw [row, h]
    rfl

theorem twoSumCpp_iff (garbage : Int) {i j : Nat} (hij : i < j) (hj : j < nums.length) :
    twoSumCpp nums target garbage = .ok [(i : Int), (j : Int)] ↔
      Hits addCpp nums target i j ∧
        ∀ k l, k < l → l < nums.length → Before i j k l → Passes addCpp nums target k l := by
  rw [← nested_iff (row nums target) row_next_iff row_leave_iff garbage hij hj, twoSumCpp,
    if_neg (by omega)]
  constructor
  · intro h
    obtain ⟨round, hround, h⟩ := bind_eq_ok.mp h
    cases round with
    | leave r =>
      cases h
      exact hround
    | next t =>
      -- The pair behind the loops starts with the last cell, which is no first one.
      have hfirst := (List.cons.inj (Except.ok.inj h)).1
      omega
  · intro h
    rw [h]
    rfl

theorem twoSumJava_iff {i j : Nat} (hij : i < j) (hj : j < nums.length) :
    twoSumJava nums target = .ok (.returned [(i : Int), (j : Int)]) ↔
      Hits addJava nums target i j ∧
        ∀ k l, k < l → l < nums.length → Before i j k l → Passes addJava nums target k l := by
  rw [← nested_iff (fun k _ => inner addJava nums target k) (fun _ _ => Iff.rfl)
    (fun _ _ _ => Iff.rfl) () hij hj, twoSumJava]
  constructor
  · intro h
    obtain ⟨round, hround, h⟩ := bind_eq_ok.mp h
    cases round with
    | leave r =>
      cases h
      exact hround
    | next t => cases h
  · intro h
    rw [h]
    rfl

end Nested

section Hash

variable {nums : List Int32} {target : Int32}

/-- The sum of the cells `k` and `l` in two's complement is the target. -/
def Wraps (nums : List Int32) (target : Int32) (k l : Nat) : Prop :=
  ∃ x y, nums[k]? = some x ∧ nums[l]? = some y ∧ x + y = target

/-- The pair that a pass through the array meets first: no earlier cell has a partner in front
of it, and of the partners of cell `l` the last one is cell `k`. -/
structure FirstMet (nums : List Int32) (target : Int32) (k l : Nat) : Prop where
  lt : k < l
  wraps : Wraps nums target k l
  earlier : ∀ k' l', k' < l' → l' < l → ¬ Wraps nums target k' l'
  last : ∀ k', k < k' → k' < l → ¬ Wraps nums target k' l

theorem FirstMet.unique {i j k l : Nat} (h : FirstMet nums target i j)
    (h' : FirstMet nums target k l) : i = k ∧ j = l := by
  have hl : j = l := by
    rcases Nat.lt_trichotomy j l with hlt | heq | hlt
    · exact absurd h.wraps (h'.earlier i j h.lt hlt)
    · exact heq
    · exact absurd h'.wraps (h.earlier k l h'.lt hlt)
  subst hl
  refine ⟨?_, rfl⟩
  rcases Nat.lt_trichotomy i k with hlt | heq | hlt
  · exact absurd h'.wraps (h.last k hlt h'.lt)
  · exact heq
  · exact absurd h.wraps (h'.last i hlt h.lt)

/-- The map before round `k`: under each value there is the last earlier cell that makes up the
target with it. -/
def Entered (nums : List Int32) (target : Int32) (k : Nat) (hash : Int32 → Option Int) : Prop :=
  ∀ y, (hash y = none ∧ ∀ i x, i < k → nums[i]? = some x → x + y ≠ target) ∨
    ∃ i : Nat, hash y = some (i : Int) ∧ i < k ∧ (∃ x, nums[i]? = some x ∧ x + y = target) ∧
      ∀ m x, i < m → m < k → nums[m]? = some x → x + y ≠ target

theorem Entered.put {k : Nat} {hash : Int32 → Option Int} (h : Entered nums target k hash)
    {x : Int32} (hx : nums[k]? = some x) :
    Entered nums target (k + 1) (Function.update hash (target - x) (some (k : Int))) := by
  intro y
  by_cases hy : y = target - x
  · refine Or.inr ⟨k, by rw [hy, Function.update_self], by omega, ⟨x, hx, ?_⟩, by omega⟩
    rw [hy, Int32.add_comm, Int32.sub_add_cancel]
  · have hnew : ∀ z, nums[k]? = some z → z + y ≠ target := by
      rintro z hz heq
      obtain rfl := Option.some.inj (hx.symm.trans hz)
      exact hy (by rw [← heq, Int32.add_comm, Int32.add_sub_cancel])
    rw [Function.update_of_ne hy]
    rcases h y with ⟨hnone, hall⟩ | ⟨i, hi, hik, hsum, hlast⟩
    · refine Or.inl ⟨hnone, ?_⟩
      intro i z hi hz
      rcases Nat.lt_succ_iff_lt_or_eq.mp hi with hi | rfl
      · exact hall i z hi hz
      · exact hnew z hz
    · refine Or.inr ⟨i, hi, by omega, hsum, ?_⟩
      intro m z him hm hz
      rcases Nat.lt_succ_iff_lt_or_eq.mp hm with hm | rfl
      · exact hlast m z him hm hz
      · exact hnew z hz

/-- The pass returns the pair that it meets first, and nothing if there is none. -/
theorem twoSumHash_cases (nums : List Int32) (target : Int32) :
    (twoSumHash nums target = .ok [] ∧
        ∀ k l, k < l → l < nums.length → ¬ Wraps nums target k l) ∨
      ∃ k l : Nat, twoSumHash nums target = .ok [(k : Int), (l : Int)] ∧
        FirstMet nums target k l := by
  have hloop : (∃ t, forLoopUntil 0 nums.length (fun _ => none) (lookUp nums target) =
        .ok (.next t) ∧ Entered nums target nums.length t ∧
        ∀ k l, k < l → l < nums.length → ¬ Wraps nums target k l) ∨
      ∃ r, forLoopUntil 0 nums.length (fun _ => none) (lookUp nums target) = .ok (.leave r) ∧
        ∃ k l : Nat, r = [(k : Int), (l : Int)] ∧ FirstMet nums target k l := by
    refine forLoopUntil_ok (by omega) (fun n hash => Entered nums target n hash ∧
      ∀ k l, k < l → l < n → ¬ Wraps nums target k l) _ ⟨?_, fun _ _ _ hl => by omega⟩ ?_
    · exact fun y => Or.inl ⟨rfl, fun i x hi => by omega⟩
    · rintro l hash - hl ⟨hentered, hearlier⟩
      have hy : nums[l]? = some nums[l] := List.getElem?_eq_getElem hl
      rw [lookUp, read_at rfl hl, ok_bind]
      rcases hentered nums[l] with ⟨hnone, hno⟩ | ⟨k, hfound, hkl, ⟨x, hx, hsum⟩, hlast⟩
      · refine Or.inl ⟨_, by rw [hnone]; rfl, hentered.put hy, ?_⟩
        rintro k' l' hlt hl' ⟨x, y, hx, hy', hsum⟩
        rcases Nat.lt_succ_iff_lt_or_eq.mp hl' with hl' | rfl
        · exact hearlier k' l' hlt hl' ⟨x, y, hx, hy', hsum⟩
        · obtain rfl := Option.some.inj (hy.symm.trans hy')
          exact hno k' x hlt hx hsum
      · refine Or.inr ⟨_, by rw [hfound]; rfl, k, l, rfl, hkl, ⟨x, nums[l], hx, hy, hsum⟩,
          hearlier, ?_⟩
        rintro k' hlt hk' ⟨x', y', hx', hy', hsum'⟩
        obtain rfl := Option.some.inj (hy.symm.trans hy')
        exact hlast k' x' hlt hk' hx' hsum'
  rcases hloop with ⟨t, ht, -, hnone⟩ | ⟨r, hr, k, l, rfl, hmet⟩
  · refine Or.inl ⟨?_, hnone⟩
    rw [twoSumHash, ht]
    rfl
  · refine Or.inr ⟨k, l, ?_, hmet⟩
    rw [twoSumHash, hr]
    rfl

theorem twoSumHash_iff {i j : Nat} (hj : j < nums.length) :
    twoSumHash nums target = .ok [(i : Int), (j : Int)] ↔ FirstMet nums target i j := by
  rcases twoSumHash_cases nums target with ⟨hrun, hnone⟩ | ⟨k, l, hrun, hmet⟩
  · rw [hrun]
    constructor
    · intro h
      cases h
    · intro h
      exact absurd h.wraps (hnone i j h.lt hj)
  · rw [hrun]
    constructor
    · intro h
      obtain ⟨rfl, rfl⟩ : k = i ∧ l = j := by
        simp only [Except.ok.injEq, List.cons.injEq, and_true] at h
        omega
      exact hmet
    · intro h
      obtain ⟨rfl, rfl⟩ := hmet.unique h
      rfl

end Hash

section Unique

variable {nums : List Int32} {target : Int32} {i j : Nat}

/-- The sums that the nested loops compare before the pair `(i, j)` are values of `int`. -/
def SumsFit (nums : List Int32) (i j : Nat) : Prop :=
  ∀ k l x y, k < l → Before i j k l → nums[k]? = some x → nums[l]? = some y →
    Representable (x.toInt + y.toInt)

/-- Behind cell `i` and up to cell `j` no two cells make up the target in two's complement. -/
def NoneBehind (nums : List Int32) (target : Int32) (i j : Nat) : Prop :=
  ∀ k l, i < k → k < l → l ≤ j → ¬ Wraps nums target k l

theorem passes_cpp_iff {k l : Nat} {x y : Int32} (hx : nums[k]? = some x)
    (hy : nums[l]? = some y) (hno : x.toInt + y.toInt ≠ target.toInt) :
    Passes addCpp nums target k l ↔ Representable (x.toInt + y.toInt) := by
  constructor
  · rintro ⟨x', y', sum, hx', hy', hsum, -⟩
    obtain rfl := Option.some.inj (hx.symm.trans hx')
    obtain rfl := Option.some.inj (hy.symm.trans hy')
    by_contra hout
    rw [addCpp, if_neg hout] at hsum
    cases hsum
  · intro hfit
    exact ⟨x, y, x + y, hx, hy, if_pos hfit, fun heq => hno ((add_eq_iff hfit).mp heq)⟩

theorem Solves.wraps (h : Solves nums target i j) : Wraps nums target i j := by
  obtain ⟨-, x, y, hx, hy, hsum⟩ := h
  exact ⟨x, y, hx, hy, add_eq_of_exact hsum⟩

theorem Solves.hits_cpp (h : Solves nums target i j) : Hits addCpp nums target i j := by
  obtain ⟨-, x, y, hx, hy, hsum⟩ := h
  refine ⟨x, y, hx, hy, ?_⟩
  rw [addCpp, if_pos (hsum ▸ representable_toInt target), add_eq_of_exact hsum]

theorem Solves.hits_java (h : Solves nums target i j) : Hits addJava nums target i j := by
  obtain ⟨x, y, hx, hy, hsum⟩ := h.wraps
  exact ⟨x, y, hx, hy, congrArg Except.ok hsum⟩

variable (h : Solves nums target i j) (unique : ∀ k l, Solves nums target k l → k = i ∧ l = j)
include h unique

/-- A pair that is compared before the solution is no solution. -/
theorem exact_ne_of_before {k l : Nat} {x y : Int32} (hkl : k < l) (hbefore : Before i j k l)
    (hx : nums[k]? = some x) (hy : nums[l]? = some y) : x.toInt + y.toInt ≠ target.toInt := by
  intro hsum
  obtain ⟨rfl, rfl⟩ := unique k l ⟨hkl, x, y, hx, hy, hsum⟩
  rcases hbefore with hlt | ⟨-, hlt⟩
  · omega
  · omega

theorem twoSumCpp_found_iff (garbage : Int) :
    twoSumCpp nums target garbage = .ok [(i : Int), (j : Int)] ↔ SumsFit nums i j := by
  obtain ⟨hij, hj⟩ := h.bounds
  rw [twoSumCpp_iff garbage hij hj, and_iff_right h.hits_cpp]
  constructor
  · intro hpasses k l x y hkl hbefore hx hy
    exact (passes_cpp_iff hx hy (exact_ne_of_before h unique hkl hbefore hx hy)).mp
      (hpasses k l hkl (List.getElem?_eq_some_iff.mp hy).1 hbefore)
  · intro hfit k l hkl hl hbefore
    have hx := List.getElem?_eq_getElem (show k < nums.length by omega)
    have hy := List.getElem?_eq_getElem hl
    exact (passes_cpp_iff hx hy (exact_ne_of_before h unique hkl hbefore hx hy)).mpr
      (hfit k l _ _ hkl hbefore hx hy)

theorem not_wraps_of_sumsFit (hfit : SumsFit nums i j) {k l : Nat} (hkl : k < l)
    (hbefore : Before i j k l) : ¬ Wraps nums target k l := by
  rintro ⟨x, y, hx, hy, hsum⟩
  exact exact_ne_of_before h unique hkl hbefore hx hy
    ((add_eq_iff (hfit k l x y hkl hbefore hx hy)).mp hsum)

theorem twoSumJava_found (hfit : SumsFit nums i j) :
    twoSumJava nums target = .ok (.returned [(i : Int), (j : Int)]) := by
  obtain ⟨hij, hj⟩ := h.bounds
  rw [twoSumJava_iff hij hj, and_iff_right h.hits_java]
  intro k l hkl hl hbefore
  have hx := List.getElem?_eq_getElem (show k < nums.length by omega)
  have hy := List.getElem?_eq_getElem hl
  refine ⟨_, _, _, hx, hy, rfl, ?_⟩
  intro heq
  exact not_wraps_of_sumsFit h unique hfit hkl hbefore ⟨_, _, hx, hy, heq⟩

theorem twoSumHash_found_iff (hfit : SumsFit nums i j) :
    twoSumHash nums target = .ok [(i : Int), (j : Int)] ↔ NoneBehind nums target i j := by
  obtain ⟨hij, hj⟩ := h.bounds
  rw [twoSumHash_iff hj]
  constructor
  · intro hmet k l hik hkl hlj
    rcases Nat.eq_or_lt_of_le hlj with rfl | hlj
    · exact hmet.last k hik hkl
    · exact hmet.earlier k l hkl hlj
  · intro hbehind
    refine ⟨hij, h.wraps, ?_, ?_⟩
    · intro k l hkl hlj
      rcases Nat.lt_trichotomy k i with hki | rfl | hki
      · exact not_wraps_of_sumsFit h unique hfit hkl (Or.inl hki)
      · exact not_wraps_of_sumsFit h unique hfit hkl (Or.inr ⟨rfl, hlj⟩)
      · exact hbehind k l hki hkl (Nat.le_of_lt hlj)
    · exact fun k hik hkj => hbehind k j hik hkj (Nat.le_refl j)

end Unique

/-- Where there is one solution only, all three versions return it exactly if no sum that is
compared before it leaves the range of `int`, and no two cells behind its first one and up to
its second one make up the target in two's complement. -/
theorem twoSums_agree_iff (nums : List Int32) (target : Int32) (i j : Nat)
    (h : Solves nums target i j) (unique : ∀ k l, Solves nums target k l → k = i ∧ l = j)
    (garbage : Int) :
    (twoSumCpp nums target garbage = .ok [(i : Int), (j : Int)] ∧
      twoSumJava nums target = .ok (.returned [(i : Int), (j : Int)]) ∧
      twoSumHash nums target = .ok [(i : Int), (j : Int)]) ↔
    SumsFit nums i j ∧ NoneBehind nums target i j := by
  constructor
  · rintro ⟨hcpp, -, hhash⟩
    have hfit := (twoSumCpp_found_iff h unique garbage).mp hcpp
    exact ⟨hfit, (twoSumHash_found_iff h unique hfit).mp hhash⟩
  · rintro ⟨hfit, hbehind⟩
    exact ⟨(twoSumCpp_found_iff h unique garbage).mpr hfit, twoSumJava_found h unique hfit,
      (twoSumHash_found_iff h unique hfit).mpr hbehind⟩

/-- Four cells have no pair but those of the first four indices. -/
theorem unique_of_four {nums : List Int32} {target : Int32} {i j : Nat} (hlength : nums.length = 4)
    (hall : ∀ k < 4, ∀ l < 4, Solves nums target k l → k = i ∧ l = j) (k l : Nat)
    (h : Solves nums target k l) : k = i ∧ l = j := by
  obtain ⟨hkl, hl⟩ := h.bounds
  exact hall k (by omega) l (by omega) h

/-- The example of the notes. -/
theorem twoSums_agree_nine :
    twoSumCpp [2, 7, 11, 15] 9 0 = .ok [0, 1] ∧
      twoSumJava [2, 7, 11, 15] 9 = .ok (.returned [0, 1]) ∧
      twoSumHash [2, 7, 11, 15] 9 = .ok [0, 1] := by
  refine (twoSums_agree_iff [2, 7, 11, 15] 9 0 1 (by decide) (unique_of_four rfl (by decide)) 0).mpr
    ⟨?_, ?_⟩
  · rintro k l x y hkl (hki | ⟨rfl, hlj⟩)
    · omega
    · omega
  · intro k l hik hkl hlj
    omega

/-- A sum that overflows before the only solution is met, which C++ does not define; and one
that comes out as the target, so that the two Java versions return its cells. -/
theorem twoSums_overflow :
    (Solves [2147483647, 1, 2, 3] 5 2 3 ∧
      (∀ k l, Solves [2147483647, 1, 2, 3] 5 k l → k = 2 ∧ l = 3) ∧
      twoSumCpp [2147483647, 1, 2, 3] 5 0 = .error .overflow) ∧
    Solves [-2147483648, -2147483648, 5, -5] 0 2 3 ∧
      (∀ k l, Solves [-2147483648, -2147483648, 5, -5] 0 k l → k = 2 ∧ l = 3) ∧
      twoSumCpp [-2147483648, -2147483648, 5, -5] 0 0 = .error .overflow ∧
      twoSumJava [-2147483648, -2147483648, 5, -5] 0 = .ok (.returned [0, 1]) ∧
      twoSumHash [-2147483648, -2147483648, 5, -5] 0 = .ok [0, 1] :=
  ⟨⟨by decide, unique_of_four rfl (by decide), by decide⟩, by decide,
    unique_of_four rfl (by decide), by decide, by decide, by decide⟩

end BasicDemo.LeetCode.TwoSum
