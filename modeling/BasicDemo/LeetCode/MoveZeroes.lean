import BasicDemo.Library.Arrays

namespace BasicDemo.LeetCode.MoveZeroes
open Library.Loops Library.Arrays

/-- One round of the compaction, on the array and `j`. -/
def compact (i : Nat) (s : List Int × Nat) : Except Fault (List Int × Nat) := do
  let x ← read s.1 i
  if x ≠ 0 then
    let nums ← write s.1 s.2 x
    return (nums, s.2 + 1)
  else return s

def fill (q : Nat) (nums : List Int) : Except Fault (List Int) := write nums q 0

/-- The array as it is left; `none` is the NULL pointer. -/
def moveZeroes (nums : Option (List Int)) (numsSize : Int) : Except Fault (Option (List Int)) :=
  match nums with
  | none => .ok none
  | some nums =>
    if numsSize = 0 then .ok (some nums)
    else do
      let s ← forLoop 0 numsSize (nums, 0) compact
      let nums ← forLoop s.2 numsSize s.1 fill
      return some nums

/-- One round of the version that swaps. -/
def swapBack (i : Nat) (s : List Int × Nat) : Except Fault (List Int × Nat) := do
  let x ← read s.1 i
  if x ≠ 0 then
    let y ← read s.1 s.2
    let nums ← write s.1 i y
    let nums ← write nums s.2 x
    return (nums, s.2 + 1)
  else return s

def moveZeroesSwap (nums : Option (List Int)) (numsSize : Int) :
    Except Fault (Option (List Int)) :=
  match nums with
  | none => .ok none
  | some nums =>
    if numsSize = 0 then .ok (some nums)
    else do
      let s ← forLoop 0 numsSize (nums, 0) swapBack
      return some s.1

def kept (nums : List Int) : List Int := nums.filter (· ≠ 0)

theorem kept_append_zero (xs : List Int) : kept (xs ++ [0]) = kept xs := by
  simp [kept]

theorem kept_append {x : Int} (hx : x ≠ 0) (xs : List Int) : kept (xs ++ [x]) = kept xs ++ [x] := by
  simp [kept, hx]

theorem kept_count (nums : List Int) : (kept nums).length + nums.count 0 = nums.length := by
  induction nums with
  | nil => rfl
  | cons x xs ih =>
    by_cases hx : x = 0
    · simp [kept, hx] at ih ⊢
      omega
    · simp [kept, hx] at ih ⊢
      omega

/-- Before round `i`: what is kept of the cells seen, a gap of cells that meet `Q`, and
the cells not seen yet. -/
def Parted (Q : Int → Prop) (nums : List Int) (i : Nat) (s : List Int × Nat) : Prop :=
  ∃ seen rest gap, nums = seen ++ rest ∧ seen.length = i ∧ s.1 = kept seen ++ gap ++ rest ∧
    (kept seen ++ gap).length = i ∧ s.2 = (kept seen).length ∧ ∀ g ∈ gap, Q g

theorem parted_start (Q : Int → Prop) (nums : List Int) : Parted Q nums 0 (nums, 0) :=
  ⟨[], nums, [], rfl, rfl, rfl, rfl, rfl, by simp⟩

/-- A round meets the next cell; a zero there joins the gap, and a round that takes
another value to the front of the gap leaves the gap one place further on. -/
theorem Parted.step {Q : Int → Prop} {nums : List Int} {i : Nat} {s : List Int × Nat}
    {body : Nat → List Int × Nat → Except Fault (List Int × Nat)} (h : Parted Q nums i s)
    (hi : i < nums.length) (hzero : Q 0)
    (keeps : read s.1 i = .ok 0 → body i s = .ok s)
    (takes : ∀ front gap x rest, x ≠ 0 → s.1 = front ++ gap ++ x :: rest →
      (front ++ gap).length = i → s.2 = front.length → (∀ g ∈ gap, Q g) →
      ∃ gap', body i s = .ok (front ++ [x] ++ gap' ++ rest, s.2 + 1) ∧
        gap'.length = gap.length ∧ ∀ g ∈ gap', Q g) :
    ∃ t, body i s = .ok t ∧ Parted Q nums (i + 1) t := by
  obtain ⟨seen, rest, gap, rfl, rfl, hs, hlen, hj, hgap⟩ := h
  cases rest with
  | nil => simp at hi
  | cons x rest =>
    by_cases hx : x = 0
    · subst hx
      have hread : read s.1 seen.length = .ok 0 := by
        rw [hs]
        exact read_mid (by rw [hlen])
      refine ⟨s, keeps hread, seen ++ [0], rest, gap ++ [0], by simp, by simp, ?_⟩
      rw [kept_append_zero]
      refine ⟨by simp [hs], ?_, hj, ?_⟩
      · rw [← List.append_assoc, List.length_append, hlen]
        rfl
      · intro g hg
        rcases List.mem_append.mp hg with hg | hg
        · exact hgap g hg
        · rw [List.mem_singleton.mp hg]
          exact hzero
    · obtain ⟨gap', hbody, hlen', hgap'⟩ := takes _ _ _ _ hx hs hlen hj hgap
      refine ⟨_, hbody, seen ++ [x], rest, gap', by simp, by simp, ?_⟩
      rw [kept_append hx]
      refine ⟨rfl, ?_, by simp [hj], hgap'⟩
      simp only [List.length_append, List.length_cons, List.length_nil] at hlen ⊢
      omega

/-- After the last round the gap holds as many cells as there were zeros. -/
theorem Parted.last {Q : Int → Prop} {nums : List Int} {s : List Int × Nat}
    (h : Parted Q nums nums.length s) :
    ∃ gap, s.1 = kept nums ++ gap ∧ s.2 = (kept nums).length ∧ gap.length = nums.count 0 ∧
      ∀ g ∈ gap, Q g := by
  obtain ⟨seen, rest, gap, rfl, hseen, hs, hlen, hj, hgap⟩ := h
  obtain rfl : rest = [] := by simpa using hseen
  rw [List.append_nil] at hs hlen ⊢
  have hcount := kept_count seen
  rw [List.length_append] at hlen
  exact ⟨gap, hs, hj, by omega, hgap⟩

/-- The array that both versions leave. -/
def moved (nums : List Int) : List Int := kept nums ++ List.replicate (nums.count 0) 0

theorem compact_step {nums : List Int} {i : Nat} {s : List Int × Nat}
    (h : Parted (fun _ => True) nums i s) (hi : i < nums.length) :
    ∃ t, compact i s = .ok t ∧ Parted (fun _ => True) nums (i + 1) t := by
  refine h.step hi trivial ?_ ?_
  · intro hread
    simp [compact, hread]
  · intro front gap x rest hx hs hlen hj _
    have hread : read s.1 i = .ok x := by
      rw [hs]
      exact read_mid (by rw [hlen])
    have hwrite : ∃ gap', write s.1 s.2 x = .ok (front ++ [x] ++ gap' ++ rest) ∧
        gap'.length = gap.length := by
      cases gap with
      | nil =>
        refine ⟨[], ?_, rfl⟩
        rw [hs, List.append_nil, write_mid (by rw [hj])]
        simp
      | cons g gap =>
        refine ⟨gap ++ [x], ?_, by simp⟩
        rw [hs, List.append_assoc, List.cons_append, write_mid (by rw [hj])]
        simp
    obtain ⟨gap', hwrite, hgap⟩ := hwrite
    exact ⟨gap', by simp [compact, hread, hx, hwrite], hgap, fun _ _ => trivial⟩

/-- Without a gap the two pointers are the same and the swap does nothing. -/
theorem swapBack_no_gap {x : Int} (hx : x ≠ 0) (front rest : List Int) :
    swapBack front.length (front ++ x :: rest, front.length) =
      .ok (front ++ x :: rest, front.length + 1) := by
  have hread : read (front ++ x :: rest) front.length = .ok x := read_mid rfl
  have hwrite : write (front ++ x :: rest) front.length x = .ok (front ++ x :: rest) :=
    write_mid rfl x
  simp only [swapBack, hread, hwrite, ok_bind, ne_eq, hx, not_false_eq_true, if_true, pure_eq_ok]

/-- The element changes places with the first zero of the gap. -/
theorem swapBack_gap {x : Int} (hx : x ≠ 0) (front gap rest : List Int) :
    swapBack (front ++ 0 :: gap).length (front ++ 0 :: gap ++ x :: rest, front.length) =
      .ok (front ++ [x] ++ (gap ++ [0]) ++ rest, front.length + 1) := by
  have hback : read (front ++ 0 :: gap ++ x :: rest) (front ++ 0 :: gap).length = .ok x :=
    read_mid rfl
  have hzero : read (front ++ 0 :: gap ++ x :: rest) front.length = .ok 0 :=
    read_segment rfl
  have hwrite : write (front ++ 0 :: gap ++ x :: rest) (front ++ 0 :: gap).length 0 =
      .ok (front ++ 0 :: gap ++ 0 :: rest) :=
    write_mid rfl 0
  have htake : write (front ++ 0 :: gap ++ 0 :: rest) front.length x =
      .ok (front ++ [x] ++ (gap ++ [0]) ++ rest) := by
    rw [write_segment rfl]
    simp
  simp only [swapBack, hback, hzero, hwrite, htake, ok_bind, ne_eq, hx, not_false_eq_true,
    if_true, pure_eq_ok]

/-- Between the two pointers there are only zeros, so the swap fills the gap with one. -/
theorem swapBack_step {nums : List Int} {i : Nat} {s : List Int × Nat}
    (h : Parted (fun g => g = 0) nums i s) (hi : i < nums.length) :
    ∃ t, swapBack i s = .ok t ∧ Parted (fun g => g = 0) nums (i + 1) t := by
  refine h.step hi rfl ?_ ?_
  · intro hread
    simp [swapBack, hread]
  · intro front gap x rest hx hs hlen hj hgap
    obtain ⟨array, j⟩ := s
    simp only at hs hj
    subst hs hj hlen
    cases gap with
    | nil =>
      refine ⟨[], ?_, rfl, by simp⟩
      simpa using swapBack_no_gap hx front rest
    | cons g gap =>
      obtain rfl : g = 0 := hgap g List.mem_cons_self
      refine ⟨gap ++ [0], swapBack_gap hx front gap rest, by simp, ?_⟩
      intro g hg
      rcases List.mem_append.mp hg with hg | hg
      · exact hgap g (List.mem_cons_of_mem _ hg)
      · exact List.mem_singleton.mp hg

theorem moveZeroesSwap_ok (nums : List Int) :
    moveZeroesSwap (some nums) nums.length = .ok (some (moved nums)) := by
  by_cases hn : nums = []
  · subst hn
    rfl
  have hloop : ∃ s, forLoop 0 nums.length (nums, 0) swapBack = .ok s ∧
      Parted (fun g => g = 0) nums nums.length s :=
    forLoop_ok (by omega) _ (parted_start _ nums) (fun i s _ hi hs => swapBack_step hs hi)
  obtain ⟨s, hs, hparted⟩ := hloop
  obtain ⟨gap, harray, _, hlen, hgap⟩ := hparted.last
  have hmoved : s.1 = moved nums := by
    rw [harray, moved, List.eq_replicate_iff.mpr ⟨hlen, hgap⟩]
  simp [moveZeroesSwap, hn, hs, hmoved]

theorem moveZeroes_ok (nums : List Int) :
    moveZeroes (some nums) nums.length = .ok (some (moved nums)) := by
  by_cases hn : nums = []
  · subst hn
    rfl
  have hloop : ∃ s, forLoop 0 nums.length (nums, 0) compact = .ok s ∧
      Parted (fun _ => True) nums nums.length s :=
    forLoop_ok (by omega) _ (parted_start _ nums) (fun i s _ hi hs => compact_step hs hi)
  obtain ⟨s, hs, hparted⟩ := hloop
  obtain ⟨gap, harray, hj, hlen, _⟩ := hparted.last
  have hall : nums.length = (kept nums ++ gap).length := by
    rw [List.length_append, hlen, kept_count]
  have hfill : forLoop s.2 nums.length s.1 fill = .ok (moved nums) := by
    rw [harray, hj, hall]
    exact (fill_ok (kept nums) gap 0).trans (by rw [hlen]; rfl)
  simp [moveZeroes, hn, hs, hfill]

theorem length_moved (nums : List Int) : (moved nums).length = nums.length := by
  rw [moved, List.length_append, List.length_replicate, kept_count]

theorem moved_moved (nums : List Int) : moved (moved nums) = moved nums := by
  have hkept : kept (moved nums) = kept nums := by simp [moved, kept]
  have hcount : (moved nums).count 0 = nums.count 0 := by
    have hnew := kept_count (moved nums)
    have hold := kept_count nums
    rw [hkept, length_moved] at hnew
    omega
  rw [moved, hkept, hcount]
  rfl

/-- Both versions leave the non-zero elements in their order and then the zeros, and a
second call finds nothing to do. -/
theorem moves_agree (nums : List Int) :
    ∃ out, moveZeroes (some nums) nums.length = .ok (some out) ∧
      moveZeroesSwap (some nums) nums.length = .ok (some out) ∧
      out = nums.filter (· ≠ 0) ++ List.replicate (nums.count 0) 0 ∧
      moveZeroes (some out) out.length = .ok (some out) ∧
      moveZeroesSwap (some out) out.length = .ok (some out) := by
  refine ⟨moved nums, moveZeroes_ok nums, moveZeroesSwap_ok nums, rfl, ?_, ?_⟩
  · rw [moveZeroes_ok, moved_moved]
  · rw [moveZeroesSwap_ok, moved_moved]

end BasicDemo.LeetCode.MoveZeroes
