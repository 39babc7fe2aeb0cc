import BasicDemo.Library.Arrays
import BasicDemo.LeetCode.ValidParentheses

namespace BasicDemo.LeetCode.CharReverse
open Library.Loops Library.Arrays ValidParentheses

/-- A block of memory, and the places in it that pointers have been dereferenced at. -/
structure Memory where
  bytes : List Int8
  dereferenced : List Int

/-- The number of bytes from the place `p` up to the next NUL. -/
def strlen (bytes : List Int8) (p : Int) : Except Fault Int :=
  if 0 ≤ p then
    match (bytes.drop p.toNat).findIdx? (fun c => c = 0) with
    | some n => .ok n
    | none => .error .outOfRange
  else .error .outOfRange

/-- The loop; `stop` is called `end` in the source. -/
def exchanges (m : Memory) (begin stop : Int) : Except Fault Memory :=
  if begin < stop then do
    let temp ← read m.bytes begin
    let last ← read m.bytes stop
    let bytes ← write m.bytes begin last
    let bytes ← write bytes stop temp
    exchanges ⟨bytes, m.dereferenced ++ [begin, stop, begin, stop]⟩ (begin + 1) (stop - 1)
  else .ok m
termination_by (stop - begin).toNat

/-- The memory as it is left, for the string at the place `cha`. -/
def charReverse (bytes : List Int8) (cha : Int) : Except Fault Memory := do
  let begin := cha
  let n ← strlen bytes cha
  let stop := cha + n - 1
  exchanges ⟨bytes, []⟩ begin stop

theorem strlen_ok (s : CString) (before after : List Int8) :
    strlen (before ++ s.chars ++ 0 :: after) before.length = .ok s.chars.length := by
  have hdrop : (before ++ s.chars ++ 0 :: after).drop before.length = s.chars ++ 0 :: after := by
    rw [List.append_assoc, List.drop_left]
  have hfind : (s.chars ++ 0 :: after).findIdx? (fun c => decide (c = 0)) =
      some s.chars.length := by
    rw [List.findIdx?_append, List.findIdx?_eq_none_iff.mpr ?_]
    · simp [List.findIdx?_cons]
    · intro c hc
      simpa using s.terminated c hc
  rw [strlen, if_pos (Int.natCast_nonneg _), Int.toNat_natCast, hdrop, hfind]

/-- A round exchanges the bytes that the two pointers point to. -/
theorem exchanges_step (pre mid post : List Int8) (c d : Int8) (used : List Int)
    {begin stop : Int} (hbegin : begin = pre.length) (hstop : stop = (pre ++ c :: mid).length) :
    exchanges ⟨pre ++ c :: mid ++ d :: post, used⟩ begin stop =
      exchanges ⟨pre ++ d :: mid ++ c :: post, used ++ [begin, stop, begin, stop]⟩
        (begin + 1) (stop - 1) := by
  have hlt : begin < stop := by
    rw [List.length_append, List.length_cons] at hstop
    omega
  have hround : exchanges ⟨pre ++ c :: mid ++ d :: post, used⟩ begin stop =
      swap (pre ++ c :: mid ++ d :: post) begin stop >>= fun bytes =>
        exchanges ⟨bytes, used ++ [begin, stop, begin, stop]⟩ (begin + 1) (stop - 1) := by
    rw [exchanges, if_pos hlt]
    simp only [swap_eq, bind_assoc]
  rw [hround, (swap_mid pre mid post c d hbegin hstop).1, ok_bind]

/-- The loop turns round the bytes between the two pointers, and dereferences no others. -/
theorem exchanges_ok (pre mid post : List Int8) (used : List Int) (begin stop : Int)
    (hbegin : begin = pre.length) (hstop : stop = pre.length + mid.length - 1) :
    ∃ used', exchanges ⟨pre ++ mid ++ post, used⟩ begin stop =
        .ok ⟨pre ++ mid.reverse ++ post, used'⟩ ∧
      ∀ a ∈ used', a ∈ used ∨ (pre.length ≤ a ∧ a < (pre ++ mid).length) := by
  -- The pointers come together by one byte from either end, so the induction takes both off.
  induction mid using List.bidirectionalRec generalizing pre post used begin stop with
  | nil =>
    rw [List.length_nil] at hstop
    rw [exchanges, if_neg (by omega)]
    exact ⟨used, rfl, fun a ha => Or.inl ha⟩
  | singleton c =>
    rw [List.length_singleton] at hstop
    rw [exchanges, if_neg (by omega)]
    exact ⟨used, rfl, fun a ha => Or.inl ha⟩
  | cons_append c mid d ih =>
    simp only [List.length_cons, List.length_append, List.length_nil] at hstop
    have hplace : stop = (pre ++ c :: mid).length := by
      rw [List.length_append, List.length_cons]
      omega
    have hsplit : pre ++ (c :: (mid ++ [d])) ++ post = pre ++ c :: mid ++ d :: post := by simp
    have hnext : pre ++ d :: mid ++ c :: post = pre ++ [d] ++ mid ++ c :: post := by simp
    obtain ⟨used', hrest, hinside⟩ := ih (pre ++ [d]) (c :: post)
      (used ++ [begin, stop, begin, stop]) (begin + 1) (stop - 1)
      (by simp [hbegin]) (by rw [List.length_append, List.length_singleton]; omega)
    refine ⟨used', ?_, ?_⟩
    · rw [hsplit, exchanges_step pre mid post c d used hbegin hplace, hnext, hrest]
      simp
    · intro a ha
      simp only [List.length_append, List.length_cons, List.length_nil] at hinside ⊢
      rcases hinside a ha with hmem | hrange
      · rcases List.mem_append.mp hmem with hold | hnow
        · exact Or.inl hold
        · simp only [List.mem_cons, List.not_mem_nil, or_false] at hnow
          omega
      · omega

/-- The bytes in front of the terminator are turned round, all others stay, no pointer
outside of the string is dereferenced, and a second call restores the string. -/
theorem charReverse_ok (s : CString) (before after : List Int8) :
    ∃ used, charReverse (before ++ s.chars ++ 0 :: after) before.length =
        .ok ⟨before ++ s.chars.reverse ++ 0 :: after, used⟩ ∧
      (∀ a ∈ used, before.length ≤ a ∧ a < (before ++ s.chars).length) ∧
      ∃ used', charReverse (before ++ s.chars.reverse ++ 0 :: after) before.length =
        .ok ⟨before ++ s.chars ++ 0 :: after, used'⟩ := by
  have hcall : ∀ s : CString, ∃ used, charReverse (before ++ s.chars ++ 0 :: after) before.length =
        .ok ⟨before ++ s.chars.reverse ++ 0 :: after, used⟩ ∧
      ∀ a ∈ used, before.length ≤ a ∧ a < (before ++ s.chars).length := by
    intro s
    obtain ⟨used, hrun, hinside⟩ := exchanges_ok before s.chars (0 :: after) [] _ _ rfl rfl
    refine ⟨used, ?_, ?_⟩
    · rw [charReverse, strlen_ok, ok_bind, hrun]
    · intro a ha
      exact (hinside a ha).resolve_left List.not_mem_nil
  obtain ⟨used, hrun, hinside⟩ := hcall s
  have hreversed : ∀ c ∈ s.chars.reverse, c ≠ 0 :=
    fun c hc => s.terminated c (List.mem_reverse.mp hc)
  obtain ⟨used', hagain, _⟩ := hcall ⟨s.chars.reverse, hreversed⟩
  rw [List.reverse_reverse] at hagain
  exact ⟨used, hrun, hinside, used', hagain⟩

end BasicDemo.LeetCode.CharReverse
