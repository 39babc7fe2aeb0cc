import BasicDemo.LeetCode.ValidParentheses

namespace BasicDemo.LeetCode.ParenthesesBlock
open Library.Nesting ValidParentheses

/-- `isValid` keeps to the block of `strlen(s)` bytes, never lets `top` fall below
zero, and frees only the pointer that `malloc` returned. -/
structure SafeUse (memory : Int → Int8) (s : CString) : Prop where
  inside : ∀ a ∈ (isValid memory (some s)).accesses, 0 ≤ a ∧ a < s.chars.length
  nonnegative : ∀ k, 0 ≤ (scan ⟨memory, 0, []⟩ (s.chars.take k)).1.top
  returned : ∀ p, (isValid memory (some s)).freed = some p → p = 0

/-- A closing bracket at which the loop returns, over the brackets that wait. -/
def Stuck (memory : Int → Int8) : List Int8 → Int8 → Prop
  | [], c => follows (memory (offset 0)) c = false
  | o :: _, c => (o, c) ∉ bracketPairs

theorem scan_append {m : Machine} {p : List Int8} (h : (scan m p).2 = true) (w : List Int8) :
    scan m (p ++ w) = scan (scan m p).1 w := by
  fun_induction scan m p with
  | case1 m => rfl
  | case2 m c rest hc ih =>
    rw [List.cons_append, scan, if_pos hc]
    exact ih h
  | case3 m c rest hc hfollows ih =>
    rw [List.cons_append, scan, if_neg hc, if_pos hfollows]
    exact ih h
  | case4 => cases h

/-- A scan that returns from within does so at some closing character. -/
theorem scan_stops {m : Machine} {w : List Int8} (h : (scan m w).2 = false) :
    ∃ p c rest, w = p ++ c :: rest ∧ (scan m p).2 = true ∧ opening c = false ∧
      follows (scan m p).1.peek c = false := by
  fun_induction scan m w with
  | case1 => cases h
  | case2 m c rest hc ih =>
    obtain ⟨p, d, tail, rfl, hp, hd, hstuck⟩ := ih h
    refine ⟨c :: p, d, tail, rfl, ?_, hd, ?_⟩
    · rwa [scan, if_pos hc]
    · rwa [scan, if_pos hc]
  | case3 m c rest hc hfollows ih =>
    obtain ⟨p, d, tail, rfl, hp, hd, hstuck⟩ := ih h
    refine ⟨c :: p, d, tail, rfl, ?_, hd, ?_⟩
    · rwa [scan, if_neg hc, if_pos hfollows]
    · rwa [scan, if_neg hc, if_pos hfollows]
  | case4 m c rest hc hfollows =>
    exact ⟨[], c, rest, rfl, rfl, by simpa using hc, by simpa [scan] using hfollows⟩

theorem scan_stuck {m : Machine} {p rest : List Int8} {c : Int8} (hp : (scan m p).2 = true)
    (hc : opening c = false) (hstuck : follows (scan m p).1.peek c = false) :
    scan m (p ++ c :: rest) = ((scan m p).1.look, false) := by
  rw [scan_append hp, scan, if_neg (by simp [hc]), if_neg (by simp [hstuck])]

theorem scan_initial {m : Machine} {u v : List Int8} (h : (scan m (u ++ v)).2 = true) :
    (scan m u).2 = true := by
  by_contra hu
  obtain ⟨p, c, rest, rfl, hp, hc, hstuck⟩ := scan_stops (Bool.not_eq_true _ ▸ hu)
  rw [List.append_assoc, List.cons_append, scan_stuck hp hc hstuck] at h
  cases h

/-- The cells used are `stack[top]` for the values that `top` goes through. -/
theorem scan_accesses {m : Machine} {w : List Int8} {a : Int} (h : a ∈ (scan m w).1.accesses) :
    a ∈ m.accesses ∨ ∃ k, a = offset (scan m (w.take k)).1.top := by
  fun_induction scan m w with
  | case1 => exact Or.inl h
  | case2 m c rest hc ih =>
    rcases ih h with hbefore | ⟨k, hk⟩
    · rcases List.mem_append.mp hbefore with hbefore | hnow
      · exact Or.inl hbefore
      · refine Or.inr ⟨1, ?_⟩
        rw [List.mem_singleton.mp hnow, List.take_succ_cons, List.take_zero, scan, if_pos hc]
        rfl
    · exact Or.inr ⟨k + 1, by rw [hk, List.take_succ_cons, scan, if_pos hc]⟩
  | case3 m c rest hc hfollows ih =>
    rcases ih h with hbefore | ⟨k, hk⟩
    · rcases List.mem_append.mp hbefore with hbefore | hnow
      · exact Or.inl hbefore
      · exact Or.inr ⟨0, List.mem_singleton.mp hnow⟩
    · refine Or.inr ⟨k + 1, ?_⟩
      rw [hk, List.take_succ_cons, scan, if_neg hc, if_pos hfollows]
  | case4 m c rest hc hfollows =>
    rcases List.mem_append.mp h with hbefore | hnow
    · exact Or.inl hbefore
    · exact Or.inr ⟨0, List.mem_singleton.mp hnow⟩

theorem scan_top_le (m : Machine) (w : List Int8) :
    (scan m w).1.top ≤ m.top + w.countP opening := by
  fun_induction scan m w with
  | case1 m => simp
  | case2 m c rest hc ih =>
    rw [List.countP_cons_of_pos hc]
    simp only [Machine.push] at ih ⊢
    omega
  | case3 m c rest hc hfollows ih =>
    rw [List.countP_cons_of_neg hc]
    refine Int.le_trans ih ?_
    simp only
    omega
  | case4 m c rest hc hfollows =>
    simp only [Machine.look]
    omega

theorem scan_opening {m : Machine} {w : List Int8} (h : ∀ c ∈ w, opening c = true) :
    (scan m w).1.top = m.top + w.length := by
  induction w generalizing m with
  | nil => simp [scan]
  | cons c w ih =>
    rw [scan, if_pos (h c List.mem_cons_self), ih (fun d hd => h d (List.mem_cons_of_mem c hd)),
      List.length_cons]
    simp only [Machine.push]
    omega

/-- A part of the string that cancels without a partnerless closing character is
read to its end. -/
theorem scan_reduced (memory : Int → Int8) {p pending : List Int8}
    (hr : codes.reduce [] [] p = some ([], pending)) :
    (scan ⟨memory, 0, []⟩ p).2 = true ∧
      Represents memory [] pending (scan ⟨memory, 0, []⟩ p).1 := by
  have hstart := represents_start memory
  have hend := reduce_scans hstart hr hstart.matched
  obtain ⟨sunk, pending', hr', hm⟩ := scan_reduces hstart hend
  cases hr.symm.trans hr'
  exact ⟨hend, hm⟩

theorem scan_reduced_nonnegative (memory : Int → Int8) {p pending : List Int8}
    (hr : codes.reduce [] [] p = some ([], pending)) (k : Nat) :
    0 ≤ (scan ⟨memory, 0, []⟩ (p.take k)).1.top := by
  rw [← List.take_append_drop k p, reduce_append] at hr
  obtain ⟨⟨sunk, waiting⟩, hk, hrest⟩ := Option.bind_eq_some_iff.mp hr
  obtain ⟨more, hmore⟩ := reduce_grows hrest
  obtain ⟨rfl, -⟩ := List.append_eq_nil_iff.mp hmore.symm
  have htop := (scan_reduced memory hk).2.top
  rw [htop]
  simp

/-- If `top` never falls below zero, every closing character read had a partner. -/
theorem reduces_of_nonnegative {memory : Int → Int8} {p : List Int8}
    (hend : (scan ⟨memory, 0, []⟩ p).2 = true)
    (htop : ∀ k, 0 ≤ (scan ⟨memory, 0, []⟩ (p.take k)).1.top) :
    ∃ pending, codes.reduce [] [] p = some ([], pending) := by
  obtain ⟨sunk, pending, hr, hm⟩ := scan_reduces (represents_start memory) hend
  by_cases hsunk : sunk = []
  · exact ⟨pending, by rw [hr, hsunk]⟩
  · -- after the first partnerless closing character `top` is -1
    obtain ⟨u, v, c, rfl, hu⟩ := reduce_first_sunk hr hsunk
    obtain ⟨sunk', pending', hu', hm'⟩ :=
      scan_reduces (represents_start memory) (scan_initial hend)
    cases hu.symm.trans hu'
    have hneg := htop u.length
    rw [List.take_left, hm'.top] at hneg
    simp at hneg

theorem opening_mem_letters {c : Int8} (h : opening c = true) : c ∈ letters := by
  simp only [opening, Bool.or_eq_true, decide_eq_true_eq] at h
  rcases h with (rfl | rfl) | rfl <;> decide

/-- The loop returns at a bracket exactly if it is stuck there. -/
theorem stuck_iff {memory : Int → Int8} {pending : List Int8} {m : Machine} {c : Int8}
    (h : Represents memory [] pending m) (hc : c ∈ letters) (hclose : opening c = false) :
    Stuck memory pending c ↔ follows m.peek c = false := by
  cases pending with
  | nil => simp [Stuck, h.peek_nil]
  | cons o pending =>
    have ho := h.openers o List.mem_cons_self
    rw [h.peek_cons, ← codes_pairs ho hclose,
      codes_pairs_letters o (opening_mem_letters ho) c hc]
    simp [Stuck, brackets]

section Outcomes
variable (memory : Int → Int8) {s : CString} (hne : s.chars ≠ [])
  (heven : s.chars.length % 2 = 0)
include hne heven

theorem isValid_accesses : (isValid memory (some s)).accesses =
    (scan ⟨memory, 0, []⟩ s.chars).1.accesses := by
  simp only [isValid, if_neg hne, heven, gt_iff_lt, Nat.lt_irrefl, if_false]
  split <;> rename_i m hscan <;> rw [hscan]

theorem isValid_freed : (isValid memory (some s)).freed =
    if (scan ⟨memory, 0, []⟩ s.chars).2 then some (offset 0) else none := by
  simp only [isValid, if_neg hne, heven, gt_iff_lt, Nat.lt_irrefl, if_false]
  split <;> rename_i m hscan <;> rw [hscan] <;> rfl

variable {memory}

/-- A string read to its end frees a pointer that was not allocated. -/
theorem SafeUse.returns (h : SafeUse memory s) :
    (scan ⟨memory, 0, []⟩ s.chars).2 = false := by
  by_contra hend
  have hfreed := isValid_freed memory hne heven
  rw [if_pos (by simpa using hend)] at hfreed
  cases h.returned _ hfreed

/-- With opening brackets only, `top` is one less than the length when the last bracket
is compared. -/
theorem SafeUse.exists_closing (h : SafeUse memory s) {p rest : List Int8} {c : Int8}
    (hsplit : s.chars = p ++ c :: rest) (hp : (scan ⟨memory, 0, []⟩ p).2 = true)
    (hc : opening c = false) (hstuck : follows (scan ⟨memory, 0, []⟩ p).1.peek c = false) :
    ∃ d ∈ s.chars.dropLast, opening d = false := by
  cases rest with
  | nil =>
    by_contra hall
    simp only [not_exists, not_and, Bool.not_eq_false, hsplit, List.dropLast_concat] at hall
    have htop := scan_opening (m := ⟨memory, 0, []⟩) hall
    have haccess : offset (scan ⟨memory, 0, []⟩ p).1.top ∈
        (isValid memory (some s)).accesses := by
      rw [isValid_accesses memory hne heven, hsplit, scan_stuck hp hc hstuck]
      exact List.mem_append_right _ List.mem_cons_self
    have hlt := (h.inside _ haccess).2
    rw [htop, hsplit, List.length_append, List.length_singleton] at hlt
    simp only [offset] at hlt
    omega
  | cons e rest => exact ⟨c, by simp [hsplit], hc⟩

end Outcomes

/-- What becomes of `top` when the loop returns at `c`. -/
theorem top_stuck {m : Machine} {p : List Int8} {c : Int8} (hp : (scan m p).2 = true)
    (hc : opening c = false) (hstuck : follows (scan m p).1.peek c = false)
    (rest : List Int8) (k : Nat) :
    (scan m ((p ++ c :: rest).take k)).1.top = (scan m (p.take k)).1.top := by
  rw [List.take_append]
  by_cases hk : k ≤ p.length
  · rw [Nat.sub_eq_zero_of_le hk, List.take_zero, List.append_nil]
  · obtain ⟨j, hj⟩ := Nat.exists_eq_add_of_lt (Nat.lt_of_not_le hk)
    have hrest : k - p.length = j + 1 := by omega
    rw [List.take_of_length_le (by omega), hrest, List.take_succ_cons,
      scan_stuck hp hc hstuck]
    rfl

theorem openings_before {p rest : List Int8} {c d : Int8} (hd : d ∈ (p ++ c :: rest).dropLast)
    (hclose : opening d = false) : p.countP opening + 2 ≤ (p ++ c :: rest).length := by
  have hle : p.countP opening ≤ p.length := List.countP_le_length
  cases rest with
  | nil =>
    rw [List.dropLast_concat] at hd
    have hne : p.countP opening ≠ p.length := by
      intro heq
      rw [List.countP_eq_length.mp heq d hd] at hclose
      cases hclose
    simp only [List.length_append, List.length_cons, List.length_nil]
    omega
  | cons e rest =>
    simp only [List.length_append, List.length_cons]
    omega

/-- Where `top` stays until the loop returns at `c`. -/
theorem top_bounds (memory : Int → Int8) {p rest pending : List Int8} {c d : Int8}
    (hr : codes.reduce [] [] p = some ([], pending)) (hc : opening c = false)
    (hstuck : follows (scan ⟨memory, 0, []⟩ p).1.peek c = false)
    (hd : d ∈ (p ++ c :: rest).dropLast) (hclose : opening d = false) (k : Nat) :
    0 ≤ (scan ⟨memory, 0, []⟩ ((p ++ c :: rest).take k)).1.top ∧
      (scan ⟨memory, 0, []⟩ ((p ++ c :: rest).take k)).1.top + 2 ≤ (p ++ c :: rest).length := by
  have hlow := scan_reduced_nonnegative memory hr k
  have hhigh := scan_top_le ⟨memory, 0, []⟩ (p.take k)
  have hcount : (p.take k).countP opening ≤ p.countP opening :=
    (List.take_sublist k p).countP_le
  have hroom := openings_before hd hclose
  rw [top_stuck (scan_reduced memory hr).1 hc hstuck]
  simp only at hhigh
  omega

/-- The block is used safely exactly if the loop returns at some closing bracket: all
closing brackets before it had partners, and the brackets but the last are not all
opening ones. A string read to its end is never used safely, since the pointer freed
is then not the one allocated. -/
theorem safeUse_iff (memory : Int → Int8) (s : CString) (hne : s.chars ≠ [])
    (heven : s.chars.length % 2 = 0) (hs : ∀ c ∈ s.chars, c ∈ letters) :
    SafeUse memory s ↔
      (∃ p c rest pending, s.chars = p ++ c :: rest ∧
        brackets.reduce [] [] p = some ([], pending) ∧ opening c = false ∧
        Stuck memory pending c) ∧
      ∃ c ∈ s.chars.dropLast, opening c = false := by
  constructor
  · intro h
    obtain ⟨p, c, rest, hsplit, hp, hc, hstuck⟩ := scan_stops (h.returns hne heven)
    have hletters : ∀ d ∈ p, d ∈ letters := fun d hd => hs d (by simp [hsplit, hd])
    have htop : ∀ k, 0 ≤ (scan ⟨memory, 0, []⟩ (p.take k)).1.top := by
      intro k
      rw [← top_stuck hp hc hstuck rest, ← hsplit]
      exact h.nonnegative k
    obtain ⟨pending, hr⟩ := reduces_of_nonnegative hp htop
    refine ⟨⟨p, c, rest, pending, hsplit, ?_, hc, ?_⟩,
      h.exists_closing hne heven hsplit hp hc hstuck⟩
    · rwa [reduce_codes hletters] at hr
    · exact (stuck_iff (scan_reduced memory hr).2 (hs c (by simp [hsplit])) hc).mpr hstuck
  · rintro ⟨⟨p, c, rest, pending, hsplit, hr, hc, hstuck⟩, d, hd, hclose⟩
    have hletters : ∀ d ∈ p, d ∈ letters := fun d hd => hs d (by simp [hsplit, hd])
    rw [← reduce_codes hletters] at hr
    obtain ⟨hp, hm⟩ := scan_reduced memory hr
    rw [stuck_iff hm (hs c (by simp [hsplit])) hc] at hstuck
    rw [hsplit] at hd
    have htop := top_bounds memory hr hc hstuck hd hclose
    rw [← hsplit] at htop
    refine ⟨?_, fun k => (htop k).1, ?_⟩
    · intro a ha
      rw [isValid_accesses memory hne heven] at ha
      rcases scan_accesses ha with hnone | ⟨k, rfl⟩
      · cases hnone
      · have hk := htop k
        unfold offset
        omega
    · intro q hq
      rw [isValid_freed memory hne heven, hsplit, scan_stuck hp hc hstuck] at hq
      cases hq

def mixedPairs : CString :=
  bracketString [ascii '(', ascii ']', ascii '(', ascii ')'] (forall_mem_of_all (by decide))

theorem safeUse_mixed : SafeUse (fun _ => 0) mixedPairs := by
  have hstuck : Stuck (fun _ => 0) [ascii '('] (ascii ']') := by
    unfold Stuck
    decide
  apply (safeUse_iff (fun _ => 0) mixedPairs (by decide) (by decide)
    (forall_mem_of_all (by decide))).mpr
  exact ⟨⟨[ascii '('], ascii ']', [ascii '(', ascii ')'], [ascii '('], by decide, by decide,
    by decide, hstuck⟩, ascii ']', by decide, by decide⟩

def onePair : CString := bracketString [ascii '(', ascii ')'] (forall_mem_of_all (by decide))

/-- The first push of `()` goes past its block of two bytes, and the pointer freed is
not the one allocated. -/
theorem one_pair_unsafe :
    2 ∈ (isValid (fun _ => 0) (some onePair)).accesses ∧ onePair.chars.length = 2 ∧
    (isValid (fun _ => 0) (some onePair)).freed = some 1 ∧
    ¬ SafeUse (fun _ => 0) onePair := by
  have haccess : 2 ∈ (isValid (fun _ => 0) (some onePair)).accesses := by decide
  refine ⟨haccess, rfl, by decide, ?_⟩
  intro h
  exact absurd (h.inside 2 haccess).2 (by decide)

end BasicDemo.LeetCode.ParenthesesBlock
