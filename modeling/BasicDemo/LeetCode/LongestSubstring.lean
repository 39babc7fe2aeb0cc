import BasicDemo.Library.Arrays
import Mathlib.Data.List.Infix
import Mathlib.Data.List.Nodup
import Mathlib.Order.Bounds.Basic
import Mathlib.Order.MinMax

namespace BasicDemo.LeetCode.LongestSubstring
open Library.Loops Library.Arrays

/-- One comparison of the inner loop; a `break` leaves it with the new value of `i`. -/
def compare (str : List UInt16) (j k i : Nat) : Except Fault (Round Nat Nat) := do
  let str1 ← read str k
  let str2 ← read str j
  if str1 = str2 then return .leave (k + 1) else return .next i

/-- One round of the outer loop, on `i` and `max`. -/
def extend (str : List UInt16) (j : Nat) (s : Nat × Int) : Except Fault (Nat × Int) := do
  let i ← forLoopUntil s.1 j s.1 (compare str j)
  let i := i.value
  if (j : Int) - i + 1 > s.2 then return (i, j - i + 1) else return (i, s.2)

/-- A string is the sequence of its UTF-16 units. -/
def lengthOfLongestSubstring (str : List UInt16) : Except Fault Int := do
  let s ← forLoop 0 str.length (0, 0) (extend str)
  return s.2

namespace Notes

/-- One round of `allUnique`, on the set of characters seen. -/
def check (s : List UInt16) (i : Nat) (set : List UInt16) :
    Except Fault (Round Bool (List UInt16)) := do
  let ch ← read s i
  if ch ∈ set then return .leave false else return .next (ch :: set)

/-- `stop` is called `end` in the notes. -/
def allUnique (s : List UInt16) (start stop : Nat) : Except Fault Bool := do
  match ← forLoopUntil start stop [] (check s) with
  | .leave b => return b
  | .next _ => return true

def measure (s : List UInt16) (i j : Nat) (ans : Int) : Except Fault Int := do
  if ← allUnique s i j then return max ans (j - i) else return ans

/-- The exhaustive search of the exercise notes. -/
def lengthOfLongestSubstring (s : List UInt16) : Except Fault Int :=
  forLoop 0 s.length 0 (fun i ans => forLoop (i + 1) (s.length + 1) ans (measure s i))

end Notes

section Blocks

variable {α : Type*}

/-- The lengths of the blocks of `l` without a repetition. -/
def blockLengths (l : List α) : Set Int :=
  {n | ∃ block, block <:+: l ∧ block.Nodup ∧ (block.length : Int) = n}

/-- `w` is the longest block at the end of `l` without a repetition. -/
structure LongestTail (l w : List α) : Prop where
  tail : w <:+ l
  nodup : w.Nodup
  longest : ∀ t, t <:+ l → t.Nodup → t.length ≤ w.length

theorem longestTail_nil : LongestTail ([] : List α) [] :=
  ⟨List.suffix_refl _, List.nodup_nil, fun t ht _ => by simp [List.suffix_nil.mp ht]⟩

theorem nodup_concat_iff {l : List α} {c : α} : (l ++ [c]).Nodup ↔ c ∉ l ∧ l.Nodup := by
  rw [List.nodup_append_comm]
  exact List.nodup_cons

/-- One element more that the tail does not have. -/
theorem LongestTail.keep {l w : List α} {c : α} (h : LongestTail l w) (hc : c ∉ w) :
    LongestTail (l ++ [c]) (w ++ [c]) := by
  refine ⟨List.suffix_concat_iff.mpr (Or.inr ⟨w, rfl, h.tail⟩),
    nodup_concat_iff.mpr ⟨hc, h.nodup⟩, ?_⟩
  intro t ht hnodup
  rcases List.suffix_concat_iff.mp ht with rfl | ⟨t', rfl, ht'⟩
  · simp
  · have hlen := h.longest t' ht' (nodup_concat_iff.mp hnodup).2
    rw [List.length_append, List.length_append]
    omega

/-- One element more that the tail has: what is behind it stays. -/
theorem LongestTail.cut {l w w' : List α} {c : α} (h : LongestTail l (w ++ c :: w')) :
    LongestTail (l ++ [c]) (w' ++ [c]) := by
  have htail : c :: w' <:+ l := (List.suffix_append w (c :: w')).trans h.tail
  have hw' : c ∉ w' ∧ w'.Nodup := List.nodup_cons.mp (List.nodup_append.mp h.nodup).2.1
  refine ⟨List.suffix_concat_iff.mpr (Or.inr ⟨w', rfl, (List.suffix_cons c w').trans htail⟩),
    nodup_concat_iff.mpr hw', ?_⟩
  intro t ht hnodup
  rcases List.suffix_concat_iff.mp ht with rfl | ⟨t', rfl, ht'⟩
  · simp
  · have hlen : t'.length ≤ w'.length := by
      by_contra hlong
      have hsub := List.suffix_of_suffix_length_le htail ht' (Nat.not_le.mp hlong)
      exact (nodup_concat_iff.mp hnodup).1 (hsub.subset List.mem_cons_self)
    rw [List.length_append, List.length_append]
    omega

/-- The blocks of a longer list are those of the shorter one and the new tails. -/
theorem LongestTail.greatest {l w : List α} {c : α} {m : Int}
    (h : IsGreatest (blockLengths l) m) (hw : LongestTail (l ++ [c]) w) :
    IsGreatest (blockLengths (l ++ [c])) (max m w.length) := by
  constructor
  · rcases max_choice m (w.length : Int) with hm | hm
    · rw [hm]
      obtain ⟨block, hblock, hrest⟩ := h.1
      exact ⟨block, List.infix_concat_iff.mpr (Or.inr hblock), hrest⟩
    · rw [hm]
      exact ⟨w, hw.tail.isInfix, hw.nodup, rfl⟩
  · intro n ⟨block, hblock, hnodup, hn⟩
    rcases List.infix_concat_iff.mp hblock with htail | hinfix
    · have := hw.longest block htail hnodup
      omega
    · have := h.2 ⟨block, hinfix, hnodup, hn⟩
      omega

end Blocks

/-- The state before round `j`: the window is the longest tail of what was read. -/
def Window (str : List UInt16) (j : Nat) (s : Nat × Int) : Prop :=
  ∃ front window rest, str = front ++ window ++ rest ∧ front.length = s.1 ∧
    (front ++ window).length = j ∧ LongestTail (front ++ window) window ∧
    IsGreatest (blockLengths (front ++ window)) s.2

/-- The inner loop before round `k`: the unit `c` has not been found. -/
def Unseen (front window : List UInt16) (c : UInt16) (i k s : Nat) : Prop :=
  s = i ∧ ∃ w w', window = w ++ w' ∧ (front ++ w).length = k ∧ c ∉ w

theorem Unseen.step {front window rest : List UInt16} {c : UInt16} {i j k s : Nat}
    (h : Unseen front window c i k s) (hj : (front ++ window).length = j) (hk : k < j) :
    (∃ t, compare (front ++ window ++ c :: rest) j k s = .ok (.next t) ∧
      Unseen front window c i (k + 1) t) ∨
    ∃ r, compare (front ++ window ++ c :: rest) j k s = .ok (.leave r) ∧
      ∃ w w', window = w ++ c :: w' ∧ r = (front ++ w ++ [c]).length := by
  obtain ⟨rfl, w, w', rfl, rfl, hc⟩ := h
  cases w' with
  | nil =>
    rw [List.append_nil] at hj
    omega
  | cons d w' =>
    have hshape : front ++ (w ++ d :: w') ++ c :: rest = front ++ w ++ d :: (w' ++ c :: rest) := by
      simp
    have hfirst : read (front ++ (w ++ d :: w') ++ c :: rest) (front ++ w).length = .ok d := by
      rw [hshape]
      exact read_mid rfl
    have hsecond : read (front ++ (w ++ d :: w') ++ c :: rest) j = .ok c :=
      read_mid (congrArg Int.ofNat hj.symm)
    rw [compare, hfirst, ok_bind, hsecond, ok_bind]
    by_cases hdc : d = c
    · subst hdc
      exact Or.inr ⟨_, if_pos rfl, w, w', rfl,
        by simp only [List.length_append, List.length_singleton]⟩
    · refine Or.inl ⟨_, if_neg hdc, rfl, w ++ [d], w', by simp, ?_, ?_⟩
      · rw [← List.append_assoc]
        exact List.length_append
      · intro hm
        rcases List.mem_append.mp hm with hm | hm
        · exact hc hm
        · exact hdc (List.mem_singleton.mp hm).symm

/-- The inner loop looks for the unit `c` in the window. -/
theorem compare_loop (front window rest : List UInt16) (c : UInt16) {i j : Nat}
    (hi : front.length = i) (hj : (front ++ window).length = j) :
    (forLoopUntil i j i (compare (front ++ window ++ c :: rest) j) = .ok (.next i) ∧ c ∉ window) ∨
      ∃ w w', window = w ++ c :: w' ∧
        forLoopUntil i j i (compare (front ++ window ++ c :: rest) j) =
          .ok (.leave (front ++ w ++ [c]).length) := by
  have hstart : Unseen front window c i i i := ⟨rfl, [], window, rfl, by simpa using hi, by simp⟩
  have hij : i + ((j : Int) - i).toNat = j := by
    rw [List.length_append] at hj
    omega
  have hloop : (∃ t, forLoopUntil i j i (compare (front ++ window ++ c :: rest) j) =
        .ok (.next t) ∧ Unseen front window c i j t) ∨
      ∃ r, forLoopUntil i j i (compare (front ++ window ++ c :: rest) j) = .ok (.leave r) ∧
        ∃ w w', window = w ++ c :: w' ∧ r = (front ++ w ++ [c]).length :=
    forLoopUntil_ok hij _ _ hstart (fun k s _ hk hs => hs.step hj hk)
  rcases hloop with ⟨t, ht, rfl, w, w', rfl, hlen, hc⟩ | ⟨r, hr, w, w', hwindow, rfl⟩
  · obtain rfl : w' = [] := by
      simp only [List.length_append] at hj hlen
      exact List.length_eq_zero_iff.mp (by omega)
    exact Or.inl ⟨ht, by simpa using hc⟩
  · exact Or.inr ⟨w, w', hwindow, hr⟩

/-- After the inner loop the window is the longest tail again. -/
theorem compare_window (front window rest : List UInt16) (c : UInt16) {i j : Nat}
    (hi : front.length = i) (hj : (front ++ window).length = j)
    (h : LongestTail (front ++ window) window) :
    ∃ r front' window', forLoopUntil i j i (compare (front ++ window ++ c :: rest) j) = .ok r ∧
      r.value = front'.length ∧ front' ++ window' = front ++ window ++ [c] ∧
      LongestTail (front ++ window ++ [c]) window' := by
  rcases compare_loop front window rest c hi hj with ⟨hloop, hc⟩ | ⟨w, w', rfl, hloop⟩
  · exact ⟨_, front, window ++ [c], hloop, hi.symm, by simp, h.keep hc⟩
  · exact ⟨_, front ++ w ++ [c], w' ++ [c], hloop, rfl, by simp, h.cut⟩

theorem Window.step {str : List UInt16} {j : Nat} {s : Nat × Int} (h : Window str j s)
    (hj : j < str.length) : ∃ t, extend str j s = .ok t ∧ Window str (j + 1) t := by
  obtain ⟨i, longest⟩ := s
  obtain ⟨front, window, rest, rfl, hi, hlen, htail, hgreatest⟩ := h
  simp only at hi hgreatest
  cases rest with
  | nil =>
    rw [List.append_nil] at hj
    omega
  | cons c rest =>
    obtain ⟨r, front', window', hloop, hr, hsplit, htail'⟩ :=
      compare_window front window rest c hi hlen htail
    have hlen' : (front' ++ window').length = j + 1 := by
      rw [hsplit, ← hlen]
      exact List.length_append
    have hsize : (j : Int) - front'.length + 1 = window'.length := by
      rw [List.length_append] at hlen'
      omega
    refine ⟨(front'.length, max longest window'.length), ?_, front', window', rest, ?_, rfl, hlen',
      ?_, ?_⟩
    · simp only [extend, hloop, ok_bind, hr, hsize]
      split
      · rw [max_eq_right (by omega)]
        rfl
      · rw [max_eq_left (by omega)]
        rfl
    · rw [hsplit]
      simp
    · rw [hsplit]
      exact htail'
    · rw [hsplit]
      exact htail'.greatest hgreatest

theorem lengthOfLongestSubstring_ok (str : List UInt16) :
    ∃ m, lengthOfLongestSubstring str = .ok m ∧ IsGreatest (blockLengths str) m := by
  have hnone : IsGreatest (blockLengths ([] : List UInt16)) 0 := by
    refine ⟨⟨[], List.infix_refl _, List.nodup_nil, rfl⟩, ?_⟩
    intro n ⟨block, hblock, _, hn⟩
    rw [← hn, List.infix_nil.mp hblock]
    rfl
  have hloop : ∃ s, forLoop 0 str.length (0, 0) (extend str) = .ok s ∧
      Window str str.length s :=
    forLoop_ok (by omega) _ ⟨[], [], str, rfl, rfl, rfl, longestTail_nil, hnone⟩
      (fun j s _ hj hs => hs.step hj)
  obtain ⟨s, hs, front, window, rest, rfl, _, hlen, _, hgreatest⟩ := hloop
  obtain rfl : rest = [] := by
    simp only [List.length_append] at hlen
    exact List.length_eq_zero_iff.mp (by omega)
  rw [List.append_nil] at hs ⊢
  exact ⟨s.2, by rw [lengthOfLongestSubstring, hs]; rfl, hgreatest⟩

namespace Notes

/-- The units from `i` up to `j`. -/
def block (s : List UInt16) (i j : Nat) : List UInt16 := (s.take j).drop i

theorem block_self (s : List UInt16) (i : Nat) : block s i i = [] :=
  List.drop_of_length_le (by rw [List.length_take]; omega)

theorem block_succ {s : List UInt16} {i j : Nat} (hij : i ≤ j) (hj : j < s.length) :
    block s i (j + 1) = block s i j ++ [s[j]] := by
  rw [block, List.take_add_one, List.getElem?_eq_getElem hj,
    List.drop_append_of_le_length (by rw [List.length_take]; omega)]
  rfl

/-- The set holds the units read, all different. -/
def Distinct (s : List UInt16) (i k : Nat) (set : List UInt16) : Prop :=
  (block s i k).Nodup ∧ ∀ c, c ∈ set ↔ c ∈ block s i k

/-- A longer block has the repetitions of a shorter one. -/
theorem nodup_block {s : List UInt16} {i k j : Nat} (hkj : k ≤ j) (h : (block s i j).Nodup) :
    (block s i k).Nodup := by
  have hsub : (s.take k).Sublist (s.take j) := (List.take_prefix_take_left hkj).sublist
  exact h.sublist (hsub.drop i)

theorem allUnique_ok {s : List UInt16} {i j : Nat} (hij : i ≤ j) (hj : j ≤ s.length) :
    allUnique s i j = .ok (decide (block s i j).Nodup) := by
  have hstart : Distinct s i i [] := by simp [Distinct, block_self]
  have hloop : (∃ t, forLoopUntil i j [] (check s) = .ok (.next t) ∧ Distinct s i j t) ∨
      ∃ r, forLoopUntil i j [] (check s) = .ok (.leave r) ∧ r = false ∧ ¬ (block s i j).Nodup := by
    refine forLoopUntil_ok (by omega) _ (fun r => r = false ∧ ¬ (block s i j).Nodup) hstart ?_
    intro k set hik hk ⟨hnodup, hset⟩
    have hblock := block_succ hik (show k < s.length by omega)
    rw [check, read_at rfl (show k < s.length by omega), ok_bind]
    by_cases hmem : s[k] ∈ set
    · refine Or.inr ⟨false, if_pos hmem, rfl, ?_⟩
      intro hall
      have hnext := nodup_block (show k + 1 ≤ j by omega) hall
      rw [hblock] at hnext
      exact (nodup_concat_iff.mp hnext).1 ((hset _).mp hmem)
    · refine Or.inl ⟨s[k] :: set, if_neg hmem, ?_, ?_⟩
      · rw [hblock]
        exact nodup_concat_iff.mpr ⟨fun hm => hmem ((hset _).mpr hm), hnodup⟩
      · intro c
        rw [hblock, List.mem_cons, List.mem_append, List.mem_singleton, hset, or_comm]
  rcases hloop with ⟨t, ht, hnodup, _⟩ | ⟨r, hr, rfl, hrepeat⟩
  · simp [allUnique, ht, hnodup]
  · simp [allUnique, hr, hrepeat]

/-- The lengths of blocks at places that `P` allows. -/
def candidates (s : List UInt16) (P : Nat → Nat → Prop) : Set Int :=
  {n | ∃ i j : Nat, P i j ∧ i < j ∧ j ≤ s.length ∧ (block s i j).Nodup ∧ n = j - i}

/-- The answer so far is the greatest of them, and 0. -/
def Best (s : List UInt16) (P : Nat → Nat → Prop) (ans : Int) : Prop :=
  IsGreatest (insert 0 (candidates s P)) ans

theorem Best.congr {s : List UInt16} {P Q : Nat → Nat → Prop} {ans : Int} (h : Best s P ans)
    (same : ∀ i j, i < j → j ≤ s.length → (P i j ↔ Q i j)) : Best s Q ans := by
  have hset : candidates s P = candidates s Q := by
    ext n
    constructor
    · intro ⟨i, j, hP, hij, hj, hrest⟩
      exact ⟨i, j, (same i j hij hj).mp hP, hij, hj, hrest⟩
    · intro ⟨i, j, hQ, hij, hj, hrest⟩
      exact ⟨i, j, (same i j hij hj).mpr hQ, hij, hj, hrest⟩
  unfold Best
  rw [← hset]
  exact h

/-- One more place. -/
theorem candidates_add {s : List UInt16} (P : Nat → Nat → Prop) {i j : Nat} (hij : i < j)
    (hj : j ≤ s.length) :
    candidates s (fun a b => P a b ∨ a = i ∧ b = j) =
      candidates s P ∪ {n | (block s i j).Nodup ∧ n = (j : Int) - i} := by
  ext n
  constructor
  · intro ⟨a, b, hor, hrest⟩
    rcases hor with hP | ⟨rfl, rfl⟩
    · exact Or.inl ⟨a, b, hP, hrest⟩
    · exact Or.inr ⟨hrest.2.2.1, hrest.2.2.2⟩
  · intro hn
    rcases hn with ⟨a, b, hP, hrest⟩ | ⟨hnodup, hn⟩
    · exact ⟨a, b, Or.inl hP, hrest⟩
    · exact ⟨i, j, Or.inr ⟨rfl, rfl⟩, hij, hj, hnodup, hn⟩

theorem Best.measure {s : List UInt16} {P : Nat → Nat → Prop} {ans : Int} (h : Best s P ans)
    {i j : Nat} (hij : i < j) (hj : j ≤ s.length) :
    ∃ t, measure s i j ans = .ok t ∧ Best s (fun a b => P a b ∨ a = i ∧ b = j) t := by
  unfold Best at h ⊢
  rw [Notes.measure, allUnique_ok (Nat.le_of_lt hij) hj, ok_bind, candidates_add P hij hj]
  by_cases hnodup : (block s i j).Nodup
  · refine ⟨max ans (j - i), by simp [hnodup], ?_⟩
    have hset : insert 0 (candidates s P ∪ {n | (block s i j).Nodup ∧ n = (j : Int) - i}) =
        insert ((j : Int) - i) (insert 0 (candidates s P)) := by
      ext n
      simp only [Set.mem_insert_iff, Set.mem_union, Set.mem_ofPred_eq, hnodup, true_and]
      tauto
    rw [hset, max_comm]
    exact h.insert _
  · refine ⟨ans, by simp [hnodup], ?_⟩
    have hset : {n | (block s i j).Nodup ∧ n = (j : Int) - i} = ∅ := by
      ext n
      simp [hnodup]
    rw [hset, Set.union_empty]
    exact h

theorem candidates_all (s : List UInt16) :
    insert 0 (candidates s (fun _ _ => True)) = blockLengths s := by
  ext n
  constructor
  · intro hn
    rcases hn with rfl | ⟨i, j, _, hij, hj, hnodup, rfl⟩
    · exact ⟨[], List.nil_infix, List.nodup_nil, rfl⟩
    · refine ⟨block s i j, ?_, hnodup, ?_⟩
      · exact (List.drop_suffix i _).isInfix.trans (List.take_prefix j s).isInfix
      · rw [block, List.length_drop, List.length_take]
        omega
  · intro ⟨b, ⟨front, rest, hs⟩, hnodup, hn⟩
    cases b with
    | nil => exact Or.inl hn.symm
    | cons c b =>
      have hblock : block s front.length (front ++ c :: b).length = c :: b := by
        rw [← hs, block, List.take_left, List.drop_left]
      refine Or.inr ⟨front.length, (front ++ c :: b).length, trivial, ?_, ?_, ?_, ?_⟩
      · rw [List.length_append, List.length_cons]
        omega
      · rw [← hs]
        simp only [List.length_append]
        omega
      · rw [hblock]
        exact hnodup
      · rw [← hn, List.length_append]
        omega

theorem lengthOfLongestSubstring_ok (s : List UInt16) :
    ∃ m, lengthOfLongestSubstring s = .ok m ∧ IsGreatest (blockLengths s) m := by
  have hstart : Best s (fun a _ => a < 0) 0 := by
    refine ⟨Set.mem_insert _ _, ?_⟩
    intro n hn
    rcases hn with rfl | ⟨i, j, hP, _⟩
    · exact Int.le_refl 0
    · omega
  have hloop : ∃ m, lengthOfLongestSubstring s = .ok m ∧ Best s (fun a _ => a < s.length) m := by
    refine forLoop_ok (by omega) (fun i m => Best s (fun a _ => a < i) m) hstart ?_
    intro i m _ hi hm
    have hrow : ∃ t, forLoop (i + 1) (s.length + 1) m (Notes.measure s i) = .ok t ∧
        Best s (fun a b => a < i ∨ a = i ∧ b < s.length + 1) t := by
      refine forLoop_ok (by omega) (fun j t => Best s (fun a b => a < i ∨ a = i ∧ b < j) t)
        (hm.congr (by omega)) ?_
      intro j t hij hj ht
      obtain ⟨u, hu, hbest⟩ := ht.measure (show i < j by omega) (show j ≤ s.length by omega)
      exact ⟨u, hu, hbest.congr (by omega)⟩
    obtain ⟨t, ht, hbest⟩ := hrow
    exact ⟨t, ht, hbest.congr (by omega)⟩
  obtain ⟨m, hm, hbest⟩ := hloop
  have hall : Best s (fun _ _ => True) m := hbest.congr (fun i j hij hj => by simp; omega)
  refine ⟨m, hm, ?_⟩
  rw [← candidates_all]
  exact hall

end Notes

/-- Both searches find the length of the longest block of different units. -/
theorem longest_substrings_agree (str : List UInt16) :
    ∃ m, lengthOfLongestSubstring str = .ok m ∧ Notes.lengthOfLongestSubstring str = .ok m ∧
      IsGreatest {n : Int | ∃ block, block <:+: str ∧ block.Nodup ∧ (block.length : Int) = n} m := by
  obtain ⟨m, hm, hgreatest⟩ := lengthOfLongestSubstring_ok str
  obtain ⟨m', hm', hgreatest'⟩ := Notes.lengthOfLongestSubstring_ok str
  obtain rfl : m = m' := hgreatest.unique hgreatest'
  exact ⟨m, hm, hm', hgreatest⟩

end BasicDemo.LeetCode.LongestSubstring
