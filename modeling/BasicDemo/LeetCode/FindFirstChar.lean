import BasicDemo.Library.Arrays
import BasicDemo.LeetCode.ValidParentheses

namespace BasicDemo.LeetCode.FindFirstChar
open Library.Loops Library.Arrays ValidParentheses

/-- The first pass: `array[*p]++` for every character. A `char` is signed, and so is the
subscript. -/
def countChars (array : List Int) : List Int8 → Except Fault (List Int)
  | [] => .ok array
  | c :: rest => do
    let n ← read array c.toInt
    let array ← write array c.toInt (n + 1)
    countChars array rest

/-- The second pass from the place `p` on: the first character counted once, with its place. -/
def firstSingle (array : List Int) : Nat → List Int8 → Except Fault (Option (Nat × Int8))
  | _, [] => .ok none
  | p, c :: rest => do
    let n ← read array c.toInt
    if n = 1 then return some (p, c) else firstSingle array (p + 1) rest

def zeroed (array : List Int) : Except Fault (List Int) :=
  forLoop 0 256 array (fun i array => write array i 0)

/-- `array` holds anything when the function is entered. -/
def findFirstChar (array : Vector Int 256) (cha : CString) : Except Fault Int8 := do
  let array ← zeroed array.toList
  let array ← countChars array cha.chars
  match ← firstSingle array 0 cha.chars with
  | some (_, c) => return c
  | none => return 0

def firstUniqChar (array : Vector Int 256) : Option CString → Except Fault Int
  | none => .ok (-1)
  | some s => do
    let array ← zeroed array.toList
    let array ← countChars array s.chars
    match ← firstSingle array 0 s.chars with
    | some (p, _) => return p
    | none => return -1

def firstUniqCharTwo : Option CString → Except Fault Int
  | none => .ok (-1)
  | some s => do
    let map ← countChars (List.replicate 128 0) s.chars
    match ← firstSingle map 0 s.chars with
    | some (p, _) => return p
    | none => return -1

/-- The table after a pass over `seen`, as far as 7-bit characters can tell. -/
def Counts (array : List Int) (seen : List Int8) : Prop :=
  ∀ c : Int8, 1 ≤ c.toInt → read array c.toInt = .ok (seen.count c : Int)

theorem counts_zeros {size : Nat} (hsize : 128 ≤ size) : Counts (List.replicate size 0) [] := by
  intro c hc
  obtain ⟨n, hn⟩ := Int.eq_ofNat_of_zero_le (show 0 ≤ c.toInt by omega)
  have hlt := c.toInt_lt
  rw [read_at hn (by rw [List.length_replicate]; omega)]
  simp

theorem zeroed_ok (array : Vector Int 256) : zeroed array.toList = .ok (List.replicate 256 0) := by
  have h := fill_ok [] array.toList 0
  rw [List.nil_append, Vector.length_toList] at h
  exact h

/-- One character more. -/
theorem Counts.increment {array : List Int} {seen : List Int8} (h : Counts array seen) {c : Int8}
    (hc : 1 ≤ c.toInt) :
    ∃ t, write array c.toInt (seen.count c + 1) = .ok t ∧ Counts t (seen ++ [c]) :=
  Tallied.increment (fun _ _ => Int8.toInt_inj.mp) h hc

theorem countChars_ok {array : List Int} {seen rest : List Int8} (h : Counts array seen)
    (hrest : ∀ c ∈ rest, 1 ≤ c.toInt) :
    ∃ t, countChars array rest = .ok t ∧ Counts t (seen ++ rest) := by
  induction rest generalizing array seen with
  | nil => exact ⟨array, rfl, by simpa using h⟩
  | cons c rest ih =>
    have hc := hrest c List.mem_cons_self
    obtain ⟨u, hu, hcounts⟩ := h.increment hc
    obtain ⟨t, ht, hall⟩ := ih hcounts (fun d hd => hrest d (List.mem_cons_of_mem _ hd))
    refine ⟨t, ?_, by simpa using hall⟩
    rw [countChars, h c hc, ok_bind, hu, ok_bind, ht]

/-- The first character of `rest` that occurs once in `all`; `rest` starts at place `p`. -/
def pick (all : List Int8) : Nat → List Int8 → Option (Nat × Int8)
  | _, [] => none
  | p, c :: rest => if all.count c = 1 then some (p, c) else pick all (p + 1) rest

theorem firstSingle_ok {array : List Int} {all rest : List Int8} (h : Counts array all)
    (hrest : ∀ c ∈ rest, 1 ≤ c.toInt) (p : Nat) :
    firstSingle array p rest = .ok (pick all p rest) := by
  induction rest generalizing p with
  | nil => rfl
  | cons c rest ih =>
    rw [firstSingle, h c (hrest c List.mem_cons_self), ok_bind, pick,
      ih (fun d hd => hrest d (List.mem_cons_of_mem _ hd))]
    by_cases hone : all.count c = 1
    · simp [hone]
    · have hne : ¬ (all.count c : Int) = 1 := by omega
      simp [hone, hne]

theorem pick_none {all rest : List Int8} {p : Nat} (h : pick all p rest = none) :
    ∀ c ∈ rest, all.count c ≠ 1 := by
  induction rest generalizing p with
  | nil => simp
  | cons c rest ih =>
    rw [pick] at h
    split at h
    · cases h
    · rename_i hc
      intro d hd
      rcases List.mem_cons.mp hd with rfl | hd
      · exact hc
      · exact ih h d hd

/-- The place found is the least one. -/
theorem pick_some {all rest : List Int8} {p i : Nat} {c : Int8}
    (h : pick all p rest = some (i, c)) :
    ∃ k, i = p + k ∧ rest[k]? = some c ∧ all.count c = 1 ∧
      ∀ j < k, ∀ d, rest[j]? = some d → all.count d ≠ 1 := by
  induction rest generalizing p with
  | nil => cases h
  | cons d rest ih =>
    rw [pick] at h
    split at h
    · rename_i hd
      cases h
      exact ⟨0, rfl, rfl, hd, by simp⟩
    · rename_i hd
      obtain ⟨k, rfl, hk, hone, hleast⟩ := ih h
      refine ⟨k + 1, by omega, hk, hone, ?_⟩
      intro j hj e he
      cases j with
      | zero =>
        cases he
        exact hd
      | succ j => exact hleast j (by omega) e he

/-- The index that a search answers with. -/
def place : Option (Nat × Int8) → Int
  | some (p, _) => p
  | none => -1

def letter : Option (Nat × Int8) → Int8
  | some (_, c) => c
  | none => 0

/-- Both passes over a table of zeros, whatever its size from 128 on. -/
theorem passes_ok {size : Nat} (hsize : 128 ≤ size) {chars : List Int8}
    (hcodes : ∀ c ∈ chars, 1 ≤ c.toInt) :
    ∃ array, countChars (List.replicate size 0) chars = .ok array ∧
      firstSingle array 0 chars = .ok (pick chars 0 chars) := by
  obtain ⟨array, harray, hcounts⟩ := countChars_ok (counts_zeros hsize) hcodes
  exact ⟨array, harray, firstSingle_ok hcounts hcodes 0⟩

theorem findFirstChar_ok (array : Vector Int 256) {cha : CString}
    (hcodes : ∀ c ∈ cha.chars, 1 ≤ c.toInt) :
    findFirstChar array cha = .ok (letter (pick cha.chars 0 cha.chars)) := by
  obtain ⟨t, ht, hfirst⟩ := passes_ok (show 128 ≤ 256 by omega) hcodes
  rw [findFirstChar, zeroed_ok, ok_bind, ht, ok_bind, hfirst, ok_bind]
  cases pick cha.chars 0 cha.chars <;> rfl

theorem firstUniqChar_ok (array : Vector Int 256) {s : CString}
    (hcodes : ∀ c ∈ s.chars, 1 ≤ c.toInt) :
    firstUniqChar array (some s) = .ok (place (pick s.chars 0 s.chars)) := by
  obtain ⟨t, ht, hfirst⟩ := passes_ok (show 128 ≤ 256 by omega) hcodes
  rw [firstUniqChar, zeroed_ok, ok_bind, ht, ok_bind, hfirst, ok_bind]
  cases pick s.chars 0 s.chars <;> rfl

theorem firstUniqCharTwo_ok {s : CString} (hcodes : ∀ c ∈ s.chars, 1 ≤ c.toInt) :
    firstUniqCharTwo (some s) = .ok (place (pick s.chars 0 s.chars)) := by
  obtain ⟨t, ht, hfirst⟩ := passes_ok (Nat.le_refl 128) hcodes
  rw [firstUniqCharTwo, ht, ok_bind, hfirst, ok_bind]
  cases pick s.chars 0 s.chars <;> rfl

/-- The three functions agree on strings of 7-bit characters: both indices are the least
one whose character occurs once, and -1 with the character NUL if there is none. -/
theorem unique_chars_agree (array array' : Vector Int 256) (s : CString)
    (ascii : ∀ c ∈ s.chars, 1 ≤ c.toInt ∧ c.toInt ≤ 127) :
    ∃ r c, firstUniqChar array (some s) = .ok r ∧ firstUniqCharTwo (some s) = .ok r ∧
      findFirstChar array' s = .ok c ∧
      ((r = -1 ∧ c = 0 ∧ ∀ d ∈ s.chars, s.chars.count d ≠ 1) ∨
        ∃ i : Nat, r = i ∧ c ≠ 0 ∧ s.chars[i]? = some c ∧ s.chars.count c = 1 ∧
          ∀ j < i, ∀ d, s.chars[j]? = some d → s.chars.count d ≠ 1) := by
  have hcodes : ∀ c ∈ s.chars, 1 ≤ c.toInt := fun c hc => (ascii c hc).1
  refine ⟨_, _, firstUniqChar_ok array hcodes, firstUniqCharTwo_ok hcodes,
    findFirstChar_ok array' hcodes, ?_⟩
  cases hp : pick s.chars 0 s.chars with
  | none => exact Or.inl ⟨rfl, rfl, pick_none hp⟩
  | some found =>
    obtain ⟨i, c⟩ := found
    obtain ⟨k, rfl, hk, hone, hleast⟩ := pick_some hp
    refine Or.inr ⟨k, by simp [place], ?_, hk, hone, hleast⟩
    exact s.terminated c (List.mem_of_getElem? hk)

def loveleet : CString :=
  ⟨"loveleet".toList.map ascii, forall_mem_of_all (by decide)⟩

theorem unique_chars_agree_loveleet :
    ∃ r c, firstUniqChar (Vector.replicate 256 7) (some loveleet) = .ok r ∧
      firstUniqCharTwo (some loveleet) = .ok r ∧
      findFirstChar (Vector.replicate 256 (-1)) loveleet = .ok c ∧
      ((r = -1 ∧ c = 0 ∧ ∀ d ∈ loveleet.chars, loveleet.chars.count d ≠ 1) ∨
        ∃ i : Nat, r = i ∧ c ≠ 0 ∧ loveleet.chars[i]? = some c ∧ loveleet.chars.count c = 1 ∧
          ∀ j < i, ∀ d, loveleet.chars[j]? = some d → loveleet.chars.count d ≠ 1) :=
  unique_chars_agree _ _ loveleet (forall_mem_of_all (by decide))

/-- A first pass that ends has met no negative subscript. -/
theorem countChars_subscripts {array t : List Int} {rest : List Int8}
    (h : countChars array rest = .ok t) : ∀ c ∈ rest, 0 ≤ c.toInt := by
  induction rest generalizing array with
  | nil => simp
  | cons c rest ih =>
    rw [countChars] at h
    obtain ⟨n, hread, h⟩ := bind_eq_ok.mp h
    obtain ⟨u, _, h⟩ := bind_eq_ok.mp h
    intro d hd
    rcases List.mem_cons.mp hd with rfl | hd
    · by_contra hneg
      rw [read_outside (Or.inl (by omega))] at hread
      cases hread
    · exact ih h d hd

theorem codes_of_countChars {array t : List Int} {s : CString}
    (h : countChars array s.chars = .ok t) : ∀ c ∈ s.chars, 1 ≤ c.toInt := by
  intro c hc
  have hnonneg := countChars_subscripts h c hc
  have hne : c.toInt ≠ 0 := fun hzero => s.terminated c hc (Int8.toInt_inj.mp hzero)
  omega

/-- Each of the three functions keeps to its table exactly on the strings of 7-bit
characters: any other byte is a negative subscript. -/
theorem subscripts_within_iff (array array' : Vector Int 256) (s : CString) :
    ((∃ c, findFirstChar array s = .ok c) ↔ ∀ c ∈ s.chars, 1 ≤ c.toInt) ∧
    ((∃ r, firstUniqChar array' (some s) = .ok r) ↔ ∀ c ∈ s.chars, 1 ≤ c.toInt) ∧
    ((∃ r, firstUniqCharTwo (some s) = .ok r) ↔ ∀ c ∈ s.chars, 1 ≤ c.toInt) := by
  refine ⟨⟨?_, fun h => ⟨_, findFirstChar_ok array h⟩⟩,
    ⟨?_, fun h => ⟨_, firstUniqChar_ok array' h⟩⟩, ⟨?_, fun h => ⟨_, firstUniqCharTwo_ok h⟩⟩⟩
  · intro ⟨c, h⟩
    rw [findFirstChar, zeroed_ok, ok_bind] at h
    obtain ⟨t, ht, _⟩ := bind_eq_ok.mp h
    exact codes_of_countChars ht
  · intro ⟨r, h⟩
    rw [firstUniqChar, zeroed_ok, ok_bind] at h
    obtain ⟨t, ht, _⟩ := bind_eq_ok.mp h
    exact codes_of_countChars ht
  · intro ⟨r, h⟩
    rw [firstUniqCharTwo] at h
    obtain ⟨t, ht, _⟩ := bind_eq_ok.mp h
    exact codes_of_countChars ht

theorem subscripts_within_loveleet :
    (∃ c, findFirstChar (Vector.replicate 256 7) loveleet = .ok c) ∧
    (∃ r, firstUniqChar (Vector.replicate 256 7) (some loveleet) = .ok r) ∧
    ∃ r, firstUniqCharTwo (some loveleet) = .ok r := by
  have hcodes : ∀ c ∈ loveleet.chars, 1 ≤ c.toInt := forall_mem_of_all (by decide)
  obtain ⟨hfirst, huniq, htwo⟩ := subscripts_within_iff (Vector.replicate 256 7)
    (Vector.replicate 256 7) loveleet
  exact ⟨hfirst.mpr hcodes, huniq.mpr hcodes, htwo.mpr hcodes⟩

/-- The letter é in UTF-8: the bytes 0xC3 and 0xA9. -/
def accented : CString := ⟨[-61, -87], forall_mem_of_all (by decide)⟩

theorem accented_outside :
    findFirstChar (Vector.replicate 256 0) accented = .error .outOfRange ∧
    firstUniqChar (Vector.replicate 256 0) (some accented) = .error .outOfRange ∧
    firstUniqCharTwo (some accented) = .error .outOfRange := by
  have hread : ∀ a : List Int, countChars a accented.chars = .error .outOfRange := by
    intro a
    rw [accented, countChars, read_outside (Or.inl (by decide))]
    rfl
  refine ⟨?_, ?_, ?_⟩
  · rw [findFirstChar, zeroed_ok, ok_bind, hread]
    rfl
  · rw [firstUniqChar, zeroed_ok, ok_bind, hread]
    rfl
  · rw [firstUniqCharTwo, hread]
    rfl

end BasicDemo.LeetCode.FindFirstChar
