import BasicDemo.Library.Nesting
import Mathlib.Logic.Function.Basic

namespace BasicDemo.LeetCode.ValidParentheses
open Library.Nesting

/-- The bytes of a C string before its terminator. -/
structure CString where
  chars : List Int8
  terminated : ∀ c ∈ chars, c ≠ 0

def ascii (c : Char) : Int8 := Int8.ofNat c.toNat

def opening (c : Int8) : Bool := c = ascii '(' || c = ascii '[' || c = ascii '{'

/-- The comparison with a cell of the stack, made between promoted `int`s. -/
def follows (cell c : Int8) : Bool :=
  c.toInt = cell.toInt + 1 || c.toInt = cell.toInt + 2

/-- The offset of `stack[i]` in the block that `malloc` returned. -/
def offset (i : Int) : Int := i + 1

/-- Memory around the block, by offset from its start, with the offsets of the
cells used so far. -/
structure Machine where
  memory : Int → Int8
  top : Int
  accesses : List Int

def Machine.push (m : Machine) (c : Int8) : Machine :=
  { memory := Function.update m.memory (offset (m.top + 1)) c
    top := m.top + 1
    accesses := m.accesses ++ [offset (m.top + 1)] }

def Machine.peek (m : Machine) : Int8 := m.memory (offset m.top)

def Machine.look (m : Machine) : Machine :=
  { m with accesses := m.accesses ++ [offset m.top] }

/-- The loop over the string; false if it returned from within. -/
def scan : Machine → List Int8 → Machine × Bool
  | m, [] => (m, true)
  | m, c :: rest =>
    if opening c then scan (m.push c) rest
    else if follows m.peek c then scan { m.look with top := m.top - 1 } rest
    else (m.look, false)

/-- The verdict, with the offsets of the cells used and of the pointer freed. -/
structure Outcome where
  result : Bool
  accesses : List Int
  freed : Option Int

/-- `isValid`, for the contents of memory at the time `malloc` returns. -/
def isValid (memory : Int → Int8) : Option CString → Outcome
  | none => ⟨false, [], none⟩
  | some s =>
    if s.chars = [] then ⟨false, [], none⟩
    else if s.chars.length % 2 > 0 then ⟨false, [], none⟩
    else
      match scan ⟨memory, 0, []⟩ s.chars with
      | (m, true) => ⟨m.top = 0, m.accesses, some (offset 0)⟩
      | (m, false) => ⟨false, m.accesses, none⟩

/-- The pairs that the comparison of codes accepts. -/
def codes : Brackets Int8 where
  opens := opening
  pairs o c := opening o && !opening c && follows o c
  opens_left h := by
    simp only [Bool.and_eq_true] at h
    exact h.1.1
  closes_right h := by
    simp only [Bool.and_eq_true, Bool.not_eq_true'] at h
    exact h.1.2

/-- Closing characters without a partner, matched by cells nobody has written: the
first by `stack[0]`, the next ones by the cells below. -/
def Sunk (memory : Int → Int8) (sunk : List Int8) : Prop :=
  ∀ (j : Nat) (c : Int8), sunk[j]? = some c → follows (memory (offset (-j))) c = true

/-- The machine after a part of the string that reduces to `sunk` and `pending`. -/
structure Represents (memory : Int → Int8) (sunk pending : List Int8) (m : Machine) : Prop where
  top : m.top = pending.length - sunk.length
  stacked : ∀ (j : Nat) (o : Int8), pending[j]? = some o → m.memory (offset (m.top - j)) = o
  openers : ∀ o ∈ pending, opening o = true
  untouched : ∀ i, i ≤ offset (-sunk.length) → m.memory i = memory i
  matched : Sunk memory sunk

theorem represents_start (memory : Int → Int8) : Represents memory [] [] ⟨memory, 0, []⟩ where
  top := rfl
  stacked := by simp
  openers := by simp
  untouched _ _ := rfl
  matched := by simp [Sunk]

theorem Represents.push {memory : Int → Int8} {sunk pending : List Int8} {m : Machine} {c : Int8}
    (h : Represents memory sunk pending m) (hc : opening c = true) :
    Represents memory sunk (c :: pending) (m.push c) := by
  have htop := h.top
  refine ⟨?_, ?_, ?_, ?_, h.matched⟩
  · simp only [Machine.push, List.length_cons]
    omega
  · intro j o ho
    cases j with
    | zero =>
      cases ho
      simp [Machine.push]
    | succ j =>
      have hsame : offset (m.top + 1 - ((j + 1 : Nat) : Int)) = offset (m.top - j) := by
        unfold offset
        omega
      have hne : offset (m.top - j) ≠ offset (m.top + 1) := by
        unfold offset
        omega
      simp only [Machine.push, hsame, Function.update_of_ne hne]
      exact h.stacked j o ho
  · intro o ho
    rcases List.mem_cons.mp ho with rfl | ho
    · exact hc
    · exact h.openers o ho
  · intro i hi
    have hne : i ≠ offset (m.top + 1) := by
      unfold offset at hi ⊢
      omega
    simp only [Machine.push, Function.update_of_ne hne]
    exact h.untouched i hi

theorem Represents.peek_cons {memory : Int → Int8} {sunk pending : List Int8} {o : Int8}
    {m : Machine} (h : Represents memory sunk (o :: pending) m) : m.peek = o := by
  have hcell := h.stacked 0 o rfl
  simpa [Machine.peek] using hcell

theorem Represents.peek_nil {memory : Int → Int8} {sunk : List Int8} {m : Machine}
    (h : Represents memory sunk [] m) : m.peek = memory (offset (-sunk.length)) := by
  have htop : m.top = -sunk.length := by simpa using h.top
  rw [Machine.peek, htop]
  exact h.untouched _ (Int.le_refl _)

theorem Represents.pop {memory : Int → Int8} {sunk pending : List Int8} {o : Int8} {m : Machine}
    (h : Represents memory sunk (o :: pending) m) :
    Represents memory sunk pending { m.look with top := m.top - 1 } := by
  have htop := h.top
  refine ⟨?_, ?_, ?_, h.untouched, h.matched⟩
  · simp only [List.length_cons] at htop
    simp only
    omega
  · intro j p hp
    have hsame : offset (m.top - 1 - j) = offset (m.top - ((j + 1 : Nat) : Int)) := by
      unfold offset
      omega
    have hcell := h.stacked (j + 1) p hp
    rw [← hsame] at hcell
    exact hcell
  · intro p hp
    exact h.openers p (List.mem_cons_of_mem o hp)

theorem Represents.sink {memory : Int → Int8} {sunk : List Int8} {m : Machine} {c : Int8}
    (h : Represents memory sunk [] m) (hc : follows m.peek c = true) :
    Represents memory (sunk ++ [c]) [] { m.look with top := m.top - 1 } := by
  have htop := h.top
  refine ⟨?_, by simp, by simp, ?_, ?_⟩
  · simp only [List.length_nil, List.length_append, List.length_cons] at htop ⊢
    omega
  · intro i hi
    apply h.untouched
    simp only [offset, List.length_append, List.length_cons, List.length_nil] at hi ⊢
    omega
  · intro j d hd
    rw [List.getElem?_append] at hd
    split at hd
    · exact h.matched j d hd
    · rename_i hj
      obtain ⟨hlt, hd⟩ := List.getElem?_eq_some_iff.mp hd
      have hjs : j = sunk.length := by
        simp only [List.length_cons, List.length_nil] at hlt
        omega
      rw [List.getElem_singleton] at hd
      rw [← hd, hjs, ← h.peek_nil]
      exact hc

theorem codes_pairs {o c : Int8} (ho : opening o = true) (hc : opening c = false) :
    codes.pairs o c = follows o c := by
  simp [codes, ho, hc]

/-- A scan that ends has reduced the string, with every partnerless closing
character matched by unwritten memory. -/
theorem scan_reduces {memory : Int → Int8} {sunk pending word : List Int8} {m : Machine}
    (h : Represents memory sunk pending m) (hend : (scan m word).2 = true) :
    ∃ sunk' pending', codes.reduce sunk pending word = some (sunk', pending') ∧
      Represents memory sunk' pending' (scan m word).1 := by
  fun_induction scan m word generalizing sunk pending with
  | case1 m => exact ⟨sunk, pending, rfl, h⟩
  | case2 m c rest hc ih =>
    rw [reduce_open (B := codes) hc]
    exact ih (h.push hc) hend
  | case3 m c rest hc hfollows ih =>
    have hclose : opening c = false := by simpa using hc
    cases pending with
    | nil =>
      rw [reduce_sunk (B := codes) hclose]
      exact ih (h.sink hfollows) hend
    | cons o pending =>
      rw [h.peek_cons] at hfollows
      rw [reduce_close (B := codes) hclose,
        codes_pairs (h.openers o List.mem_cons_self) hclose, if_pos hfollows]
      exact ih h.pop hend
  | case4 => cases hend

theorem reduce_scans {memory : Int → Int8} {sunk pending sunk' pending' word : List Int8}
    {m : Machine} (h : Represents memory sunk pending m)
    (hr : codes.reduce sunk pending word = some (sunk', pending')) (hs : Sunk memory sunk') :
    (scan m word).2 = true := by
  fun_induction scan m word generalizing sunk pending with
  | case1 => rfl
  | case2 m c rest hc ih =>
    rw [reduce_open (B := codes) hc] at hr
    exact ih (h.push hc) hr
  | case3 m c rest hc hfollows ih =>
    have hclose : opening c = false := by simpa using hc
    cases pending with
    | nil =>
      rw [reduce_sunk (B := codes) hclose] at hr
      exact ih (h.sink hfollows) hr
    | cons o pending =>
      rw [reduce_close (B := codes) hclose] at hr
      split at hr
      · exact ih h.pop hr
      · cases hr
  | case4 m c rest hc hfollows =>
    have hclose : opening c = false := by simpa using hc
    cases pending with
    | nil =>
      rw [reduce_sunk (B := codes) hclose] at hr
      obtain ⟨more, hmore⟩ := reduce_grows hr
      have hat : sunk'[sunk.length]? = some c := by simp [hmore]
      rw [h.peek_nil] at hfollows
      exact absurd (hs sunk.length c hat) hfollows
    | cons o pending =>
      rw [reduce_close (B := codes) hclose,
        codes_pairs (h.openers o List.mem_cons_self) hclose] at hr
      rw [h.peek_cons] at hfollows
      rw [if_neg hfollows] at hr
      cases hr

/-- What `isValid` accepts, whatever the memory holds: strings that reduce to as
many partnerless closing as opening characters, if the memory at and below
`stack[0]` happens to match the closing ones. -/
theorem isValid_iff_reduce (memory : Int → Int8) (s : CString) (hne : s.chars ≠ []) :
    (isValid memory (some s)).result = true ↔
      ∃ sunk pending, codes.reduce [] [] s.chars = some (sunk, pending) ∧
        Sunk memory sunk ∧ sunk.length = pending.length := by
  have hstart := represents_start memory
  constructor
  · intro h
    simp only [isValid, if_neg hne] at h
    split at h
    · cases h
    · split at h
      · rename_i m hscan
        have hend : (scan ⟨memory, 0, []⟩ s.chars).2 = true := by rw [hscan]
        obtain ⟨sunk, pending, hr, hm⟩ := scan_reduces hstart hend
        rw [hscan] at hm
        have htop : m.top = 0 := by simpa using h
        refine ⟨sunk, pending, hr, hm.matched, ?_⟩
        have hdepth : m.top = pending.length - sunk.length := hm.top
        omega
      · cases h
  · intro ⟨sunk, pending, hr, hsunk, hlen⟩
    have hend := reduce_scans hstart hr hsunk
    obtain ⟨sunk', pending', hr', hm⟩ := scan_reduces hstart hend
    cases hr.symm.trans hr'
    obtain ⟨n, hn⟩ := reduce_length hr
    have heven : ¬ s.chars.length % 2 > 0 := by
      simp only [List.length_nil] at hn
      omega
    simp only [isValid, if_neg hne, if_neg heven]
    cases hscan : scan ⟨memory, 0, []⟩ s.chars with
    | mk m done =>
      rw [hscan] at hend hm
      cases hend
      have hdepth : m.top = pending.length - sunk.length := hm.top
      simp only [decide_eq_true_eq]
      omega

/-- A finite check over a list, evaluated along the list. -/
theorem forall_mem_of_all {α : Type} {P : α → Prop} [DecidablePred P] {l : List α}
    (h : l.all (fun a => decide (P a)) = true) : ∀ a ∈ l, P a := by
  intro a ha
  exact of_decide_eq_true (List.all_eq_true.mp h a ha)

/-- The three kinds of brackets of the header. -/
def bracketPairs : List (Int8 × Int8) :=
  [(ascii '(', ascii ')'), (ascii '[', ascii ']'), (ascii '{', ascii '}')]

def letters : List Int8 := bracketPairs.flatMap (fun p => [p.1, p.2])

def brackets : Brackets Int8 where
  opens := opening
  pairs o c := (o, c) ∈ bracketPairs
  opens_left {o c} h := by
    have hall : ∀ p ∈ bracketPairs, opening p.1 = true := forall_mem_of_all (by decide)
    exact hall (o, c) (by simpa using h)
  closes_right {o c} h := by
    have hall : ∀ p ∈ bracketPairs, opening p.2 = false := forall_mem_of_all (by decide)
    exact hall (o, c) (by simpa using h)

/-- On the six characters the comparison of codes finds the kinds of brackets. -/
theorem codes_pairs_letters :
    ∀ o ∈ letters, ∀ c ∈ letters, codes.pairs o c = brackets.pairs o c := by
  have hall : ∀ o ∈ letters, letters.all
      (fun c => decide (codes.pairs o c = brackets.pairs o c)) = true :=
    forall_mem_of_all (by decide)
  intro o ho
  exact forall_mem_of_all (hall o ho)

theorem reduce_codes {w : List Int8} (h : ∀ c ∈ w, c ∈ letters) :
    codes.reduce [] [] w = brackets.reduce [] [] w := by
  have hopens : ∀ c ∈ w, codes.opens c = brackets.opens c := fun _ _ => rfl
  apply reduce_congr hopens
  intro o ho c hc
  exact codes_pairs_letters o (h o ho) c (h c hc)

theorem closing_pair : ∀ c ∈ letters, opening c = false → ∃ o, (o, c) ∈ bracketPairs := by
  intro c hc hclose
  have hall : ∀ c ∈ letters, opening c = false → c ∈ bracketPairs.map Prod.snd :=
    forall_mem_of_all (by decide)
  obtain ⟨p, hp, rfl⟩ := List.mem_map.mp (hall c hc hclose)
  exact ⟨p.1, hp⟩

/-- With nothing in `stack[0]` that a closing bracket could match, `isValid` accepts
exactly the words of the grammar. -/
theorem isValid_iff_nested (memory : Int → Int8) (s : CString) (hne : s.chars ≠ [])
    (hs : ∀ c ∈ s.chars, c ∈ letters)
    (hb : ∀ p ∈ bracketPairs, p.2.toInt ≠ (memory (offset 0)).toInt + 1 ∧
      p.2.toInt ≠ (memory (offset 0)).toInt + 2) :
    (isValid memory (some s)).result = true ↔ brackets.Nested s.chars := by
  rw [isValid_iff_reduce memory s hne, nested_iff_reduce, ← reduce_codes hs]
  constructor
  · intro ⟨sunk, pending, hr, hsunk, hlen⟩
    cases sunk with
    | nil =>
      rw [List.length_eq_zero_iff.mp hlen.symm] at hr
      exact hr
    | cons c sunk =>
      -- the first closing character without a partner would match `stack[0]`
      obtain ⟨hword, hclose⟩ := (reduce_sunk_mem hr List.mem_cons_self).resolve_left List.not_mem_nil
      obtain ⟨o, ho⟩ := closing_pair c (hs c hword) hclose
      have hmatch := hsunk 0 c rfl
      simp only [follows, Int.natCast_zero, Int.neg_zero, Bool.or_eq_true, decide_eq_true_eq]
        at hmatch
      exact absurd hmatch (by simpa using hb (o, c) ho)
  · intro hr
    exact ⟨[], [], hr, by simp [Sunk], rfl⟩

/-- A string of brackets as a C string. -/
def bracketString (w : List Int8) (h : ∀ c ∈ w, c ∈ letters) : CString where
  chars := w
  terminated c hc := by
    have hall : ∀ c ∈ letters, c ≠ 0 := forall_mem_of_all (by decide)
    exact hall c (h c hc)

def twoPairs : CString :=
  bracketString [ascii '(', ascii ')', ascii '[', ascii ']'] (forall_mem_of_all (by decide))

theorem isValid_two_pairs :
    (isValid (fun _ => 0) (some twoPairs)).result = true ↔ brackets.Nested twoPairs.chars :=
  isValid_iff_nested (fun _ => 0) twoPairs (by decide) (forall_mem_of_all (by decide))
    (forall_mem_of_all (by decide))

/-- Two contents of memory that differ inside the block of `n` bytes only. -/
def SameOutside (n : Nat) (memory memory' : Int → Int8) : Prop :=
  ∀ i, ¬ (0 ≤ i ∧ i < (n : Int)) → memory i = memory' i

/-- Memory that matches the given closing characters. -/
def planted (sunk : List Int8) (i : Int) : Int8 :=
  match sunk[(offset 0 - i).toNat]? with
  | some c => c - 1
  | none => 0

theorem planted_sunk {sunk : List Int8} (h : ∀ c ∈ sunk, c ∈ letters) :
    Sunk (planted sunk) sunk := by
  intro j c hc
  have hj : (offset 0 - offset (-j)).toNat = j := by
    unfold offset
    omega
  have hall : ∀ c ∈ letters, follows (c - 1) c = true := forall_mem_of_all (by decide)
  simp only [planted, hj, hc]
  exact hall c (h c (List.mem_of_getElem? hc))

/-- The verdict is independent of the block's contents unless the string reduces to
some number of partnerless closing brackets and the same number of opening ones. -/
theorem isValid_block_iff (s : CString) (hne : s.chars ≠ []) (hs : ∀ c ∈ s.chars, c ∈ letters) :
    (∀ memory memory', SameOutside s.chars.length memory memory' →
      (isValid memory (some s)).result = (isValid memory' (some s)).result) ↔
    ¬ ∃ sunk pending, brackets.reduce [] [] s.chars = some (sunk, pending) ∧
      sunk ≠ [] ∧ sunk.length = pending.length := by
  rw [← reduce_codes hs]
  constructor
  · intro hsame ⟨sunk, pending, hr, hsunk, hlen⟩
    obtain ⟨c, rest, rfl⟩ := List.exists_cons_of_ne_nil hsunk
    have hletters : ∀ d ∈ c :: rest, d ∈ letters := by
      intro d hd
      exact hs d ((reduce_sunk_mem hr hd).resolve_left List.not_mem_nil).1
    obtain ⟨n, hn⟩ := reduce_length hr
    have hout : SameOutside s.chars.length (planted (c :: rest))
        (Function.update (planted (c :: rest)) (offset 0) 0) := by
      intro i hi
      have hne : i ≠ offset 0 := by
        simp only [List.length_cons, List.length_nil] at hn hlen
        unfold offset
        omega
      rw [Function.update_of_ne hne]
    have hvalid := (isValid_iff_reduce (planted (c :: rest)) s hne).mpr
      ⟨c :: rest, pending, hr, planted_sunk hletters, hlen⟩
    rw [hsame _ _ hout, isValid_iff_reduce _ s hne] at hvalid
    obtain ⟨sunk', pending', hr', hsunk', _⟩ := hvalid
    cases hr.symm.trans hr'
    have hzero : ∀ d ∈ letters, follows 0 d = false := forall_mem_of_all (by decide)
    have hfirst := hsunk' 0 c rfl
    simp [hzero c (hletters c List.mem_cons_self)] at hfirst
  · intro hno
    have accepts : ∀ memory memory', (isValid memory (some s)).result = true →
        (isValid memory' (some s)).result = true := by
      intro memory memory' h
      obtain ⟨sunk, pending, hr, _, hlen⟩ := (isValid_iff_reduce memory s hne).mp h
      have hnil : sunk = [] := by
        by_contra hsunk
        exact hno ⟨sunk, pending, hr, hsunk, hlen⟩
      exact (isValid_iff_reduce memory' s hne).mpr
        ⟨sunk, pending, hr, by simp [Sunk, hnil], hlen⟩
    intro memory memory' _
    exact Bool.eq_iff_iff.mpr ⟨accepts memory memory', accepts memory' memory⟩

/-- Memory of zeros but for an opening bracket in `stack[0]`. -/
def openingAtZero (i : Int) : Int8 := if i = offset 0 then ascii '(' else 0

theorem openingAtZero_outside : SameOutside 2 openingAtZero (fun _ => 0) := by
  intro i hi
  have hne : i ≠ offset 0 := by
    unfold offset
    omega
  exact if_neg hne

def mismatched : CString :=
  bracketString [ascii '(', ascii ']'] (forall_mem_of_all (by decide))

theorem isValid_block_mismatched :
    (isValid openingAtZero (some mismatched)).result =
      (isValid (fun _ => 0) (some mismatched)).result := by
  apply (isValid_block_iff mismatched (by decide) (forall_mem_of_all (by decide))).mpr ?_ _ _
    openingAtZero_outside
  intro ⟨sunk, pending, hr, _⟩
  have hnone : brackets.reduce [] [] mismatched.chars = none := by decide
  cases hnone.symm.trans hr

def inverted : CString :=
  bracketString [ascii ')', ascii '('] (forall_mem_of_all (by decide))

/-- The string `)(` is valid if the byte of `stack[0]` is an opening bracket and
invalid if it is zero. -/
theorem verdict_depends_on_block :
    SameOutside inverted.chars.length openingAtZero (fun _ => 0) ∧
    (isValid openingAtZero (some inverted)).result = true ∧
    (isValid (fun _ => 0) (some inverted)).result = false :=
  ⟨openingAtZero_outside, by decide, by decide⟩

/-- The pairs that the comparison of codes accepts, written out: for each kind the
closing bracket and one other character. -/
def widePairs : List (Int8 × Int8) :=
  [(ascii '(', ascii ')'), (ascii '(', ascii '*'), (ascii '[', ascii '\\'),
    (ascii '[', ascii ']'), (ascii '{', ascii '|'), (ascii '{', ascii '}')]

def wide : Brackets Int8 where
  opens := opening
  pairs o c := (o, c) ∈ widePairs
  opens_left {o c} h := by
    have hall : ∀ p ∈ widePairs, opening p.1 = true := forall_mem_of_all (by decide)
    exact hall (o, c) (by simpa using h)
  closes_right {o c} h := by
    have hall : ∀ p ∈ widePairs, opening p.2 = false := forall_mem_of_all (by decide)
    exact hall (o, c) (by simpa using h)

theorem follows_iff {cell c a b : Int8} (ha : a.toInt = cell.toInt + 1)
    (hb : b.toInt = cell.toInt + 2) : follows cell c = true ↔ c = a ∨ c = b := by
  simp [follows, ← ha, ← hb, Int8.toInt_inj]

theorem follows_zero (c : Int8) : follows 0 c = true ↔ c = 1 ∨ c = 2 :=
  follows_iff (by decide) (by decide)

theorem codes_pairs_wide (o c : Int8) : codes.pairs o c = wide.pairs o c := by
  have hiff : codes.pairs o c = true ↔ (o, c) ∈ widePairs := by
    constructor
    · intro h
      have ho := codes.opens_left h
      have hfollows : follows o c = true := by
        rwa [codes_pairs ho (codes.closes_right h)] at h
      simp only [codes, opening, Bool.or_eq_true, decide_eq_true_eq] at ho
      rcases ho with (rfl | rfl) | rfl
      · rcases (follows_iff (a := ascii ')') (b := ascii '*') (by decide) (by decide)).mp
          hfollows with rfl | rfl <;> simp [widePairs]
      · rcases (follows_iff (a := ascii '\\') (b := ascii ']') (by decide) (by decide)).mp
          hfollows with rfl | rfl <;> simp [widePairs]
      · rcases (follows_iff (a := ascii '|') (b := ascii '}') (by decide) (by decide)).mp
          hfollows with rfl | rfl <;> simp [widePairs]
    · intro h
      have hall : ∀ p ∈ widePairs, codes.pairs p.1 p.2 = true := forall_mem_of_all (by decide)
      exact hall (o, c) h
  rw [Bool.eq_iff_iff, hiff]
  simp [wide]

theorem reduce_wide (w : List Int8) : codes.reduce [] [] w = wide.reduce [] [] w :=
  reduce_congr (fun _ _ => rfl) (fun o _ c _ => codes_pairs_wide o c)

theorem sunk_zero {sunk : List Int8} :
    Sunk (fun _ => 0) sunk ↔ ∀ c ∈ sunk, c = 1 ∨ c = 2 := by
  constructor
  · intro h c hc
    obtain ⟨j, hj⟩ := List.mem_iff_getElem?.mp hc
    exact (follows_zero c).mp (h j c hj)
  · intro h j c hj
    exact (follows_zero c).mpr (h c (List.mem_of_getElem? hj))

/-- With memory of zeros, a string with a character that is no bracket is invalid. -/
def RejectsForeign (s : CString) : Prop :=
  (∃ c ∈ s.chars, c ∉ letters) → (isValid (fun _ => 0) (some s)).result = false

/-- The strings wrongly accepted: those that cancel out once each opening bracket also
closes with the other character of its pairs, up to some bytes 1 or 2 met at an
empty stack and as many opening brackets left. -/
theorem rejectsForeign_iff (s : CString) :
    RejectsForeign s ↔
      ¬ ∃ sunk pending, wide.reduce [] [] s.chars = some (sunk, pending) ∧
        (∀ c ∈ sunk, c = 1 ∨ c = 2) ∧ sunk.length = pending.length ∧
        ∃ c ∈ s.chars, c ∉ letters := by
  have haccepts : ∀ c ∈ s.chars, (isValid (fun _ => 0) (some s)).result = true ↔
      ∃ sunk pending, wide.reduce [] [] s.chars = some (sunk, pending) ∧
        (∀ c ∈ sunk, c = 1 ∨ c = 2) ∧ sunk.length = pending.length := by
    intro c hc
    rw [isValid_iff_reduce _ s (List.ne_nil_of_mem hc), reduce_wide]
    simp only [sunk_zero]
  constructor
  · intro h ⟨sunk, pending, hr, hsunk, hlen, c, hc, hforeign⟩
    have haccept := (haccepts c hc).mpr ⟨sunk, pending, hr, hsunk, hlen⟩
    rw [h ⟨c, hc, hforeign⟩] at haccept
    cases haccept
  · intro h ⟨c, hc, hforeign⟩
    rw [← Bool.not_eq_true, haccepts c hc]
    intro ⟨sunk, pending, hr, hsunk, hlen⟩
    exact h ⟨sunk, pending, hr, hsunk, hlen, c, hc, hforeign⟩

def letterWithin : CString where
  chars := [ascii '(', ascii 'a']
  terminated := forall_mem_of_all (by decide)

theorem rejectsForeign_letter : RejectsForeign letterWithin := by
  apply (rejectsForeign_iff letterWithin).mpr
  intro ⟨sunk, pending, hr, _⟩
  have hnone : wide.reduce [] [] letterWithin.chars = none := by decide
  cases hnone.symm.trans hr

def starAsClosing : CString where
  chars := [ascii '(', ascii '*', ascii '[', ascii ']']
  terminated := forall_mem_of_all (by decide)

/-- The code of `*` is that of `(` plus two, so `(*[]` is valid, without any access outside
of the block. -/
theorem accepts_star :
    ascii '*' ∈ starAsClosing.chars ∧ ascii '*' ∉ letters ∧
    (isValid (fun _ => 0) (some starAsClosing)).result = true ∧
    ∀ a ∈ (isValid (fun _ => 0) (some starAsClosing)).accesses, 0 ≤ a ∧ a < 4 :=
  ⟨by decide, by decide, by decide, forall_mem_of_all (by decide)⟩

end BasicDemo.LeetCode.ValidParentheses
