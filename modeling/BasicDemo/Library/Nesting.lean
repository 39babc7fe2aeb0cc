import Mathlib.Data.List.Basic

namespace BasicDemo.Library.Nesting

/-- An alphabet with opening letters, and the letters that close each of them. -/
structure Brackets (α : Type*) where
  opens : α → Bool
  pairs : α → α → Bool
  opens_left : ∀ {o c}, pairs o c = true → opens o = true
  closes_right : ∀ {o c}, pairs o c = true → opens c = false

variable {α : Type*} (B : Brackets α)

/-- The words of the grammar `S → ε | S o S c` over the pairs `o`, `c`. -/
inductive Brackets.Nested : List α → Prop where
  | nil : Nested []
  | wrap {u v : List α} {o c : α} (before : Nested u) (within : Nested v)
      (pair : B.pairs o c = true) : Nested (u ++ (o :: (v ++ [c])))

/-- Cancel pairs from left to right. The first list collects the closing letters
that met no opening one, the second the opening letters that wait, the last first.
A closing letter after an opening one of another kind ends the reduction. -/
def Brackets.reduce : List α → List α → List α → Option (List α × List α)
  | sunk, pending, [] => some (sunk, pending)
  | sunk, pending, c :: word =>
    if B.opens c then Brackets.reduce sunk (c :: pending) word
    else
      match pending with
      | [] => Brackets.reduce (sunk ++ [c]) [] word
      | o :: pending => if B.pairs o c then Brackets.reduce sunk pending word else none

variable {B}

theorem reduce_open {c : α} (h : B.opens c = true) (sunk pending word : List α) :
    B.reduce sunk pending (c :: word) = B.reduce sunk (c :: pending) word := by
  rw [Brackets.reduce.eq_def]
  exact if_pos h

theorem reduce_sunk {c : α} (h : B.opens c = false) (sunk word : List α) :
    B.reduce sunk [] (c :: word) = B.reduce (sunk ++ [c]) [] word := by
  rw [Brackets.reduce, if_neg (by simp [h])]

theorem reduce_close {o c : α} (h : B.opens c = false) (sunk pending word : List α) :
    B.reduce sunk (o :: pending) (c :: word) =
      if B.pairs o c then B.reduce sunk pending word else none := by
  rw [Brackets.reduce, if_neg (by simp [h])]

/-- A nested word cancels out wherever it stands. -/
theorem Brackets.Nested.reduce_append {w : List α} (h : B.Nested w)
    (sunk pending rest : List α) :
    B.reduce sunk pending (w ++ rest) = B.reduce sunk pending rest := by
  induction h generalizing pending rest with
  | nil => rfl
  | @wrap u v o c _ _ pair ihu ihv =>
    rw [List.append_assoc, ihu, List.cons_append, reduce_open (B.opens_left pair),
      List.append_assoc, ihv, List.singleton_append, reduce_close (B.closes_right pair),
      if_pos pair]

theorem Brackets.Nested.append_wrap {u v : List α} {o c : α} (hu : B.Nested u)
    (hv : B.Nested v) (pair : B.pairs o c = true) : B.Nested (u ++ o :: v ++ [c]) := by
  have hw := hu.wrap hv pair
  rwa [← List.cons_append, ← List.append_assoc] at hw

/-- A read part of a word in which the pending letters are followed by nested words. -/
inductive Pending (B : Brackets α) : List α → List α → Prop where
  | nil {w : List α} (nested : B.Nested w) : Pending B [] w
  | cons {pending w v : List α} {o : α} (rest : Pending B pending w) (nested : B.Nested v) :
      Pending B (o :: pending) (w ++ o :: v)

theorem Pending.close {pending w : List α} {o c : α} (h : Pending B (o :: pending) w)
    (pair : B.pairs o c = true) : Pending B pending (w ++ [c]) := by
  cases h with
  | @cons _ w v _ rest nested =>
    cases rest with
    | nil before => exact .nil (before.append_wrap nested pair)
    | @cons _ w u o' rest before =>
      have hw : (w ++ o' :: u) ++ o :: v ++ [c] = w ++ o' :: (u ++ o :: v ++ [c]) := by
        simp
      rw [hw]
      exact rest.cons (before.append_wrap nested pair)

/-- The collected letters only grow. -/
theorem reduce_grows {sunk pending word sunk' pending' : List α}
    (h : B.reduce sunk pending word = some (sunk', pending')) :
    ∃ more, sunk' = sunk ++ more := by
  fun_induction Brackets.reduce B sunk pending word with
  | case1 sunk pending =>
    simp only [Option.some.injEq, Prod.mk.injEq] at h
    exact ⟨[], by simp [h.1]⟩
  | case2 sunk pending c word hc ih => exact ih h
  | case3 sunk c word hc ih =>
    obtain ⟨more, hmore⟩ := ih h
    exact ⟨c :: more, by simp [hmore]⟩
  | case4 sunk c word hc o pending pair ih => exact ih h
  | case5 => cases h

/-- A word is reduced part by part. -/
theorem reduce_append (sunk pending u v : List α) :
    B.reduce sunk pending (u ++ v) =
      (B.reduce sunk pending u).bind (fun r => B.reduce r.1 r.2 v) := by
  induction u generalizing sunk pending with
  | nil => rfl
  | cons c u ih =>
    rw [List.cons_append]
    cases hc : B.opens c with
    | true => rw [reduce_open hc, reduce_open hc, ih]
    | false =>
      cases pending with
      | nil => rw [reduce_sunk hc, reduce_sunk hc, ih]
      | cons o pending =>
        rw [reduce_close hc, reduce_close hc]
        split
        · exact ih sunk pending
        · rfl

/-- A reduction that collects a letter collects a first one, with none waiting. -/
theorem reduce_first_sunk {pending word sunk' pending' : List α}
    (h : B.reduce [] pending word = some (sunk', pending')) (hsunk : sunk' ≠ []) :
    ∃ u v c, word = u ++ v ∧ B.reduce [] pending u = some ([c], []) := by
  induction word generalizing pending with
  | nil =>
    cases h
    exact absurd rfl hsunk
  | cons c word ih =>
    cases hc : B.opens c with
    | true =>
      rw [reduce_open hc] at h
      obtain ⟨u, v, d, rfl, hu⟩ := ih h
      exact ⟨c :: u, v, d, rfl, by rw [reduce_open hc, hu]⟩
    | false =>
      cases pending with
      | nil => exact ⟨[c], word, c, rfl, by rw [reduce_sunk hc]; rfl⟩
      | cons o pending =>
        rw [reduce_close hc] at h
        split at h
        · rename_i pair
          obtain ⟨u, v, d, rfl, hu⟩ := ih h
          exact ⟨c :: u, v, d, rfl, by rw [reduce_close hc, if_pos pair, hu]⟩
        · cases h

/-- Letters leave the word in pairs. -/
theorem reduce_length {sunk pending word sunk' pending' : List α}
    (h : B.reduce sunk pending word = some (sunk', pending')) :
    ∃ n, word.length + sunk.length + pending.length =
      sunk'.length + pending'.length + 2 * n := by
  fun_induction Brackets.reduce B sunk pending word with
  | case1 sunk pending =>
    simp only [Option.some.injEq, Prod.mk.injEq] at h
    exact ⟨0, by simp [h.1, h.2]⟩
  | case2 sunk pending c word hc ih =>
    obtain ⟨n, hn⟩ := ih h
    simp only [List.length_cons] at hn ⊢
    exact ⟨n, by omega⟩
  | case3 sunk c word hc ih =>
    obtain ⟨n, hn⟩ := ih h
    simp only [List.length_append, List.length_cons, List.length_nil] at hn ⊢
    exact ⟨n, by omega⟩
  | case4 sunk c word hc o pending pair ih =>
    obtain ⟨n, hn⟩ := ih h
    simp only [List.length_cons] at hn ⊢
    exact ⟨n + 1, by omega⟩
  | case5 => cases h

/-- Only the letters at hand matter for a reduction. -/
theorem reduce_congr {C : Brackets α} {sunk pending word : List α}
    (hopens : ∀ c ∈ word, B.opens c = C.opens c)
    (hpairs : ∀ o ∈ pending ++ word, ∀ c ∈ word, B.pairs o c = C.pairs o c) :
    B.reduce sunk pending word = C.reduce sunk pending word := by
  induction word generalizing sunk pending with
  | nil => rfl
  | cons c word ih =>
    have hopens' : ∀ d ∈ word, B.opens d = C.opens d :=
      fun d hd => hopens d (List.mem_cons_of_mem c hd)
    have hc' := hopens c List.mem_cons_self
    cases hc : B.opens c with
    | true =>
      rw [reduce_open hc, reduce_open (hc' ▸ hc)]
      apply ih hopens'
      intro o ho d hd
      apply hpairs o _ d (List.mem_cons_of_mem c hd)
      simp only [List.cons_append, List.mem_cons, List.mem_append] at ho ⊢
      tauto
    | false =>
      cases pending with
      | nil =>
        rw [reduce_sunk hc, reduce_sunk (hc' ▸ hc)]
        apply ih hopens'
        intro o ho d hd
        exact hpairs o (List.mem_cons_of_mem c ho) d (List.mem_cons_of_mem c hd)
      | cons o pending =>
        rw [reduce_close hc, reduce_close (hc' ▸ hc),
          hpairs o List.mem_cons_self c List.mem_cons_self]
        split
        · apply ih hopens'
          intro p hp d hd
          apply hpairs p _ d (List.mem_cons_of_mem c hd)
          simp only [List.cons_append, List.mem_cons, List.mem_append] at hp ⊢
          tauto
        · rfl

/-- The collected letters are closing letters of the word. -/
theorem reduce_sunk_mem {sunk pending word sunk' pending' : List α}
    (h : B.reduce sunk pending word = some (sunk', pending')) {c : α} (hc : c ∈ sunk') :
    c ∈ sunk ∨ c ∈ word ∧ B.opens c = false := by
  fun_induction Brackets.reduce B sunk pending word with
  | case1 sunk pending =>
    simp only [Option.some.injEq, Prod.mk.injEq] at h
    exact Or.inl (h.1 ▸ hc)
  | case2 sunk pending d word hd ih =>
    exact (ih h).imp_right (And.imp_left (List.mem_cons_of_mem d))
  | case3 sunk d word hd ih =>
    rcases ih h with hsunk | ⟨hword, hclose⟩
    · rcases List.mem_append.mp hsunk with hsunk | hsunk
      · exact Or.inl hsunk
      · rw [List.mem_singleton.mp hsunk]
        exact Or.inr ⟨List.mem_cons_self, by simpa using hd⟩
    · exact Or.inr ⟨List.mem_cons_of_mem d hword, hclose⟩
  | case4 sunk d word hd o pending pair ih =>
    exact (ih h).imp_right (And.imp_left (List.mem_cons_of_mem d))
  | case5 => cases h

theorem Pending.nested_of_reduce {sunk pending w word : List α} (hp : Pending B pending w)
    (h : B.reduce sunk pending word = some ([], [])) : B.Nested (w ++ word) := by
  fun_induction Brackets.reduce B sunk pending word generalizing w with
  | case1 sunk pending =>
    simp only [Option.some.injEq, Prod.mk.injEq] at h
    rw [h.2] at hp
    cases hp with
    | nil nested => simpa using nested
  | case2 sunk pending c word hc ih =>
    have hw := ih (hp.cons .nil) h
    simpa using hw
  | case3 sunk c word hc ih =>
    obtain ⟨more, hmore⟩ := reduce_grows h
    simp at hmore
  | case4 sunk c word hc o pending pair ih =>
    have hw := ih (hp.close pair) h
    simpa using hw
  | case5 => cases h

/-- A word is nested exactly if it cancels out completely. -/
theorem nested_iff_reduce (w : List α) : B.Nested w ↔ B.reduce [] [] w = some ([], []) := by
  constructor
  · intro h
    have hw := h.reduce_append [] [] []
    rwa [List.append_nil] at hw
  · intro h
    have hw := (Pending.nil (B := B) .nil).nested_of_reduce h
    rwa [List.nil_append] at hw

end BasicDemo.Library.Nesting
