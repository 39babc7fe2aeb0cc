import BasicDemo.Library.Arrays
import BasicDemo.Library.Chains
import Mathlib.Data.Fintype.EquivFin

namespace BasicDemo.LeetCode.FindCommonView
open Library.Loops Library.Arrays Library.Chains

variable {View : Type}

/-- One round of the loop of `findSuperView`, on `tempVieW` and the array. -/
def climb (superview : View → Option View) (s : Option View × List View) :
    Except (Stop Fault) (Round (List View) (Option View × List View)) :=
  match s.1 with
  | some tempView => .ok (.next (superview tempView, s.2 ++ [tempView]))
  | none => .ok (.leave s.2)

def findSuperView (fuel : Nat) (superview : View → Option View) (view : View) :
    Except (Stop Fault) (List View) :=
  whileLoop (climb superview) fuel (superview view, [])

/-- The loop of `findCommonSuperView`, from round `i` on. -/
def compareFromEnd [DecidableEq View] (viewOneArray viewOtherArray : List View) (i : Nat)
    (resultsArray : List View) : Except Fault (List View) :=
  if i < min viewOneArray.length viewOtherArray.length then do
    let superOne ← read viewOneArray (viewOneArray.length - i - 1)
    let superOther ← read viewOtherArray (viewOtherArray.length - i - 1)
    if superOne = superOther then
      compareFromEnd viewOneArray viewOtherArray (i + 1) (resultsArray ++ [superOne])
    else return resultsArray
  else .ok resultsArray
termination_by min viewOneArray.length viewOtherArray.length - i

def findCommonSuperView [DecidableEq View] (fuel : Nat) (superview : View → Option View)
    (viewOne viewOther : View) : Except (Stop Fault) (List View) := do
  let viewOneArray ← findSuperView fuel superview viewOne
  let viewOtherArray ← findSuperView fuel superview viewOther
  compareFromEnd viewOneArray viewOtherArray 0 []

theorem climb_ok {superview : View → Option View} {p : Option View} {l : List View}
    (h : Chain superview p l) (done : List View) {fuel : Nat} (enough : l.length < fuel) :
    whileLoop (climb superview) fuel (p, done) = .ok (done ++ l) := by
  obtain ⟨fuel, rfl⟩ : ∃ n, fuel = n + 1 := ⟨fuel - 1, by omega⟩
  induction h generalizing done fuel with
  | nil =>
    rw [List.append_nil]
    rfl
  | @cons view rest tail ih =>
    rw [List.length_cons] at enough
    obtain ⟨n, rfl⟩ : ∃ n, fuel = n + 1 := ⟨fuel - 1, by omega⟩
    have hrest := ih (done ++ [view]) n (by omega)
    rw [List.append_assoc] at hrest
    exact hrest

/-- In a hierarchy without cycles `findSuperView` comes to its end, in no more rounds than
there are views. -/
theorem findSuperView_ok [Fintype View] {superview : View → Option View}
    (acyclic : ∀ v, ¬ Leads superview v v) (view : View) :
    ∃ l, Chain superview (superview view) l ∧
      ∀ fuel, Fintype.card View < fuel → findSuperView fuel superview view = .ok l := by
  obtain ⟨l, hl⟩ := exists_chain acyclic (superview view)
  refine ⟨l, hl, ?_⟩
  intro fuel hfuel
  have hlen : l.length ≤ Fintype.card View := hl.nodup.length_le_card
  exact climb_ok hl [] (by omega)

/-- The view that is compared behind the views `done`. -/
theorem read_fromEnd (done xs : List View) (x : View) :
    read ((x :: xs).reverse ++ done.reverse)
      (((x :: xs).reverse ++ done.reverse).length - done.length - 1) = .ok x := by
  rw [List.reverse_cons, List.append_assoc]
  refine read_mid ?_
  simp only [List.length_append, List.length_reverse, List.length_cons, List.length_nil]
  omega

section

variable [DecidableEq View]

/-- What two lists have in common at their front. -/
def commonFront : List View → List View → List View
  | x :: xs, y :: ys => if x = y then x :: commonFront xs ys else []
  | _, _ => []

theorem commonFront_comm (xs ys : List View) : commonFront xs ys = commonFront ys xs := by
  fun_induction commonFront xs ys with
  | case1 xs x ys ih => rw [commonFront, if_pos rfl, ih]
  | case2 x xs y ys hne => rw [commonFront, if_neg (Ne.symm hne)]
  | case3 xs ys hnone =>
    cases ys with
    | nil => rw [commonFront]; simp
    | cons y ys =>
      cases xs with
      | nil => rw [commonFront]; simp
      | cons x xs => exact (hnone x xs y ys rfl rfl).elim

theorem commonFront_isPrefix (xs ys : List View) : commonFront xs ys <+: xs := by
  fun_induction commonFront xs ys with
  | case1 xs x ys ih => exact List.cons_prefix_cons.mpr ⟨rfl, ih⟩
  | case2 => exact List.nil_prefix
  | case3 => exact List.nil_prefix

theorem commonFront_append (front xs ys : List View) :
    commonFront (front ++ xs) (front ++ ys) = front ++ commonFront xs ys := by
  induction front with
  | nil => rfl
  | cons x front ih => rw [List.cons_append, List.cons_append, commonFront, if_pos rfl, ih]; rfl

/-- The rounds behind the views `done` that the two arrays have in common at their ends. -/
theorem compareFromEnd_ok (done xs ys : List View) :
    compareFromEnd (xs.reverse ++ done.reverse) (ys.reverse ++ done.reverse) done.length done =
      .ok (done ++ commonFront xs ys) := by
  induction xs generalizing done ys with
  | nil =>
    rw [compareFromEnd, if_neg (by simp), commonFront, List.append_nil]
    simp
  | cons x xs ih =>
    cases ys with
    | nil =>
      rw [compareFromEnd, if_neg (by simp), commonFront, List.append_nil]
      simp
    | cons y ys =>
      have hmore : done.length < min ((x :: xs).reverse ++ done.reverse).length
          ((y :: ys).reverse ++ done.reverse).length := by
        simp only [List.length_append, List.length_reverse, List.length_cons]
        omega
      rw [compareFromEnd, if_pos hmore, read_fromEnd, ok_bind, read_fromEnd, ok_bind,
        commonFront]
      by_cases hxy : x = y
      · subst hxy
        have hrest := ih (done ++ [x]) ys
        rw [if_pos rfl, if_pos rfl]
        simpa using hrest
      · rw [if_neg hxy, if_neg hxy, List.append_nil]
        rfl

theorem findCommonSuperView_ok {superview : View → Option View} {viewOne viewOther : View}
    {one other : List View} {fuel : Nat} (hone : findSuperView fuel superview viewOne = .ok one)
    (hother : findSuperView fuel superview viewOther = .ok other) :
    findCommonSuperView fuel superview viewOne viewOther =
      .ok (commonFront one.reverse other.reverse) := by
  have hcompare := compareFromEnd_ok [] one.reverse other.reverse
  simp only [List.reverse_reverse, List.reverse_nil, List.append_nil, List.length_nil,
    List.nil_append] at hcompare
  rw [findCommonSuperView, hone, ok_bind, hother, ok_bind, hcompare, lift_ok]

/-- Two chains of superviews that meet are the same from there on, so that everything they
share is at their common end. -/
theorem mem_commonFront_iff {superview : View → Option View} {p q : Option View}
    {one other : List View} (hone : Chain superview p one) (hother : Chain superview q other)
    (v : View) : v ∈ commonFront one.reverse other.reverse ↔ v ∈ one ∧ v ∈ other := by
  constructor
  · intro hv
    have hleft := (commonFront_isPrefix one.reverse other.reverse).subset hv
    rw [commonFront_comm] at hv
    have hright := (commonFront_isPrefix other.reverse one.reverse).subset hv
    exact ⟨List.mem_reverse.mp hleft, List.mem_reverse.mp hright⟩
  · rintro ⟨hv, hv'⟩
    obtain ⟨front, back, rfl, hback⟩ := hone.split hv
    obtain ⟨front', back', rfl, hback'⟩ := hother.split hv'
    cases hback.unique hback'
    rw [List.reverse_append, List.reverse_append, commonFront_append]
    simp

/-- What a list of common superviews promises its reader. -/
structure CommonSuperviews (superview : View → Option View) (viewOne viewOther : View)
    (common : List View) : Prop where
  nodup : common.Nodup
  /-- Exactly the proper ancestors of both views. -/
  exact : ∀ v, v ∈ common ↔ Leads superview viewOne v ∧ Leads superview viewOther v
  /-- From the root downwards. -/
  ordered : common.Pairwise (fun u v => Leads superview v u)
  root : ∀ v, common.head? = some v → superview v = none
  /-- Every other common ancestor is above the last one. -/
  lowest : ∀ low, common.getLast? = some low → ∀ v, Leads superview viewOne v →
    Leads superview viewOther v → v = low ∨ Leads superview low v

theorem CommonSuperviews.of_chains {superview : View → Option View} {viewOne viewOther : View}
    {one other : List View} (acyclic : ∀ v, ¬ Leads superview v v)
    (hone : Chain superview (superview viewOne) one)
    (hother : Chain superview (superview viewOther) other) :
    CommonSuperviews superview viewOne viewOther (commonFront one.reverse other.reverse) := by
  have hexact : ∀ v, v ∈ commonFront one.reverse other.reverse ↔
      Leads superview viewOne v ∧ Leads superview viewOther v := by
    intro v
    rw [mem_commonFront_iff hone hother, hone.mem_iff, hother.mem_iff]
  have hsub := (commonFront_isPrefix one.reverse other.reverse).sublist
  have hordered : (commonFront one.reverse other.reverse).Pairwise
      (fun u v => Leads superview v u) := (List.pairwise_reverse.mpr hone.pairwise).sublist hsub
  refine ⟨(List.nodup_reverse.mpr hone.nodup).sublist hsub, hexact, hordered, ?_, ?_⟩
  · intro first hfirst
    obtain ⟨rest, heq⟩ := List.head?_eq_some_iff.mp hfirst
    rw [heq] at hexact hordered
    obtain ⟨hleft, hright⟩ := (hexact first).mp List.mem_cons_self
    cases hsuper : superview first with
    | none => rfl
    | some u =>
      have hup : Leads superview first u := .of_next hsuper
      rcases List.mem_cons.mp ((hexact u).mpr ⟨hleft.trans hup, hright.trans hup⟩) with rfl | hu
      · exact (acyclic _ hup).elim
      · exact (acyclic _ (hup.trans ((List.pairwise_cons.mp hordered).1 u hu))).elim
  · intro low hlow v hleft hright
    obtain ⟨front, heq⟩ := List.getLast?_eq_some_iff.mp hlow
    rw [heq] at hexact hordered
    rcases List.mem_append.mp ((hexact v).mpr ⟨hleft, hright⟩) with hv | hv
    · exact Or.inr ((List.pairwise_append.mp hordered).2.2 v hv low List.mem_cons_self)
    · exact Or.inl (List.mem_singleton.mp hv)

/-- `findCommonSuperView` returns the common superviews, in either order of its arguments. -/
theorem findCommonSuperView_ancestors [Fintype View] (superview : View → Option View)
    (acyclic : ∀ v, ¬ Leads superview v v) (viewOne viewOther : View) :
    ∃ common,
      (∀ fuel, Fintype.card View < fuel →
        findCommonSuperView fuel superview viewOne viewOther = .ok common ∧
        findCommonSuperView fuel superview viewOther viewOne = .ok common) ∧
      CommonSuperviews superview viewOne viewOther common := by
  obtain ⟨one, hone, hrunOne⟩ := findSuperView_ok acyclic viewOne
  obtain ⟨other, hother, hrunOther⟩ := findSuperView_ok acyclic viewOther
  refine ⟨_, ?_, .of_chains acyclic hone hother⟩
  intro fuel hfuel
  refine ⟨findCommonSuperView_ok (hrunOne fuel hfuel) (hrunOther fuel hfuel), ?_⟩
  rw [commonFront_comm]
  exact findCommonSuperView_ok (hrunOther fuel hfuel) (hrunOne fuel hfuel)

/-- Views 3 and 4 below view 1 and its root 0; view 2 is another child of the root. -/
def fiveViews (v : Fin 5) : Option (Fin 5) :=
  match v with
  | 0 => none
  | 1 => some 0
  | 2 => some 0
  | 3 => some 1
  | 4 => some 3

theorem fiveViews_acyclic (v : Fin 5) : ¬ Leads fiveViews v v := by
  have hdown : ∀ u w, fiveViews u = some w → w < u := by decide
  intro h
  exact lt_irrefl v (h.lt hdown)

theorem findCommonSuperView_ancestors_five :
    (∀ v, ¬ Leads fiveViews v v) ∧ ∃ common, (∀ fuel, Fintype.card (Fin 5) < fuel →
        findCommonSuperView fuel fiveViews 4 3 = .ok common ∧
        findCommonSuperView fuel fiveViews 3 4 = .ok common) ∧
      CommonSuperviews fiveViews 4 3 common :=
  ⟨fiveViews_acyclic, findCommonSuperView_ancestors fiveViews fiveViews_acyclic 4 3⟩

end

end BasicDemo.LeetCode.FindCommonView
