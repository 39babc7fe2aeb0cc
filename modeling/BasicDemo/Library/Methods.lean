import BasicDemo.Library.Classes

namespace BasicDemo.Library.Classes
namespace ClassTable

variable {N S I : Type*} [DecidableEq N] [DecidableEq S]

/-- The class that lookup ends in. -/
def owner (t : ClassTable N S I) (n : N) (sel : S) : Option N := (t.locate n sel).map Prod.fst

theorem locateIn_spec {t : ClassTable N S I} {cs : List (ClassEntry N S I)}
    (hcs : ∀ c ∈ cs, c ∈ t.classes) {n a : N} {sel : S} {imp : I}
    (h : locateIn cs n sel = some (a, imp)) : t.Inherits n a ∧ t.own a sel = some imp := by
  induction cs generalizing n with
  | nil => cases h
  | cons c cs ih =>
    have hc := hcs c List.mem_cons_self
    have hrest := @ih (fun d hd => hcs d (List.mem_cons_of_mem _ hd))
    simp only [locateIn] at h
    split at h
    · rename_i hname
      subst hname
      split at h
      · rename_i hm
        cases h
        exact ⟨.refl _, (own_of_mem hc sel).trans hm⟩
      · split at h
        · rename_i p hp
          obtain ⟨hinherits, hown⟩ := hrest h
          exact ⟨.step ((superclass_of_mem hc).trans hp) hinherits, hown⟩
        · cases h
    · exact hrest h

/-- A method is found in the class or in one it inherits from, as a method of its own. -/
theorem locate_spec {t : ClassTable N S I} {n a : N} {sel : S} {imp : I}
    (h : t.locate n sel = some (a, imp)) : t.Inherits n a ∧ t.own a sel = some imp :=
  locateIn_spec (fun _ hc => hc) h

theorem resolve_eq_owner (t : ClassTable N S I) (n : N) (sel : S) :
    t.resolve n sel = (t.owner n sel).bind (fun a => t.own a sel) := by
  rw [resolve_eq_locate, owner]
  cases h : t.locate n sel with
  | none => rfl
  | some found => exact (locate_spec h).2.symm

theorem locateIn_mem {cs : List (ClassEntry N S I)} {n : N} {sel : S} {found : N × I}
    (h : locateIn cs n sel = some found) : n ∈ cs.map ClassEntry.name := by
  induction cs with
  | nil => cases h
  | cons c cs ih =>
    by_cases hname : c.name = n
    · exact List.mem_map.mpr ⟨c, List.mem_cons_self, hname⟩
    · simp only [locateIn, hname, if_false] at h
      exact List.mem_cons_of_mem _ (ih h)

/-- Lookup starts in a class that exists. -/
theorem mem_names_of_locate {t : ClassTable N S I} {n : N} {sel : S} {found : N × I}
    (h : t.locate n sel = some found) : n ∈ t.names :=
  locateIn_mem h

theorem locate_of_own {t : ClassTable N S I} {n : N} {sel : S} {imp : I}
    (h : t.own n sel = some imp) : t.locate n sel = some (n, imp) := by
  obtain ⟨c, hc, rfl, hm⟩ := own_eq_some.mp h
  exact locate_of_mem hc hm

theorem resolve_of_own {t : ClassTable N S I} {n : N} {sel : S} {imp : I}
    (h : t.own n sel = some imp) : t.resolve n sel = some imp := by
  rw [resolve_eq_locate, locate_of_own h]
  rfl

/-- Which class lookup ends in depends only on which methods there are. -/
theorem locateIn_change {n : N} {f : AList (fun _ : S => I) → AList (fun _ : S => I)} {sel : S}
    (hf : ∀ ms : AList (fun _ : S => I), ((f ms).lookup sel).isSome = (ms.lookup sel).isSome)
    (cs : List (ClassEntry N S I)) (m : N) :
    (locateIn (cs.map (changeMethods n f)) m sel).map Prod.fst =
      (locateIn cs m sel).map Prod.fst := by
  induction cs generalizing m with
  | nil => rfl
  | cons c cs ih =>
    have hsame : ((changeMethods n f c).methods.lookup sel).isSome =
        (c.methods.lookup sel).isSome := by
      unfold changeMethods
      split
      · exact hf c.methods
      · rfl
    simp only [List.map_cons, locateIn, changeMethods_name, changeMethods_super]
    split
    · cases hold : c.methods.lookup sel with
      | some imp =>
        rw [hold, Option.isSome_some] at hsame
        obtain ⟨imp', hnew⟩ := Option.isSome_iff_exists.mp hsame
        rw [hnew]
        rfl
      | none =>
        rw [hold, Option.isSome_none, Option.isSome_eq_false_iff, Option.isNone_iff_eq_none]
          at hsame
        rw [hsame]
        cases c.super with
        | some p => exact ih p
        | none => rfl
    · exact ih m

theorem owner_update (t : ClassTable N S I) (n : N)
    {f : AList (fun _ : S => I) → AList (fun _ : S => I)} {sel : S}
    (hf : ∀ ms : AList (fun _ : S => I), ((f ms).lookup sel).isSome = (ms.lookup sel).isSome)
    (m : N) : (t.update n f).owner m sel = t.owner m sel :=
  locateIn_change hf t.classes m

/-- A change to methods of other selectors is not seen. -/
theorem resolve_update_other (t : ClassTable N S I) (n : N)
    {f : AList (fun _ : S => I) → AList (fun _ : S => I)} {sel : S}
    (hf : ∀ ms : AList (fun _ : S => I), (f ms).lookup sel = ms.lookup sel) (m : N) :
    (t.update n f).resolve m sel = t.resolve m sel := by
  change resolveIn (t.classes.map (changeMethods n f)) m sel = resolveIn t.classes m sel
  generalize t.classes = cs
  induction cs generalizing m with
  | nil => rfl
  | cons c cs ih =>
    have hsame : (changeMethods n f c).methods.lookup sel = c.methods.lookup sel := by
      unfold changeMethods
      split
      · exact hf c.methods
      · rfl
    simp only [List.map_cons, resolveIn, changeMethods_name, changeMethods_super, hsame, ih]

/-- A change to a class is not seen by classes that do not inherit from it. -/
theorem resolve_update_outside {t : ClassTable N S I} {n m : N} (h : ¬ t.Inherits m n)
    (f : AList (fun _ : S => I) → AList (fun _ : S => I)) (sel : S) :
    (t.update n f).resolve m sel = t.resolve m sel := by
  classical
  have hself : decide (¬ t.Inherits n n) = false := decide_eq_false (not_not.mpr (.refl n))
  have hout : decide (¬ t.Inherits m n) = true := decide_eq_true h
  have hclosed : ∀ c ∈ t.classes, decide (¬ t.Inherits c.name n) = true →
      ∀ p, c.super = some p → decide (¬ t.Inherits p n) = true := by
    intro c hc hP p hp
    apply decide_eq_true
    intro hinherits
    exact of_decide_eq_true hP (.step ((superclass_of_mem hc).trans hp) hinherits)
  have hclosed' : ∀ c ∈ t.classes.map (changeMethods n f),
      decide (¬ t.Inherits c.name n) = true →
      ∀ p, c.super = some p → decide (¬ t.Inherits p n) = true := by
    intro c hc
    obtain ⟨d, hd, rfl⟩ := List.mem_map.mp hc
    rw [changeMethods_name, changeMethods_super]
    exact hclosed d hd
  calc (t.update n f).resolve m sel
      = resolveIn ((t.classes.map (changeMethods n f)).filter
          (fun c => decide (¬ t.Inherits c.name n))) m sel :=
        (resolveIn_filter (fun k => decide (¬ t.Inherits k n)) hclosed' hout sel).symm
    _ = resolveIn (t.classes.filter (fun c => decide (¬ t.Inherits c.name n))) m sel := by
        rw [filter_change (fun k => decide (¬ t.Inherits k n)) hself]
    _ = t.resolve m sel :=
        resolveIn_filter (fun k => decide (¬ t.Inherits k n)) hclosed hout sel

theorem own_update_self {t : ClassTable N S I} {c : ClassEntry N S I} (hc : c ∈ t.classes)
    (f : AList (fun _ : S => I) → AList (fun _ : S => I)) (sel : S) :
    (t.update c.name f).own c.name sel = (f c.methods).lookup sel := by
  rw [own, find?_update, find?_of_mem hc]
  simp [changeMethods]

theorem own_update_other {t : ClassTable N S I} {n m : N} (h : m ≠ n)
    (f : AList (fun _ : S => I) → AList (fun _ : S => I)) (sel : S) :
    (t.update n f).own m sel = t.own m sel := by
  rw [own, find?_update, own]
  cases hm : t.find? m with
  | none => rfl
  | some c =>
    have hname : c.name = m := by simpa using List.find?_some hm
    have hne : c.name ≠ n := hname ▸ h
    simp [changeMethods, hne]

end ClassTable

/-- A method as the runtime stores it. -/
structure Method (Imp Types : Type*) where
  imp : Imp
  types : Types
  deriving DecidableEq

namespace ClassTable

variable {N S Imp Types : Type*} [DecidableEq N] [DecidableEq S]

def setImp (sel : S) (imp : Imp) (ms : AList (fun _ : S => Method Imp Types)) :
    AList (fun _ : S => Method Imp Types) :=
  match ms.lookup sel with
  | some m => ms.insert sel { m with imp := imp }
  | none => ms

/-- `method_setImplementation`, for the method that class `n` itself has. -/
def setImplementation (t : ClassTable N S (Method Imp Types)) (n : N) (sel : S) (imp : Imp) :
    ClassTable N S (Method Imp Types) :=
  t.update n (setImp sel imp)

/-- `class_replaceMethod`: a method that exists only gets the implementation. -/
def replaceMethod (t : ClassTable N S (Method Imp Types)) (n : N) (sel : S)
    (m : Method Imp Types) : ClassTable N S (Method Imp Types) :=
  t.update n (fun ms => if sel ∈ ms then setImp sel m.imp ms else ms.insert sel m)

theorem lookup_setImp (sel : S) (imp : Imp) (ms : AList (fun _ : S => Method Imp Types))
    (sel' : S) : (setImp sel imp ms).lookup sel' =
      if sel' = sel then (ms.lookup sel).map (fun m => { m with imp := imp })
      else ms.lookup sel' := by
  unfold setImp
  by_cases hsel : sel' = sel
  · subst hsel
    cases h : ms.lookup sel' with
    | some m => simp
    | none => simp [h]
  · cases h : ms.lookup sel with
    | some m => simp [hsel, AList.lookup_insert_ne hsel]
    | none => simp [hsel]

/-- The method table after `class_replaceMethod`, whether the method existed or not. -/
theorem lookup_replace (sel : S) (m : Method Imp Types)
    (ms : AList (fun _ : S => Method Imp Types)) (sel' : S) :
    (if sel ∈ ms then setImp sel m.imp ms else ms.insert sel m).lookup sel' =
      if sel' = sel then some (((ms.lookup sel).map (fun m' => { m' with imp := m.imp })).getD m)
      else ms.lookup sel' := by
  by_cases hin : sel ∈ ms
  · obtain ⟨m', hm'⟩ := Option.isSome_iff_exists.mp (AList.lookup_isSome.mpr hin)
    simp [hin, lookup_setImp, hm']
  · rw [if_neg hin, AList.lookup_eq_none.mpr hin]
    by_cases hsel : sel' = sel
    · subst hsel
      simp
    · simp [hsel, AList.lookup_insert_ne hsel]

/-- The methods that classes have themselves after one of them was given a new
implementation. -/
theorem own_setImplementation (t : ClassTable N S (Method Imp Types)) (n : N) (sel : S)
    (imp : Imp) (m : N) (sel' : S) :
    (t.setImplementation n sel imp).own m sel' =
      if m = n ∧ sel' = sel then (t.own n sel).map (fun m => { m with imp := imp })
      else t.own m sel' := by
  by_cases hm : m = n
  · subst hm
    rw [setImplementation, own, find?_update, own, own]
    cases hc : t.find? m with
    | none => simp
    | some c =>
      have hname : c.name = m := by simpa using List.find?_some hc
      simp [changeMethods, hname, lookup_setImp]
  · rw [setImplementation, own_update_other hm, if_neg (fun h => hm h.1)]

/-- Setting the implementation that a method has already. -/
theorem own_setImplementation_same {t : ClassTable N S (Method Imp Types)} {n : N} {sel : S}
    {m : Method Imp Types} (h : t.own n sel = some m) (n' : N) (sel' : S) :
    (t.setImplementation n sel m.imp).own n' sel' = t.own n' sel' := by
  rw [own_setImplementation]
  split
  · rename_i hsame
    rw [hsame.1, hsame.2, h]
    rfl
  · rfl

theorem setImp_keeps (sel : S) (imp : Imp) (sel' : S)
    (ms : AList (fun _ : S => Method Imp Types)) :
    ((setImp sel imp ms).lookup sel').isSome = (ms.lookup sel').isSome := by
  rw [lookup_setImp]
  split
  · rename_i h
    rw [h, Option.isSome_map]
  · rfl

end ClassTable

end BasicDemo.Library.Classes
