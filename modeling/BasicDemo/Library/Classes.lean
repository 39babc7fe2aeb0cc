import Mathlib.Data.List.AList

namespace BasicDemo.Library.Classes

variable {N S I : Type*}

/-- A class with its own methods, those of its superclass not included. -/
structure ClassEntry (N S I : Type*) where
  name : N
  super : Option N
  methods : AList (fun _ : S => I)

/-- Classes are listed newest first. Names are distinct, and a superclass is
registered before its subclasses, so every chain of superclasses ends. -/
inductive Hierarchy : List (ClassEntry N S I) → Prop
  | nil : Hierarchy []
  | cons {c : ClassEntry N S I} {cs : List (ClassEntry N S I)}
      (fresh : c.name ∉ cs.map ClassEntry.name)
      (parent : ∀ p, c.super = some p → p ∈ cs.map ClassEntry.name)
      (rest : Hierarchy cs) : Hierarchy (c :: cs)

structure ClassTable (N S I : Type*) where
  classes : List (ClassEntry N S I)
  hierarchy : Hierarchy classes

theorem Hierarchy.unique {cs : List (ClassEntry N S I)} (h : Hierarchy cs) :
    (cs.map ClassEntry.name).Nodup := by
  induction h with
  | nil => simp
  | cons fresh _ _ ih => exact List.nodup_cons.mpr ⟨fresh, ih⟩

/-- A class is determined by its name. -/
theorem Hierarchy.same {cs : List (ClassEntry N S I)} (h : Hierarchy cs)
    {c d : ClassEntry N S I} (hc : c ∈ cs) (hd : d ∈ cs) (he : c.name = d.name) : c = d :=
  List.inj_on_of_nodup_map h.unique hc hd he

/-- Superclasses are registered. -/
theorem Hierarchy.super_mem {cs : List (ClassEntry N S I)} (h : Hierarchy cs)
    {c : ClassEntry N S I} (hc : c ∈ cs) {p : N} (hp : c.super = some p) :
    p ∈ cs.map ClassEntry.name := by
  induction h with
  | nil => cases hc
  | cons _ parent _ ih =>
    rcases List.mem_cons.mp hc with rfl | hc
    · exact List.mem_cons_of_mem _ (parent p hp)
    · exact List.mem_cons_of_mem _ (ih hc)

/-- Superclasses stand behind their subclasses. -/
theorem Hierarchy.index_lt [DecidableEq N] {cs : List (ClassEntry N S I)} (h : Hierarchy cs)
    {c : ClassEntry N S I} (hc : c ∈ cs) {p : N} (hp : c.super = some p) :
    (cs.map ClassEntry.name).idxOf c.name < (cs.map ClassEntry.name).idxOf p := by
  induction h with
  | nil => cases hc
  | @cons d cs fresh parent rest ih =>
    have hbehind : p ∈ cs.map ClassEntry.name → d.name ≠ p := by
      intro hmem he
      exact fresh (he ▸ hmem)
    rw [List.map_cons]
    rcases List.mem_cons.mp hc with rfl | hc
    · rw [List.idxOf_cons_self, List.idxOf_cons_ne _ (hbehind (parent p hp))]
      omega
    · have hne : d.name ≠ c.name := by
        intro he
        exact fresh (he ▸ List.mem_map_of_mem hc)
      rw [List.idxOf_cons_ne _ hne, List.idxOf_cons_ne _ (hbehind (rest.super_mem hc hp))]
      exact Nat.succ_lt_succ (ih hc)

namespace ClassTable

def names (t : ClassTable N S I) : List N := t.classes.map ClassEntry.name

variable [DecidableEq N]

def find? (t : ClassTable N S I) (n : N) : Option (ClassEntry N S I) :=
  t.classes.find? (fun c => c.name = n)

def superclass (t : ClassTable N S I) (n : N) : Option N := (t.find? n).bind ClassEntry.super

/-- The class itself and the classes it inherits from. -/
inductive Inherits (t : ClassTable N S I) : N → N → Prop
  | refl (n : N) : Inherits t n n
  | step {n p a : N} (super : t.superclass n = some p) (rest : Inherits t p a) : Inherits t n a

/-- Apply a change of method table to the class of that name. -/
def changeMethods (n : N) (f : AList (fun _ : S => I) → AList (fun _ : S => I))
    (c : ClassEntry N S I) : ClassEntry N S I :=
  if c.name = n then { c with methods := f c.methods } else c

@[simp] theorem changeMethods_name (n : N)
    (f : AList (fun _ : S => I) → AList (fun _ : S => I)) (c : ClassEntry N S I) :
    (changeMethods n f c).name = c.name := by
  unfold changeMethods
  split <;> rfl

@[simp] theorem changeMethods_super (n : N)
    (f : AList (fun _ : S => I) → AList (fun _ : S => I)) (c : ClassEntry N S I) :
    (changeMethods n f c).super = c.super := by
  unfold changeMethods
  split <;> rfl

theorem names_change (n : N) (f : AList (fun _ : S => I) → AList (fun _ : S => I))
    (cs : List (ClassEntry N S I)) :
    (cs.map (changeMethods n f)).map ClassEntry.name = cs.map ClassEntry.name := by
  simp [List.map_map, Function.comp_def]

/-- Changing methods leaves names and superclasses, hence the hierarchy, alone. -/
theorem hierarchy_change {cs : List (ClassEntry N S I)} (h : Hierarchy cs) (n : N)
    (f : AList (fun _ : S => I) → AList (fun _ : S => I)) :
    Hierarchy (cs.map (changeMethods n f)) := by
  induction h with
  | nil => exact .nil
  | cons fresh parent rest ih =>
    refine .cons ?_ ?_ ih
    · rw [names_change, changeMethods_name]
      exact fresh
    · rw [names_change, changeMethods_super]
      exact parent

def update (t : ClassTable N S I) (n : N)
    (f : AList (fun _ : S => I) → AList (fun _ : S => I)) : ClassTable N S I :=
  ⟨t.classes.map (changeMethods n f), hierarchy_change t.hierarchy n f⟩

/-- Register a subclass under an unused name, with no methods of its own. -/
def addClass (t : ClassTable N S I) (n p : N) : Option (ClassTable N S I) :=
  if h : n ∉ t.names ∧ p ∈ t.names then
    some ⟨⟨n, some p, ∅⟩ :: t.classes, .cons h.1 (by
      intro q hq
      cases hq
      exact h.2) t.hierarchy⟩
  else none

theorem find?_of_mem {t : ClassTable N S I} {c : ClassEntry N S I} (hc : c ∈ t.classes) :
    t.find? c.name = some c := by
  obtain ⟨d, hd⟩ := Option.isSome_iff_exists.mp
    (List.find?_isSome.mpr ⟨c, hc, decide_eq_true rfl⟩ :
      (t.classes.find? (fun d => d.name = c.name)).isSome)
  have hname : d.name = c.name := by simpa using List.find?_some hd
  rw [find?, hd, t.hierarchy.same (List.mem_of_find?_eq_some hd) hc hname]

theorem superclass_of_mem {t : ClassTable N S I} {c : ClassEntry N S I} (hc : c ∈ t.classes) :
    t.superclass c.name = c.super := by
  simp [superclass, find?_of_mem hc]

theorem superclass_index_lt {t : ClassTable N S I} {n p : N} (h : t.superclass n = some p) :
    t.names.idxOf n < t.names.idxOf p := by
  obtain ⟨c, hc, hp⟩ := Option.bind_eq_some_iff.mp h
  have hname : c.name = n := by simpa using List.find?_some hc
  rw [← hname]
  exact t.hierarchy.index_lt (List.mem_of_find?_eq_some hc) hp

theorem Inherits.index_le {t : ClassTable N S I} {n a : N} (h : t.Inherits n a) :
    t.names.idxOf n ≤ t.names.idxOf a := by
  induction h with
  | refl => exact Nat.le_refl _
  | step hp _ ih => exact Nat.le_trans (Nat.le_of_lt (superclass_index_lt hp)) ih

/-- No class inherits from its proper subclasses. -/
theorem Inherits.antisymm {t : ClassTable N S I} {n a : N} (h : t.Inherits n a)
    (h' : t.Inherits a n) : n = a := by
  cases h with
  | refl => rfl
  | step hp rest =>
    have hlt := superclass_index_lt hp
    have hle := rest.index_le
    have hle' := h'.index_le
    omega

theorem find?_update (t : ClassTable N S I) (n : N)
    (f : AList (fun _ : S => I) → AList (fun _ : S => I)) (m : N) :
    (t.update n f).find? m = (t.find? m).map (changeMethods n f) := by
  have hnames : (fun c : ClassEntry N S I => decide (c.name = m)) ∘ changeMethods n f =
      fun c => decide (c.name = m) := by
    funext c
    rw [Function.comp, changeMethods_name]
  rw [find?, update, List.find?_map, hnames, find?]

@[simp] theorem superclass_update (t : ClassTable N S I) (n : N)
    (f : AList (fun _ : S => I) → AList (fun _ : S => I)) (m : N) :
    (t.update n f).superclass m = t.superclass m := by
  rw [superclass, find?_update, superclass]
  cases t.find? m <;> simp

theorem inherits_update {t : ClassTable N S I} {n : N}
    {f : AList (fun _ : S => I) → AList (fun _ : S => I)} {m a : N} :
    (t.update n f).Inherits m a ↔ t.Inherits m a := by
  constructor
  · intro h
    induction h with
    | refl => exact .refl _
    | step hp _ ih => exact .step ((superclass_update ..).symm.trans hp) ih
  · intro h
    induction h with
    | refl => exact .refl _
    | step hp _ ih => exact .step ((superclass_update ..).trans hp) ih

/-- A change to one class cannot be seen in a selection that leaves the class out. -/
theorem filter_change (P : N → Bool) {n : N} (hn : P n = false)
    (f : AList (fun _ : S => I) → AList (fun _ : S => I)) (cs : List (ClassEntry N S I)) :
    (cs.map (changeMethods n f)).filter (fun c => P c.name) = cs.filter (fun c => P c.name) := by
  rw [List.filter_map]
  have hp : (fun c : ClassEntry N S I => P c.name) ∘ changeMethods n f = fun c => P c.name := by
    funext c
    simp
  rw [hp]
  refine (List.map_congr_left ?_).trans (List.map_id _)
  intro c hc
  have hne : c.name ≠ n := by
    intro he
    have hkept := (List.mem_filter.mp hc).2
    rw [he, hn] at hkept
    cases hkept
  simp [changeMethods, hne]

theorem addClass_eq {t : ClassTable N S I} {n p : N} (hn : n ∉ t.names) (hp : p ∈ t.names) :
    ∃ u, t.addClass n p = some u ∧ u.classes = ⟨n, some p, ∅⟩ :: t.classes := by
  simp [addClass, hn, hp]

variable [DecidableEq S]

/-- A table made with one method has no other. -/
theorem lookup_single {s sel : S} {i imp : I}
    (h : (AList.insert s i (∅ : AList (fun _ : S => I))).lookup sel = some imp) :
    sel = s ∧ imp = i := by
  by_cases he : sel = s
  · subst sel
    rw [AList.lookup_insert] at h
    exact ⟨rfl, (Option.some.inj h).symm⟩
  · rw [AList.lookup_insert_ne he] at h
    cases h

/-- The method a class defines itself. -/
def own (t : ClassTable N S I) (n : N) (sel : S) : Option I :=
  (t.find? n).bind (fun c => c.methods.lookup sel)

/-- Method lookup along the chain of superclasses. The search for a superclass
continues in the older classes, where it must be. -/
def resolveIn : List (ClassEntry N S I) → N → S → Option I
  | [], _, _ => none
  | c :: cs, n, sel =>
    if c.name = n then
      match c.methods.lookup sel with
      | some imp => some imp
      | none =>
        match c.super with
        | some p => resolveIn cs p sel
        | none => none
    else resolveIn cs n sel

def resolve (t : ClassTable N S I) (n : N) (sel : S) : Option I := resolveIn t.classes n sel

/-- Add a method to a class unless the class itself already defines one. -/
def addMethod (t : ClassTable N S I) (n : N) (sel : S) (imp : I) : ClassTable N S I :=
  t.update n (fun ms => if sel ∈ ms then ms else ms.insert sel imp)

@[simp] theorem names_addMethod (t : ClassTable N S I) (n : N) (sel : S) (imp : I) :
    (t.addMethod n sel imp).names = t.names :=
  names_change n _ t.classes

/-- A subclass made with one method leaves the classes before it as they were. -/
theorem addMethod_addClass {t : ClassTable N S I} {n p : N} (hn : n ∉ t.names)
    (hp : p ∈ t.names) (sel : S) (imp : I) :
    (((t.addClass n p).getD t).addMethod n sel imp).classes =
      ⟨n, some p, AList.insert sel imp ∅⟩ :: t.classes := by
  obtain ⟨u, hu, hc⟩ := addClass_eq hn hp
  rw [hu, Option.getD_some]
  change u.classes.map (changeMethods n _) = _
  rw [hc, List.map_cons]
  congr 1
  · simp [changeMethods]
  · refine (List.map_congr_left ?_).trans (List.map_id _)
    intro c hmem
    have hne : c.name ≠ n := by
      intro he
      exact hn (List.mem_map.mpr ⟨c, hmem, he⟩)
    simp [changeMethods, hne]

theorem own_of_mem {t : ClassTable N S I} {c : ClassEntry N S I} (hc : c ∈ t.classes) (sel : S) :
    t.own c.name sel = c.methods.lookup sel := by
  simp [own, find?_of_mem hc]

theorem own_eq_some {t : ClassTable N S I} {n : N} {sel : S} {imp : I} :
    t.own n sel = some imp ↔
      ∃ c ∈ t.classes, c.name = n ∧ c.methods.lookup sel = some imp := by
  constructor
  · intro h
    obtain ⟨c, hc, hm⟩ := Option.bind_eq_some_iff.mp h
    exact ⟨c, List.mem_of_find?_eq_some hc, by simpa using List.find?_some hc, hm⟩
  · intro ⟨c, hc, he, hm⟩
    rw [← he, own_of_mem hc, hm]

/-- Methods a class had keep their implementation. -/
theorem own_addMethod_of_own {t : ClassTable N S I} {n : N} {sel : S} {imp : I}
    (h : t.own n sel = some imp) (n' : N) (sel' : S) (imp' : I) :
    (t.addMethod n' sel' imp').own n sel = some imp := by
  obtain ⟨c, hc, rfl, hm⟩ := own_eq_some.mp h
  refine own_eq_some.mpr ⟨_, List.mem_map_of_mem hc, changeMethods_name _ _ _, ?_⟩
  unfold changeMethods
  split
  · dsimp only
    split
    · exact hm
    · rename_i hnew
      have hne : sel ≠ sel' := by
        intro he
        rw [he] at hm
        exact hnew (AList.lookup_isSome.mp (by simp [hm]))
      rw [AList.lookup_insert_ne hne]
      exact hm
  · exact hm

/-- A method that was missing is there afterwards. -/
theorem own_addMethod_new {t : ClassTable N S I} {n : N} {sel : S} (hn : n ∈ t.names)
    (h : t.own n sel = none) (imp : I) : (t.addMethod n sel imp).own n sel = some imp := by
  obtain ⟨c, hc, rfl⟩ := List.mem_map.mp hn
  rw [own_of_mem hc] at h
  refine own_eq_some.mpr ⟨_, List.mem_map_of_mem hc, changeMethods_name _ _ _, ?_⟩
  have hnew : sel ∉ c.methods := AList.lookup_eq_none.mp h
  simp [changeMethods, hnew]

/-- The method that lookup finds, with the class it stands in. -/
def locateIn : List (ClassEntry N S I) → N → S → Option (N × I)
  | [], _, _ => none
  | c :: cs, n, sel =>
    if c.name = n then
      match c.methods.lookup sel with
      | some imp => some (c.name, imp)
      | none =>
        match c.super with
        | some p => locateIn cs p sel
        | none => none
    else locateIn cs n sel

def locate (t : ClassTable N S I) (n : N) (sel : S) : Option (N × I) := locateIn t.classes n sel

theorem resolveIn_eq_locateIn (cs : List (ClassEntry N S I)) (n : N) (sel : S) :
    resolveIn cs n sel = (locateIn cs n sel).map Prod.snd := by
  induction cs generalizing n with
  | nil => rfl
  | cons c cs ih =>
    simp only [resolveIn, locateIn]
    split
    · cases c.methods.lookup sel with
      | some imp => rfl
      | none =>
        cases c.super with
        | some p => exact ih p
        | none => rfl
    · exact ih n

theorem resolve_eq_locate (t : ClassTable N S I) (n : N) (sel : S) :
    t.resolve n sel = (t.locate n sel).map Prod.snd :=
  resolveIn_eq_locateIn t.classes n sel

/-- A class that defines the method itself is where lookup ends. -/
theorem locate_of_mem {t : ClassTable N S I} {c : ClassEntry N S I} (hc : c ∈ t.classes)
    {sel : S} {imp : I} (hm : c.methods.lookup sel = some imp) :
    t.locate c.name sel = some (c.name, imp) := by
  unfold locate
  have hh := t.hierarchy
  generalize t.classes = cs at hc hh
  induction hh with
  | nil => cases hc
  | @cons d cs fresh _ _ ih =>
    rcases List.mem_cons.mp hc with rfl | hc
    · simp [locateIn, hm]
    · have hne : d.name ≠ c.name := by
        intro he
        exact fresh (List.mem_map.mpr ⟨c, hc, he.symm⟩)
      simp only [locateIn, hne, if_false]
      exact ih hc

/-- A method of the class itself is found before any inherited one. -/
theorem resolve_of_mem {t : ClassTable N S I} {c : ClassEntry N S I} (hc : c ∈ t.classes)
    {sel : S} {imp : I} (hm : c.methods.lookup sel = some imp) :
    t.resolve c.name sel = some imp := by
  rw [resolve_eq_locate, locate_of_mem hc hm]
  rfl

/-- Lookup in a set of classes that contains its superclasses never looks outside it. -/
theorem resolveIn_filter (P : N → Bool) {cs : List (ClassEntry N S I)}
    (closed : ∀ c ∈ cs, P c.name → ∀ p, c.super = some p → P p)
    {n : N} (hn : P n) (sel : S) :
    resolveIn (cs.filter (fun c => P c.name)) n sel = resolveIn cs n sel := by
  induction cs generalizing n with
  | nil => rfl
  | cons c cs ih =>
    have hrest := @ih (fun d hd => closed d (List.mem_cons_of_mem _ hd))
    cases hc : P c.name with
    | true =>
      simp only [List.filter_cons, hc, if_true, resolveIn]
      split
      · split
        · rfl
        · split
          · rename_i p hp
            exact hrest (closed c List.mem_cons_self hc p hp)
          · rfl
      · exact hrest hn
    | false =>
      have hne : c.name ≠ n := by
        intro he
        rw [he, hn] at hc
        cases hc
      simp only [List.filter_cons, hc, Bool.false_eq_true, if_false, resolveIn, hne]
      exact hrest hn

/-- Every lookup that succeeds finds a method some class defines. -/
theorem resolveIn_mem {cs : List (ClassEntry N S I)} {n : N} {sel : S} {imp : I}
    (h : resolveIn cs n sel = some imp) : ∃ c ∈ cs, c.methods.lookup sel = some imp := by
  induction cs generalizing n with
  | nil => cases h
  | cons c cs ih =>
    simp only [resolveIn] at h
    split at h
    · split at h
      · rename_i hm
        exact ⟨c, List.mem_cons_self, hm.trans h⟩
      · split at h
        · obtain ⟨d, hd, hm⟩ := ih h
          exact ⟨d, List.mem_cons_of_mem _ hd, hm⟩
        · cases h
    · obtain ⟨d, hd, hm⟩ := ih h
      exact ⟨d, List.mem_cons_of_mem _ hd, hm⟩

end ClassTable

end BasicDemo.Library.Classes
