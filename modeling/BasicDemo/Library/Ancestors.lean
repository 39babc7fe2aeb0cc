import BasicDemo.Library.Methods

namespace BasicDemo.Library.Classes
namespace ClassTable

variable {N S I : Type*} [DecidableEq N]

/-- The classes that a loop from a class up along `class_getSuperclass` visits. -/
def chainIn : List (ClassEntry N S I) → N → List N
  | [], n => [n]
  | c :: cs, n =>
    if c.name = n then n :: (c.super.map (chainIn cs)).getD []
    else chainIn cs n

def chain (t : ClassTable N S I) (n : N) : List N := chainIn t.classes n

theorem chainIn_eq {cs : List (ClassEntry N S I)} (h : Hierarchy cs) (n : N) :
    chainIn cs n = n :: (((cs.find? (fun c => c.name = n)).bind ClassEntry.super).map
      (chainIn cs)).getD [] := by
  induction h with
  | nil => rfl
  | @cons c cs fresh parent rest ih =>
    -- What stands in front of a superclass is never one of its superclasses.
    have hskip : ∀ p, p ∈ cs.map ClassEntry.name → chainIn (c :: cs) p = chainIn cs p := by
      intro p hp
      rw [chainIn, if_neg]
      intro he
      exact fresh (he ▸ hp)
    by_cases hname : c.name = n
    · rw [chainIn, if_pos hname, List.find?_cons_of_pos (by simpa using hname), Option.bind_some]
      cases hsuper : c.super with
      | none => rfl
      | some p =>
        rw [Option.map_some, Option.map_some, Option.getD_some, Option.getD_some,
          hskip p (parent p hsuper)]
    · rw [chainIn, if_neg hname, List.find?_cons_of_neg (by simpa using hname), ih]
      cases hfind : cs.find? (fun c => c.name = n) with
      | none => rfl
      | some d =>
        rw [Option.bind_some]
        cases hsuper : d.super with
        | none => rfl
        | some p =>
          rw [Option.map_some, Option.map_some, Option.getD_some, Option.getD_some,
            hskip p (rest.super_mem (List.mem_of_find?_eq_some hfind) hsuper)]

/-- The loop goes on with the superclass, wherever it stands in the table. -/
theorem chain_eq (t : ClassTable N S I) (n : N) :
    t.chain n = n :: ((t.superclass n).map t.chain).getD [] :=
  chainIn_eq t.hierarchy n

theorem chain_of_super {t : ClassTable N S I} {n p : N} (h : t.superclass n = some p) :
    t.chain n = n :: t.chain p := by
  rw [chain_eq, h]
  rfl

theorem self_mem_chain (t : ClassTable N S I) (n : N) : n ∈ t.chain n := by
  rw [chain_eq]
  exact List.mem_cons_self

/-- Induction from the superclass to the class. -/
theorem up_induction (t : ClassTable N S I) {P : N → Prop}
    (root : ∀ n, t.superclass n = none → P n)
    (sub : ∀ n p, t.superclass n = some p → P p → P n) (n : N) : P n := by
  induction hl : t.chain n generalizing n with
  | nil =>
    rw [chain_eq] at hl
    cases hl
  | cons m l ih =>
    cases hp : t.superclass n with
    | none => exact root n hp
    | some p =>
      rw [chain_of_super hp] at hl
      exact sub n p hp (ih p (List.cons.inj hl).2)

theorem chain_of_root {t : ClassTable N S I} {n : N} (h : t.superclass n = none) :
    t.chain n = [n] := by
  rw [chain_eq, h]
  rfl

/-- The loop visits the class and all its superclasses. -/
theorem mem_chain {t : ClassTable N S I} {n a : N} : a ∈ t.chain n ↔ t.Inherits n a := by
  constructor
  · induction n using t.up_induction with
    | root n hp =>
      intro h
      rw [chain_of_root hp] at h
      obtain rfl := List.mem_singleton.mp h
      exact .refl a
    | sub n p hp ih =>
      intro h
      rw [chain_of_super hp] at h
      rcases List.mem_cons.mp h with rfl | h
      · exact .refl a
      · exact .step hp (ih h)
  · intro h
    induction h with
    | refl n => exact self_mem_chain t n
    | step hp _ ih =>
      rw [chain_of_super hp]
      exact List.mem_cons_of_mem _ ih

theorem inherits_of_super {t : ClassTable N S I} {n p a : N} (h : t.superclass n = some p) :
    t.Inherits n a ↔ a = n ∨ t.Inherits p a := by
  rw [← mem_chain, ← mem_chain, chain_of_super h, List.mem_cons]

theorem inherits_of_root {t : ClassTable N S I} {n a : N} (h : t.superclass n = none) :
    t.Inherits n a ↔ a = n := by
  rw [← mem_chain, chain_of_root h, List.mem_singleton]

theorem Inherits.trans {t : ClassTable N S I} {n m a : N} (h : t.Inherits n m)
    (h' : t.Inherits m a) : t.Inherits n a := by
  induction h with
  | refl => exact h'
  | step hp _ ih => exact .step hp (ih h')

/-- The line from a class up to another one goes through a direct subclass of that one. -/
theorem inherits_below {t : ClassTable N S I} {n a : N} :
    t.Inherits n a ∧ n ≠ a ↔ ∃ x, t.superclass x = some a ∧ t.Inherits n x := by
  constructor
  · rintro ⟨h, hne⟩
    induction h with
    | refl n => exact absurd rfl hne
    | @step n p a hp _ ih =>
      by_cases hpa : p = a
      · exact ⟨n, hpa ▸ hp, .refl n⟩
      · obtain ⟨x, hx, hin⟩ := ih hpa
        exact ⟨x, hx, .step hp hin⟩
  · rintro ⟨x, hx, hin⟩
    refine ⟨hin.trans (.step hx (.refl a)), ?_⟩
    rintro rfl
    have hle := hin.index_le
    have hlt := superclass_index_lt hx
    omega

theorem superclass_mem {t : ClassTable N S I} {n p : N} (h : t.superclass n = some p) :
    p ∈ t.names := by
  obtain ⟨c, hc, hp⟩ := Option.bind_eq_some_iff.mp h
  exact t.hierarchy.super_mem (List.mem_of_find?_eq_some hc) hp

theorem Inherits.mem_names {t : ClassTable N S I} {n a : N} (h : t.Inherits n a)
    (hn : n ∈ t.names) : a ∈ t.names := by
  induction h with
  | refl => exact hn
  | step hp _ ih => exact ih (superclass_mem hp)

section addClass

variable {t u : ClassTable N S I} {n p : N}

theorem addClass_some (h : t.addClass n p = some u) :
    n ∉ t.names ∧ p ∈ t.names ∧ u.classes = ⟨n, some p, ∅⟩ :: t.classes := by
  rw [addClass] at h
  split at h
  · next hnew =>
    cases h
    exact ⟨hnew.1, hnew.2, rfl⟩
  · cases h

theorem names_addClass (h : t.addClass n p = some u) : u.names = n :: t.names := by
  rw [names, (addClass_some h).2.2]
  rfl

theorem find?_addClass (h : t.addClass n p = some u) (m : N) :
    u.find? m = if m = n then some ⟨n, some p, ∅⟩ else t.find? m := by
  rw [find?, (addClass_some h).2.2]
  by_cases hm : m = n
  · simp [hm]
  · simp [hm, Ne.symm hm, find?]

theorem superclass_addClass (h : t.addClass n p = some u) (m : N) :
    u.superclass m = if m = n then some p else t.superclass m := by
  rw [superclass, find?_addClass h]
  split <;> rfl

end addClass

variable [DecidableEq S]

theorem resolveIn_eq {cs : List (ClassEntry N S I)} (h : Hierarchy cs) (n : N) (sel : S) :
    resolveIn cs n sel =
      ((cs.find? (fun c => c.name = n)).bind (fun c => c.methods.lookup sel)).or
        (((cs.find? (fun c => c.name = n)).bind ClassEntry.super).bind
          (fun p => resolveIn cs p sel)) := by
  induction h with
  | nil => rfl
  | @cons c cs fresh parent rest ih =>
    have hskip : ∀ p, p ∈ cs.map ClassEntry.name →
        resolveIn (c :: cs) p sel = resolveIn cs p sel := by
      intro p hp
      rw [resolveIn, if_neg]
      intro he
      exact fresh (he ▸ hp)
    by_cases hname : c.name = n
    · rw [resolveIn, if_pos hname, List.find?_cons_of_pos (by simpa using hname),
        Option.bind_some, Option.bind_some]
      cases c.methods.lookup sel with
      | some imp => rfl
      | none =>
        cases hsuper : c.super with
        | none => rfl
        | some p =>
          rw [Option.none_or, Option.bind_some, hskip p (parent p hsuper)]
    · rw [resolveIn, if_neg hname, List.find?_cons_of_neg (by simpa using hname), ih]
      cases hfind : cs.find? (fun c => c.name = n) with
      | none => rfl
      | some d =>
        rw [Option.bind_some, Option.bind_some]
        cases hsuper : d.super with
        | none => rfl
        | some p =>
          rw [Option.bind_some, Option.bind_some,
            hskip p (rest.super_mem (List.mem_of_find?_eq_some hfind) hsuper)]

/-- Lookup takes the method of the class itself, or else goes on with the superclass. -/
theorem resolve_eq (t : ClassTable N S I) (n : N) (sel : S) :
    t.resolve n sel = (t.own n sel).or ((t.superclass n).bind (fun p => t.resolve p sel)) :=
  resolveIn_eq t.hierarchy n sel

theorem resolve_of_inherited {t : ClassTable N S I} {n p : N} {sel : S}
    (h : t.own n sel = none) (hp : t.superclass n = some p) :
    t.resolve n sel = t.resolve p sel := by
  rw [resolve_eq, h, hp]
  rfl

theorem own_addClass {t u : ClassTable N S I} {n p : N} (h : t.addClass n p = some u) (m : N)
    (sel : S) :
    u.own m sel = if m = n then none else t.own m sel := by
  rw [own, find?_addClass h]
  split <;> rfl

theorem own_eq_none_of_not_mem {t : ClassTable N S I} {n : N} (h : n ∉ t.names) (sel : S) :
    t.own n sel = none := by
  rw [Option.eq_none_iff_forall_not_mem]
  intro imp himp
  obtain ⟨c, hc, hname, -⟩ := own_eq_some.mp himp
  exact h (List.mem_map.mpr ⟨c, hc, hname⟩)

/-- The methods that classes have themselves after a method was added to one of them. -/
theorem own_addMethod {t : ClassTable N S I} {n : N} (h : n ∈ t.names) (sel : S) (imp : I)
    (m : N) (sel' : S) :
    (t.addMethod n sel imp).own m sel' =
      if m = n ∧ sel' = sel then some ((t.own n sel).getD imp) else t.own m sel' := by
  by_cases hm : m = n
  · subst hm
    obtain ⟨c, hc, rfl⟩ := List.mem_map.mp h
    rw [addMethod, own_update_self hc, own_of_mem hc, own_of_mem hc]
    by_cases hin : sel ∈ c.methods
    · rw [if_pos hin]
      obtain ⟨m', hm'⟩ := Option.isSome_iff_exists.mp (AList.lookup_isSome.mpr hin)
      by_cases hsel : sel' = sel
      · subst hsel
        simp [hm']
      · simp [hsel]
    · rw [if_neg hin, AList.lookup_eq_none.mpr hin]
      by_cases hsel : sel' = sel
      · subst hsel
        simp
      · simp [hsel, AList.lookup_insert_ne hsel]
  · rw [addMethod, own_update_other hm, if_neg (fun h => hm h.1)]

@[simp] theorem superclass_addMethod (t : ClassTable N S I) (n : N) (sel : S) (imp : I) (m : N) :
    (t.addMethod n sel imp).superclass m = t.superclass m :=
  superclass_update ..

end ClassTable

namespace ClassTable

variable {N S Imp Types : Type*} [DecidableEq N] [DecidableEq S]

/-- The methods that classes have themselves after `class_replaceMethod` on one of them. -/
theorem own_replaceMethod {t : ClassTable N S (Method Imp Types)} {n : N} (h : n ∈ t.names)
    (sel : S) (method : Method Imp Types) (m : N) (sel' : S) :
    (t.replaceMethod n sel method).own m sel' =
      if m = n ∧ sel' = sel then
        some (((t.own n sel).map (fun old => { old with imp := method.imp })).getD method)
      else t.own m sel' := by
  by_cases hm : m = n
  · subst hm
    obtain ⟨c, hc, rfl⟩ := List.mem_map.mp h
    rw [replaceMethod, own_update_self hc, own_of_mem hc, own_of_mem hc, lookup_replace]
    by_cases hsel : sel' = sel
    · simp [hsel]
    · simp [hsel]
  · rw [replaceMethod, own_update_other hm, if_neg (fun h => hm h.1)]

@[simp] theorem superclass_replaceMethod (t : ClassTable N S (Method Imp Types)) (n : N) (sel : S)
    (method : Method Imp Types) (m : N) :
    (t.replaceMethod n sel method).superclass m = t.superclass m :=
  superclass_update ..

@[simp] theorem names_replaceMethod (t : ClassTable N S (Method Imp Types)) (n : N) (sel : S)
    (method : Method Imp Types) : (t.replaceMethod n sel method).names = t.names :=
  names_change n _ t.classes

/-- Replacing a method is not seen through other selectors. -/
theorem resolve_replaceMethod_other (t : ClassTable N S (Method Imp Types)) (n : N) {sel sel' : S}
    (h : sel' ≠ sel) (method : Method Imp Types) (m : N) :
    (t.replaceMethod n sel method).resolve m sel' = t.resolve m sel' := by
  apply resolve_update_other
  intro ms
  rw [lookup_replace, if_neg h]

theorem resolve_replaceMethod_self {t : ClassTable N S (Method Imp Types)} {n : N}
    (h : n ∈ t.names) (sel : S) (method : Method Imp Types) :
    ((t.replaceMethod n sel method).resolve n sel).map Method.imp = some method.imp := by
  rw [resolve_of_own ((own_replaceMethod h sel method n sel).trans (if_pos ⟨rfl, rfl⟩))]
  cases t.own n sel <;> rfl

end ClassTable
end BasicDemo.Library.Classes
