import BasicDemo.Library.Methods

namespace BasicDemo.Aspects.HookSelector
open Library.Classes

variable {N S Imp Types : Type} [DecidableEq N] [DecidableEq S]

/-- `method_exchangeImplementations` for two methods found, each with the class it stands in. -/
def exchangeImplementations (t : ClassTable N S (Method Imp Types)) (o s : S)
    (m₁ m₂ : N × Method Imp Types) : ClassTable N S (Method Imp Types) :=
  (t.setImplementation m₁.1 o m₂.2.imp).setImplementation m₂.1 s m₁.2.imp

/-- The classes after the call; without a result if a method is not found, since the
runtime is then asked for the implementation of a NULL method. -/
def swizzleMethod (t : ClassTable N S (Method Imp Types)) (c : N)
    (originalSelector swizzledSelector : S) : Option (ClassTable N S (Method Imp Types)) := do
  let originalMethod ← t.locate c originalSelector
  let swizzledMethod ← t.locate c swizzledSelector
  if (t.own c originalSelector).isNone then
    let t := t.addMethod c originalSelector swizzledMethod.2
    let original ← t.own originalMethod.1 originalSelector
    return t.replaceMethod c swizzledSelector original
  else
    return exchangeImplementations t originalSelector swizzledSelector originalMethod swizzledMethod

/-- The selectors of the category that `load` names. -/
structure Selectors (S : Type) where
  doesNotRecognizeSelector : S
  swizzled_doesNotRecognizeSelector : S
  methodTest : S
  methodT : S
  distinct : [doesNotRecognizeSelector, swizzled_doesNotRecognizeSelector, methodTest,
    methodT].Nodup

def load (sels : Selectors S) (t : ClassTable N S (Method Imp Types)) (self : N) :
    Option (ClassTable N S (Method Imp Types)) := do
  let t ← swizzleMethod t self sels.doesNotRecognizeSelector sels.swizzled_doesNotRecognizeSelector
  let method1 ← t.locate self sels.methodTest
  let method2 ← t.locate self sels.methodT
  return exchangeImplementations t sels.methodTest sels.methodT method1 method2

/-- The implementation that runs when `sel` is sent to an instance of class `n`. -/
def implementation (t : ClassTable N S (Method Imp Types)) (n : N) (sel : S) : Option Imp :=
  (t.resolve n sel).map Method.imp

theorem implementation_of_own {t : ClassTable N S (Method Imp Types)} {n : N} {sel : S}
    {m : Method Imp Types} (h : t.own n sel = some m) : implementation t n sel = some m.imp := by
  rw [implementation, ClassTable.resolve_of_own h]
  rfl

theorem implementation_of_locate {t : ClassTable N S (Method Imp Types)} {n a : N} {sel : S}
    {m : Method Imp Types} (h : t.locate n sel = some (a, m)) :
    implementation t n sel = some m.imp := by
  rw [implementation, ClassTable.resolve_eq_locate, h]
  rfl

/-- What the call finds, and the two ways it can go on. -/
theorem swizzleMethod_cases {t : ClassTable N S (Method Imp Types)} {c : N} {o s : S}
    (ho : (t.resolve c o).isSome) (hs : (t.resolve c s).isSome) :
    ∃ m₁ m₂ : N × Method Imp Types, t.locate c o = some m₁ ∧ t.locate c s = some m₂ ∧
      (t.own c o = none ∧
        swizzleMethod t c o s = some ((t.addMethod c o m₂.2).replaceMethod c s m₁.2) ∨
      t.own c o = some m₁.2 ∧ m₁.1 = c ∧
        swizzleMethod t c o s = some (exchangeImplementations t o s m₁ m₂)) := by
  rw [ClassTable.resolve_eq_locate, Option.isSome_map] at ho hs
  obtain ⟨m₁, h₁⟩ := Option.isSome_iff_exists.mp ho
  obtain ⟨m₂, h₂⟩ := Option.isSome_iff_exists.mp hs
  refine ⟨m₁, m₂, h₁, h₂, ?_⟩
  cases hown : t.own c o with
  | none =>
    have hm₁ := (ClassTable.locate_spec h₁).2
    have hread : (t.addMethod c o m₂.2).own m₁.1 o = some m₁.2 :=
      ClassTable.own_addMethod_of_own hm₁ c o m₂.2
    refine Or.inl ⟨rfl, ?_⟩
    simp [swizzleMethod, h₁, h₂, hown, hread]
  | some m =>
    have hm := ClassTable.locate_of_own hown
    rw [h₁] at hm
    cases hm
    refine Or.inr ⟨rfl, rfl, ?_⟩
    simp [swizzleMethod, h₁, h₂, hown]

/-- The way that adds: the class gets both methods of its own, exchanged. -/
theorem added_own {t : ClassTable N S (Method Imp Types)} {c : N} (hc : c ∈ t.names) {o s : S}
    {m₁ m₂ : N × Method Imp Types} (h₁ : t.locate c o = some m₁) (h₂ : t.locate c s = some m₂)
    (hown : t.own c o = none) :
    ∃ mo ms, ((t.addMethod c o m₂.2).replaceMethod c s m₁.2).own c o = some mo ∧
      mo.imp = m₂.2.imp ∧
      ((t.addMethod c o m₂.2).replaceMethod c s m₁.2).own c s = some ms ∧ ms.imp = m₁.2.imp := by
  have hnew := ClassTable.own_addMethod_new hc hown m₂.2
  have hc' : c ∈ (t.addMethod c o m₂.2).names := by simpa using hc
  obtain ⟨d, hd, rfl⟩ := List.mem_map.mp hc'
  have hreplaced : ∀ sel, ((t.addMethod d.name o m₂.2).replaceMethod d.name s m₁.2).own d.name sel =
      if sel = s then some (((d.methods.lookup s).map
        (fun m' => { m' with imp := m₁.2.imp })).getD m₁.2)
      else (t.addMethod d.name o m₂.2).own d.name sel := by
    intro sel
    rw [ClassTable.replaceMethod, ClassTable.own_update_self hd, ClassTable.lookup_replace,
      ClassTable.own_of_mem hd]
  have hs : ∃ ms, ((t.addMethod d.name o m₂.2).replaceMethod d.name s m₁.2).own d.name s =
      some ms ∧ ms.imp = m₁.2.imp := by
    rw [hreplaced, if_pos rfl]
    cases d.methods.lookup s with
    | none => exact ⟨_, rfl, rfl⟩
    | some m' => exact ⟨_, rfl, rfl⟩
  obtain ⟨ms, hms, himp⟩ := hs
  by_cases hos : o = s
  · subst hos
    rw [h₁] at h₂
    cases h₂
    exact ⟨ms, ms, hms, himp, hms, himp⟩
  · refine ⟨m₂.2, ms, ?_, rfl, hms, himp⟩
    rw [hreplaced, if_neg hos, hnew]

/-- The way that exchanges: both methods stay where they are. -/
theorem exchanged_own {t : ClassTable N S (Method Imp Types)} {c : N} {o s : S}
    {m₁ m₂ : N × Method Imp Types} (h₁ : t.locate c o = some m₁) (h₂ : t.locate c s = some m₂) :
    ∃ mo ms, (exchangeImplementations t o s m₁ m₂).own m₁.1 o = some mo ∧ mo.imp = m₂.2.imp ∧
      (exchangeImplementations t o s m₁ m₂).own m₂.1 s = some ms ∧ ms.imp = m₁.2.imp := by
  have hm₁ := (ClassTable.locate_spec h₁).2
  have hm₂ := (ClassTable.locate_spec h₂).2
  unfold exchangeImplementations
  by_cases hsame : m₁.1 = m₂.1 ∧ o = s
  · obtain ⟨hclass, rfl⟩ := hsame
    rw [h₁] at h₂
    cases h₂
    exact ⟨_, _, by simp [ClassTable.own_setImplementation, hm₁], rfl,
      by simp [ClassTable.own_setImplementation, hm₁], rfl⟩
  · have hother : ¬ (m₂.1 = m₁.1 ∧ s = o) := fun h => hsame ⟨h.1.symm, h.2.symm⟩
    exact ⟨⟨m₂.2.imp, m₁.2.types⟩, ⟨m₁.2.imp, m₂.2.types⟩,
      by simp [ClassTable.own_setImplementation, hm₁, hsame], rfl,
      by simp [ClassTable.own_setImplementation, hm₂, hother], rfl⟩

/-- Lookup ends in the same class after an exchange. -/
theorem exchanged_resolve (t : ClassTable N S (Method Imp Types)) (o s : S)
    (m₁ m₂ : N × Method Imp Types) (n : N) (sel : S) :
    (exchangeImplementations t o s m₁ m₂).resolve n sel =
      (t.owner n sel).bind (fun a => (exchangeImplementations t o s m₁ m₂).own a sel) := by
  have howner : (exchangeImplementations t o s m₁ m₂).owner n sel = t.owner n sel := by
    rw [exchangeImplementations, ClassTable.setImplementation, ClassTable.setImplementation,
      ClassTable.owner_update _ _ (ClassTable.setImp_keeps s m₁.2.imp sel),
      ClassTable.owner_update _ _ (ClassTable.setImp_keeps o m₂.2.imp sel)]
  rw [ClassTable.resolve_eq_owner, howner]

theorem exchanged_swaps {t : ClassTable N S (Method Imp Types)} {c : N} {o s : S}
    {m₁ m₂ : N × Method Imp Types} (h₁ : t.locate c o = some m₁) (h₂ : t.locate c s = some m₂) :
    implementation (exchangeImplementations t o s m₁ m₂) c o = some m₂.2.imp ∧
      implementation (exchangeImplementations t o s m₁ m₂) c s = some m₁.2.imp := by
  obtain ⟨mo, ms, hmo, himpo, hms, himps⟩ := exchanged_own h₁ h₂
  constructor
  · rw [implementation, exchanged_resolve, ClassTable.owner, h₁, Option.map_some,
      Option.bind_some, hmo, Option.map_some, himpo]
  · rw [implementation, exchanged_resolve, ClassTable.owner, h₂, Option.map_some,
      Option.bind_some, hms, Option.map_some, himps]

theorem exchanged_resolve_other (t : ClassTable N S (Method Imp Types)) {o s sel : S}
    (hselo : sel ≠ o) (hsels : sel ≠ s) (m₁ m₂ : N × Method Imp Types) (n : N) :
    (exchangeImplementations t o s m₁ m₂).resolve n sel = t.resolve n sel := by
  have hset : ∀ (sel' : S) (imp : Imp), sel ≠ sel' →
      ∀ ms : AList (fun _ : S => Method Imp Types),
        (ClassTable.setImp sel' imp ms).lookup sel = ms.lookup sel := by
    intro sel' imp hne ms
    rw [ClassTable.lookup_setImp, if_neg hne]
  rw [exchangeImplementations, ClassTable.setImplementation, ClassTable.setImplementation,
    ClassTable.resolve_update_other _ _ (hset s m₁.2.imp hsels),
    ClassTable.resolve_update_other _ _ (hset o m₂.2.imp hselo)]

theorem lookup_add_other {o sel : S} (h : sel ≠ o) (m : Method Imp Types)
    (ms : AList (fun _ : S => Method Imp Types)) :
    (if o ∈ ms then ms else ms.insert o m).lookup sel = ms.lookup sel := by
  split
  · rfl
  · exact AList.lookup_insert_ne h

/-- The call concerns no other selector. -/
theorem swizzled_resolve_other {t t' : ClassTable N S (Method Imp Types)} {c : N} {o s : S}
    (h : swizzleMethod t c o s = some t') (ho : (t.resolve c o).isSome)
    (hs : (t.resolve c s).isSome) {sel : S} (hselo : sel ≠ o) (hsels : sel ≠ s) (n : N) :
    t'.resolve n sel = t.resolve n sel := by
  obtain ⟨m₁, m₂, _, _, hcase⟩ := swizzleMethod_cases ho hs
  rcases hcase with ⟨_, hcall⟩ | ⟨_, _, hcall⟩
  · rw [h] at hcall
    cases hcall
    rw [ClassTable.replaceMethod, ClassTable.resolve_update_other _ c, ClassTable.addMethod,
      ClassTable.resolve_update_other _ c (lookup_add_other hselo m₂.2)]
    intro ms
    rw [ClassTable.lookup_replace, if_neg hsels]
  · rw [h] at hcall
    cases hcall
    exact exchanged_resolve_other t hselo hsels m₁ m₂ n

/-- One call exchanges the two implementations for the class. -/
theorem swizzled_swaps {t : ClassTable N S (Method Imp Types)} {c : N} {o s : S}
    (ho : (t.resolve c o).isSome) (hs : (t.resolve c s).isSome) :
    ∃ t', swizzleMethod t c o s = some t' ∧ implementation t' c o = implementation t c s ∧
      implementation t' c s = implementation t c o := by
  obtain ⟨m₁, m₂, h₁, h₂, hcase⟩ := swizzleMethod_cases ho hs
  rw [implementation_of_locate h₁, implementation_of_locate h₂]
  rcases hcase with ⟨hown, hcall⟩ | ⟨_, hc, hcall⟩
  · obtain ⟨mo, ms, hmo, himpo, hms, himps⟩ :=
      added_own (ClassTable.mem_names_of_locate h₁) h₁ h₂ hown
    refine ⟨_, hcall, ?_, ?_⟩
    · rw [implementation_of_own hmo, himpo]
    · rw [implementation_of_own hms, himps]
  · exact ⟨_, hcall, exchanged_swaps h₁ h₂⟩

theorem isSome_resolve {t : ClassTable N S (Method Imp Types)} {n : N} {sel : S} :
    (t.resolve n sel).isSome = (implementation t n sel).isSome := by
  rw [implementation, Option.isSome_map]

/-- A class with two subclasses. -/
inductive Family where
  | parent
  | child
  | sibling
  deriving DecidableEq

inductive Message where
  | original
  | swizzled
  deriving DecidableEq

/-- The child has the original method itself and inherits the swizzled one. -/
def family : ClassTable Family Message (Method Nat Nat) where
  classes := [⟨.child, some .parent, AList.insert .original ⟨1, 0⟩ ∅⟩, ⟨.sibling, some .parent, ∅⟩,
    ⟨.parent, none, AList.insert .swizzled ⟨2, 0⟩ ∅⟩]
  hierarchy := by
    refine .cons (by decide) ?_ (.cons (by decide) ?_ (.cons (by decide) (by simp) .nil))
    · simp
    · simp

/-- Wherever the two methods stand, a call exchanges them for the class and leaves the other
selectors, and a second call, though it may go another way, undoes the first. -/
theorem swizzle_twice (t : ClassTable N S (Method Imp Types)) (c : N) (o s : S)
    (ho : (t.resolve c o).isSome) (hs : (t.resolve c s).isSome) :
    ∃ t' t'', swizzleMethod t c o s = some t' ∧ swizzleMethod t' c o s = some t'' ∧
      implementation t' c o = implementation t c s ∧
      implementation t' c s = implementation t c o ∧
      (∀ sel, sel ≠ o → sel ≠ s → t'.resolve c sel = t.resolve c sel) ∧
      implementation t'' c o = implementation t c o ∧
      implementation t'' c s = implementation t c s ∧
      ∀ sel, sel ≠ o → sel ≠ s → t''.resolve c sel = t.resolve c sel := by
  obtain ⟨t', hcall, hio, his⟩ := swizzled_swaps ho hs
  have ho' : (t'.resolve c o).isSome := by
    rw [isSome_resolve, hio, ← isSome_resolve]
    exact hs
  have hs' : (t'.resolve c s).isSome := by
    rw [isSome_resolve, his, ← isSome_resolve]
    exact ho
  obtain ⟨t'', hcall', hio', his'⟩ := swizzled_swaps ho' hs'
  have hother : ∀ sel, sel ≠ o → sel ≠ s → t'.resolve c sel = t.resolve c sel := by
    intro sel hselo hsels
    exact swizzled_resolve_other hcall ho hs hselo hsels c
  refine ⟨t', t'', hcall, hcall', hio, his, hother, hio'.trans his, his'.trans hio, ?_⟩
  intro sel hselo hsels
  rw [swizzled_resolve_other hcall' ho' hs' hselo hsels c, hother sel hselo hsels]

theorem swizzle_twice_family :
    ∃ t' t'', swizzleMethod family .child .original .swizzled = some t' ∧
      swizzleMethod t' .child .original .swizzled = some t'' ∧
      implementation t' .child .original = implementation family .child .swizzled ∧
      implementation t' .child .swizzled = implementation family .child .original ∧
      (∀ sel, sel ≠ .original → sel ≠ .swizzled →
        t'.resolve .child sel = family.resolve .child sel) ∧
      implementation t'' .child .original = implementation family .child .original ∧
      implementation t'' .child .swizzled = implementation family .child .swizzled ∧
      ∀ sel, sel ≠ .original → sel ≠ .swizzled →
        t''.resolve .child sel = family.resolve .child sel :=
  swizzle_twice family .child .original .swizzled (by decide) (by decide)

/-- No class outside of the subtree of `c` sees a difference. -/
def SparesOthers (t t' : ClassTable N S (Method Imp Types)) (c : N) : Prop :=
  ∀ n, ¬ t.Inherits n c → ∀ sel, t'.resolve n sel = t.resolve n sel

theorem sparesOthers_update_twice (t : ClassTable N S (Method Imp Types)) (c : N)
    (f g : AList (fun _ : S => Method Imp Types) → AList (fun _ : S => Method Imp Types)) :
    SparesOthers t ((t.update c f).update c g) c := by
  intro n hn sel
  have hn' : ¬ (t.update c f).Inherits n c := fun h => hn (ClassTable.inherits_update.mp h)
  rw [ClassTable.resolve_update_outside hn', ClassTable.resolve_update_outside hn]

/-- An exchange of equal implementations changes nothing. -/
theorem exchanged_same {t : ClassTable N S (Method Imp Types)} {c : N} {o s : S}
    {m₁ m₂ : N × Method Imp Types} (h₁ : t.locate c o = some m₁) (h₂ : t.locate c s = some m₂)
    (himp : m₁.2.imp = m₂.2.imp) (n : N) (sel : S) :
    (exchangeImplementations t o s m₁ m₂).resolve n sel = t.resolve n sel := by
  have hm₁ := (ClassTable.locate_spec h₁).2
  have hm₂ := (ClassTable.locate_spec h₂).2
  have hfirst : ∀ a sel, (t.setImplementation m₁.1 o m₂.2.imp).own a sel = t.own a sel := by
    rw [← himp]
    exact ClassTable.own_setImplementation_same hm₁
  have hsecond := ClassTable.own_setImplementation_same ((hfirst m₂.1 s).trans hm₂)
  have hown : ∀ a sel, (exchangeImplementations t o s m₁ m₂).own a sel = t.own a sel := by
    intro a sel
    rw [exchangeImplementations, himp, hsecond, hfirst]
  rw [exchanged_resolve, ClassTable.resolve_eq_owner]
  simp only [hown]

/-- An inherited method is exchanged where it stands, outside of the subtree, so it can only
be spared by an exchange of equal implementations. -/
theorem spared_imp_eq {t : ClassTable N S (Method Imp Types)} {c : N} {o s : S}
    {m₁ m₂ : N × Method Imp Types} (h₁ : t.locate c o = some m₁) (h₂ : t.locate c s = some m₂)
    (hinherited : t.own c s = none)
    (hspares : SparesOthers t (exchangeImplementations t o s m₁ m₂) c) :
    m₁.2.imp = m₂.2.imp := by
  obtain ⟨hinherits, hm₂⟩ := ClassTable.locate_spec h₂
  have hout : ¬ t.Inherits m₂.1 c := by
    intro hback
    rw [← hinherits.antisymm hback, hinherited] at hm₂
    cases hm₂
  have hkept := hspares m₂.1 hout s
  obtain ⟨_, ms, _, _, hms, himps⟩ := exchanged_own h₁ h₂
  rw [exchanged_resolve, ClassTable.owner, ClassTable.locate_of_own hm₂,
    ClassTable.resolve_of_own hm₂, Option.map_some, Option.bind_some, hms] at hkept
  cases hkept
  exact himps.symm

/-- Other classes are spared exactly if the class does not itself have the original method,
or has the swizzled one itself, or both have the same implementation anyway. -/
theorem swizzle_spares_iff (t : ClassTable N S (Method Imp Types)) (c : N) (o s : S)
    (ho : (t.resolve c o).isSome) (hs : (t.resolve c s).isSome) :
    (∃ t', swizzleMethod t c o s = some t' ∧ SparesOthers t t' c) ↔
      t.own c o = none ∨ t.own c s ≠ none ∨ implementation t c o = implementation t c s := by
  obtain ⟨m₁, m₂, h₁, h₂, hcase⟩ := swizzleMethod_cases ho hs
  rw [implementation_of_locate h₁, implementation_of_locate h₂]
  rcases hcase with ⟨hown, hcall⟩ | ⟨hown, hc, hcall⟩
  · refine iff_of_true ⟨_, hcall, ?_⟩ (Or.inl hown)
    exact sparesOthers_update_twice t c _ _
  · constructor
    · intro ⟨t', hcall', hspares⟩
      rw [hcall] at hcall'
      cases hcall'
      by_cases hlocal : t.own c s = none
      · exact Or.inr (Or.inr (congrArg some (spared_imp_eq h₁ h₂ hlocal hspares)))
      · exact Or.inr (Or.inl hlocal)
    · intro hwhen
      refine ⟨_, hcall, ?_⟩
      rcases hwhen with hnone | hlocal | himp
      · rw [hown] at hnone
        cases hnone
      · obtain ⟨m, hm⟩ := Option.ne_none_iff_exists'.mp hlocal
        have hfound := ClassTable.locate_of_own hm
        rw [h₂] at hfound
        cases hfound
        rw [exchangeImplementations, hc]
        exact sparesOthers_update_twice t c _ _
      · intro n _ sel
        exact exchanged_same h₁ h₂ (Option.some.inj himp) n sel

/-- The call changes what the parent and the sibling do. -/
theorem swizzle_reaches_parent :
    (family.resolve .child .original).isSome ∧ (family.resolve .child .swizzled).isSome ∧
      ¬ family.Inherits .parent .child ∧ ¬ family.Inherits .sibling .child ∧
      ∃ t', swizzleMethod family .child .original .swizzled = some t' ∧
        implementation family .parent .swizzled = some 2 ∧
        implementation t' .parent .swizzled = some 1 ∧
        implementation t' .sibling .swizzled = some 1 := by
  have hroot : family.superclass .parent = none := by decide
  have hparent : ¬ family.Inherits .parent .child := by
    intro h
    cases h with
    | step hp _ => rw [hroot] at hp; cases hp
  refine ⟨by decide, by decide, hparent, ?_, _, rfl, by decide, by decide, by decide⟩
  intro h
  cases h with
  | step hp rest =>
    have hsuper : family.superclass .sibling = some .parent := by decide
    rw [hsuper] at hp
    cases hp
    exact hparent rest

/-- With the two selectors the other way round the call spares the others. -/
theorem swizzle_spares_iff_family :
    (¬ ∃ t', swizzleMethod family .child .original .swizzled = some t' ∧
      SparesOthers family t' .child) ∧
    ∃ t', swizzleMethod family .child .swizzled .original = some t' ∧
      SparesOthers family t' .child := by
  constructor
  · rw [swizzle_spares_iff family .child .original .swizzled (by decide) (by decide)]
    decide
  · exact (swizzle_spares_iff family .child .swizzled .original (by decide) (by decide)).mpr
      (Or.inl (by decide))

/-- After `load`, a send of one selector of a pair runs the method written for the other, so
the send of `methodT` inside of `methodT` runs `methodTest`. -/
theorem load_swaps (sels : Selectors S) {t : ClassTable N S (Method Imp Types)} {self : N}
    (ho : (t.resolve self sels.doesNotRecognizeSelector).isSome)
    (hs : (t.resolve self sels.swizzled_doesNotRecognizeSelector).isSome)
    (h₁ : (t.resolve self sels.methodTest).isSome) (h₂ : (t.resolve self sels.methodT).isSome) :
    ∃ t', load sels t self = some t' ∧
      implementation t' self sels.doesNotRecognizeSelector =
        implementation t self sels.swizzled_doesNotRecognizeSelector ∧
      implementation t' self sels.swizzled_doesNotRecognizeSelector =
        implementation t self sels.doesNotRecognizeSelector ∧
      implementation t' self sels.methodTest = implementation t self sels.methodT ∧
      implementation t' self sels.methodT = implementation t self sels.methodTest := by
  have hdistinct := sels.distinct
  simp only [List.nodup_cons, List.mem_cons, List.not_mem_nil, or_false, not_or] at hdistinct
  obtain ⟨⟨_, ho₁, ho₂⟩, ⟨hs₁, hs₂⟩, _⟩ := hdistinct
  obtain ⟨t₁, hcall, hio, his⟩ := swizzled_swaps ho hs
  have hkept₁ := swizzled_resolve_other hcall ho hs (Ne.symm ho₁) (Ne.symm hs₁) self
  have hkept₂ := swizzled_resolve_other hcall ho hs (Ne.symm ho₂) (Ne.symm hs₂) self
  rw [← hkept₁, ClassTable.resolve_eq_locate, Option.isSome_map] at h₁
  rw [← hkept₂, ClassTable.resolve_eq_locate, Option.isSome_map] at h₂
  obtain ⟨m₁, hm₁⟩ := Option.isSome_iff_exists.mp h₁
  obtain ⟨m₂, hm₂⟩ := Option.isSome_iff_exists.mp h₂
  obtain ⟨hi₁, hi₂⟩ := exchanged_swaps hm₁ hm₂
  refine ⟨exchangeImplementations t₁ sels.methodTest sels.methodT m₁ m₂,
    by simp [load, hcall, hm₁, hm₂], ?_, ?_, ?_, ?_⟩
  · rw [implementation, exchanged_resolve_other t₁ ho₁ ho₂]
    exact hio
  · rw [implementation, exchanged_resolve_other t₁ hs₁ hs₂]
    exact his
  · rw [hi₁, ← implementation_of_locate hm₂, implementation, hkept₂]
    rfl
  · rw [hi₂, ← implementation_of_locate hm₁, implementation, hkept₁]
    rfl

def categorySelectors : Selectors String where
  doesNotRecognizeSelector := "doesNotRecognizeSelector:"
  swizzled_doesNotRecognizeSelector := "swizzled_doesNotRecognizeSelector:"
  methodTest := "methodTest"
  methodT := "methodT"
  distinct := by decide

/-- `NSObject` with its own method and the three of the category. -/
def nsObject : ClassTable String String (Method Nat Nat) where
  classes := [⟨"NSObject", none,
    (((AList.insert "doesNotRecognizeSelector:" ⟨0, 0⟩ ∅).insert
      "swizzled_doesNotRecognizeSelector:" ⟨1, 0⟩).insert "methodTest" ⟨2, 1⟩).insert
        "methodT" ⟨3, 1⟩⟩]
  hierarchy := .cons (by decide) (by simp) .nil

theorem load_swaps_nsObject :
    ∃ t', load categorySelectors nsObject "NSObject" = some t' ∧
      implementation t' "NSObject" "doesNotRecognizeSelector:" = some 1 ∧
      implementation t' "NSObject" "swizzled_doesNotRecognizeSelector:" = some 0 ∧
      implementation t' "NSObject" "methodTest" = some 3 ∧
      implementation t' "NSObject" "methodT" = some 2 :=
  load_swaps categorySelectors (by decide) (by decide) (by decide) (by decide)

end BasicDemo.Aspects.HookSelector
