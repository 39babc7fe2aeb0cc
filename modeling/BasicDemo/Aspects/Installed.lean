import BasicDemo.Aspects.Hierarchy
import BasicDemo.Aspects.World

namespace BasicDemo.Aspects
open Library.Classes
open Observing (NSString text)

/-- A selector that the hooks themselves are not made with. -/
def ordinary (s : Selector) : Bool :=
  s ≠ classSelector && s ≠ forwardInvocation && s ≠ aspectsForwardInvocation &&
    !(aspectsMessagePrefix ++ text "_").isPrefixOf s

section selectors

variable {s s' : Selector}

theorem aliasForSelector_eq (s : Selector) :
    aliasForSelector s = (aspectsMessagePrefix ++ text "_") ++ s :=
  (List.append_assoc ..).symm

theorem aliasForSelector_inj (h : aliasForSelector s = aliasForSelector s') : s = s' :=
  List.append_cancel_left (List.append_cancel_left h)

theorem alias_ne_of_ordinary (h : ordinary s = true) (s' : Selector) : s ≠ aliasForSelector s' := by
  rintro rfl
  have hprefix : (aspectsMessagePrefix ++ text "_").isPrefixOf (aliasForSelector s') = true := by
    rw [List.isPrefixOf_iff_prefix, aliasForSelector_eq]
    exact List.prefix_append ..
  simp [ordinary, hprefix] at h

theorem ordinary_ne (h : ordinary s = true) :
    s ≠ classSelector ∧ s ≠ forwardInvocation ∧ s ≠ aspectsForwardInvocation := by
  simp only [ordinary, Bool.and_eq_true, decide_eq_true_eq] at h
  exact ⟨h.1.1.1, h.1.1.2, h.1.2⟩

theorem alias_ne_of_head (s : Selector) (h : s'.head? ≠ some 97) : aliasForSelector s ≠ s' := by
  rintro rfl
  exact h rfl

theorem alias_ne (s : Selector) :
    aliasForSelector s ≠ classSelector ∧ aliasForSelector s ≠ forwardInvocation ∧
      aliasForSelector s ≠ aspectsForwardInvocation :=
  ⟨alias_ne_of_head s (by decide), alias_ne_of_head s (by decide), alias_ne_of_head s (by decide)⟩

end selectors

/-- A program before its first hook: no method is one of those that hooks make. -/
structure Program (t₀ : Classes) : Prop where
  methods : ∀ c ∈ t₀.classes, ∀ m ∈ c.methods.entries,
    m.2.imp.isCode = true ∧ m.1 ≠ aspectsForwardInvocation ∧
      (aspectsMessagePrefix ++ text "_").isPrefixOf m.1 = false
  names : ∀ c ∈ t₀.names, aspectsSubclassSuffix.isSuffixOf c = false

namespace Program

variable {t₀ : Classes} {c : ClassName} {s : Selector} {m : Method Imp Signature}

theorem of_own (h : Program t₀) (hm : t₀.own c s = some m) :
    m.imp.isCode = true ∧ s ≠ aspectsForwardInvocation ∧
      (aspectsMessagePrefix ++ text "_").isPrefixOf s = false := by
  obtain ⟨entry, hentry, -, hlookup⟩ := ClassTable.own_eq_some.mp hm
  exact h.methods entry hentry ⟨s, m⟩ (AList.mem_lookup_iff.mp hlookup)

theorem no_alias (h : Program t₀) (c : ClassName) (s : Selector) :
    t₀.own c (aliasForSelector s) = none := by
  cases hm : t₀.own c (aliasForSelector s) with
  | none => rfl
  | some m =>
    have hno := (h.of_own hm).2.2
    have : (aspectsMessagePrefix ++ text "_").isPrefixOf (aliasForSelector s) = true := by
      rw [List.isPrefixOf_iff_prefix, aliasForSelector_eq]
      exact List.prefix_append ..
    rw [this] at hno
    cases hno

theorem no_forward (h : Program t₀) (c : ClassName) : t₀.own c aspectsForwardInvocation = none := by
  cases hm : t₀.own c aspectsForwardInvocation with
  | none => rfl
  | some m => exact absurd rfl (h.of_own hm).2.1

theorem of_resolve (h : Program t₀) (hm : t₀.resolve c s = some m) : m.imp.isCode = true := by
  rw [ClassTable.resolve_eq_owner] at hm
  obtain ⟨a, -, ha⟩ := Option.bind_eq_some_iff.mp hm
  exact (h.of_own ha).1

theorem ne_msgForward (h : Program t₀) (hm : t₀.resolve c s = some m) : m.imp ≠ .msgForward := by
  intro himp
  have hcode := h.of_resolve hm
  rw [himp] at hcode
  cases hcode

end Program

/-- The class that a class stands for: itself, or the one that it was derived from. -/
def origin (t₀ : Classes) (k : ClassName) : ClassName :=
  if t₀.names.contains k then k else k.take (k.length - aspectsSubclassSuffix.length)

theorem origin_of_mem {t₀ : Classes} {k : ClassName} (h : k ∈ t₀.names) : origin t₀ k = k := by
  rw [origin, if_pos (by simpa using h)]

theorem origin_of_subclass {t₀ : Classes} {c : ClassName}
    (h : c ++ aspectsSubclassSuffix ∉ t₀.names) :
    origin t₀ (c ++ aspectsSubclassSuffix) = c := by
  rw [origin, if_neg (by simpa using h), List.length_append, Nat.add_sub_cancel,
    List.take_left]

theorem subclass_suffix (c : ClassName) :
    aspectsSubclassSuffix.isSuffixOf (c ++ aspectsSubclassSuffix) = true := by
  rw [List.isSuffixOf_iff_suffix]
  exact List.suffix_append ..

theorem Program.subclass_not_mem {t₀ : Classes} (h : Program t₀) (c : ClassName) :
    c ++ aspectsSubclassSuffix ∉ t₀.names := by
  intro hmem
  have hno := h.names _ hmem
  rw [subclass_suffix] at hno
  cases hno

/-- The class has the forwarding of the hooks itself. -/
def Aware (t : Classes) (k : ClassName) : Prop :=
  (t.own k forwardInvocation).map Method.imp = some .aspectsAreBeingCalled

/-- The class has no hook of the selector itself. -/
def Free (t₀ t : Classes) (k : ClassName) (s : Selector) : Prop :=
  t.own k s = t₀.own k s ∧ t.own k (aliasForSelector s) = none

/-- The class forwards the selector, and has the original method under the alias. -/
def Caught (t₀ t : Classes) (k : ClassName) (s : Selector) : Prop :=
  ∃ m, t₀.resolve (origin t₀ k) s = some m ∧ t.own k s = some ⟨.msgForward, m.types⟩ ∧
    t.own k (aliasForSelector s) = some m ∧ Aware t k

/-- A message of the selector meets a hook: one of the class, or one of a class above its
origin with no method of the program in between. -/
def Reached (t₀ : Classes) (hooks : ClassName → Selector → Prop) (k : ClassName) (s : Selector) :
    Prop :=
  hooks k s ∨ ∃ a, t₀.Inherits (origin t₀ k) a ∧ hooks a s ∧
    ∀ d, t₀.Inherits (origin t₀ k) d → t₀.Inherits d a → d ≠ a → t₀.own d s = none

theorem Reached.mono {t₀ : Classes} {hooks hooks' : ClassName → Selector → Prop} {k : ClassName}
    {s : Selector} (h : Reached t₀ hooks k s) (hle : ∀ l s', hooks l s' → hooks' l s') :
    Reached t₀ hooks' k s := by
  rcases h with hself | ⟨a, hin, hhook, hbetween⟩
  · exact Or.inl (hle k s hself)
  · exact Or.inr ⟨a, hin, hle a s hhook, hbetween⟩

theorem not_reached_own {t₀ : Classes} {hooks : ClassName → Selector → Prop} {k : ClassName}
    {s : Selector} (hk : k ∈ t₀.names) (hhook : ¬ hooks k s) (hown : (t₀.own k s).isSome) :
    ¬ Reached t₀ hooks k s := by
  rintro (hself | ⟨a, hin, hhook', hbetween⟩)
  · exact hhook hself
  · rw [origin_of_mem hk] at hin hbetween
    have hne : k ≠ a := by
      rintro rfl
      exact hhook hhook'
    rw [hbetween k (.refl k) hin hne] at hown
    cases hown

/-- The classes with the hooks that were installed since the program started, with classes
`t₀`, if nothing was removed. -/
structure Installed (t₀ t : Classes) (hooks : ClassName → Selector → Prop) : Prop where
  names : ∀ k ∈ t₀.names, k ∈ t.names
  superclass : ∀ k ∈ t₀.names, t.superclass k = t₀.superclass k
  derived : ∀ k ∈ t.names, k ∉ t₀.names → ∃ c ∈ t₀.names, k = c ++ aspectsSubclassSuffix ∧
    t.superclass k = some c ∧ Aware t k ∧
    (t.own k classSelector).map Method.imp = some (.getClass c)
  free : ∀ k s, ordinary s = true → ¬ hooks k s → Free t₀ t k s
  caught : ∀ k s, hooks k s → ordinary s = true ∧ Caught t₀ t k s
  forward : ∀ k, ¬ Aware t k → t.own k forwardInvocation = t₀.own k forwardInvocation ∧
    t.own k aspectsForwardInvocation = none
  aware : ∀ k, Aware t k → (t.own k aspectsForwardInvocation).map Method.imp =
    (t₀.own k forwardInvocation).map Method.imp
  class_selector : ∀ k ∈ t₀.names, t.own k classSelector = t₀.own k classSelector

theorem Program.unaware {t₀ : Classes} (h : Program t₀) (k : ClassName) : ¬ Aware t₀ k := by
  intro haware
  obtain ⟨m, hm, himp⟩ := Option.map_eq_some_iff.mp haware
  have hcode := (h.of_own hm).1
  rw [himp] at hcode
  cases hcode

theorem Program.installed {t₀ : Classes} (h : Program t₀) :
    Installed t₀ t₀ (fun _ _ => False) where
  names := fun _ hk => hk
  superclass := fun _ _ => rfl
  derived := fun _ hk hnot => absurd hk hnot
  free := fun k s _ _ => ⟨rfl, h.no_alias k s⟩
  caught := fun _ _ hfalse => hfalse.elim
  forward := fun k _ => ⟨rfl, h.no_forward k⟩
  aware := fun k haware => absurd haware (h.unaware k)
  class_selector := fun _ _ => rfl

namespace Installed

variable {t₀ t : Classes} {hooks : ClassName → Selector → Prop} {k : ClassName} {s : Selector}

/-- A class that has nothing for the selector itself is as its superclass, in the program as
well as with the hooks. -/
theorem inherited (h : Installed t₀ t hooks) {p : ClassName} (hk : k ∈ t.names)
    (hp : t.superclass k = some p) (hown : t₀.own k s = none) :
    t₀.resolve (origin t₀ k) s = t₀.resolve (origin t₀ p) s := by
  by_cases hk₀ : k ∈ t₀.names
  · have hp₀ : t₀.superclass k = some p := (h.superclass k hk₀).symm.trans hp
    rw [origin_of_mem hk₀, origin_of_mem (ClassTable.superclass_mem hp₀),
      ClassTable.resolve_of_inherited hown hp₀]
  · obtain ⟨c, hc, rfl, hsuper, -⟩ := h.derived k hk hk₀
    obtain rfl := Option.some.inj (hsuper.symm.trans hp)
    rw [origin_of_subclass hk₀, origin_of_mem hc]

theorem root_mem (h : Installed t₀ t hooks) (hk : k ∈ t.names) (hp : t.superclass k = none) :
    k ∈ t₀.names ∧ t₀.superclass k = none := by
  by_cases hk₀ : k ∈ t₀.names
  · exact ⟨hk₀, (h.superclass k hk₀).symm.trans hp⟩
  · obtain ⟨c, -, -, hsuper, -⟩ := h.derived k hk hk₀
    rw [hp] at hsuper
    cases hsuper

theorem resolve_caught {m : Method Imp Signature} (h : Installed t₀ t hooks) (hhook : hooks k s)
    (hm : t₀.resolve (origin t₀ k) s = some m) :
    t.resolve k s = some ⟨.msgForward, m.types⟩ ∧ t.resolve k (aliasForSelector s) = some m := by
  obtain ⟨m', hm', hown, halias, -⟩ := (h.caught k s hhook).2
  obtain rfl := Option.some.inj (hm'.symm.trans hm)
  exact ⟨ClassTable.resolve_of_own hown, ClassTable.resolve_of_own halias⟩

/-- Going up from a class that has no method and no hook of the selector. -/
theorem reached_super (h : Installed t₀ t hooks) {p : ClassName} (hk : k ∈ t.names)
    (hp : t.superclass k = some p) (hhook : ¬ hooks k s) (hown : t₀.own k s = none) :
    Reached t₀ hooks k s ↔ Reached t₀ hooks p s := by
  by_cases hk₀ : k ∈ t₀.names
  · have hp₀ : t₀.superclass k = some p := (h.superclass k hk₀).symm.trans hp
    rw [Reached, Reached, origin_of_mem hk₀, origin_of_mem (ClassTable.superclass_mem hp₀)]
    constructor
    · rintro (hself | ⟨a, hin, hhook', hbetween⟩)
      · exact absurd hself hhook
      · rcases (ClassTable.inherits_of_super hp₀).mp hin with rfl | hin
        · exact absurd hhook' hhook
        · exact Or.inr ⟨a, hin, hhook', fun d hd => hbetween d (.step hp₀ hd)⟩
    · intro hreached
      obtain ⟨a, hin, hhook', hbetween⟩ : ∃ a, t₀.Inherits p a ∧ hooks a s ∧
          ∀ d, t₀.Inherits p d → t₀.Inherits d a → d ≠ a → t₀.own d s = none := by
        rcases hreached with hself | habove
        · exact ⟨p, .refl p, hself, fun d hd hd' hne => absurd (hd'.antisymm hd) hne⟩
        · exact habove
      refine Or.inr ⟨a, .step hp₀ hin, hhook', ?_⟩
      intro d hd hda hne
      rcases (ClassTable.inherits_of_super hp₀).mp hd with rfl | hd
      · exact hown
      · exact hbetween d hd hda hne
  · obtain ⟨c, hc, rfl, hsuper, -⟩ := h.derived k hk hk₀
    obtain rfl := Option.some.inj (hsuper.symm.trans hp)
    rw [Reached, Reached, origin_of_subclass hk₀, origin_of_mem hc]
    constructor
    · exact fun hreached => Or.inr (hreached.resolve_left hhook)
    · rintro (hself | habove)
      · exact Or.inr ⟨c, .refl c, hself, fun d hd hd' hne => absurd (hd'.antisymm hd) hne⟩
      · exact Or.inr habove

/-- A method that is met through a hook is forwarded, and the one of the program is found
under the alias; any other method is the one of the program. -/
theorem resolve_cases (h : Installed t₀ t hooks) (hk : k ∈ t.names) (hs : ordinary s = true) :
    (¬ Reached t₀ hooks k s ∧ t.resolve k s = t₀.resolve (origin t₀ k) s) ∨
    (Reached t₀ hooks k s ∧ ∃ m, t₀.resolve (origin t₀ k) s = some m ∧
      t.resolve k s = some ⟨.msgForward, m.types⟩ ∧ t.resolve k (aliasForSelector s) = some m) := by
  induction k using t.up_induction with
  | root k hp =>
    by_cases hhook : hooks k s
    · obtain ⟨m, hm, -⟩ := (h.caught k s hhook).2
      exact Or.inr ⟨Or.inl hhook, m, hm, h.resolve_caught hhook hm⟩
    · obtain ⟨hk₀, hp₀⟩ := h.root_mem hk hp
      refine Or.inl ⟨?_, ?_⟩
      · rintro (hself | ⟨a, hin, hhook', -⟩)
        · exact hhook hself
        · rw [origin_of_mem hk₀, ClassTable.inherits_of_root hp₀] at hin
          exact hhook (hin ▸ hhook')
      · rw [ClassTable.resolve_eq, hp, (h.free k s hs hhook).1, origin_of_mem hk₀,
          ClassTable.resolve_eq t₀, hp₀]
        rfl
  | sub k p hp ih =>
    by_cases hhook : hooks k s
    · obtain ⟨m, hm, -⟩ := (h.caught k s hhook).2
      exact Or.inr ⟨Or.inl hhook, m, hm, h.resolve_caught hhook hm⟩
    · obtain ⟨hfree, halias⟩ := h.free k s hs hhook
      cases hown : t₀.own k s with
      | some m =>
        have hk₀ : k ∈ t₀.names := by
          by_contra hnot
          rw [ClassTable.own_eq_none_of_not_mem hnot] at hown
          cases hown
        refine Or.inl ⟨not_reached_own hk₀ hhook (by rw [hown]; rfl), ?_⟩
        rw [origin_of_mem hk₀, ClassTable.resolve_of_own hown,
          ClassTable.resolve_of_own (hfree.trans hown)]
      | none =>
        rw [h.reached_super hk hp hhook hown, h.inherited hk hp hown,
          ClassTable.resolve_of_inherited (hfree.trans hown) hp,
          ClassTable.resolve_of_inherited halias hp]
        exact ih (ClassTable.superclass_mem hp)

theorem resolve_reached (h : Installed t₀ t hooks) (hk : k ∈ t.names) (hs : ordinary s = true)
    (hreached : Reached t₀ hooks k s) :
    ∃ m, t₀.resolve (origin t₀ k) s = some m ∧ t.resolve k s = some ⟨.msgForward, m.types⟩ ∧
      t.resolve k (aliasForSelector s) = some m :=
  ((h.resolve_cases hk hs).resolve_left (fun hno => hno.1 hreached)).2

theorem resolve_unreached (h : Installed t₀ t hooks) (hk : k ∈ t.names) (hs : ordinary s = true)
    (hreached : ¬ Reached t₀ hooks k s) : t.resolve k s = t₀.resolve (origin t₀ k) s :=
  ((h.resolve_cases hk hs).resolve_right (fun hno => hreached hno.1)).2

end Installed

section swizzling

variable {t : Classes} {k : ClassName}

theorem own_swizzle_other {l : ClassName} {s : Selector} (hk : k ∈ t.names)
    (h : l = k → s ≠ forwardInvocation ∧ s ≠ aspectsForwardInvocation) :
    (World.swizzleForwardInvocation t k).own l s = t.own l s := by
  have hno : ¬ (l = k ∧ s = forwardInvocation) := fun he => (h he.1).1 he.2
  have hno' : ¬ (l = k ∧ s = aspectsForwardInvocation) := fun he => (h he.1).2 he.2
  rw [World.swizzleForwardInvocation]
  cases t.own k forwardInvocation with
  | none => rw [ClassTable.own_replaceMethod hk, if_neg hno]
  | some original =>
    rw [ClassTable.own_addMethod (by simpa using hk), if_neg hno',
      ClassTable.own_replaceMethod hk, if_neg hno]

theorem aware_swizzle (hk : k ∈ t.names) : Aware (World.swizzleForwardInvocation t k) k := by
  have hne : forwardInvocation ≠ aspectsForwardInvocation := by decide
  rw [Aware, World.swizzleForwardInvocation]
  cases t.own k forwardInvocation with
  | none =>
    rw [ClassTable.own_replaceMethod hk, if_pos ⟨rfl, rfl⟩]
    cases t.own k forwardInvocation <;> rfl
  | some original =>
    rw [ClassTable.own_addMethod (by simpa using hk), if_neg (fun h => hne h.2),
      ClassTable.own_replaceMethod hk, if_pos ⟨rfl, rfl⟩]
    cases t.own k forwardInvocation <;> rfl

theorem own_swizzle_original (hk : k ∈ t.names) (h : t.own k aspectsForwardInvocation = none) :
    ((World.swizzleForwardInvocation t k).own k aspectsForwardInvocation).map Method.imp =
      (t.own k forwardInvocation).map Method.imp := by
  have hne : aspectsForwardInvocation ≠ forwardInvocation := by decide
  rw [World.swizzleForwardInvocation]
  cases t.own k forwardInvocation with
  | none =>
    rw [ClassTable.own_replaceMethod hk, if_neg (fun h => hne h.2), h]
  | some original =>
    rw [ClassTable.own_addMethod (by simpa using hk), if_pos ⟨rfl, rfl⟩,
      ClassTable.own_replaceMethod hk, if_neg (fun h => hne h.2), h]
    rfl

@[simp] theorem names_swizzle (t : Classes) (k : ClassName) :
    (World.swizzleForwardInvocation t k).names = t.names := by
  rw [World.swizzleForwardInvocation]
  cases t.own k forwardInvocation <;> simp

@[simp] theorem superclass_swizzle (t : Classes) (k l : ClassName) :
    (World.swizzleForwardInvocation t k).superclass l = t.superclass l := by
  rw [World.swizzleForwardInvocation]
  cases t.own k forwardInvocation <;> simp

theorem aware_swizzle_iff (hk : k ∈ t.names) (l : ClassName) :
    Aware (World.swizzleForwardInvocation t k) l ↔ l = k ∨ Aware t l := by
  by_cases hl : l = k
  · rw [hl]
    exact iff_of_true (aware_swizzle hk) (Or.inl rfl)
  · rw [Aware, own_swizzle_other hk (fun he => absurd he hl), Aware]
    exact ⟨Or.inr, fun h => h.resolve_left hl⟩

end swizzling

theorem Caught.mono {t₀ t t' : Classes} {k : ClassName} {s : Selector} (h : Caught t₀ t k s)
    (hown : t'.own k s = t.own k s)
    (halias : t'.own k (aliasForSelector s) = t.own k (aliasForSelector s))
    (haware : Aware t k → Aware t' k) : Caught t₀ t' k s := by
  obtain ⟨m, hm, hs, ha, hw⟩ := h
  exact ⟨m, hm, hown.trans hs, halias.trans ha, haware hw⟩

namespace Installed

variable {t₀ t : Classes} {hooks : ClassName → Selector → Prop} {k : ClassName} {s : Selector}

theorem swizzle (h : Installed t₀ t hooks) (hk : k ∈ t.names) (hnot : ¬ Aware t k) :
    Installed t₀ (World.swizzleForwardInvocation t k) hooks := by
  have hother : ∀ l s, s ≠ forwardInvocation → s ≠ aspectsForwardInvocation →
      (World.swizzleForwardInvocation t k).own l s = t.own l s :=
    fun l s h₁ h₂ => own_swizzle_other hk (fun _ => ⟨h₁, h₂⟩)
  have hcommon : ∀ l s, ordinary s = true →
      (World.swizzleForwardInvocation t k).own l s = t.own l s ∧
      (World.swizzleForwardInvocation t k).own l (aliasForSelector s) =
        t.own l (aliasForSelector s) := by
    intro l s hs
    obtain ⟨-, h₁, h₂⟩ := ordinary_ne hs
    obtain ⟨-, h₃, h₄⟩ := alias_ne s
    exact ⟨hother l s h₁ h₂, hother l _ h₃ h₄⟩
  have haware : ∀ l, Aware t l → Aware (World.swizzleForwardInvocation t k) l :=
    fun l hl => (aware_swizzle_iff hk l).mpr (Or.inr hl)
  have hclass : ∀ l, (World.swizzleForwardInvocation t k).own l classSelector =
      t.own l classSelector := fun l => hother l _ (by decide) (by decide)
  refine ⟨?_, ?_, ?_, ?_, ?_, ?_, ?_, ?_⟩
  · intro l hl
    rw [names_swizzle]
    exact h.names l hl
  · intro l hl
    rw [superclass_swizzle]
    exact h.superclass l hl
  · intro l hl hl₀
    rw [names_swizzle] at hl
    obtain ⟨c, hc, rfl, hsuper, haw, hcls⟩ := h.derived l hl hl₀
    exact ⟨c, hc, rfl, by rwa [superclass_swizzle], haware _ haw, by rwa [hclass]⟩
  · intro l s hs hhook
    obtain ⟨hfree, halias⟩ := h.free l s hs hhook
    exact ⟨(hcommon l s hs).1.trans hfree, (hcommon l s hs).2.trans halias⟩
  · intro l s hhook
    obtain ⟨hs, hcaught⟩ := h.caught l s hhook
    exact ⟨hs, hcaught.mono (hcommon l s hs).1 (hcommon l s hs).2 (haware l)⟩
  · intro l hl
    rw [aware_swizzle_iff hk, not_or] at hl
    rw [own_swizzle_other hk (fun he => absurd he hl.1),
      own_swizzle_other hk (fun he => absurd he hl.1)]
    exact h.forward l hl.2
  · intro l hl
    by_cases hlk : l = k
    · rw [hlk, own_swizzle_original hk (h.forward k hnot).2, (h.forward k hnot).1]
    · rw [own_swizzle_other hk (fun he => absurd he hlk)]
      exact h.aware l (((aware_swizzle_iff hk l).mp hl).resolve_left hlk)
  · intro l hl
    rw [hclass]
    exact h.class_selector l hl

end Installed

section subclasses

variable {t t₁ : Classes} {c d : ClassName}

/-- The class that `aspect_hookClass` makes of a new class pair. -/
def derivedFrom (t₁ : Classes) (d c : ClassName) : Classes :=
  World.hookedGetClass (World.swizzleForwardInvocation t₁ d) d c

theorem names_derived (h : t.addClass d c = some t₁) :
    (derivedFrom t₁ d c).names = d :: t.names := by
  rw [derivedFrom, World.hookedGetClass, ClassTable.names_replaceMethod, names_swizzle,
    ClassTable.names_addClass h]

theorem superclass_derived (h : t.addClass d c = some t₁) (l : ClassName) :
    (derivedFrom t₁ d c).superclass l = if l = d then some c else t.superclass l := by
  rw [derivedFrom, World.hookedGetClass, ClassTable.superclass_replaceMethod, superclass_swizzle,
    ClassTable.superclass_addClass h]

theorem mem_names_addClass (h : t.addClass d c = some t₁) : d ∈ t₁.names := by
  rw [ClassTable.names_addClass h]
  exact List.mem_cons_self

theorem own_derived_other (h : t.addClass d c = some t₁) {l : ClassName} (hl : l ≠ d)
    (s : Selector) : (derivedFrom t₁ d c).own l s = t.own l s := by
  have hd := mem_names_addClass h
  rw [derivedFrom, World.hookedGetClass,
    ClassTable.own_replaceMethod (by simpa using hd), if_neg (fun he => hl he.1),
    own_swizzle_other hd (fun he => absurd he hl), ClassTable.own_addClass h, if_neg hl]

theorem own_derived_none (h : t.addClass d c = some t₁) {s : Selector}
    (hs : s ≠ forwardInvocation) (hs' : s ≠ classSelector) :
    (derivedFrom t₁ d c).own d s = none := by
  have hd := mem_names_addClass h
  have hnew : ∀ s, t₁.own d s = none := by
    intro s
    rw [ClassTable.own_addClass h, if_pos rfl]
  rw [derivedFrom, World.hookedGetClass,
    ClassTable.own_replaceMethod (by simpa using hd), if_neg (fun he => hs' he.2)]
  by_cases horiginal : s = aspectsForwardInvocation
  · have := own_swizzle_original hd (hnew aspectsForwardInvocation)
    rw [hnew forwardInvocation, Option.map_none, Option.map_eq_none_iff] at this
    rw [horiginal, this]
  · rw [own_swizzle_other hd (fun _ => ⟨hs, horiginal⟩), hnew]

theorem aware_derived (h : t.addClass d c = some t₁) : Aware (derivedFrom t₁ d c) d := by
  have hd := mem_names_addClass h
  have hne : forwardInvocation ≠ classSelector := by decide
  rw [Aware, derivedFrom, World.hookedGetClass,
    ClassTable.own_replaceMethod (by simpa using hd), if_neg (fun he => hne he.2)]
  exact aware_swizzle hd

theorem class_derived (h : t.addClass d c = some t₁) :
    ((derivedFrom t₁ d c).own d classSelector).map Method.imp = some (.getClass c) := by
  have hd := mem_names_addClass h
  rw [derivedFrom, World.hookedGetClass, ClassTable.own_replaceMethod (by simpa using hd),
    if_pos ⟨rfl, rfl⟩]
  cases (World.swizzleForwardInvocation t₁ d).own d classSelector <;> rfl

end subclasses

namespace Installed

variable {t₀ t t₁ : Classes} {hooks : ClassName → Selector → Prop} {k c : ClassName}
  {s : Selector}

theorem derive (h : Installed t₀ t hooks) (hprog : Program t₀) (hc : c ∈ t₀.names)
    (hadd : t.addClass (c ++ aspectsSubclassSuffix) c = some t₁) :
    Installed t₀ (derivedFrom t₁ (c ++ aspectsSubclassSuffix) c) hooks := by
  obtain ⟨hnew, -, -⟩ := ClassTable.addClass_some hadd
  have hnew₀ := hprog.subclass_not_mem c
  have hold : ∀ l ∈ t₀.names, l ≠ c ++ aspectsSubclassSuffix := by
    rintro l hl rfl
    exact hnew₀ hl
  have haware : ∀ l, l ≠ c ++ aspectsSubclassSuffix →
      (Aware (derivedFrom t₁ (c ++ aspectsSubclassSuffix) c) l ↔ Aware t l) := by
    intro l hl
    rw [Aware, own_derived_other hadd hl, Aware]
  -- The new class has no methods but the two that make it what it is.
  have hnone : ∀ s, t₀.own (c ++ aspectsSubclassSuffix) s = none :=
    ClassTable.own_eq_none_of_not_mem hnew₀
  refine ⟨?_, ?_, ?_, ?_, ?_, ?_, ?_, ?_⟩
  · intro l hl
    rw [names_derived hadd]
    exact List.mem_cons_of_mem _ (h.names l hl)
  · intro l hl
    rw [superclass_derived hadd, if_neg (hold l hl)]
    exact h.superclass l hl
  · intro l hl hl₀
    rw [names_derived hadd] at hl
    by_cases hlk : l = c ++ aspectsSubclassSuffix
    · rw [hlk]
      exact ⟨c, hc, rfl, by rw [superclass_derived hadd, if_pos rfl], aware_derived hadd,
        class_derived hadd⟩
    · obtain ⟨c', hc', heq, hsuper, haw, hcls⟩ :=
        h.derived l ((List.mem_cons.mp hl).resolve_left hlk) hl₀
      refine ⟨c', hc', heq, ?_, (haware l hlk).mpr haw, ?_⟩
      · rwa [superclass_derived hadd, if_neg hlk]
      · rwa [own_derived_other hadd hlk]
  · intro l s hs hhook
    by_cases hlk : l = c ++ aspectsSubclassSuffix
    · obtain ⟨h₁, h₂, -⟩ := ordinary_ne hs
      obtain ⟨h₃, h₄, -⟩ := alias_ne s
      rw [hlk, Free, own_derived_none hadd h₂ h₁, own_derived_none hadd h₄ h₃, hnone]
      exact ⟨rfl, rfl⟩
    · obtain ⟨hfree, halias⟩ := h.free l s hs hhook
      rw [Free, own_derived_other hadd hlk, own_derived_other hadd hlk]
      exact ⟨hfree, halias⟩
  · intro l s hhook
    obtain ⟨hs, hcaught⟩ := h.caught l s hhook
    have hlk : l ≠ c ++ aspectsSubclassSuffix := by
      rintro rfl
      obtain ⟨_, _, hown, _⟩ := hcaught
      rw [ClassTable.own_eq_none_of_not_mem hnew] at hown
      cases hown
    exact ⟨hs, hcaught.mono (own_derived_other hadd hlk s) (own_derived_other hadd hlk _)
      (haware l hlk).mpr⟩
  · intro l hl
    have hlk : l ≠ c ++ aspectsSubclassSuffix := by
      rintro rfl
      exact hl (aware_derived hadd)
    rw [own_derived_other hadd hlk, own_derived_other hadd hlk]
    exact h.forward l (fun haw => hl ((haware l hlk).mpr haw))
  · intro l hl
    by_cases hlk : l = c ++ aspectsSubclassSuffix
    · rw [hlk, hnone, own_derived_none hadd (by decide) (by decide)]
    · rw [own_derived_other hadd hlk]
      exact h.aware l ((haware l hlk).mp hl)
  · intro l hl
    rw [own_derived_other hadd (hold l hl)]
    exact h.class_selector l hl

end Installed

section installing

variable {t : Classes} {k : ClassName} {s : Selector} {m : Method Imp Signature}

theorem installHook_forwarded (h : t.resolve k s = some m) (himp : m.imp = .msgForward) :
    World.installHook t k s = t := by
  rw [World.installHook, h]
  exact if_pos himp

@[simp] theorem names_installHook (t : Classes) (k : ClassName) (s : Selector) :
    (World.installHook t k s).names = t.names := by
  rw [World.installHook]
  cases t.resolve k s with
  | none => rfl
  | some m =>
    dsimp only
    split
    · rfl
    · rw [ClassTable.names_replaceMethod]
      split
      · rfl
      · rw [ClassTable.names_addMethod]

@[simp] theorem superclass_installHook (t : Classes) (k : ClassName) (s : Selector)
    (l : ClassName) : (World.installHook t k s).superclass l = t.superclass l := by
  rw [World.installHook]
  cases t.resolve k s with
  | none => rfl
  | some m =>
    dsimp only
    split
    · rfl
    · rw [ClassTable.superclass_replaceMethod]
      split
      · rfl
      · rw [ClassTable.superclass_addMethod]

/-- The methods of the classes after a first hook. -/
theorem own_installHook (hk : k ∈ t.names) (hm : t.resolve k s = some m)
    (himp : m.imp ≠ .msgForward) (halias : t.resolve k (aliasForSelector s) = none)
    (hne : s ≠ aliasForSelector s) (l : ClassName) (s' : Selector) :
    (World.installHook t k s).own l s' =
      if l = k ∧ s' = s then some ⟨.msgForward, m.types⟩
      else if l = k ∧ s' = aliasForSelector s then some m
      else t.own l s' := by
  have hnone : t.own k (aliasForSelector s) = none := by
    rw [ClassTable.resolve_eq, Option.or_eq_none_iff] at halias
    exact halias.1
  have hkept : (t.addMethod k (aliasForSelector s) m).own k s = t.own k s := by
    rw [ClassTable.own_addMethod hk, if_neg (fun he => hne he.2)]
  rw [World.installHook, hm]
  dsimp only
  rw [if_neg himp, halias, Option.isSome_none, if_neg Bool.false_ne_true,
    ClassTable.own_replaceMethod (by simpa using hk), hkept, ClassTable.own_addMethod hk, hnone]
  -- A method of the class itself is the one that was found, so its types stay.
  cases hown : t.own k s with
  | none => rfl
  | some m' =>
    obtain rfl := Option.some.inj ((ClassTable.resolve_of_own hown).symm.trans hm)
    rfl

theorem aware_installHook (hk : k ∈ t.names) (hm : t.resolve k s = some m)
    (himp : m.imp ≠ .msgForward) (halias : t.resolve k (aliasForSelector s) = none)
    (hs : ordinary s = true) (l : ClassName) :
    Aware (World.installHook t k s) l ↔ Aware t l := by
  rw [Aware, own_installHook hk hm himp halias (alias_ne_of_ordinary hs s),
    if_neg (fun he => (ordinary_ne hs).2.1 he.2.symm),
    if_neg (fun he => (alias_ne s).2.1 he.2.symm), Aware]

end installing

namespace Installed

variable {t₀ t : Classes} {hooks : ClassName → Selector → Prop} {k : ClassName} {s : Selector}
  {m : Method Imp Signature}

theorem install (h : Installed t₀ t hooks) (hk : k ∈ t.names) (hs : ordinary s = true)
    (haware : Aware t k) (hm : t.resolve k s = some m) (himp : m.imp ≠ .msgForward)
    (halias : t.resolve k (aliasForSelector s) = none) :
    Installed t₀ (World.installHook t k s) (fun l s' => hooks l s' ∨ (l = k ∧ s' = s)) := by
  have hown := own_installHook hk hm himp halias (alias_ne_of_ordinary hs s)
  have hother : ∀ l s', s' ≠ s → s' ≠ aliasForSelector s →
      (World.installHook t k s).own l s' = t.own l s' := by
    intro l s' h₁ h₂
    rw [hown, if_neg (fun he => h₁ he.2), if_neg (fun he => h₂ he.2)]
  obtain ⟨hne₁, hne₂, hne₃⟩ := ordinary_ne hs
  obtain ⟨hne₄, hne₅, hne₆⟩ := alias_ne s
  have hforward : ∀ l, (World.installHook t k s).own l forwardInvocation =
      t.own l forwardInvocation := fun l => hother l _ (Ne.symm hne₂) (Ne.symm hne₅)
  have haware' := aware_installHook hk hm himp halias hs
  have hcommon : ∀ l s', ordinary s' = true → ¬ (l = k ∧ s' = s) →
      (World.installHook t k s).own l s' = t.own l s' ∧
      (World.installHook t k s).own l (aliasForSelector s') =
        t.own l (aliasForSelector s') := by
    intro l s' hs' hno
    rw [hown, if_neg hno, if_neg (fun he => alias_ne_of_ordinary hs' s he.2), hown,
      if_neg (fun he => alias_ne_of_ordinary hs s' he.2.symm),
      if_neg (fun he => hno ⟨he.1, aliasForSelector_inj he.2⟩)]
    exact ⟨rfl, rfl⟩
  refine ⟨?_, ?_, ?_, ?_, ?_, ?_, ?_, ?_⟩
  · intro l hl
    rw [names_installHook]
    exact h.names l hl
  · intro l hl
    rw [superclass_installHook]
    exact h.superclass l hl
  · intro l hl hl₀
    rw [names_installHook] at hl
    obtain ⟨c, hc, heq, hsuper, haw, hcls⟩ := h.derived l hl hl₀
    refine ⟨c, hc, heq, by rwa [superclass_installHook], (haware' l).mpr haw, ?_⟩
    rwa [hother l _ (Ne.symm hne₁) (Ne.symm hne₄)]
  · intro l s' hs' hhook
    rw [not_or] at hhook
    obtain ⟨hfree, hnone⟩ := h.free l s' hs' hhook.1
    obtain ⟨h₁, h₂⟩ := hcommon l s' hs' hhook.2
    exact ⟨h₁.trans hfree, h₂.trans hnone⟩
  · intro l s' hhook
    by_cases hnew : l = k ∧ s' = s
    · obtain ⟨rfl, rfl⟩ := hnew
      refine ⟨hs, m, ?_, ?_, ?_, (haware' l).mpr haware⟩
      · rcases h.resolve_cases hk hs with ⟨-, hsame⟩ | ⟨-, m', -, hforwarded, -⟩
        · exact hsame.symm.trans hm
        · rw [hm] at hforwarded
          exact absurd (congrArg Method.imp (Option.some.inj hforwarded)) himp
      · rw [hown, if_pos ⟨rfl, rfl⟩]
      · rw [hown, if_neg (fun he => alias_ne_of_ordinary hs s' he.2.symm), if_pos ⟨rfl, rfl⟩]
    · obtain ⟨hs', hcaught⟩ := h.caught l s' (hhook.resolve_right hnew)
      obtain ⟨h₁, h₂⟩ := hcommon l s' hs' hnew
      exact ⟨hs', hcaught.mono h₁ h₂ (haware' l).mpr⟩
  · intro l hl
    rw [haware'] at hl
    rw [hforward, hother l _ (Ne.symm hne₃) (Ne.symm hne₆)]
    exact h.forward l hl
  · intro l hl
    rw [haware'] at hl
    rw [hother l _ (Ne.symm hne₃) (Ne.symm hne₆)]
    exact h.aware l hl
  · intro l hl
    rw [hother l _ (Ne.symm hne₁) (Ne.symm hne₄)]
    exact h.class_selector l hl

/-- The classes of the program inherit from one another as before. -/
theorem inherits_base (h : Installed t₀ t hooks) {a : ClassName} (hk : k ∈ t₀.names) :
    t.Inherits k a ↔ t₀.Inherits k a := by
  constructor
  · intro hin
    induction hin with
    | refl k => exact .refl k
    | @step k p a hp _ ih =>
      have hp₀ := (h.superclass k hk).symm.trans hp
      exact .step hp₀ (ih (ClassTable.superclass_mem hp₀))
  · intro hin
    induction hin with
    | refl k => exact .refl k
    | @step k p a hp₀ _ ih =>
      exact .step ((h.superclass k hk).trans hp₀) (ih (ClassTable.superclass_mem hp₀))

/-- What a class inherits from is itself or a class of the program above its origin. -/
theorem inherits_origin (h : Installed t₀ t hooks) {a : ClassName} (hk : k ∈ t.names) :
    t.Inherits k a ↔ a = k ∨ t₀.Inherits (origin t₀ k) a := by
  by_cases hk₀ : k ∈ t₀.names
  · rw [origin_of_mem hk₀, h.inherits_base hk₀]
    constructor
    · exact Or.inr
    · rintro (rfl | hin)
      · exact .refl a
      · exact hin
  · obtain ⟨c, hc, rfl, hsuper, -⟩ := h.derived k hk hk₀
    rw [origin_of_subclass hk₀, ClassTable.inherits_of_super hsuper, h.inherits_base hc]

theorem chain_base (h : Installed t₀ t hooks) (hk : k ∈ t₀.names) : t.chain k = t₀.chain k := by
  induction k using t₀.up_induction with
  | root k hp₀ =>
    rw [ClassTable.chain_of_root hp₀, ClassTable.chain_of_root ((h.superclass k hk).trans hp₀)]
  | sub k p hp₀ ih =>
    rw [ClassTable.chain_of_super hp₀, ClassTable.chain_of_super ((h.superclass k hk).trans hp₀),
      ih (ClassTable.superclass_mem hp₀)]

/-- An alias is found only below a hook. -/
theorem hook_of_alias (h : Installed t₀ t hooks) (hs : ordinary s = true)
    (halias : t.resolve k (aliasForSelector s) = some m) : ∃ a, t.Inherits k a ∧ hooks a s := by
  rw [ClassTable.resolve_eq_locate] at halias
  obtain ⟨⟨a, m'⟩, hfound, -⟩ := Option.map_eq_some_iff.mp halias
  obtain ⟨hin, hown⟩ := ClassTable.locate_spec hfound
  refine ⟨a, hin, ?_⟩
  by_contra hnot
  rw [(h.free a s hs hnot).2] at hown
  cases hown

theorem resolve_class (h : Installed t₀ t hooks) (hk : k ∈ t₀.names) :
    t.resolve k classSelector = t₀.resolve k classSelector := by
  induction k using t₀.up_induction with
  | root k hp₀ =>
    rw [ClassTable.resolve_eq, ClassTable.resolve_eq t₀, h.class_selector k hk,
      (h.superclass k hk).trans hp₀, hp₀]
    rfl
  | sub k p hp₀ ih =>
    rw [ClassTable.resolve_eq, ClassTable.resolve_eq t₀, h.class_selector k hk,
      (h.superclass k hk).trans hp₀, hp₀, Option.bind_some, Option.bind_some,
      ih (ClassTable.superclass_mem hp₀)]

/-- A class answers `class` with the one that it was derived from, or as it did in the
program. -/
theorem class_origin (h : Installed t₀ t hooks) (hk : k ∈ t.names) :
    (t.resolve k classSelector).map Method.imp = some (.getClass (origin t₀ k)) ∨
    (origin t₀ k = k ∧ t.resolve k classSelector = t₀.resolve k classSelector) := by
  by_cases hk₀ : k ∈ t₀.names
  · exact Or.inr ⟨origin_of_mem hk₀, h.resolve_class hk₀⟩
  · left
    obtain ⟨c, hc, rfl, -, -, hclass⟩ := h.derived k hk hk₀
    obtain ⟨m, hm, himp⟩ := Option.map_eq_some_iff.mp hclass
    rw [ClassTable.resolve_of_own hm, origin_of_subclass hk₀, ← himp]
    rfl

end Installed

end BasicDemo.Aspects
