import BasicDemo.Library.Ancestors
import Mathlib.Data.Finset.Card
import Mathlib.Data.Finset.Union
import Mathlib.Logic.Function.Basic

namespace BasicDemo.Aspects
open Library.Classes

/-- An `AspectTracker`. `subclassTrackers` is `selectorNamesToSubclassTrackers`, in which a
set that gets empty is removed, so that a missing entry is the empty set. -/
structure Tracker (N S : Type) where
  trackedClass : N
  selectorNames : Finset S
  subclassTrackers : S → Finset Nat

/-- The trackers created so far, numbered, and the static dictionary that holds one of them
for a class. -/
structure Trackers (N S : Type) where
  heap : Nat → Tracker N S
  created : Nat
  swizzledClassesDict : N → Option Nat

/-- The two errors of `AspectErrorSelectorAlreadyHookedInClassHierarchy`, by what their
descriptions name. -/
inductive HierarchyError (N S : Type) where
  | hookedSubclasses (selectorName : S) (subclassNames : Finset N)
  | hookedIn (selectorName : S) (className : N)

variable {N S I : Type}

namespace Tracker

variable [DecidableEq S]

def addSelectorName (tr : Tracker N S) (selectorName : S) : Tracker N S :=
  { tr with selectorNames := insert selectorName tr.selectorNames }

def removeSelectorName (tr : Tracker N S) (selectorName : S) : Tracker N S :=
  { tr with selectorNames := tr.selectorNames.erase selectorName }

def addSubclassTracker (tr : Tracker N S) (subclassTracker : Nat) (selectorName : S) :
    Tracker N S :=
  { tr with
    subclassTrackers := Function.update tr.subclassTrackers selectorName
      (insert subclassTracker (tr.subclassTrackers selectorName)) }

def removeSubclassTracker (tr : Tracker N S) (subclassTracker : Nat) (selectorName : S) :
    Tracker N S :=
  { tr with
    subclassTrackers := Function.update tr.subclassTrackers selectorName
      ((tr.subclassTrackers selectorName).erase subclassTracker) }

/-- What deregistering a selector does to one tracker on the way up. -/
def removeMark (tr : Tracker N S) (subclassTracker : Option Nat) (selectorName : S) :
    Tracker N S :=
  match subclassTracker with
  | some sub => tr.removeSubclassTracker sub selectorName
  | none => tr.removeSelectorName selectorName

@[simp] theorem addSelectorName_selectorNames (tr : Tracker N S) (s : S) :
    (tr.addSelectorName s).selectorNames = insert s tr.selectorNames := rfl

@[simp] theorem addSelectorName_subclassTrackers (tr : Tracker N S) (s : S) :
    (tr.addSelectorName s).subclassTrackers = tr.subclassTrackers := rfl

@[simp] theorem addSubclassTracker_selectorNames (tr : Tracker N S) (sub : Nat) (s : S) :
    (tr.addSubclassTracker sub s).selectorNames = tr.selectorNames := rfl

@[simp] theorem addSubclassTracker_subclassTrackers (tr : Tracker N S) (sub : Nat) (s : S) :
    (tr.addSubclassTracker sub s).subclassTrackers =
      Function.update tr.subclassTrackers s (insert sub (tr.subclassTrackers s)) := rfl

theorem removeMark_trackedClass (tr : Tracker N S) (sub : Option Nat) (s : S) :
    (tr.removeMark sub s).trackedClass = tr.trackedClass := by
  cases sub <;> rfl

theorem removeMark_selectorNames (tr : Tracker N S) (sub : Option Nat) (s : S) :
    (tr.removeMark sub s).selectorNames ⊆ tr.selectorNames := by
  cases sub with
  | some sub => exact Finset.Subset.refl _
  | none => exact Finset.erase_subset _ _

end Tracker

namespace Trackers

section definitions

variable [DecidableEq N] [DecidableEq S]

def modify (T : Trackers N S) (tracker : Nat) (f : Tracker N S → Tracker N S) : Trackers N S :=
  { T with heap := Function.update T.heap tracker (f (T.heap tracker)) }

def addSubclassTracker (T : Trackers N S) (tracker sub : Nat) (selectorName : S) : Trackers N S :=
  T.modify tracker (fun tr => tr.addSubclassTracker sub selectorName)

def addSelectorName (T : Trackers N S) (tracker : Nat) (selectorName : S) : Trackers N S :=
  T.modify tracker (fun tr => tr.addSelectorName selectorName)

/-- `subclassTrackersHookingSelectorName:`, down to `depth` levels of subclasses. -/
def subclassTrackersHooking (T : Trackers N S) (selectorName : S) : Nat → Nat → Finset Nat
  | 0, _ => ∅
  | depth + 1, tracker =>
    ((T.heap tracker).subclassTrackers selectorName).biUnion (fun sub =>
      (if selectorName ∈ (T.heap sub).selectorNames then {sub} else ∅) ∪
        subclassTrackersHooking T selectorName depth sub)

/-- The names in the tracker of a class; a message to a missing tracker answers nothing. -/
def names (T : Trackers N S) (c : N) : Finset S :=
  match T.swizzledClassesDict c with
  | some tracker => (T.heap tracker).selectorNames
  | none => ∅

/-- `subclassHasHookedSelectorName:` of the tracker of a class. -/
def subclassHasHooked (T : Trackers N S) (c : N) (selectorName : S) : Bool :=
  match T.swizzledClassesDict c with
  | some tracker => (T.heap tracker).subclassTrackers selectorName ≠ ∅
  | none => false

/-- The `trackedClassName`s of `subclassTrackersHookingSelectorName:`. -/
def subclassNames (T : Trackers N S) (c : N) (selectorName : S) (depth : Nat) : Finset N :=
  match T.swizzledClassesDict c with
  | some tracker => (T.subclassTrackersHooking selectorName depth tracker).image
      (fun sub => (T.heap sub).trackedClass)
  | none => ∅

/-- The tracker of a class, created if there is none. -/
def trackerFor (T : Trackers N S) (c : N) : Trackers N S × Nat :=
  match T.swizzledClassesDict c with
  | some tracker => (T, tracker)
  | none =>
    ({ heap := Function.update T.heap T.created ⟨c, ∅, fun _ => ∅⟩
       created := T.created + 1
       swizzledClassesDict := Function.update T.swizzledClassesDict c (some T.created) },
      T.created)

/-- The search for a class that the selector is hooked in already. -/
def search (T : Trackers N S) (klass : N) (selectorName : S) :
    List N → Option (Except (HierarchyError N S) Unit)
  | [] => none
  | currentClass :: rest =>
    if selectorName ∈ T.names currentClass then
      if klass = currentClass then some (.ok ())
      else some (.error (.hookedIn selectorName currentClass))
    else search T klass selectorName rest

/-- Mark one class: as hooked itself, or as having a hooked subclass. -/
def markClass (T : Trackers N S) (c : N) (subclassTracker : Option Nat) (selectorName : S) :
    Trackers N S × Nat :=
  let (T, tracker) := T.trackerFor c
  match subclassTracker with
  | some sub => (T.addSubclassTracker tracker sub selectorName, tracker)
  | none => (T.addSelectorName tracker selectorName, tracker)

def mark (selectorName : S) : List N → Option Nat → Trackers N S → Trackers N S
  | [], _, T => T
  | currentClass :: rest, subclassTracker, T =>
    let (T, tracker) := T.markClass currentClass subclassTracker selectorName
    mark selectorName rest (some tracker) T

/-- The part of `aspect_isSelectorAllowedAndTrack` for class objects. -/
def allowedAndTrack (t : ClassTable N S I) (T : Trackers N S) (klass : N) (selectorName : S) :
    Except (HierarchyError N S) (Trackers N S) :=
  if T.subclassHasHooked klass selectorName then
    .error (.hookedSubclasses selectorName (T.subclassNames klass selectorName t.names.length))
  else
    match T.search klass selectorName (t.chain klass) with
    | some found => found.map (fun _ => T)
    | none => .ok (mark selectorName (t.chain klass) none T)

def removeObjectForKey (T : Trackers N S) (c : N) : Trackers N S :=
  { T with swizzledClassesDict := Function.update T.swizzledClassesDict c none }

/-- Unmark one class. The dictionary of a tracker is never nil, so a tracker is dropped as
soon as its own class has no hook. -/
def unmarkClass (T : Trackers N S) (c : N) (subclassTracker : Option Nat) (selectorName : S) :
    Trackers N S :=
  match T.swizzledClassesDict c with
  | none => T
  | some tracker =>
    let T := T.modify tracker (fun tr => tr.removeMark subclassTracker selectorName)
    if (T.heap tracker).selectorNames.card = 0 then T.removeObjectForKey c else T

def unmark (selectorName : S) : List N → Option Nat → Trackers N S → Trackers N S
  | [], _, T => T
  | currentClass :: rest, subclassTracker, T =>
    unmark selectorName rest (T.swizzledClassesDict currentClass)
      (T.unmarkClass currentClass subclassTracker selectorName)

/-- `aspect_deregisterTrackedSelector`, for a class object. -/
def deregisterTrackedSelector (t : ClassTable N S I) (T : Trackers N S) (self : N)
    (selectorName : S) : Trackers N S :=
  unmark selectorName (t.chain self) none T

/-- The dictionary holds for a class a tracker of that class. -/
def Owned (T : Trackers N S) : Prop :=
  ∀ c tracker, T.swizzledClassesDict c = some tracker →
    tracker < T.created ∧ (T.heap tracker).trackedClass = c

/-- The subclasses whose trackers the tracker of a class holds for a selector. -/
def subclasses (T : Trackers N S) (c : N) (s : S) : Finset N :=
  match T.swizzledClassesDict c with
  | some tracker => ((T.heap tracker).subclassTrackers s).image
      (fun sub => (T.heap sub).trackedClass)
  | none => ∅

/-- A tracker that is held as a subclass tracker is the one in the dictionary. -/
def Current (T : Trackers N S) : Prop :=
  ∀ c tracker s sub, T.swizzledClassesDict c = some tracker →
    sub ∈ (T.heap tracker).subclassTrackers s →
    T.swizzledClassesDict (T.heap sub).trackedClass = some sub

end definitions

section views

variable {T : Trackers N S} {c : N} {tracker : Nat} {f : Tracker N S → Tracker N S}

theorem Owned.same (h : T.Owned) {d : N} (hc : T.swizzledClassesDict c = some tracker)
    (hd : T.swizzledClassesDict d = some tracker) : c = d :=
  (h c tracker hc).2.symm.trans (h d tracker hd).2

@[simp] theorem modify_dict : (T.modify tracker f).swizzledClassesDict = T.swizzledClassesDict :=
  rfl

@[simp] theorem modify_created : (T.modify tracker f).created = T.created := rfl

@[simp] theorem modify_heap_self : (T.modify tracker f).heap tracker = f (T.heap tracker) :=
  Function.update_self ..

theorem modify_heap_other {i : Nat} (h : i ≠ tracker) :
    (T.modify tracker f).heap i = T.heap i :=
  Function.update_of_ne h ..

theorem modify_trackedClass (hf : (f (T.heap tracker)).trackedClass = (T.heap tracker).trackedClass)
    (i : Nat) : ((T.modify tracker f).heap i).trackedClass = (T.heap i).trackedClass := by
  by_cases hi : i = tracker
  · rw [hi, modify_heap_self, hf]
  · rw [modify_heap_other hi]

theorem Owned.modify (h : T.Owned)
    (hf : (f (T.heap tracker)).trackedClass = (T.heap tracker).trackedClass) :
    (T.modify tracker f).Owned := by
  intro d i hd
  rw [modify_trackedClass hf]
  exact h d i hd

theorem Current.modify {tracker : Nat} {f : Tracker N S → Tracker N S} (h : T.Current)
    (hf : (f (T.heap tracker)).trackedClass = (T.heap tracker).trackedClass)
    (hsubs : ∀ s sub, sub ∈ (f (T.heap tracker)).subclassTrackers s →
      sub ∈ (T.heap tracker).subclassTrackers s ∨
        T.swizzledClassesDict (T.heap sub).trackedClass = some sub) :
    (T.modify tracker f).Current := by
  intro d i s sub hd hsub
  rw [modify_trackedClass hf, modify_dict]
  rw [modify_dict] at hd
  by_cases hi : i = tracker
  · rw [hi, modify_heap_self] at hsub
    rw [hi] at hd
    rcases hsubs s sub hsub with hold | hcur
    · exact h d tracker s sub hd hold
    · exact hcur
  · rw [modify_heap_other hi] at hsub
    exact h d i s sub hd hsub

theorem names_eq_empty (h : T.swizzledClassesDict c = none) : T.names c = ∅ := by
  rw [names, h]

theorem names_of (h : T.swizzledClassesDict c = some tracker) :
    T.names c = (T.heap tracker).selectorNames := by
  rw [names, h]

section additions

variable [DecidableEq S]

theorem addSelectorName_current (hcur : T.Current) (tracker : Nat) (s : S) :
    (T.addSelectorName tracker s).Current :=
  hcur.modify rfl (fun _ _ hsub => Or.inl hsub)

theorem addSubclassTracker_current (h : T.Owned) (hcur : T.Current) {b : N} {sub : Nat}
    (hb : T.swizzledClassesDict b = some sub) (tracker : Nat) (s : S) :
    (T.addSubclassTracker tracker sub s).Current := by
  refine hcur.modify rfl ?_
  intro s' i hi
  rw [Tracker.addSubclassTracker_subclassTrackers] at hi
  by_cases hs : s' = s
  · simp only [hs, Function.update_self, Finset.mem_insert] at hi
    rcases hi with rfl | hi
    · rw [(h b i hb).2]
      exact Or.inr hb
    · rw [hs]
      exact Or.inl hi
  · simp only [ne_eq, hs, not_false_eq_true, Function.update_of_ne] at hi
    exact Or.inl hi

end additions

variable [DecidableEq N]

/-- A change of the tracker of one class shows in the names of that class only. -/
theorem names_modify (h : T.Owned) (hc : T.swizzledClassesDict c = some tracker) (d : N) :
    (T.modify tracker f).names d =
      if d = c then (f (T.heap tracker)).selectorNames else T.names d := by
  by_cases hd : d = c
  · rw [if_pos hd, hd, names, modify_dict, hc]
    simp only [modify_heap_self]
  · rw [if_neg hd, names, names, modify_dict]
    cases hi : T.swizzledClassesDict d with
    | none => rfl
    | some i =>
      have hne : i ≠ tracker := fun he => hd (h.same (he ▸ hi) hc)
      simp only [modify_heap_other hne]

theorem subclasses_modify (h : T.Owned) (hc : T.swizzledClassesDict c = some tracker)
    (hf : (f (T.heap tracker)).trackedClass = (T.heap tracker).trackedClass) (d : N) (s : S) :
    (T.modify tracker f).subclasses d s =
      if d = c then ((f (T.heap tracker)).subclassTrackers s).image
        (fun sub => (T.heap sub).trackedClass)
      else T.subclasses d s := by
  by_cases hd : d = c
  · rw [if_pos hd, hd, subclasses, modify_dict, hc]
    simp only [modify_heap_self, modify_trackedClass hf]
  · rw [if_neg hd, subclasses, subclasses, modify_dict]
    cases hi : T.swizzledClassesDict d with
    | none => rfl
    | some i =>
      have hne : i ≠ tracker := fun he => hd (h.same (he ▸ hi) hc)
      simp only [modify_heap_other hne, modify_trackedClass hf]

theorem subclassHasHooked_iff (T : Trackers N S) (c : N) (s : S) :
    T.subclassHasHooked c s = true ↔ (T.subclasses c s).Nonempty := by
  rw [subclassHasHooked, subclasses]
  cases T.swizzledClassesDict c with
  | none => simp
  | some tracker => simp [Finset.nonempty_iff_ne_empty]

end views

section marking

variable [DecidableEq N] {T : Trackers N S}

theorem trackerFor_keeps {b : N} {sub : Nat} (hb : T.swizzledClassesDict b = some sub) (c : N) :
    (T.trackerFor c).1.swizzledClassesDict b = some sub := by
  rw [trackerFor]
  cases hc : T.swizzledClassesDict c with
  | some tracker => exact hb
  | none =>
    have hne : b ≠ c := by
      rintro rfl
      rw [hc] at hb
      cases hb
    simp [hne, hb]

/-- A new tracker is empty, so that the names of no class change. -/
theorem trackerFor_spec (h : T.Owned) (c : N) :
    (T.trackerFor c).1.Owned ∧
    (T.trackerFor c).1.swizzledClassesDict c = some (T.trackerFor c).2 ∧
    ∀ d, (T.trackerFor c).1.names d = T.names d := by
  rw [trackerFor]
  cases hc : T.swizzledClassesDict c with
  | some tracker => exact ⟨h, hc, fun _ => rfl⟩
  | none =>
    have hold : ∀ d i, T.swizzledClassesDict d = some i → i ≠ T.created :=
      fun d i hd => Nat.ne_of_lt (h d i hd).1
    refine ⟨?_, by simp, ?_⟩
    · intro d i hd
      by_cases hdc : d = c
      · simp only [hdc, Function.update_self, Option.some.injEq] at hd
        subst hd
        simp [hdc]
      · simp only [ne_eq, hdc, not_false_eq_true, Function.update_of_ne] at hd
        obtain ⟨hlt, howner⟩ := h d i hd
        simp only [ne_eq, hold d i hd, not_false_eq_true, Function.update_of_ne]
        exact ⟨Nat.lt_succ_of_lt hlt, howner⟩
    · intro d
      by_cases hdc : d = c
      · simp [names, hdc, hc]
      · cases hd : T.swizzledClassesDict d with
        | none => simp [names, hdc, hd]
        | some i => simp [names, hdc, hd, hold d i hd]

theorem trackerFor_current (h : T.Owned) (hcur : T.Current) (c : N) :
    (T.trackerFor c).1.Current ∧
    ∀ d s, (T.trackerFor c).1.subclasses d s = T.subclasses d s := by
  rw [trackerFor]
  cases hc : T.swizzledClassesDict c with
  | some tracker => exact ⟨hcur, fun _ _ => rfl⟩
  | none =>
    have hold : ∀ d i, T.swizzledClassesDict d = some i → d ≠ c ∧ i ≠ T.created := by
      intro d i hd
      refine ⟨?_, Nat.ne_of_lt (h d i hd).1⟩
      rintro rfl
      rw [hc] at hd
      cases hd
    constructor
    · intro d i s sub hd hsub
      by_cases hdc : d = c
      · simp only [hdc, Function.update_self, Option.some.injEq] at hd
        simp [← hd] at hsub
      · simp only [ne_eq, hdc, not_false_eq_true, Function.update_of_ne] at hd
        simp only [ne_eq, (hold d i hd).2, not_false_eq_true, Function.update_of_ne] at hsub
        have hin := hcur d i s sub hd hsub
        obtain ⟨hne, hlt⟩ := hold _ _ hin
        simp only [ne_eq, hlt, not_false_eq_true, Function.update_of_ne, hne, hin]
    · intro d s
      by_cases hdc : d = c
      · simp [subclasses, hdc, hc]
      · cases hd : T.swizzledClassesDict d with
        | none => simp [subclasses, hdc, hd]
        | some i =>
          simp only [subclasses, ne_eq, hdc, not_false_eq_true, Function.update_of_ne, hd,
            (hold d i hd).2]
          refine Finset.image_congr ?_
          intro sub hsub
          simp [(hold _ _ (hcur d i s sub hd hsub)).2]

variable [DecidableEq S]

section operations

variable {c b : N} {tracker sub : Nat} (h : T.Owned)
  (hc : T.swizzledClassesDict c = some tracker) (s : S)

include h hc

theorem names_addSelectorName (d : N) :
    (T.addSelectorName tracker s).names d =
      if d = c then insert s (T.names c) else T.names d := by
  rw [addSelectorName, names_modify h hc]
  simp only [names, hc, Tracker.addSelectorName_selectorNames]

theorem subclasses_addSelectorName (d : N) (s' : S) :
    (T.addSelectorName tracker s).subclasses d s' = T.subclasses d s' := by
  rw [addSelectorName, subclasses_modify h hc rfl]
  split
  · next hd => simp [hd, subclasses, hc]
  · rfl

theorem names_addSubclassTracker (d : N) :
    (T.addSubclassTracker tracker sub s).names d = T.names d := by
  rw [addSubclassTracker, names_modify h hc]
  split
  · next hd => simp [hd, names, hc]
  · rfl

theorem subclasses_addSubclassTracker (hb : T.swizzledClassesDict b = some sub) (d : N) (s' : S) :
    (T.addSubclassTracker tracker sub s).subclasses d s' =
      if d = c ∧ s' = s then insert b (T.subclasses c s) else T.subclasses d s' := by
  have hclass : (T.heap sub).trackedClass = b := (h b sub hb).2
  rw [addSubclassTracker, subclasses_modify h hc rfl]
  by_cases hd : d = c
  · by_cases hs : s' = s
    · simp [hd, hs, subclasses, hc, hclass]
    · simp [hd, hs, subclasses, hc]
  · simp [hd]

end operations

theorem markClass_none_spec (h : T.Owned) (c : N) (s : S) :
    (T.markClass c none s).1.Owned ∧
    (T.markClass c none s).1.swizzledClassesDict c = some (T.markClass c none s).2 ∧
    (∀ d, (T.markClass c none s).1.names d = if d = c then insert s (T.names c) else T.names d) ∧
    (T.Current → (T.markClass c none s).1.Current ∧
      ∀ d s', (T.markClass c none s).1.subclasses d s' = T.subclasses d s') := by
  obtain ⟨howned, hc, hnames⟩ := trackerFor_spec h c
  refine ⟨howned.modify rfl, hc, ?_, ?_⟩
  · intro d
    rw [← hnames c, ← hnames d]
    exact names_addSelectorName howned hc s d
  · intro hcur
    obtain ⟨hcur', hsubs⟩ := trackerFor_current h hcur c
    refine ⟨addSelectorName_current hcur' _ s, ?_⟩
    intro d s'
    rw [← hsubs]
    exact subclasses_addSelectorName howned hc s d s'

theorem markClass_some_spec (h : T.Owned) {b : N} {sub : Nat}
    (hb : T.swizzledClassesDict b = some sub) (c : N) (s : S) :
    (T.markClass c (some sub) s).1.Owned ∧
    (T.markClass c (some sub) s).1.swizzledClassesDict c = some (T.markClass c (some sub) s).2 ∧
    (∀ d, (T.markClass c (some sub) s).1.names d = T.names d) ∧
    (T.Current → (T.markClass c (some sub) s).1.Current ∧
      ∀ d s' x, x ∈ (T.markClass c (some sub) s).1.subclasses d s' ↔
        x ∈ T.subclasses d s' ∨ (s' = s ∧ d = c ∧ x = b)) := by
  obtain ⟨howned, hc, hnames⟩ := trackerFor_spec h c
  have hb' := trackerFor_keeps hb c
  refine ⟨howned.modify rfl, hc, ?_, ?_⟩
  · intro d
    rw [← hnames d]
    exact names_addSubclassTracker howned hc s d
  · intro hcur
    obtain ⟨hcur', hsubs⟩ := trackerFor_current h hcur c
    refine ⟨addSubclassTracker_current howned hcur' hb' _ s, ?_⟩
    intro d s' x
    have hview := subclasses_addSubclassTracker howned hc s hb' d s'
    rw [hsubs, hsubs] at hview
    refine (Finset.ext_iff.mp hview x).trans ?_
    by_cases hds : d = c ∧ s' = s
    · obtain ⟨rfl, rfl⟩ := hds
      simp [or_comm]
    · rw [if_neg hds]
      exact ⟨Or.inl, fun hx => hx.resolve_right (fun hx => hds ⟨hx.2.1, hx.1⟩)⟩

/-- What a loop up the superclasses of a hooked subclass `b` of `c` leaves: no names change,
and each superclass holds the tracker of the next class below it. -/
theorem mark_some_spec (t : ClassTable N S I) (s : S) (c : N) :
    ∀ {T : Trackers N S} {b : N} {sub : Nat}, T.Owned → T.swizzledClassesDict b = some sub →
      t.superclass b = some c →
      (mark s (t.chain c) (some sub) T).Owned ∧
      (∀ d, (mark s (t.chain c) (some sub) T).names d = T.names d) ∧
      (T.Current → (mark s (t.chain c) (some sub) T).Current ∧
        ∀ d s' x, x ∈ (mark s (t.chain c) (some sub) T).subclasses d s' ↔
          x ∈ T.subclasses d s' ∨ (s' = s ∧ t.superclass x = some d ∧ t.Inherits b x)) := by
  induction c using t.up_induction with
  | root c hp =>
    intro T b sub h hb hsuper
    rw [ClassTable.chain_of_root hp]
    obtain ⟨howned, -, hnames, hcurrent⟩ := markClass_some_spec h hb c s
    refine ⟨howned, hnames, ?_⟩
    intro hcur
    refine ⟨(hcurrent hcur).1, ?_⟩
    intro d s' x
    refine ((hcurrent hcur).2 d s' x).trans ?_
    rw [ClassTable.inherits_of_super hsuper, ClassTable.inherits_of_root hp]
    grind
  | sub c p hp ih =>
    intro T b sub h hb hsuper
    rw [ClassTable.chain_of_super hp]
    obtain ⟨howned, hc, hnames, hcurrent⟩ := markClass_some_spec h hb c s
    obtain ⟨howned', hnames', hcurrent'⟩ := ih howned hc hp
    refine ⟨howned', fun d => (hnames' d).trans (hnames d), ?_⟩
    intro hcur
    obtain ⟨hcur₁, hsubs₁⟩ := hcurrent hcur
    obtain ⟨hcur₂, hsubs₂⟩ := hcurrent' hcur₁
    refine ⟨hcur₂, ?_⟩
    intro d s' x
    refine (hsubs₂ d s' x).trans ?_
    rw [hsubs₁, ClassTable.inherits_of_super hsuper]
    grind

theorem mark_none_spec (t : ClassTable N S I) (h : T.Owned) (s : S) (k : N) :
    (mark s (t.chain k) none T).Owned ∧
    (∀ d, (mark s (t.chain k) none T).names d =
      if d = k then insert s (T.names k) else T.names d) ∧
    (T.Current → (mark s (t.chain k) none T).Current ∧
      ∀ d s' x, x ∈ (mark s (t.chain k) none T).subclasses d s' ↔
        x ∈ T.subclasses d s' ∨ (s' = s ∧ t.superclass x = some d ∧ t.Inherits k x)) := by
  obtain ⟨howned, hk, hnames, hcurrent⟩ := markClass_none_spec h k s
  cases hp : t.superclass k with
  | none =>
    rw [ClassTable.chain_of_root hp]
    refine ⟨howned, hnames, ?_⟩
    intro hcur
    refine ⟨(hcurrent hcur).1, ?_⟩
    intro d s' x
    refine (Finset.ext_iff.mp ((hcurrent hcur).2 d s') x).trans ?_
    rw [ClassTable.inherits_of_root hp]
    grind
  | some p =>
    rw [ClassTable.chain_of_super hp]
    obtain ⟨howned', hnames', hcurrent'⟩ := mark_some_spec t s p howned hk hp
    refine ⟨howned', fun d => (hnames' d).trans (hnames d), ?_⟩
    intro hcur
    obtain ⟨hcur₁, hsubs₁⟩ := hcurrent hcur
    obtain ⟨hcur₂, hsubs₂⟩ := hcurrent' hcur₁
    refine ⟨hcur₂, ?_⟩
    intro d s' x
    rw [← hsubs₁]
    exact hsubs₂ d s' x

end marking

section unmarking

variable [DecidableEq N] {T : Trackers N S}

theorem Owned.removeObjectForKey (h : T.Owned) (c : N) : (T.removeObjectForKey c).Owned := by
  intro d i hd
  refine h d i ?_
  by_cases hdc : d = c
  · simp [Trackers.removeObjectForKey, hdc] at hd
  · simpa [Trackers.removeObjectForKey, hdc] using hd

theorem removeObjectForKey_dict (c : N) : (T.removeObjectForKey c).swizzledClassesDict c = none :=
  Function.update_self ..

theorem removeObjectForKey_other {c d : N} (h : d ≠ c) :
    (T.removeObjectForKey c).swizzledClassesDict d = T.swizzledClassesDict d ∧
    (T.removeObjectForKey c).names d = T.names d := by
  have hdict : (T.removeObjectForKey c).swizzledClassesDict d = T.swizzledClassesDict d :=
    Function.update_of_ne h ..
  refine ⟨hdict, ?_⟩
  rw [names, names, hdict]
  rfl

variable [DecidableEq S]

/-- Other classes keep their trackers. The tracker of the class gets no new name, and one
without a name is dropped. -/
theorem unmarkClass_spec (h : T.Owned) (c : N) (sub : Option Nat) (s : S) :
    (T.unmarkClass c sub s).Owned ∧
    (∀ d, d ≠ c → (T.unmarkClass c sub s).swizzledClassesDict d = T.swizzledClassesDict d ∧
      (T.unmarkClass c sub s).names d = T.names d) ∧
    (T.unmarkClass c sub s).names c ⊆ T.names c ∧
    (T.names c = ∅ → (T.unmarkClass c sub s).swizzledClassesDict c = none) := by
  rw [unmarkClass]
  cases hc : T.swizzledClassesDict c with
  | none => exact ⟨h, fun _ _ => ⟨rfl, rfl⟩, fun _ hs => hs, fun _ => hc⟩
  | some tracker =>
    have hsub := (T.heap tracker).removeMark_selectorNames sub s
    have howned : (T.modify tracker (fun tr => tr.removeMark sub s)).Owned :=
      h.modify (Tracker.removeMark_trackedClass ..)
    have hnames := names_modify (f := fun tr => tr.removeMark sub s) h hc
    simp only [modify_heap_self]
    by_cases hempty : ((T.heap tracker).removeMark sub s).selectorNames.card = 0
    · rw [if_pos hempty]
      refine ⟨howned.removeObjectForKey c, ?_, ?_, fun _ => removeObjectForKey_dict c⟩
      · intro d hd
        obtain ⟨hdict, hsame⟩ := removeObjectForKey_other
          (T := T.modify tracker (fun tr => tr.removeMark sub s)) hd
        exact ⟨hdict, hsame.trans ((hnames d).trans (if_neg hd))⟩
      · rw [names_eq_empty (removeObjectForKey_dict c)]
        exact Finset.empty_subset _
    · rw [if_neg hempty]
      refine ⟨howned, fun d hd => ⟨rfl, (hnames d).trans (if_neg hd)⟩, ?_, ?_⟩
      · rw [hnames c, if_pos rfl, names_of hc]
        exact hsub
      · intro hnone
        rw [names_of hc] at hnone
        rw [hnone] at hsub
        exact absurd (Finset.card_eq_zero.mpr (Finset.subset_empty.mp hsub)) hempty

theorem unmark_owned (h : T.Owned) (s : S) (l : List N) (sub : Option Nat) :
    (unmark s l sub T).Owned := by
  induction l generalizing T sub with
  | nil => exact h
  | cons c l ih => exact ih (unmarkClass_spec h c sub s).1 _

/-- No class gets a name, and a class that the loop does not visit loses none. -/
theorem unmark_names (h : T.Owned) (s : S) (l : List N) (sub : Option Nat) (d : N) :
    (unmark s l sub T).names d ⊆ T.names d ∧
    (d ∉ l → (unmark s l sub T).names d = T.names d) := by
  induction l generalizing T sub with
  | nil => exact ⟨fun _ hs => hs, fun _ => rfl⟩
  | cons c l ih =>
    obtain ⟨howned, hother, hself, -⟩ := unmarkClass_spec h c sub s
    obtain ⟨hsub, hsame⟩ := ih howned (T.swizzledClassesDict c)
    constructor
    · by_cases hd : d = c
      · rw [hd] at hsub ⊢
        exact hsub.trans hself
      · rw [(hother d hd).2] at hsub
        exact hsub
    · intro hmem
      rw [List.mem_cons, not_or] at hmem
      exact (hsame hmem.2).trans (hother d hmem.1).2

/-- A class with no name of its own is forgotten when the loop visits it, whatever its
subclasses have hooked. -/
theorem unmark_forgets (h : T.Owned) (s : S) (l : List N) (sub : Option Nat) (d : N)
    (hnames : T.names d = ∅) (hd : d ∈ l ∨ T.swizzledClassesDict d = none) :
    (unmark s l sub T).swizzledClassesDict d = none := by
  induction l generalizing T sub with
  | nil => exact hd.resolve_left List.not_mem_nil
  | cons c l ih =>
    obtain ⟨howned, hother, hself, hdrop⟩ := unmarkClass_spec h c sub s
    by_cases hdc : d = c
    · rw [hdc] at hnames ih ⊢
      rw [hnames] at hself
      exact ih howned _ (Finset.subset_empty.mp hself) (Or.inr (hdrop hnames))
    · obtain ⟨hdict, hsame⟩ := hother d hdc
      refine ih howned _ (hsame.trans hnames) ?_
      rw [hdict]
      exact hd.imp_left (fun hmem => (List.mem_cons.mp hmem).resolve_left hdc)

end unmarking

end Trackers

end BasicDemo.Aspects
