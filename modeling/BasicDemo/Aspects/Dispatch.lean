import BasicDemo.Aspects.Adding

namespace BasicDemo.Aspects
open Library.Classes
open Observing (text)

variable {V : Type}

/-- A run of requests for aspects that stay, in a program where selectors fix the number of
arguments, only root classes implement `forwardInvocation:`, and no object names another one
for a selector that is hooked. -/
structure PlainRun (w₀ : World) (requests : List Request) : Prop where
  start : Start w₀
  run : FairRun w₀ requests
  forwards : ∀ c ∈ w₀.classes.classes, c.super.isSome → c.methods.lookup forwardInvocation = none
  arity : ∀ c ∈ w₀.classes.classes, ∀ m ∈ c.methods.entries, ∀ d ∈ w₀.classes.classes,
    ∀ m' ∈ d.methods.entries, m.1 = m'.1 → m.2.types.length = m'.2.types.length
  permanent : ∀ r ∈ requests, automaticRemoval r.options = false
  direct : ∀ r ∈ requests, ∀ o, w₀.forwardingTarget o r.selector = none

namespace PlainRun

variable {w₀ : World} {requests : List Request}

theorem root_forwards (h : PlainRun w₀ requests) (k p : ClassName)
    (hp : w₀.classes.superclass k = some p) : w₀.classes.own k forwardInvocation = none := by
  obtain ⟨c, hc, hsuper⟩ := Option.bind_eq_some_iff.mp hp
  rw [ClassTable.own, hc, Option.bind_some]
  exact h.forwards c (List.mem_of_find?_eq_some hc) (by rw [hsuper]; rfl)

end PlainRun

section containers

variable {w₀ w : World} {done : List Request} {log : List AspectIdentifier}
  {hooks : ClassName → Selector → Prop}

/-- The aspects of one position in a container. -/
def AspectsContainer.place (c : AspectsContainer) (place : Nat) : List AspectIdentifier :=
  if place = positionBefore then c.beforeAspects
  else if place = positionInstead then c.insteadAspects
  else c.afterAspects

theorem place_new (place : Nat) : AspectsContainer.new.place place = [] := by
  simp [AspectsContainer.place, AspectsContainer.new]

theorem place_of_no_aspects {c : AspectsContainer} (h : c.hasAspects = false) (place : Nat) :
    c.place place = [] := by
  have hempty : c.beforeAspects = [] ∧ c.insteadAspects = [] ∧ c.afterAspects = [] := by
    simpa [AspectsContainer.hasAspects, and_assoc] using h
  simp [AspectsContainer.place, hempty]

theorem collected_place (log : List AspectIdentifier) (x : Target) (s : Selector) {place : Nat}
    (h : place = positionBefore ∨ place = positionInstead ∨ place = positionAfter) :
    (collected log x s).place place = aspectsIn log x s place := by
  rcases h with rfl | rfl | rfl <;> rfl

end containers

section calls

variable {w₀ w : World} {requests : List Request} {log : List AspectIdentifier}
  {hooks : ClassName → Selector → Prop} {o : Object} {s : Selector}

theorem Reached.aware (h : Hooked w₀ requests w hooks) (hstart : Start w₀)
    (hreached : Reached w₀.classes hooks (w.isa o) s) :
    ∃ a, w.classes.Inherits (w.isa o) a ∧ Aware w.classes a := by
  rcases hreached with hself | ⟨a, hin, hhook, -⟩
  · obtain ⟨-, -, -, -, haware⟩ := (h.installed.caught _ _ hself).2
    exact ⟨_, .refl _, haware⟩
  · obtain ⟨_, _, _, _, haware⟩ := (h.installed.caught _ _ hhook).2
    exact ⟨a, (h.installed.inherits_origin (h.isa_mem hstart o)).mpr (Or.inr hin), haware⟩

/-- A message that meets a hook is not sent on to another object. -/
theorem Reached.direct (h : Hooked w₀ requests w hooks) (hplain : PlainRun w₀ requests)
    {k : ClassName} (hreached : Reached w₀.classes hooks k s) (o : Object) :
    w.forwardingTarget o s = none := by
  obtain ⟨l, hhook⟩ : ∃ l, hooks l s := by
    rcases hreached with hself | ⟨a, -, hhook, -⟩
    · exact ⟨k, hself⟩
    · exact ⟨a, hhook⟩
  obtain ⟨r, hr, rfl⟩ := h.selected l s hhook
  rw [h.forwardingTarget]
  exact hplain.direct r hr o

theorem Logged.fair (hrun : FairRun w₀ requests) (hlog : Logged w₀ requests w log hooks)
    {a : AspectIdentifier} (ha : a ∈ log) : ordinary a.selector = true := by
  obtain ⟨r, hr, -, hsel, -⟩ := hlog.requests a ha
  rw [hsel]
  exact (hrun.fair r hr).ordinary

theorem Logged.nodup (hlog : Logged w₀ requests w log hooks) :
    (log.map AspectIdentifier.id).Nodup := by
  rw [hlog.ids]
  exact List.nodup_range'

/-- A hook of a class is met by its objects as long as no class in between has the method
itself. -/
theorem reached_of_class (hstart : Start w₀) (h : Hooked w₀ requests w hooks) {c : ClassName}
    (hhook : hooks c s) (hin : w₀.classes.Inherits (w₀.isa o) c)
    (hbetween : ∀ d, w₀.classes.Inherits (w₀.isa o) d → w₀.classes.Inherits d c → d ≠ c →
      w₀.classes.own d s = none) : Reached w₀.classes hooks (w.isa o) s := by
  refine Or.inr ⟨c, ?_, hhook, ?_⟩
  · rwa [h.origin_isa hstart]
  · rwa [h.origin_isa hstart]

end calls

/-- An aspect of the object, or of a class above it with no method of the selector in
between. -/
def Meets (w₀ : World) (o : Object) (s : Selector) (a : AspectIdentifier) : Prop :=
  a.selector = s ∧ (a.object = .object o ∨
    ∃ c, a.object = .classObject c ∧ w₀.classes.Inherits (w₀.isa o) c ∧
      ∀ d, w₀.classes.Inherits (w₀.isa o) d → w₀.classes.Inherits d c → d ≠ c →
        w₀.classes.own d s = none)

theorem Meets.reached {w₀ w : World} {requests : List Request} {log : List AspectIdentifier}
    {hooks : ClassName → Selector → Prop} {o : Object} {s : Selector} {a : AspectIdentifier}
    (hmeets : Meets w₀ o s a) (hstart : Start w₀) (h : Hooked w₀ requests w hooks)
    (hlog : Logged w₀ requests w log hooks) (ha : a ∈ log) :
    Reached w₀.classes hooks (w.isa o) s := by
  obtain ⟨rfl, hobject | ⟨c, hclass, hin, hbetween⟩⟩ := hmeets
  · obtain ⟨hisa, hreached⟩ := hlog.object a ha o hobject
    rwa [hisa]
  · exact reached_of_class hstart h (hlog.classObject a ha c hclass) hin hbetween

section views

def drawSelector : Selector := text "draw:"

def layoutSelector : Selector := text "layout"

def viewClass : ClassName := text "View"

/-- A root class, and a class with a method that takes an argument and one that takes none. -/
def viewClasses : Classes where
  classes :=
    [⟨viewClass, some rootClass,
        AList.insert drawSelector ⟨.code 1, [text "@", text ":", text "i"]⟩
          (AList.insert layoutSelector ⟨.code 2, [text "@", text ":"]⟩ ∅)⟩,
      ⟨rootClass, none,
        AList.insert forwardInvocation ⟨.code 0, forwardInvocationTypes⟩
          (AList.insert classSelector ⟨.code 3, [text "@", text ":"]⟩ ∅)⟩]
  hierarchy := by
    refine .cons (by decide) ?_ (.cons (by decide) (by simp) .nil)
    intro p hp
    cases hp
    decide

/-- A program with objects of that class. -/
def views : World where
  classes := viewClasses
  classMethods := fun _ _ => false
  classAnswer := fun _ c => c
  answersSignature := fun _ _ => none
  forwardingTarget := fun _ _ => none
  isa := fun _ => viewClass
  containers := fun _ _ => none
  trackers := ⟨fun _ => ⟨rootClass, ∅, fun _ => ∅⟩, 0, fun _ => none⟩
  swizzledClasses := ∅
  tokens := fun _ => none
  created := 0

def viewRequests : List Request :=
  [⟨.classObject viewClass, drawSelector, positionBefore, [text "@?", text "@"]⟩,
    ⟨.object 0, drawSelector, positionAfter, [text "@?", text "@", text "i"]⟩]

theorem views_plain : PlainRun views viewRequests where
  start :=
    { program := ⟨by decide, by decide⟩
      isa := fun _ => (by decide : viewClass ∈ viewClasses.names)
      stated := fun _ => rfl
      containers := fun _ _ => rfl
      trackers := fun _ => rfl
      swizzledClasses := rfl }
  run :=
    { fair := by
        intro r hr
        simp only [viewRequests, List.mem_cons, List.not_mem_nil, or_false] at hr
        rcases hr with rfl | rfl
        · refine ⟨by decide, ?_, by decide⟩
          intro c hc
          cases hc
          decide
        · refine ⟨by decide, ?_, by decide⟩
          intro c hc
          cases hc
      overrides := by
        refine .cons ?_ (.cons (by simp) .nil)
        intro r hr
        rw [List.mem_singleton.mp hr]
        rintro ⟨c, o, d, hc, -, -, hd, hdc, hne, -⟩
        cases hc
        exact hne (hdc.antisymm hd) }
  forwards := by decide
  arity := by decide
  permanent := by decide
  direct := fun _ _ _ => rfl

end views

example : (views.adds viewRequests).bind (fun run =>
    (run.1.send 0 drawSelector [5]).map Prod.snd) =
    some [.block 0 [], .invoked (.code 1) (aliasForSelector drawSelector) [5], .block 1 [5]] := by
  decide +kernel

end BasicDemo.Aspects
