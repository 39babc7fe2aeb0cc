import BasicDemo.Aspects.Dispatch

namespace BasicDemo.Aspects
open Library.Classes
open Observing (text)

variable {V : Type}

section containers

variable {c : AspectsContainer} {a b : AspectIdentifier} {place : Nat}

theorem mem_place_removeAspect (h : b ∈ c.place place) (hne : b ≠ a) :
    b ∈ (c.removeAspect a).1.place place := by
  rw [AspectsContainer.removeAspect]
  rw [AspectsContainer.place] at h
  split
  · rw [AspectsContainer.place]
    split
    · next hp =>
      rw [if_pos hp] at h
      exact (List.mem_erase_of_ne hne).mpr h
    · next hp => rwa [if_neg hp] at h
  · split
    · rw [AspectsContainer.place]
      split
      · next hp => rwa [if_pos hp] at h
      · next hp =>
        rw [if_neg hp] at h
        split
        · next hq =>
          rw [if_pos hq] at h
          exact (List.mem_erase_of_ne hne).mpr h
        · next hq => rwa [if_neg hq] at h
    · split
      · rw [AspectsContainer.place]
        split
        · next hp => rwa [if_pos hp] at h
        · next hp =>
          rw [if_neg hp] at h
          split
          · next hq => rwa [if_pos hq] at h
          · next hq =>
            rw [if_neg hq] at h
            exact (List.mem_erase_of_ne hne).mpr h
      · exact h

theorem hasAspects_of_mem (h : b ∈ c.place place) : c.hasAspects = true := by
  by_contra hno
  rw [place_of_no_aspects (by simpa using hno)] at h
  cases h

theorem hasAspects_addAspect_removeAspect (a : AspectIdentifier) :
    ((AspectsContainer.new.addAspect a a.options).removeAspect a).1.hasAspects = false := by
  rw [AspectsContainer.addAspect]
  split
  · simp [AspectsContainer.removeAspect, AspectsContainer.new, AspectsContainer.hasAspects]
  · split
    · simp [AspectsContainer.removeAspect, AspectsContainer.new, AspectsContainer.hasAspects]
    · split
      · simp [AspectsContainer.removeAspect, AspectsContainer.new, AspectsContainer.hasAspects]
      · rfl

end containers

/-- A position that a container has a list for. -/
def ValidPosition (a : AspectIdentifier) : Prop :=
  position a.options = positionBefore ∨ position a.options = positionInstead ∨
    position a.options = positionAfter

instance (a : AspectIdentifier) : Decidable (ValidPosition a) :=
  inferInstanceAs (Decidable (_ ∨ _ ∨ _))

/-- The aspect is in the container of its target. -/
def Registered (w : World) (a : AspectIdentifier) : Prop :=
  a ∈ ((w.containers a.object (aliasForSelector a.selector)).getD .new).place (position a.options)

/-- The aspect is gone with its token, and the others are where they were. -/
structure Removed (log : List AspectIdentifier) (a : AspectIdentifier) (w : World) : Prop where
  gone : ¬ Registered w a
  token : w.tokens a.id = none
  others : ∀ b ∈ log, b ≠ a → ValidPosition b → Registered w b

/-- The name of the derived class leads back to the class: the suffix does not occur earlier. -/
def Restorable (c : ClassName) : Prop :=
  removingOccurrences aspectsSubclassSuffix 0 (c ++ aspectsSubclassSuffix) = c

section removing

variable {w₀ w : World} {requests : List Request} {log : List AspectIdentifier}
  {hooks : ClassName → Selector → Prop} {a b : AspectIdentifier}

/-- Every added aspect is met where it was added. -/
theorem met_at_target (hplain : PlainRun w₀ requests) (h : Hooked w₀ requests w hooks)
    (hlog : Logged w₀ requests w log hooks) (ha : a ∈ log) :
    w.hookedClass a.object ∈ w.classes.names ∧
      Reached w₀.classes hooks (w.hookedClass a.object) a.selector := by
  cases hobject : a.object with
  | object o =>
    obtain ⟨hisa, hreached⟩ := hlog.object a ha o hobject
    refine ⟨h.isa_mem hplain.start o, ?_⟩
    rw [World.hookedClass, hisa]
    exact hreached
  | classObject c =>
    obtain ⟨r, hr, htarget, -⟩ := hlog.requests a ha
    exact ⟨h.installed.names c ((hplain.run.fair r hr).registered c (htarget.symm.trans hobject)),
      Or.inl (hlog.classObject a ha c hobject)⟩

theorem restoreMethod_forwarded {t : Classes} {k : ClassName} {s : Selector} {types : Signature}
    {m : Method Imp Signature} (hfound : t.resolve k s = some ⟨.msgForward, types⟩)
    (halias : t.resolve k (aliasForSelector s) = some m) :
    World.restoreMethod t k s = some (t.replaceMethod k s ⟨m.imp, types⟩) := by
  rw [World.restoreMethod, hfound]
  dsimp only
  rw [if_pos rfl, halias]

theorem deregister_eq (w : World) (x : Target) (s : Selector) :
    ∃ T, w.deregisterTrackedSelector x s = { w with trackers := T } := by
  cases x with
  | object o => exact ⟨w.trackers, rfl⟩
  | classObject c => exact ⟨_, rfl⟩

theorem getContainerForObject_some {x : Target} {s : Selector} {c : AspectsContainer}
    (h : w.containers x (aliasForSelector s) = some c) :
    w.getContainerForObject x s = (w, c) := by
  rw [World.getContainerForObject, h]

/-- The method is restored and the selector deregistered, and then the rest of the work
depends on whether aspects are left. -/
theorem cleanup_eq {x : Target} {s : Selector} {left : AspectsContainer} {types : Signature}
    {m : Method Imp Signature}
    (hfound : w.classes.resolve (w.hookedClass x) s = some ⟨.msgForward, types⟩)
    (halias : w.classes.resolve (w.hookedClass x) (aliasForSelector s) = some m)
    (hleft : w.containers x (aliasForSelector s) = some left) :
    ∃ w₁, w.cleanupHookedClassAndSelector x s =
        (if left.hasAspects then some w₁
          else (w₁.setContainer x (aliasForSelector s) none).restoreClass x) ∧
      ∃ T, w₁ = { w with
        classes := w.classes.replaceMethod (w.hookedClass x) s ⟨m.imp, types⟩
        trackers := T } := by
  obtain ⟨T, hT⟩ := deregister_eq
    { w with classes := w.classes.replaceMethod (w.hookedClass x) s ⟨m.imp, types⟩ } x s
  have hget : World.getContainerForObject { w with
      classes := w.classes.replaceMethod (w.hookedClass x) s ⟨m.imp, types⟩
      trackers := T } x s = (_, left) := getContainerForObject_some hleft
  refine ⟨_, ?_, T, rfl⟩
  rw [World.cleanupHookedClassAndSelector, restoreMethod_forwarded hfound halias]
  dsimp only
  rw [hT, hget]

/-- What a removal has done before it looks whether aspects are left. -/
structure Restoring (w w₁ : World) (a : AspectIdentifier) (m : Method Imp Signature)
    (left : AspectsContainer) : Prop where
  classes : w₁.classes =
    w.classes.replaceMethod (w.hookedClass a.object) a.selector ⟨m.imp, m.types⟩
  isa : w₁.isa = w.isa
  swizzledClasses : w₁.swizzledClasses = w.swizzledClasses
  forwardingTarget : w₁.forwardingTarget = w.forwardingTarget
  container : w₁.containers a.object (aliasForSelector a.selector) = some left
  containers : ∀ x s, ¬ (x = a.object ∧ s = a.selector) →
    (w₁.containers x (aliasForSelector s)).getD .new =
      (w.containers x (aliasForSelector s)).getD .new

theorem mem_collected (hb : b ∈ log) (hvalid : ValidPosition b) :
    b ∈ (collected log b.object b.selector).place (position b.options) := by
  rw [collected_place _ _ _ hvalid]
  exact List.mem_filter.mpr ⟨hb, by simp⟩

theorem mem_aspectsIn_self (ha : a ∈ log) (place : Nat) :
    a ∈ aspectsIn log a.object a.selector place ↔ position a.options = place := by
  simp [aspectsIn, ha]

/-- A removal succeeds for an aspect with a position that there is a list for. -/
theorem removeAspect_success (ha : a ∈ log) :
    ((collected log a.object a.selector).removeAspect a).2 = decide (ValidPosition a) := by
  simp only [AspectsContainer.removeAspect, collected, mem_aspectsIn_self ha, ValidPosition]
  split
  · next hb => simp [hb]
  · next hb =>
    split
    · next hi => simp [hi]
    · next hi =>
      split
      · next hafter => simp [hafter]
      · next hafter => simp [hb, hi, hafter]

/-- No list has the aspect any more. -/
theorem not_mem_removeAspect (hnodup : log.Nodup) (ha : a ∈ log) (place : Nat) :
    a ∉ ((collected log a.object a.selector).removeAspect a).1.place place := by
  have herase : ∀ p, a ∉ (aspectsIn log a.object a.selector p).erase a :=
    fun p => (hnodup.filter _).not_mem_erase
  have hother : ∀ p, position a.options ≠ p → a ∉ aspectsIn log a.object a.selector p :=
    fun p hne hin => hne ((mem_aspectsIn_self ha p).mp hin)
  simp only [AspectsContainer.removeAspect, collected, mem_aspectsIn_self ha]
  split
  · next hb =>
    rw [AspectsContainer.place]
    split
    · exact herase _
    · split
      · exact hother _ (by rw [hb]; decide)
      · exact hother _ (by rw [hb]; decide)
  · next hb =>
    split
    · next hi =>
      rw [AspectsContainer.place]
      split
      · exact hother _ hb
      · split
        · exact herase _
        · exact hother _ (by rw [hi]; decide)
    · next hi =>
      split
      · rw [AspectsContainer.place]
        split
        · exact hother _ hb
        · split
          · exact hother _ hi
          · exact herase _
      · next hafter =>
        rw [AspectsContainer.place]
        split
        · exact hother _ hb
        · split
          · exact hother _ hi
          · exact hother _ hafter

theorem remove_eq (hplain : PlainRun w₀ requests) (h : Hooked w₀ requests w hooks)
    (hlog : Logged w₀ requests w log hooks) (ha : a ∈ log) :
    ∃ m w₁, w₀.classes.resolve (origin w₀.classes (w.hookedClass a.object)) a.selector = some m ∧
      Restoring w w₁ a m ((collected log a.object a.selector).removeAspect a).1 ∧
      w.remove a.id =
        ((if ((collected log a.object a.selector).removeAspect a).1.hasAspects then some w₁
          else (w₁.setContainer a.object (aliasForSelector a.selector) none).restoreClass
            a.object).map
          (fun w => ({ w with tokens := Function.update w.tokens a.id none },
            .ok (decide (ValidPosition a))))) := by
  obtain ⟨hk, hreached⟩ := met_at_target hplain h hlog ha
  obtain ⟨m, hm, hfound, halias⟩ :=
    h.installed.resolve_reached hk (hlog.fair hplain.run ha) hreached
  obtain ⟨hcontainer, containers, hget, hsame⟩ :=
    World.getContainerForObject_eq w a.object a.selector
  rw [World.remove, hlog.tokens a ha]
  dsimp only
  rw [hget, hcontainer, hlog.containers]
  have hsuccess := removeAspect_success ha
  generalize (collected log a.object a.selector).removeAspect a = removed at hsuccess ⊢
  obtain ⟨left, success⟩ := removed
  subst hsuccess
  dsimp only
  have hclass : World.hookedClass
      (World.setContainer { w with containers := containers } a.object
        (aliasForSelector a.selector) (some left)) a.object = w.hookedClass a.object := by
    cases a.object <;> rfl
  have hcontainers := World.setContainer_containers { w with containers := containers } a.object
  have hleft := hcontainers a.object a.selector a.selector (some left)
  rw [if_pos ⟨rfl, rfl⟩] at hleft
  obtain ⟨w₁, hcleanup, T, hw₁⟩ := cleanup_eq (w := World.setContainer
    { w with containers := containers } a.object (aliasForSelector a.selector) (some left))
    (by rw [hclass]; exact hfound) (by rw [hclass]; exact halias) hleft
  rw [hcleanup]
  refine ⟨m, w₁, hm, ?_, rfl⟩
  rw [hclass] at hw₁
  subst hw₁
  refine ⟨rfl, rfl, rfl, rfl, hleft, ?_⟩
  intro x s hne
  refine (congrArg (fun c => c.getD .new) (hcontainers x a.selector s (some left))).trans ?_
  rw [if_neg hne]
  exact hsame x s

theorem undoSwizzle_same (w : World) (c : ClassName) :
    (w.undoSwizzleClassInPlace c).isa = w.isa ∧
    (w.undoSwizzleClassInPlace c).containers = w.containers ∧
    (w.undoSwizzleClassInPlace c).forwardingTarget = w.forwardingTarget := by
  rw [World.undoSwizzleClassInPlace]
  split
  · exact ⟨rfl, rfl, rfl⟩
  · exact ⟨rfl, rfl, rfl⟩

theorem resolve_undoSwizzle_other (w : World) (c k : ClassName) {s : Selector}
    (hs : s ≠ forwardInvocation) :
    (w.undoSwizzleClassInPlace c).classes.resolve k s = w.classes.resolve k s := by
  rw [World.undoSwizzleClassInPlace]
  split
  · dsimp only
    rw [World.undoSwizzleForwardInvocation]
    split
    · exact ClassTable.resolve_replaceMethod_other _ _ hs _ _
    · rfl
  · rfl

/-- Giving the class back changes neither ordinary methods, nor the classes of other objects,
nor containers. -/
theorem restoreClass_spec (hplain : PlainRun w₀ requests) (h : Hooked w₀ requests w hooks)
    (hlog : Logged w₀ requests w log hooks) (ha : a ∈ log)
    (hrestorable : ∀ o, a.object = .object o → Restorable (w₀.isa o)) (w₁ : World)
    (hisa : w₁.isa = w.isa) (hnames : w₁.classes.names = w.classes.names) :
    ∃ w', w₁.restoreClass a.object = some w' ∧ w'.containers = w₁.containers ∧
      (∀ o, a.object ≠ .object o → w'.isa o = w₁.isa o) ∧
      ∀ k s, s ≠ forwardInvocation → w'.classes.resolve k s = w₁.classes.resolve k s := by
  cases hobject : a.object with
  | classObject c =>
    obtain ⟨r, hr, htarget, -⟩ := hlog.requests a ha
    have hc := (hplain.run.fair r hr).registered c (htarget.symm.trans hobject)
    refine ⟨w₁.undoSwizzleClassInPlace c, ?_, (undoSwizzle_same w₁ c).2.1, ?_, ?_⟩
    · rw [World.restoreClass, hplain.start.program.names c hc, if_neg Bool.false_ne_true]
    · exact fun o _ => congrFun (undoSwizzle_same w₁ c).1 o
    · exact fun k s hs => resolve_undoSwizzle_other w₁ c k hs
  | object o =>
    obtain ⟨hsub, -⟩ := hlog.object a ha o hobject
    have hmem : w₀.isa o ∈ w₁.classes.names := by
      rw [hnames]
      exact h.installed.names _ (hplain.start.isa o)
    refine ⟨w₁.setClass o (w₀.isa o), ?_, rfl, ?_, fun _ _ _ => rfl⟩
    · rw [World.restoreClass, hisa, hsub, if_pos (subclass_suffix _)]
      dsimp only
      rw [hrestorable o hobject, if_pos (by simpa using hmem)]
    · intro o' ho'
      refine Function.update_of_ne ?_ ..
      rintro rfl
      exact ho' rfl

theorem send_plain {o : Object} {s : Selector} {imp : Imp}
    (h : (w.classes.resolve (w.isa o) s).map Method.imp = some imp) (himp : imp ≠ .msgForward)
    (arguments : List V) : w.send o s arguments = some (w, [.invoked imp s arguments]) := by
  obtain ⟨m, hm, rfl⟩ := Option.map_eq_some_iff.mp h
  rw [World.send, hm]
  exact if_neg himp

/-- Where no request hooks a class above, no hook is met. -/
theorem not_reached_base (h : Hooked w₀ requests w hooks) {k : ClassName} {s : Selector}
    (hk : k ∈ w₀.classes.names)
    (hnone : ∀ r ∈ requests, r.selector = s → ∀ c, r.target = .classObject c →
      ¬ w₀.classes.Inherits k c) : ¬ Reached w₀.classes hooks k s := by
  have hno : ∀ c, w₀.classes.Inherits k c → ¬ hooks c s := by
    intro c hin hhook
    obtain ⟨r, hr, htarget, hsel⟩ := h.requested c (hin.mem_names hk) s hhook
    exact hnone r hr hsel c htarget hin
  intro hreached
  rcases hreached with hself | ⟨c, hin, hhook, -⟩
  · exact hno k (.refl k) hself
  · rw [origin_of_mem hk] at hin
    exact hno c hin hhook

/-- A removal restores the method for everyone: no object of the class calls an aspect of the
selector any more. -/
theorem remove_restores (hplain : PlainRun w₀ requests) (h : Hooked w₀ requests w hooks)
    (hlog : Logged w₀ requests w log hooks) (ha : a ∈ log)
    (hrestorable : ∀ o, a.object = .object o → Restorable (w₀.isa o)) :
    ∃ w', w.remove a.id = some (w', .ok (decide (ValidPosition a))) ∧ Removed log a w' ∧
      ∀ o (arguments : List V), a.object ≠ .object o → w.isa o = w.hookedClass a.object →
        ∃ m, w₀.classes.resolve (w₀.isa o) a.selector = some m ∧
          w'.send o a.selector arguments = some (w', [.invoked m.imp a.selector arguments]) := by
  obtain ⟨m, w₁, hm, hrestoring, hremove⟩ := remove_eq hplain h hlog ha
  obtain ⟨hk, -⟩ := met_at_target hplain h hlog ha
  have hs := hlog.fair hplain.run ha
  have hnodup : log.Nodup := .of_map _ hlog.nodup
  have himp := hplain.start.program.ne_msgForward hm
  have hfound : (w₁.classes.resolve (w.hookedClass a.object) a.selector).map Method.imp =
      some m.imp := by
    rw [hrestoring.classes]
    exact ClassTable.resolve_replaceMethod_self hk ..
  -- Aspects under another key are where they were.
  have hother : ∀ b ∈ log, ValidPosition b →
      ¬ (b.object = a.object ∧ b.selector = a.selector) → Registered w₁ b := by
    intro b hb hvalid hne
    rw [Registered, hrestoring.containers _ _ hne, hlog.containers]
    exact mem_collected hb hvalid
  have hsame : ∀ b ∈ log, b ≠ a → ValidPosition b → b.object = a.object →
      b.selector = a.selector → b ∈
        (((collected log a.object a.selector).removeAspect a).1).place (position b.options) := by
    intro b hb hne hvalid hobject hsel
    refine mem_place_removeAspect ?_ hne
    rw [← hobject, ← hsel]
    exact mem_collected hb hvalid
  have hsend : ∀ w' : World, (∀ o, a.object ≠ .object o → w'.isa o = w.isa o) →
      (∀ k, w'.classes.resolve k a.selector = w₁.classes.resolve k a.selector) →
      ∀ o (arguments : List V), a.object ≠ .object o → w.isa o = w.hookedClass a.object →
        ∃ m, w₀.classes.resolve (w₀.isa o) a.selector = some m ∧
          w'.send o a.selector arguments = some (w', [.invoked m.imp a.selector arguments]) := by
    intro w' hisa hclasses o arguments ho hclass
    refine ⟨m, ?_, send_plain ?_ himp arguments⟩
    · rw [← h.origin_isa hplain.start, hclass]
      exact hm
    · rw [hisa o ho, hclass, hclasses]
      exact hfound
  by_cases hleft : ((collected log a.object a.selector).removeAspect a).1.hasAspects = true
  · rw [if_pos hleft] at hremove
    refine ⟨_, hremove, ⟨?_, Function.update_self .., ?_⟩, ?_⟩
    · change ¬ a ∈ ((w₁.containers a.object (aliasForSelector a.selector)).getD .new).place _
      rw [hrestoring.container]
      exact not_mem_removeAspect hnodup ha _
    · intro b hb hne hvalid
      by_cases hkey : b.object = a.object ∧ b.selector = a.selector
      · have hin := hsame b hb hne hvalid hkey.1 hkey.2
        change b ∈ ((w₁.containers b.object (aliasForSelector b.selector)).getD .new).place _
        rw [hkey.1, hkey.2, hrestoring.container]
        exact hin
      · exact hother b hb hvalid hkey
    · exact hsend _ (fun o _ => congrFun hrestoring.isa o) (fun _ => rfl)
  · rw [if_neg hleft] at hremove
    obtain ⟨w', hrestore, hcontainers, hisa, hclasses⟩ := restoreClass_spec hplain h hlog ha
      hrestorable (w₁.setContainer a.object (aliasForSelector a.selector) none)
      hrestoring.isa (by
        change w₁.classes.names = w.classes.names
        rw [hrestoring.classes, ClassTable.names_replaceMethod])
    rw [hrestore] at hremove
    refine ⟨_, hremove, ⟨?_, Function.update_self .., ?_⟩, ?_⟩
    · change ¬ a ∈ ((w'.containers a.object (aliasForSelector a.selector)).getD .new).place _
      rw [hcontainers, World.setContainer_containers, if_pos ⟨rfl, rfl⟩, Option.getD_none,
        place_new]
      exact List.not_mem_nil
    · intro b hb hne hvalid
      by_cases hkey : b.object = a.object ∧ b.selector = a.selector
      · exact absurd (hasAspects_of_mem (hsame b hb hne hvalid hkey.1 hkey.2)) hleft
      · change b ∈ ((w'.containers b.object (aliasForSelector b.selector)).getD .new).place _
        rw [hcontainers, World.setContainer_containers, if_neg hkey]
        exact hother b hb hvalid hkey
    · refine hsend _ ?_ ?_
      · exact fun o ho => (hisa o ho).trans (congrFun hrestoring.isa o)
      · exact fun k => hclasses k _ (ordinary_ne hs).2.1

theorem aspectsIn_only (hnodup : log.Nodup) (ha : a ∈ log)
    (honly : ∀ b ∈ log, b.object = a.object → b.selector = a.selector → b = a) (place : Nat) :
    aspectsIn log a.object a.selector place = aspectsIn [a] a.object a.selector place := by
  have hfilter : log.filter (· == a) = [a] := by
    rw [List.filter_beq, List.count_eq_one_of_mem hnodup ha]
    rfl
  rw [aspectsIn, aspectsIn, ← hfilter, List.filter_filter]
  refine List.filter_congr (fun b hb => ?_)
  have := honly b hb
  rw [Bool.eq_iff_iff]
  simp only [decide_eq_true_eq, Bool.and_eq_true, beq_iff_eq]
  exact ⟨fun h => ⟨h, this h.1 h.2.1⟩, fun h => h.1⟩

/-- Nothing is left in a container from which its only aspect is removed. -/
theorem nothing_left (hnodup : log.Nodup) (ha : a ∈ log)
    (honly : ∀ b ∈ log, b.object = a.object → b.selector = a.selector → b = a) :
    ((collected log a.object a.selector).removeAspect a).1.hasAspects = false := by
  have hcollected : collected log a.object a.selector =
      AspectsContainer.new.addAspect a a.options := by
    have hone := collected_append [] a a.object a.selector
    rw [if_pos ⟨rfl, rfl⟩] at hone
    rw [collected, aspectsIn_only hnodup ha honly, aspectsIn_only hnodup ha honly,
      aspectsIn_only hnodup ha honly]
    exact hone
  rw [hcollected]
  exact hasAspects_addAspect_removeAspect a

theorem Logged.direct (hplain : PlainRun w₀ requests) (hlog : Logged w₀ requests w log hooks)
    (ha : a ∈ log) (o : Object) : w₀.forwardingTarget o a.selector = none := by
  obtain ⟨r, hr, -, hsel, -⟩ := hlog.requests a ha
  rw [hsel]
  exact hplain.direct r hr o

end removing

/-- The program's root class implements `forwardInvocation:`, and no request hooks a root
class. -/
structure RootForwards (w₀ : World) (requests : List Request) (f : Method Imp Signature) :
    Prop where
  implements : w₀.classes.own rootClass forwardInvocation = some f
  unhooked : ∀ r ∈ requests, ∀ k, r.target = .classObject k → (w₀.classes.superclass k).isSome

section roots

variable {w₀ w : World} {requests : List Request} {log : List AspectIdentifier}
  {hooks : ClassName → Selector → Prop} {f : Method Imp Signature} {c : ClassName}

theorem RootForwards.superclass (hplain : PlainRun w₀ requests)
    (hroot : RootForwards w₀ requests f) : w₀.classes.superclass rootClass = none := by
  cases hp : w₀.classes.superclass rootClass with
  | none => rfl
  | some p =>
    have := hplain.root_forwards rootClass p hp
    rw [hroot.implements] at this
    cases this

end roots

section views

end views

/-- Removing the only aspect of a selector from an object gives the object its class back. A
message that no class above hooks then goes to the method of the program; this holds for the
other selectors as well, although their aspects for the object stay registered. -/
theorem removal_unhooks_the_object {w₀ : World} {requests : List Request}
    (hplain : PlainRun w₀ requests) :
    ∃ w log, w₀.adds requests = some (w, log) ∧
      ∀ a ∈ log, ∀ o, a.object = .object o → Restorable (w₀.isa o) →
        (∀ a' ∈ log, a'.object = a.object → a'.selector = a.selector → a' = a) →
        ∃ w', w.remove a.id = some (w', .ok (decide (ValidPosition a))) ∧ Removed log a w' ∧
          w'.isa o = w₀.isa o ∧
          ∀ s m (arguments : List V), ordinary s = true →
            w₀.classes.resolve (w₀.isa o) s = some m →
            (∀ r ∈ requests, r.selector = s → ∀ c, r.target = .classObject c →
              ¬ w₀.classes.Inherits (w₀.isa o) c) →
            w'.send o s arguments = some (w', [.invoked m.imp s arguments]) := by
  obtain ⟨w, log, hooks, hadds, h, hlog⟩ := adds_spec hplain.start hplain.run
  refine ⟨w, log, hadds, ?_⟩
  intro a ha o hobject hrestorable honly
  have hrestorable' : ∀ o', a.object = .object o' → Restorable (w₀.isa o') := by
    intro o' ho'
    cases hobject.symm.trans ho'
    exact hrestorable
  obtain ⟨w', hremove', hremoved, -⟩ := remove_restores (V := V) hplain h hlog ha hrestorable'
  obtain ⟨m₁, w₁, -, hrestoring, hremove⟩ := remove_eq hplain h hlog ha
  obtain ⟨hsub, -⟩ := hlog.object a ha o hobject
  have hclasses := hrestoring.classes
  have hmem : w₀.isa o ∈ w₁.classes.names := by
    rw [hclasses, ClassTable.names_replaceMethod]
    exact h.installed.names _ (hplain.start.isa o)
  have hisa : (w₁.setContainer (.object o) (aliasForSelector a.selector) none).isa o =
      w₀.isa o ++ aspectsSubclassSuffix := (congrFun hrestoring.isa o).trans hsub
  rw [nothing_left (List.Nodup.of_map _ hlog.nodup) ha honly, if_neg Bool.false_ne_true, hobject,
    World.restoreClass, hisa, if_pos (subclass_suffix _)] at hremove
  dsimp only at hremove
  rw [hrestorable, if_pos (by simpa [World.setContainer] using hmem), hremove'] at hremove
  obtain ⟨rfl, -⟩ := Prod.mk.inj (Option.some.inj hremove)
  have hback : ∀ w : World, (w.setClass o (w₀.isa o)).isa o = w₀.isa o :=
    fun w => Function.update_self ..
  refine ⟨_, hremove', hremoved, hback _, ?_⟩
  intro s m arguments hs hm hnone
  have hfound : w₁.classes.resolve (w₀.isa o) s = some m := by
    have hbase := hplain.start.isa o
    have hsame := h.installed.resolve_unreached (h.installed.names _ hbase) hs
      (not_reached_base h hbase hnone)
    rw [origin_of_mem hbase, hm] at hsame
    -- The class above the derived one does not see the restored method.
    have houtside : ¬ w.classes.Inherits (w₀.isa o) (w.hookedClass a.object) := by
      intro hin
      rw [hobject, World.hookedClass, hsub] at hin
      have hmem := ((h.installed.inherits_base hbase).mp hin).mem_names hbase
      exact hplain.start.program.subclass_not_mem _ hmem
    rw [hclasses, ← hsame]
    exact ClassTable.resolve_update_outside houtside ..
  apply send_plain
  · dsimp only
    rw [hback]
    exact congrArg (Option.map Method.imp) hfound
  · exact hplain.start.program.ne_msgForward hm

/-- Two aspects of one object, for different selectors. -/
def objectRequests : List Request :=
  [⟨.object 0, drawSelector, positionBefore, [text "@?", text "@"]⟩,
    ⟨.object 0, layoutSelector, positionBefore, [text "@?", text "@"]⟩]

theorem objects_plain : PlainRun views objectRequests where
  start := views_plain.start
  run :=
    { fair := by
        intro r hr
        simp only [objectRequests, List.mem_cons, List.not_mem_nil, or_false] at hr
        rcases hr with rfl | rfl
        all_goals
          refine ⟨by decide, ?_, by decide⟩
          intro c hc
          cases hc
      overrides := by
        refine .cons ?_ (.cons (by simp) .nil)
        intro r _ hover
        obtain ⟨c, o, d, hc, -⟩ := hover
        cases hc }
  forwards := by decide
  arity := by decide
  permanent := by decide
  direct := fun _ _ _ => rfl

theorem object_unhooked :
    ∃ w w' log, views.adds objectRequests = some (w, log) ∧
      w.remove 0 = some (w', .ok true) ∧
      Registered w' ⟨1, layoutSelector, .object 0, positionBefore, [text "@?", text "@"]⟩ ∧
      w'.send 0 layoutSelector ([] : List Nat) =
        some (w', [.invoked (.code 2) layoutSelector []]) := by
  obtain ⟨w, log, hadds, hremoved⟩ := removal_unhooks_the_object objects_plain
  have hlog : (views.adds objectRequests).map Prod.snd =
      some [⟨0, drawSelector, .object 0, positionBefore, [text "@?", text "@"]⟩,
        ⟨1, layoutSelector, .object 0, positionBefore, [text "@?", text "@"]⟩] := by
    decide +kernel
  rw [hadds] at hlog
  obtain rfl := Option.some.inj hlog
  obtain ⟨w', hremove, hregistered, -, hsend⟩ := hremoved
    ⟨0, drawSelector, .object 0, positionBefore, [text "@?", text "@"]⟩ (by decide) 0 rfl
    (by unfold Restorable; decide) (by decide)
  refine ⟨w, w', _, hadds, hremove, hregistered.others _ (by decide) (by decide) (Or.inl rfl), ?_⟩
  refine hsend layoutSelector ⟨.code 2, [text "@", text ":"]⟩ [] (by decide) (by decide) ?_
  intro r hr _ c hc
  simp only [objectRequests, List.mem_cons, List.not_mem_nil, or_false] at hr
  rcases hr with rfl | rfl
  all_goals cases hc

end BasicDemo.Aspects
