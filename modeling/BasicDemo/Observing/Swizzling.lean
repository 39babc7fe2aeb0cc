import BasicDemo.Observing.Model

namespace BasicDemo.Observing
open Library.Classes Library.Runs

variable {Data Value : Type}

/-- What is assumed of `class`: for the objects of the program it answers the class they
are of, as `NSObject` does and as it does not for an object that is observed with Apple's
own mechanism. -/
def Honest (P : Program) (F : Foundation Data Value) : Prop :=
  ∀ x, ∃ n types, P.table.resolve (P.classOf x) classSelector = some ⟨.original n, types⟩ ∧
    F.classAnswer n (P.classOf x) = some (P.classOf x)

/-- A KVO class is a subclass of the original class it is named after; it answers
`class` and, beyond that, only has setters of its own, with the types of the methods
that they override. -/
structure KvoEntry (P : Program) (c : ClassEntry ClassName Selector Method) : Prop where
  subclass : ∃ n ∈ P.table.names, c.name = kvoClassPrefix ++ n ∧ c.super = some n
  answers : ∃ types, c.methods.lookup classSelector = some ⟨.kvoClass, types⟩
  setters : ∀ sel method, c.methods.lookup sel = some method → sel ≠ classSelector →
    method.imp = .kvoSetter ∧ ∀ n, c.super = some n →
      ∃ i, P.table.resolve n sel = some ⟨.original i, method.types⟩

/-- The class table is the original one with KVO classes added, and every object is
of its original class or of that class's KVO class. -/
structure Swizzled (P : Program) (s : State Data Value) : Prop where
  originals : s.classes.classes.filter (fun c => !isKvoName c.name) = P.table.classes
  kvo : ∀ c ∈ s.classes.classes, isKvoName c.name = true → KvoEntry P c
  real : ∀ x, s.isa x = P.classOf x ∨
    (s.isa x = kvoClassPrefix ++ P.classOf x ∧ s.isa x ∈ s.classes.names)

theorem isKvoName_append (n : ClassName) : isKvoName (kvoClassPrefix ++ n) = true := by
  unfold isKvoName
  rw [List.isPrefixOf_iff_prefix]
  exact List.prefix_append _ _

theorem Program.classOf_plain (P : Program) (x : ObjectID) : isKvoName (P.classOf x) = false := by
  obtain ⟨c, hc, he⟩ := List.mem_map.mp (P.registered x)
  rw [← he]
  exact P.unprefixed c hc

theorem setter_ne_class {m : CaseMapping} {k sel : NSString}
    (h : setterForGetter m k = some sel) : sel ≠ classSelector := by
  cases k with
  | nil => cases h
  | cons c rest =>
    have hc : classSelector = [99, 108, 97, 115, 115] := by decide
    rw [← Option.some.inj h, hc, text_set]
    intro he
    exact absurd (List.cons.inj he).1 (by decide)

/-- Superclasses of original classes are original classes. -/
theorem Swizzled.closed {P : Program} {s : State Data Value} (h : Swizzled P s) :
    ∀ c ∈ s.classes.classes, (!isKvoName c.name) = true →
      ∀ p, c.super = some p → (!isKvoName p) = true := by
  intro c hc hplain p hp
  have hmem : c ∈ P.table.classes := by
    rw [← h.originals]
    exact List.mem_filter.mpr ⟨hc, hplain⟩
  obtain ⟨d, hd, he⟩ := List.mem_map.mp (P.table.hierarchy.super_mem hmem hp)
  simp [← he, P.unprefixed d hd]

/-- Original classes look methods up as if there were no KVO classes. -/
theorem Swizzled.resolve_original {P : Program} {s : State Data Value} (h : Swizzled P s)
    {n : ClassName} (hn : isKvoName n = false) (sel : Selector) :
    s.classes.resolve n sel = P.table.resolve n sel := by
  have hf := ClassTable.resolveIn_filter (fun m => !isKvoName m) h.closed
    (show (!isKvoName n) = true by simp [hn]) sel
  rw [h.originals] at hf
  exact hf.symm

theorem Program.resolve_native (P : Program) {n : ClassName} {sel : Selector} {method : Method}
    (h : P.table.resolve n sel = some method) : ∃ i, method = ⟨.original i, method.types⟩ := by
  obtain ⟨c, hc, hm⟩ := ClassTable.resolveIn_mem h
  obtain ⟨i, hi⟩ := P.native c hc sel method hm
  exact ⟨i, by rw [← hi]⟩

/-- The entry of an object's KVO class. -/
theorem Swizzled.kvo_entry {P : Program} {s : State Data Value} (h : Swizzled P s)
    {x : ObjectID} (hx : s.isa x = kvoClassPrefix ++ P.classOf x)
    (hm : s.isa x ∈ s.classes.names) :
    ∃ c ∈ s.classes.classes, c.name = s.isa x ∧ KvoEntry P c ∧ c.super = some (P.classOf x) := by
  obtain ⟨c, hc, he⟩ := List.mem_map.mp hm
  have hk := h.kvo c hc (by rw [he, hx]; exact isKvoName_append _)
  obtain ⟨n, _, hn, hs⟩ := hk.subclass
  rw [he, hx] at hn
  rw [← List.append_cancel_left hn] at hs
  exact ⟨c, hc, he, hk, hs⟩

/-- The `class` message gives the original class, observed or not. -/
theorem Swizzled.class_message {P : Program} {F : Foundation Data Value}
    (honest : Honest P F) {s : State Data Value} (h : Swizzled P s) (x : ObjectID) :
    classMessage F s x = some (P.classOf x) := by
  unfold classMessage
  rcases h.real x with hx | ⟨hx, hm⟩
  · obtain ⟨n, types, hr, hanswer⟩ := honest x
    rw [hx, h.resolve_original (P.classOf_plain x), hr]
    exact hanswer
  · obtain ⟨c, hc, he, hk, hs⟩ := h.kvo_entry hx hm
    obtain ⟨types, hanswers⟩ := hk.answers
    rw [← he, ClassTable.resolve_of_mem hc hanswers]
    change s.classes.superclass (s.isa x) = _
    rw [← he, ClassTable.superclass_of_mem hc, hs]

/-- The classes part of the invariant does not look at anything else. -/
theorem Swizzled.same {P : Program} {s t : State Data Value} (h : Swizzled P s)
    (hc : t.classes = s.classes) (hi : ∀ x, t.isa x = s.isa x) : Swizzled P t := by
  refine ⟨by rw [hc]; exact h.originals, by rw [hc]; exact h.kvo, ?_⟩
  intro x
  rw [hi, hc]
  exact h.real x

theorem KvoEntry.add {P : Program} {c : ClassEntry ClassName Selector Method} (h : KvoEntry P c)
    {sel : Selector} (hsel : sel ≠ classSelector) {types : Option Signature}
    (horig : ∀ n, c.super = some n → ∃ i, P.table.resolve n sel = some ⟨.original i, types⟩) :
    KvoEntry P { c with methods :=
      if sel ∈ c.methods then c.methods else c.methods.insert sel ⟨.kvoSetter, types⟩ } := by
  split
  · exact h
  · refine ⟨h.subclass, ?_, ?_⟩
    · obtain ⟨answer, hanswers⟩ := h.answers
      refine ⟨answer, ?_⟩
      change (c.methods.insert sel _).lookup classSelector = _
      rw [AList.lookup_insert_ne hsel.symm]
      exact hanswers
    · intro sel' method hm hne
      change (c.methods.insert sel _).lookup sel' = _ at hm
      by_cases he : sel' = sel
      · subst sel'
        rw [AList.lookup_insert] at hm
        cases Option.some.inj hm
        exact ⟨rfl, horig⟩
      · rw [AList.lookup_insert_ne he] at hm
        exact h.setters sel' method hm hne

/-- Adding a setter to a KVO class, with the types of the method it overrides. -/
theorem Swizzled.addMethod {P : Program} {s : State Data Value} (h : Swizzled P s)
    {n : ClassName} {sel : Selector} (hsel : sel ≠ classSelector) {types : Option Signature}
    {i : Nat} (horig : P.table.resolve n sel = some ⟨.original i, types⟩) :
    Swizzled P { s with classes :=
      s.classes.addMethod (kvoClassPrefix ++ n) sel ⟨.kvoSetter, types⟩ } := by
  refine ⟨?_, ?_, ?_⟩
  · refine Eq.trans ?_ h.originals
    exact ClassTable.filter_change (fun m => !isKvoName m) (by simp [isKvoName_append]) _ _
  · intro d hd hk
    obtain ⟨c, hc, rfl⟩ := List.mem_map.mp hd
    rw [ClassTable.changeMethods_name] at hk
    unfold ClassTable.changeMethods
    split
    · rename_i he
      refine (h.kvo c hc hk).add hsel ?_
      intro p hp
      obtain ⟨m, _, hm, hs⟩ := (h.kvo c hc hk).subclass
      rw [he] at hm
      rw [hs, ← List.append_cancel_left hm] at hp
      cases hp
      exact ⟨i, horig⟩
    · exact h.kvo c hc hk
  · intro x
    rcases h.real x with hx | ⟨hx, hm⟩
    · exact Or.inl hx
    · refine Or.inr ⟨hx, ?_⟩
      change s.isa x ∈ (s.classes.addMethod (kvoClassPrefix ++ n) sel _).names
      rw [ClassTable.names_addMethod]
      exact hm

/-- A table with the KVO class of an object in it, found there or added. -/
structure Made (P : Program) (s : State Data Value) (x : ObjectID)
    (made : ClassTable ClassName Selector Method × ClassName) : Prop where
  name : made.2 = kvoClassPrefix ++ P.classOf x
  registered : made.2 ∈ made.1.names
  keeps : ∀ c ∈ s.classes.classes, c ∈ made.1.classes
  originals : made.1.classes.filter (fun c => !isKvoName c.name) = P.table.classes
  kvo : ∀ c ∈ made.1.classes, isKvoName c.name = true → KvoEntry P c

theorem Swizzled.made_found {P : Program} {s : State Data Value} (h : Swizzled P s)
    {x : ObjectID} (hm : kvoClassPrefix ++ P.classOf x ∈ s.classes.names) :
    Made P s x (s.classes, kvoClassPrefix ++ P.classOf x) :=
  ⟨rfl, hm, fun _ hc => hc, h.originals, h.kvo⟩

theorem Swizzled.made_added {P : Program} {s : State Data Value} (h : Swizzled P s)
    {x : ObjectID} {t : ClassTable ClassName Selector Method} {types : Option Signature}
    (ht : t.classes = ⟨kvoClassPrefix ++ P.classOf x, some (P.classOf x),
      AList.insert classSelector ⟨.kvoClass, types⟩ ∅⟩ :: s.classes.classes) :
    Made P s x (t, kvoClassPrefix ++ P.classOf x) := by
  refine ⟨rfl, ?_, ?_, ?_, ?_⟩
  · change _ ∈ List.map _ _
    rw [ht]
    exact List.mem_cons_self
  · intro c hc
    rw [ht]
    exact List.mem_cons_of_mem _ hc
  · rw [ht, List.filter_cons_of_neg (by simp [isKvoName_append])]
    exact h.originals
  · intro c hc hk
    rw [ht] at hc
    rcases List.mem_cons.mp hc with rfl | hc
    · refine ⟨⟨P.classOf x, P.registered x, rfl, rfl⟩, ⟨types, AList.lookup_insert _⟩, ?_⟩
      intro sel method hl hne
      exact absurd (ClassTable.lookup_single hl).1 hne
    · exact h.kvo c hc hk

theorem Swizzled.makeKvoClass {P : Program} {s : State Data Value} (h : Swizzled P s)
    {x : ObjectID} (hx : s.isa x = P.classOf x) : Made P s x (makeKvoClass s x (s.isa x)) := by
  have hreg : P.classOf x ∈ s.classes.names := by
    obtain ⟨c, hc, he⟩ := List.mem_map.mp (P.registered x)
    rw [← h.originals] at hc
    exact List.mem_map.mpr ⟨c, (List.mem_filter.mp hc).1, he⟩
  rw [hx]
  unfold Observing.makeKvoClass
  by_cases hm : kvoClassPrefix ++ P.classOf x ∈ s.classes.names
  · rw [if_pos hm]
    exact h.made_found hm
  · simp only [hm, if_false, hx]
    exact h.made_added (ClassTable.addMethod_addClass hm hreg classSelector _)

/-- After the first half of a registration the object is at its KVO class, every
other object and every method is where it was. -/
theorem Swizzled.becomeKvo {P : Program} {s : State Data Value} (h : Swizzled P s)
    (x : ObjectID) :
    Swizzled P (becomeKvo s x) ∧ (becomeKvo s x).isa x = kvoClassPrefix ++ P.classOf x ∧
      (becomeKvo s x).isa x ∈ (becomeKvo s x).classes.names ∧
      (∀ y, y ≠ x → (becomeKvo s x).isa y = s.isa y) ∧
      (∀ n sel imp, s.classes.own n sel = some imp →
        (becomeKvo s x).classes.own n sel = some imp) := by
  rcases h.real x with hx | ⟨hx, hm⟩
  · have hplain : isKvoName (s.isa x) = false := by
      rw [hx]
      exact P.classOf_plain x
    have hmade := h.makeKvoClass hx
    simp only [Observing.becomeKvo, hplain, Bool.false_eq_true, if_false]
    generalize Observing.makeKvoClass s x (s.isa x) = made at hmade
    have hself : ({ s with classes := made.1 }.modify x
        (fun o => { o with isa := made.2 })).isa x = made.2 := by
      simp [State.isa]
    have hother : ∀ y, y ≠ x → ({ s with classes := made.1 }.modify x
        (fun o => { o with isa := made.2 })).isa y = s.isa y := by
      intro y hy
      unfold State.isa
      rw [modify_other _ hy]
    have hat : _ ∧ _ := ⟨hself.trans hmade.name, hself ▸ hmade.registered⟩
    refine ⟨⟨hmade.originals, hmade.kvo, ?_⟩, hat.1, hat.2, hother, ?_⟩
    · intro y
      by_cases hy : y = x
      · rw [hy]
        exact Or.inr hat
      · rw [hother y hy]
        rcases h.real y with hr | ⟨hr, hn⟩
        · exact Or.inl hr
        · obtain ⟨c, hc, he⟩ := List.mem_map.mp hn
          exact Or.inr ⟨hr, List.mem_map.mpr ⟨c, hmade.keeps c hc, he⟩⟩
    · intro n sel imp hown
      obtain ⟨c, hc, he, hl⟩ := ClassTable.own_eq_some.mp hown
      exact ClassTable.own_eq_some.mpr ⟨c, hmade.keeps c hc, he, hl⟩
  · have hkvo : isKvoName (s.isa x) = true := by
      rw [hx]
      exact isKvoName_append _
    have hsame : Observing.becomeKvo s x = s := by simp [Observing.becomeKvo, hkvo]
    rw [hsame]
    exact ⟨h, hx, hm, fun _ _ => rfl, fun _ _ _ hown => hown⟩

/-- After the second half the KVO class has `kvo_setter` for the selector. -/
theorem Swizzled.addSetter {P : Program} {s : State Data Value} (h : Swizzled P s)
    {x : ObjectID} (hx : s.isa x = kvoClassPrefix ++ P.classOf x)
    (hm : s.isa x ∈ s.classes.names) {sel : Selector} (hsel : sel ≠ classSelector)
    {types : Option Signature} {i : Nat}
    (horig : P.table.resolve (P.classOf x) sel = some ⟨.original i, types⟩) :
    Swizzled P (addSetter s x sel types) ∧
      (addSetter s x sel types).classes.own (s.isa x) sel = some ⟨.kvoSetter, types⟩ ∧
      (∀ y, (addSetter s x sel types).isa y = s.isa y) ∧
      (∀ n sel' method, s.classes.own n sel' = some method →
        (addSetter s x sel types).classes.own n sel' = some method) := by
  unfold Observing.addSetter hasSelector
  cases hown : s.classes.own (s.isa x) sel with
  | some method =>
    obtain ⟨c, hc, he, hk, hs⟩ := h.kvo_entry hx hm
    have hl : c.methods.lookup sel = some method := by
      rw [← he, ClassTable.own_of_mem hc] at hown
      exact hown
    obtain ⟨himp, htypes⟩ := hk.setters sel method hl hsel
    obtain ⟨j, hj⟩ := htypes _ hs
    have hmethod : method = ⟨.kvoSetter, types⟩ := by
      rw [← himp, ← (Method.mk.inj (Option.some.inj (hj.symm.trans horig))).2]
    rw [Option.isSome_some, if_pos rfl]
    exact ⟨h, by rw [hown, hmethod], fun _ => rfl, fun _ _ _ ho => ho⟩
  | none =>
    simp only [Option.isSome_none, Bool.false_eq_true, if_false]
    refine ⟨?_, ClassTable.own_addMethod_new hm hown _, fun _ => rfl,
      fun n sel' method ho => ClassTable.own_addMethod_of_own ho _ _ _⟩
    rw [hx]
    exact h.addMethod hsel horig

/-- A key is accepted when the original class has a setter for it. -/
theorem Swizzled.setterMethod {P : Program} {F : Foundation Data Value} (honest : Honest P F)
    {s : State Data Value} (h : Swizzled P s) {x : ObjectID} {key : NSString} {sel : Selector}
    {method : Method} (hm : setterMethod F s x key = some (sel, method)) :
    setterForGetter F.letters key = some sel ∧
      ∃ i, P.table.resolve (P.classOf x) sel = some ⟨.original i, method.types⟩ := by
  obtain ⟨sel', hsel, hm⟩ := Option.bind_eq_some_iff.mp hm
  obtain ⟨c, hc, hm⟩ := Option.bind_eq_some_iff.mp hm
  obtain ⟨method', hmethod, he⟩ := Option.bind_eq_some_iff.mp hm
  cases he
  cases Option.some.inj (hc.symm.trans (h.class_message honest x))
  rw [h.resolve_original (P.classOf_plain x)] at hmethod
  obtain ⟨i, hi⟩ := P.resolve_native hmethod
  exact ⟨hsel, i, hi ▸ hmethod⟩

/-- The invariant of whole runs: besides the shape of the class table, each accepted
registration has left its setter in the KVO class, and only accepted registrations
move objects to one. -/
structure Invariant (P : Program) (F : Foundation Data Value) (w : World Data Value) : Prop where
  swizzled : Swizzled P w.state
  setters : ∀ r ∈ w.accepted, w.state.isa r.object = kvoClassPrefix ++ P.classOf r.object ∧
    ∃ sel i types, setterForGetter F.letters r.key = some sel ∧
      w.state.classes.own (w.state.isa r.object) sel = some ⟨.kvoSetter, types⟩ ∧
      P.table.resolve (P.classOf r.object) sel = some ⟨.original i, types⟩
  observed : ∀ x, w.state.isa x ≠ P.classOf x → ∃ r ∈ w.accepted, r.object = x

theorem invariant_initial (P : Program) (F : Foundation Data Value) (data : ObjectID → Data) :
    Invariant P F (P.initial data) := by
  refine ⟨⟨?_, ?_, fun _ => Or.inl rfl⟩, ?_, ?_⟩
  · apply List.filter_eq_self.mpr
    intro c hc
    simp [P.unprefixed c hc]
  · intro c hc hk
    rw [P.unprefixed c hc] at hk
    cases hk
  · intro r hr
    simp [Program.initial] at hr
  · intro x hx
    exact absurd rfl hx

theorem invariant_step {P : Program} {F : Foundation Data Value} (honest : Honest P F)
    (w : World Data Value) (e : Event Value) (v : World Data Value) (h : Invariant P F w)
    (hs : step F w e = some v) : Invariant P F v := by
  rcases step_classes hs with ⟨x, o, key, block, sel, method, hm, rfl⟩ | ⟨ha, hc, hi⟩
  · obtain ⟨hsel, i, himp⟩ := h.swizzled.setterMethod honest hm
    obtain ⟨hk, hx, hmem, hother, hown⟩ := h.swizzled.becomeKvo x
    obtain ⟨hk, hset, hsame, hown'⟩ := hk.addSetter hx hmem (setter_ne_class hsel) himp
    have hisa : ∀ y, (addInfo (addSetter (becomeKvo w.state x) x sel method.types) x o key
        block).isa y = (becomeKvo w.state x).isa y := by
      intro y
      exact (addInfo_isa _ x o key block y).trans (hsame y)
    refine ⟨hk.same rfl (fun y => (hisa y).trans (hsame y).symm), ?_, ?_⟩
    · intro r hr
      rcases List.mem_cons.mp hr with rfl | hr
      · rw [hisa]
        exact ⟨hx, sel, i, method.types, hsel, hset, himp⟩
      · obtain ⟨hrk, sel', j, types, hsel', hown₀, himp'⟩ := h.setters r hr
        -- an object that was at its KVO class is still there
        have hrisa : (becomeKvo w.state x).isa r.object = w.state.isa r.object := by
          by_cases hrx : r.object = x
          · rw [hrx] at hrk ⊢
            exact hx.trans hrk.symm
          · exact hother _ hrx
        rw [hisa, hrisa]
        exact ⟨hrk, sel', j, types, hsel', hown' _ _ _ (hown _ _ _ hown₀), himp'⟩
    · intro y hy
      by_cases hyx : y = x
      · subst y
        exact ⟨_, List.mem_cons_self, rfl⟩
      · rw [hisa, hother y hyx] at hy
        obtain ⟨r, hr, hry⟩ := h.observed y hy
        exact ⟨r, List.mem_cons_of_mem _ hr, hry⟩
  · refine ⟨h.swizzled.same hc hi, ?_, ?_⟩
    · intro r hr
      rw [ha] at hr
      rw [hi, hc]
      exact h.setters r hr
    · intro x hx
      rw [hi] at hx
      rw [ha]
      exact h.observed x hx

theorem invariant_throughout {P : Program} {F : Foundation Data Value} (honest : Honest P F)
    (data : ObjectID → Data) (es : List (Event Value)) :
    Throughout (step F) (Invariant P F) (P.initial data) es :=
  throughout_keeps (invariant_step honest) (invariant_initial P F data) es

/-- What a reader of the runtime sees of the observed objects and their classes. -/
structure IsaSwizzling (P : Program) (F : Foundation Data Value) (w : World Data Value) :
    Prop where
  real : ∀ x, w.state.isa x = P.classOf x ∨
    (w.state.isa x = kvoClassPrefix ++ P.classOf x ∧
      w.state.classes.superclass (w.state.isa x) = some (P.classOf x))
  subclass : ∀ c ∈ w.state.classes.classes, isKvoName c.name = true →
    ∃ n ∈ P.table.names, isKvoName n = false ∧ c.name = kvoClassPrefix ++ n ∧ c.super = some n
  single : ∀ c ∈ w.state.classes.classes, ∀ d ∈ w.state.classes.classes,
    isKvoName c.name = true → isKvoName d.name = true → c.super = d.super → c = d
  message : ∀ x, classMessage F w.state x = some (P.classOf x)
  setters : ∀ r ∈ w.accepted, ∃ sel i types, setterForGetter F.letters r.key = some sel ∧
    w.state.isa r.object = kvoClassPrefix ++ P.classOf r.object ∧
    w.state.classes.own (kvoClassPrefix ++ P.classOf r.object) sel = some ⟨.kvoSetter, types⟩ ∧
    P.table.resolve (P.classOf r.object) sel = some ⟨.original i, types⟩
  super : ∀ x, w.state.isa x ≠ P.classOf x → ∀ sel v,
    msgSendSuper F w.state x sel v = passObject F (w.state.objects x).data sel v
        (P.table.resolve (P.classOf x) sel) ∧
      (msgSendSuper F w.state x sel v).2 ≠ some .endlessRecursion
  unobserved : ∀ x, (∀ r ∈ w.accepted, r.object ≠ x) → w.state.isa x = P.classOf x
  raising : ∀ x o k b e, (skAddObserver F w.state x o k b).2 = some e →
    (skAddObserver F w.state x o k b).1 = w.state

theorem Swizzled.kvo_of_ne {P : Program} {s : State Data Value} (h : Swizzled P s)
    {x : ObjectID} (hx : s.isa x ≠ P.classOf x) :
    s.isa x = kvoClassPrefix ++ P.classOf x ∧
      s.classes.superclass (s.isa x) = some (P.classOf x) := by
  rcases h.real x with he | ⟨he, hm⟩
  · exact absurd he hx
  · obtain ⟨c, hc, hname, _, hs⟩ := h.kvo_entry he hm
    rw [← hname, ClassTable.superclass_of_mem hc, hs, hname]
    exact ⟨he, rfl⟩

theorem skAddObserver_raised {F : Foundation Data Value} {s : State Data Value}
    {x o : ObjectID} {k : NSString} {b : Nat} {e : Exception}
    (h : (skAddObserver F s x o k b).2 = some e) : (skAddObserver F s x o k b).1 = s := by
  unfold skAddObserver at h ⊢
  split at h
  · rfl
  · cases h

/-- The message to `super` from an object at its KVO class looks the method up in the
original class. -/
theorem Swizzled.msgSendSuper {P : Program} {s : State Data Value} (h : Swizzled P s)
    {x : ObjectID} (hx : s.isa x ≠ P.classOf x) (F : Foundation Data Value) (sel : Selector)
    (v : Value) :
    msgSendSuper F s x sel v =
      passObject F (s.objects x).data sel v (P.table.resolve (P.classOf x) sel) := by
  obtain ⟨_, hs⟩ := h.kvo_of_ne hx
  rw [Observing.msgSendSuper, hs, Option.bind_some, h.resolve_original (P.classOf_plain x)]

/-- A method of the original classes is never `kvo_setter`. -/
theorem Program.passObject_returns (P : Program) (F : Foundation Data Value) (data : Data)
    (n : ClassName) (sel : Selector) (v : Value) :
    (passObject F data sel v (P.table.resolve n sel)).2 ≠ some .endlessRecursion := by
  cases hr : P.table.resolve n sel with
  | none => simp [passObject]
  | some method =>
    obtain ⟨i, hi⟩ := P.resolve_native hr
    rw [hi]
    simp only [passObject]
    split
    · simp
    · simp

theorem Invariant.isaSwizzling {P : Program} {F : Foundation Data Value} (honest : Honest P F)
    {w : World Data Value} (h : Invariant P F w) : IsaSwizzling P F w := by
  have hsub : ∀ c ∈ w.state.classes.classes, isKvoName c.name = true →
      ∃ n ∈ P.table.names, isKvoName n = false ∧ c.name = kvoClassPrefix ++ n ∧
        c.super = some n := by
    intro c hc hk
    obtain ⟨n, hn, hname, hs⟩ := (h.swizzled.kvo c hc hk).subclass
    obtain ⟨d, hd, he⟩ := List.mem_map.mp hn
    exact ⟨n, hn, he ▸ P.unprefixed d hd, hname, hs⟩
  refine ⟨?_, hsub, ?_, h.swizzled.class_message honest, ?_, ?_, ?_, ?_⟩
  · intro x
    by_cases hx : w.state.isa x = P.classOf x
    · exact Or.inl hx
    · exact Or.inr (h.swizzled.kvo_of_ne hx)
  · intro c hc d hd hkc hkd he
    obtain ⟨n, _, _, hn, hs⟩ := hsub c hc hkc
    obtain ⟨m, _, _, hm, ht⟩ := hsub d hd hkd
    rw [hs, ht] at he
    apply w.state.classes.hierarchy.same hc hd
    rw [hn, hm, Option.some.inj he]
  · intro r hr
    obtain ⟨hx, sel, i, types, hsel, hown, horig⟩ := h.setters r hr
    exact ⟨sel, i, types, hsel, hx, hx ▸ hown, horig⟩
  · intro x hx sel v
    rw [h.swizzled.msgSendSuper hx]
    exact ⟨rfl, P.passObject_returns F _ _ sel v⟩
  · intro x hno
    apply Classical.byContradiction
    intro hx
    obtain ⟨r, hr, hrx⟩ := h.observed x hx
    exact hno r hr hrx
  · intro x o k b e hr
    exact skAddObserver_raised hr

/-- In every state of every run, from any class table without KVO names and on any
objects, the class pointers and class tables are as `IsaSwizzling` describes. -/
theorem isa_swizzling (P : Program) (F : Foundation Data Value) (honest : Honest P F)
    (data : ObjectID → Data) (es : List (Event Value)) :
    Throughout (step F) (IsaSwizzling P F) (P.initial data) es :=
  (invariant_throughout honest data es).mono (fun _ h => h.isaSwizzling honest)

/-- Objects of a class with one property, here by the name and the type of its setter. -/
def propertyProgram (setter : Selector) (types : Signature) : Program where
  table :=
    ⟨[⟨text "Model", some (text "NSObject"), AList.insert setter ⟨.original 0, some types⟩ ∅⟩,
      ⟨text "NSObject", none,
        AList.insert classSelector ⟨.original 1, some ⟨.object, []⟩⟩ ∅⟩],
     .cons (show text "Model" ∉ [text "NSObject"] by decide) (by
      intro p hp
      cases hp
      exact List.mem_cons_self) (.cons List.not_mem_nil (by
      intro p hp
      cases hp) .nil)⟩
  classOf _ := text "Model"
  registered _ := List.mem_cons_self
  unprefixed := by
    intro c hc
    rcases List.mem_cons.mp hc with rfl | hc
    · show isKvoName (text "Model") = false
      decide
    · rw [List.mem_singleton.mp hc]
      decide
  native := by
    intro c hc sel method hm
    rcases List.mem_cons.mp hc with rfl | hc
    · exact ⟨0, congrArg Method.imp (ClassTable.lookup_single hm).2⟩
    · rw [List.mem_singleton.mp hc] at hm
      exact ⟨1, congrArg Method.imp (ClassTable.lookup_single hm).2⟩

/-- The property is an object. -/
def modelProgram (setter : Selector) : Program := propertyProgram setter kvoSetterType

/-- The property is readable under its name, and objects are numbers here. -/
def modelFoundation (property : NSString) : Foundation Nat Nat where
  letters := asciiCases
  valueForKey value key := if key = property then some value else none
  setter _ _ newValue := (newValue, none)
  classAnswer _ clazz := some clazz
  description _ := text "<Model>"

theorem propertyProgram_honest {setter : Selector} (h : setter ≠ classSelector)
    (types : Signature) (property : NSString) :
    Honest (propertyProgram setter types) (modelFoundation property) := by
  intro x
  refine ⟨1, some ⟨.object, []⟩, ?_, rfl⟩
  have hmodel : (AList.insert setter (⟨.original 0, some types⟩ : Method)
      (∅ : AList (fun _ : Selector => Method))).lookup classSelector = none := by
    rw [AList.lookup_insert_ne h.symm]
    rfl
  simp only [propertyProgram, ClassTable.resolve, ClassTable.resolveIn, hmodel, if_true,
    AList.lookup_insert]

/-- Two models are observed and share their KVO class; their observer keeps its own. -/
theorem isa_swizzling_shared :
    ∃ w, run (step (modelFoundation (text "stdName")))
        ((modelProgram (text "setStdName:")).initial (fun _ => 3))
        [.add 0 1 (text "stdName") 7, .add 2 1 (text "stdName") 8,
          .set 0 (text "setStdName:") 5] = some w ∧
      w.state.isa 0 = text "SKKVOClassPrefix_Model" ∧
      w.state.isa 2 = text "SKKVOClassPrefix_Model" ∧ w.state.isa 1 = text "Model" ∧
      IsaSwizzling (modelProgram (text "setStdName:")) (modelFoundation (text "stdName")) w := by
  have hrun : (run (step (modelFoundation (text "stdName")))
      ((modelProgram (text "setStdName:")).initial (fun _ => 3))
      [.add 0 1 (text "stdName") 7, .add 2 1 (text "stdName") 8,
        .set 0 (text "setStdName:") 5]).map
        (fun w => (w.state.isa 0, w.state.isa 2, w.state.isa 1)) =
      some (text "SKKVOClassPrefix_Model", text "SKKVOClassPrefix_Model", text "Model") := by
    decide +kernel
  obtain ⟨w, hw, he⟩ := Option.map_eq_some_iff.mp hrun
  simp only [Prod.mk.injEq] at he
  have hall := isa_swizzling (modelProgram (text "setStdName:"))
    (modelFoundation (text "stdName")) (propertyProgram_honest (by decide) _ _) (fun _ => 3)
    [.add 0 1 (text "stdName") 7, .add 2 1 (text "stdName") 8, .set 0 (text "setStdName:") 5]
  exact ⟨w, hw, he.1, he.2.1, he.2.2, hall.last hw⟩

end BasicDemo.Observing
