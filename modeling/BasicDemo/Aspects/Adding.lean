import BasicDemo.Aspects.Installed

namespace BasicDemo.Aspects
open Library.Classes

/-- A call of `aspect_hookSelector:withOptions:usingBlock:error:`. -/
structure Request where
  target : Target
  selector : Selector
  options : Nat
  blockSignature : Signature

/-- A program that has not hooked anything, and whose objects state the class that they are
of. -/
structure Start (w₀ : World) : Prop where
  program : Program w₀.classes
  isa : ∀ o, w₀.isa o ∈ w₀.classes.names
  stated : ∀ o, w₀.statedClass (.object o) = w₀.isa o
  containers : ∀ x s, w₀.containers x s = none
  trackers : ∀ c, w₀.trackers.swizzledClassesDict c = none
  swizzledClasses : w₀.swizzledClasses = ∅

/-- A request that hooks neither a selector of the hooks nor a class made for hooks. The
first argument of a block is the block itself. -/
structure Fair (w₀ : World) (r : Request) : Prop where
  ordinary : ordinary r.selector = true
  registered : ∀ c, r.target = .classObject c → c ∈ w₀.classes.names
  block : r.blockSignature ≠ []

/-- The earlier request hooks a class and the later one an object of a subclass, and a class
in between has the method itself. -/
def Overrides (w₀ : World) (earlier later : Request) : Prop :=
  ∃ c o d, earlier.target = .classObject c ∧ later.target = .object o ∧
    earlier.selector = later.selector ∧ w₀.classes.Inherits (w₀.isa o) d ∧
    w₀.classes.Inherits d c ∧ d ≠ c ∧ w₀.classes.own d later.selector ≠ none

/-- The state after the requests `done`, where nothing was removed. -/
structure Hooked (w₀ : World) (done : List Request) (w : World)
    (hooks : ClassName → Selector → Prop) : Prop where
  installed : Installed w₀.classes w.classes hooks
  records : Trackers.Records w₀.classes w.trackers w.trackers.names
  exclusive : Exclusive w₀.classes w.trackers.names
  tracked : ∀ c ∈ w₀.classes.names, ∀ s, hooks c s → s ∈ w.trackers.names c
  requested : ∀ c ∈ w₀.classes.names, ∀ s, hooks c s →
    ∃ r ∈ done, r.target = .classObject c ∧ r.selector = s
  selected : ∀ k s, hooks k s → ∃ r ∈ done, r.selector = s
  swizzled : ∀ c ∈ w₀.classes.names, c ∈ w.swizzledClasses ↔ Aware w.classes c
  aware : ∀ c ∈ w₀.classes.names, Aware w.classes c → ∃ r ∈ done, r.target = .classObject c
  isa : ∀ o, w.isa o = w₀.isa o ∨
    (w.isa o = w₀.isa o ++ aspectsSubclassSuffix ∧ w.isa o ∈ w.classes.names)
  classAnswer : w.classAnswer = w₀.classAnswer
  forwardingTarget : w.forwardingTarget = w₀.forwardingTarget

theorem Start.hooked {w₀ : World} (h : Start w₀) : Hooked w₀ [] w₀ (fun _ _ => False) := by
  have hnames : ∀ c, w₀.trackers.names c = ∅ := fun c => Trackers.names_eq_empty (h.trackers c)
  have hrecords : Trackers.Records w₀.classes w₀.trackers w₀.trackers.names := by
    have hempty : w₀.trackers = ⟨w₀.trackers.heap, w₀.trackers.created, fun _ => none⟩ := by
      rw [← funext h.trackers]
    have hstart := Trackers.Records.empty w₀.classes w₀.trackers.heap w₀.trackers.created
    rw [← hempty] at hstart
    rwa [← funext hnames] at hstart
  refine ⟨h.program.installed, hrecords, ?_, ?_, ?_, ?_, ?_, ?_, fun _ => Or.inl rfl, rfl, rfl⟩
  · intro c d s hc
    rw [hnames] at hc
    cases hc
  · exact fun _ _ _ hfalse => hfalse.elim
  · exact fun _ _ _ hfalse => hfalse.elim
  · exact fun _ _ hfalse => hfalse.elim
  · intro c _
    rw [h.swizzledClasses]
    exact iff_of_false (Finset.notMem_empty c) (h.program.unaware c)
  · exact fun c _ haware => absurd haware (h.program.unaware c)

namespace Hooked

variable {w₀ w : World} {done : List Request} {hooks : ClassName → Selector → Prop}

theorem isa_mem (h : Hooked w₀ done w hooks) (hstart : Start w₀) (o : Object) :
    w.isa o ∈ w.classes.names := by
  rcases h.isa o with hsame | ⟨-, hmem⟩
  · rw [hsame]
    exact h.installed.names _ (hstart.isa o)
  · exact hmem

theorem origin_isa (h : Hooked w₀ done w hooks) (hstart : Start w₀) (o : Object) :
    origin w₀.classes (w.isa o) = w₀.isa o := by
  rcases h.isa o with hsame | ⟨hsub, -⟩
  · rw [hsame, origin_of_mem (hstart.isa o)]
  · rw [hsub, origin_of_subclass (hstart.program.subclass_not_mem _)]

theorem statedClass_object (h : Hooked w₀ done w hooks) (hstart : Start w₀) (o : Object) :
    w.statedClass (.object o) = w₀.isa o := by
  rcases h.installed.class_origin (h.isa_mem hstart o) with hclass | ⟨horigin, hsame⟩
  · rw [World.statedClass, hclass, h.origin_isa hstart o]
  · have hisa : w.isa o = w₀.isa o := horigin.symm.trans (h.origin_isa hstart o)
    rw [← hstart.stated o, World.statedClass, World.statedClass, hsame, hisa, h.classAnswer]

theorem more (h : Hooked w₀ done w hooks) (r : Request) : Hooked w₀ (done ++ [r]) w hooks :=
  { h with
    requested := by
      intro c hc s hhook
      obtain ⟨r', hr', heq⟩ := h.requested c hc s hhook
      exact ⟨r', List.mem_append_left _ hr', heq⟩
    selected := by
      intro k s hhook
      obtain ⟨r', hr', heq⟩ := h.selected k s hhook
      exact ⟨r', List.mem_append_left _ hr', heq⟩
    aware := by
      intro c hc haware
      obtain ⟨r', hr', heq⟩ := h.aware c hc haware
      exact ⟨r', List.mem_append_left _ hr', heq⟩ }

/-- Tracking keeps the trackers exclusive. -/
theorem track (h : Hooked w₀ done w hooks) {c : ClassName} {s : Selector}
    {T : Trackers ClassName Selector} (hc : c ∈ w₀.classes.names)
    (hok : w.trackers.allowedAndTrack w.classes c s = .ok T) :
    Hooked w₀ done { w with trackers := T } hooks ∧ s ∈ T.names c := by
  rw [Trackers.allowedAndTrack_congr (h.installed.chain_base hc)] at hok
  have hno := h.records.not_conflict h.exclusive hok
  obtain ⟨T', hok', hrecords⟩ := h.records.allowed hno
  obtain rfl : T = T' := Except.ok.inj (hok.symm.trans hok')
  have hnames := funext hrecords.names
  have hle : ∀ d s', s' ∈ w.trackers.names d → s' ∈ T.names d := by
    intro d s' hs'
    rw [hnames, mem_update_insert]
    exact Or.inl hs'
  refine ⟨{ h with records := ?_, exclusive := ?_, tracked := ?_ }, ?_⟩
  · rwa [← hnames] at hrecords
  · have := h.exclusive.hook (c, s)
    rwa [hook, if_neg hno, ← hnames] at this
  · exact fun d hd s' hhook => hle d s' (h.tracked d hd s' hhook)
  · rw [hnames, mem_update_insert]
    exact Or.inr ⟨rfl, rfl⟩

theorem swizzleClassInPlace (h : Hooked w₀ done w hooks) {c : ClassName}
    (hc : c ∈ w₀.classes.names) (hreq : ∃ r ∈ done, r.target = .classObject c) :
    Hooked w₀ done (w.swizzleClassInPlace c) hooks ∧ Aware (w.swizzleClassInPlace c).classes c := by
  rw [World.swizzleClassInPlace]
  by_cases hin : c ∈ w.swizzledClasses
  · rw [if_pos hin]
    exact ⟨h, (h.swizzled c hc).mp hin⟩
  · rw [if_neg hin]
    have hc' := h.installed.names c hc
    have hnot : ¬ Aware w.classes c := fun haware => hin ((h.swizzled c hc).mpr haware)
    refine ⟨{ h with
        installed := h.installed.swizzle hc' hnot, swizzled := ?_, aware := ?_, isa := ?_ },
      aware_swizzle hc'⟩
    · intro d hd
      rw [Finset.mem_insert, aware_swizzle_iff hc', h.swizzled d hd]
    · intro d hd haware
      rcases (aware_swizzle_iff hc' d).mp haware with rfl | haware
      · exact hreq
      · exact h.aware d hd haware
    · intro o
      rw [names_swizzle]
      exact h.isa o

theorem derived_of_mem (h : Hooked w₀ done w hooks) (hstart : Start w₀) {c : ClassName}
    (hmem : c ++ aspectsSubclassSuffix ∈ w.classes.names) :
    Aware w.classes (c ++ aspectsSubclassSuffix) := by
  obtain ⟨-, -, -, -, haware, -⟩ :=
    h.installed.derived _ hmem (hstart.program.subclass_not_mem c)
  exact haware

theorem setClass (h : Hooked w₀ done w hooks) {o : Object}
    (hmem : w₀.isa o ++ aspectsSubclassSuffix ∈ w.classes.names) :
    Hooked w₀ done (w.setClass o (w₀.isa o ++ aspectsSubclassSuffix)) hooks :=
  { h with
    isa := by
      intro o'
      by_cases ho : o' = o
      · subst ho
        exact Or.inr (by simpa [World.setClass] using hmem)
      · simpa [World.setClass, ho] using h.isa o' }

/-- What hooking the class of an object leaves alone. -/
structure SameBut (o : Object) (w w' : World) : Prop where
  isa : ∀ o', o' ≠ o → w'.isa o' = w.isa o'
  containers : w'.containers = w.containers
  trackers : w'.trackers = w.trackers
  tokens : w'.tokens = w.tokens
  created : w'.created = w.created

/-- An object gets the class derived from its own, which is made if there is none yet. -/
theorem hookClass_object (h : Hooked w₀ done w hooks) (hstart : Start w₀) (o : Object) :
    ∃ w', w.hookClass (.object o) = some (w', w₀.isa o ++ aspectsSubclassSuffix) ∧
      Hooked w₀ done w' hooks ∧ w'.isa o = w₀.isa o ++ aspectsSubclassSuffix ∧
      SameBut o w w' := by
  rw [World.hookClass]
  rcases h.isa o with hsame | ⟨hsub, -⟩
  · have hno : aspectsSubclassSuffix.isSuffixOf (w.isa o) = false := by
      rw [hsame]
      exact hstart.program.names _ (hstart.isa o)
    rw [hno, if_neg Bool.false_ne_true, h.statedClass_object hstart, hsame,
      if_neg (not_not.mpr rfl), World.hookWithSubclass]
    have hkept : ∀ t : Classes, SameBut o w
        ({ w with classes := t }.setClass o (w₀.isa o ++ aspectsSubclassSuffix)) :=
      fun t => ⟨fun o' ho => Function.update_of_ne ho .., rfl, rfl, rfl, rfl⟩
    by_cases hmem : w₀.isa o ++ aspectsSubclassSuffix ∈ w.classes.names
    · rw [if_pos (by simpa using hmem)]
      exact ⟨_, rfl, h.setClass hmem, Function.update_self .., hkept w.classes⟩
    · rw [if_neg (by simpa using hmem)]
      obtain ⟨t₁, hadd, -⟩ := ClassTable.addClass_eq hmem (hsame ▸ h.isa_mem hstart o)
      rw [hadd]
      have hinstalled := h.installed.derive hstart.program (hstart.isa o) hadd
      have hold : ∀ c ∈ w₀.classes.names, c ≠ w₀.isa o ++ aspectsSubclassSuffix := by
        rintro c hc rfl
        exact hstart.program.subclass_not_mem _ hc
      have hhooked : Hooked w₀ done
          { w with classes := derivedFrom t₁ (w₀.isa o ++ aspectsSubclassSuffix) (w₀.isa o) }
          hooks :=
        { h with
          installed := hinstalled
          swizzled := by
            intro c hc
            rw [Aware, own_derived_other hadd (hold c hc)]
            exact h.swizzled c hc
          aware := by
            intro c hc haware
            rw [Aware, own_derived_other hadd (hold c hc)] at haware
            exact h.aware c hc haware
          isa := by
            intro o'
            rw [names_derived hadd]
            exact (h.isa o').imp_right (fun hsub => ⟨hsub.1, List.mem_cons_of_mem _ hsub.2⟩) }
      refine ⟨_, rfl, hhooked.setClass ?_, Function.update_self .., hkept _⟩
      rw [names_derived hadd]
      exact List.mem_cons_self
  · rw [hsub, if_pos (subclass_suffix _)]
    exact ⟨w, rfl, h, hsub, fun _ _ => rfl, rfl, rfl, rfl, rfl⟩

/-- A first hook of a selector in a class. -/
theorem install (h : Hooked w₀ done w hooks) (hstart : Start w₀) {k : ClassName} {s : Selector}
    {m : Method Imp Signature} (hk : k ∈ w.classes.names) (haware : Aware w.classes k)
    (hs : ordinary s = true) (hreached : ¬ Reached w₀.classes hooks k s)
    (hm : w₀.classes.resolve (origin w₀.classes k) s = some m)
    (halias : ∀ a, w.classes.Inherits k a → ¬ hooks a s) (hreq : ∃ r ∈ done, r.selector = s)
    (hbase : k ∈ w₀.classes.names → s ∈ w.trackers.names k ∧
      ∃ r ∈ done, r.target = .classObject k ∧ r.selector = s) :
    Hooked w₀ done { w with classes := World.installHook w.classes k s }
      (fun l s' => hooks l s' ∨ (l = k ∧ s' = s)) := by
  have hfound : w.classes.resolve k s = some m :=
    (h.installed.resolve_unreached hk hs hreached).trans hm
  have himp := hstart.program.ne_msgForward hm
  have hnone : w.classes.resolve k (aliasForSelector s) = none := by
    cases hfind : w.classes.resolve k (aliasForSelector s) with
    | none => rfl
    | some m' =>
      obtain ⟨a, hin, hhook⟩ := h.installed.hook_of_alias hs hfind
      exact absurd hhook (halias a hin)
  refine { h with
    installed := ?_, tracked := ?_, requested := ?_, selected := ?_, swizzled := ?_
    aware := ?_, isa := ?_ }
  · exact h.installed.install hk hs haware hfound himp hnone
  · rintro c hc s' (hhook | ⟨rfl, rfl⟩)
    · exact h.tracked c hc s' hhook
    · exact (hbase hc).1
  · rintro c hc s' (hhook | ⟨rfl, rfl⟩)
    · exact h.requested c hc s' hhook
    · exact (hbase hc).2
  · rintro l s' (hhook | ⟨rfl, rfl⟩)
    · exact h.selected l s' hhook
    · exact hreq
  · intro c hc
    rw [aware_installHook hk hfound himp hnone hs]
    exact h.swizzled c hc
  · intro c hc haware
    exact h.aware c hc ((aware_installHook hk hfound himp hnone hs c).mp haware)
  · intro o
    rw [names_installHook]
    exact h.isa o

theorem installHook_of_reached (h : Hooked w₀ done w hooks) {k : ClassName} {s : Selector}
    (hk : k ∈ w.classes.names) (hs : ordinary s = true)
    (hreached : Reached w₀.classes hooks k s) : World.installHook w.classes k s = w.classes := by
  obtain ⟨m, -, hfound, -⟩ := h.installed.resolve_reached hk hs hreached
  exact installHook_forwarded hfound rfl

/-- A class that is tracked is not below another class with a hook of the selector. -/
theorem hook_of_tracked (h : Hooked w₀ done w hooks) {c a : ClassName} {s : Selector}
    (hc : c ∈ w₀.classes.names) (htracked : s ∈ w.trackers.names c)
    (hin : w₀.classes.Inherits c a) (hhook : hooks a s) : hooks c s := by
  have ha := h.tracked a (hin.mem_names hc) s hhook
  obtain rfl := h.exclusive c a s htracked ha hin
  exact hhook

theorem install_class (h : Hooked w₀ done w hooks) (hstart : Start w₀) {c : ClassName}
    {s : Selector} {m : Method Imp Signature} (hc : c ∈ w₀.classes.names)
    (haware : Aware w.classes c) (hs : ordinary s = true) (hm : w₀.classes.resolve c s = some m)
    (htracked : s ∈ w.trackers.names c)
    (hreq : ∃ r ∈ done, r.target = .classObject c ∧ r.selector = s) :
    ∃ hooks', Hooked w₀ done { w with classes := World.installHook w.classes c s } hooks' ∧
      (∀ l s', hooks l s' → hooks' l s') ∧ hooks' c s := by
  have hc' := h.installed.names c hc
  by_cases hhook : hooks c s
  · refine ⟨hooks, ?_, fun _ _ h => h, hhook⟩
    rw [h.installHook_of_reached hc' hs (Or.inl hhook)]
    exact h
  · obtain ⟨r, hr, htarget, hsel⟩ := hreq
    refine ⟨_, h.install hstart hc' haware hs ?_ (by rwa [origin_of_mem hc]) ?_ ⟨r, hr, hsel⟩
      (fun _ => ⟨htracked, r, hr, htarget, hsel⟩), fun _ _ => Or.inl, Or.inr ⟨rfl, rfl⟩⟩
    · rintro (hself | ⟨a, hin, habove, -⟩)
      · exact hhook hself
      · rw [origin_of_mem hc] at hin
        exact hhook (h.hook_of_tracked hc htracked hin habove)
    · intro a hin habove
      rw [h.installed.inherits_base hc] at hin
      exact hhook (h.hook_of_tracked hc htracked hin habove)

theorem install_object (h : Hooked w₀ done w hooks) (hstart : Start w₀) {o : Object}
    {r : Request} {m : Method Imp Signature} (hr : r.target = .object o) (hdone : r ∈ done)
    (hmem : w₀.isa o ++ aspectsSubclassSuffix ∈ w.classes.names)
    (hs : ordinary r.selector = true)
    (hm : w₀.classes.resolve (w₀.isa o) r.selector = some m)
    (hover : ∀ r' ∈ done, ¬ Overrides w₀ r' r) :
    ∃ hooks', Hooked w₀ done
        { w with
          classes := World.installHook w.classes (w₀.isa o ++ aspectsSubclassSuffix) r.selector }
        hooks' ∧
      (∀ l s', hooks l s' → hooks' l s') ∧
      Reached w₀.classes hooks' (w₀.isa o ++ aspectsSubclassSuffix) r.selector := by
  have hnot := hstart.program.subclass_not_mem (w₀.isa o)
  have horigin := origin_of_subclass hnot
  by_cases hreached : Reached w₀.classes hooks (w₀.isa o ++ aspectsSubclassSuffix) r.selector
  · refine ⟨hooks, ?_, fun _ _ h => h, hreached⟩
    rw [h.installHook_of_reached hmem hs hreached]
    exact h
  · refine ⟨_, h.install hstart hmem (h.derived_of_mem hstart hmem) hs hreached
      (by rwa [horigin]) ?_ ⟨r, hdone, rfl⟩ (fun hbase => absurd hbase hnot), fun _ _ => Or.inl,
      Or.inl (Or.inr ⟨rfl, rfl⟩)⟩
    -- A hook above would be met, since no class in between has the method itself.
    intro a hin hhook
    rcases (h.installed.inherits_origin hmem).mp hin with rfl | hin
    · exact hreached (Or.inl hhook)
    · rw [horigin] at hin
      obtain ⟨r', hr', htarget, hsel⟩ :=
        h.requested a (hin.mem_names (hstart.isa o)) r.selector hhook
      refine hreached (Or.inr ⟨a, by rwa [horigin], hhook, ?_⟩)
      intro d hd hda hne
      rw [horigin] at hd
      by_contra hown
      exact hover r' hr' ⟨a, o, d, htarget, hr, hsel, hd, hda, hne, hown⟩

end Hooked

/-- The aspects of a log for a target and a selector, with one position. -/
def aspectsIn (log : List AspectIdentifier) (x : Target) (s : Selector) (place : Nat) :
    List AspectIdentifier :=
  log.filter (fun a => a.object = x ∧ a.selector = s ∧ position a.options = place)

/-- The container that the log makes up. -/
def collected (log : List AspectIdentifier) (x : Target) (s : Selector) : AspectsContainer :=
  ⟨aspectsIn log x s positionBefore, aspectsIn log x s positionInstead,
    aspectsIn log x s positionAfter⟩

theorem collected_append (log : List AspectIdentifier) (a : AspectIdentifier) (x : Target)
    (s : Selector) :
    collected (log ++ [a]) x s =
      if a.object = x ∧ a.selector = s then (collected log x s).addAspect a a.options
      else collected log x s := by
  by_cases h : a.object = x ∧ a.selector = s
  · obtain ⟨rfl, rfl⟩ := h
    rw [if_pos ⟨rfl, rfl⟩, AspectsContainer.addAspect]
    by_cases hb : position a.options = positionBefore
    · simp [collected, aspectsIn, hb, positionBefore, positionInstead, positionAfter]
    · by_cases hi : position a.options = positionInstead
      · simp [collected, aspectsIn, hi, positionBefore, positionInstead, positionAfter]
      · by_cases ha : position a.options = positionAfter
        · simp [collected, aspectsIn, ha, positionBefore, positionInstead, positionAfter]
        · simp [collected, aspectsIn, hb, hi, ha]
  · have hno : ∀ place, ¬ (a.object = x ∧ a.selector = s ∧ position a.options = place) :=
      fun place he => h ⟨he.1, he.2.1⟩
    rw [if_neg h]
    simp [collected, aspectsIn, hno]

/-- The aspects that were added, in their order, and where they are. -/
structure Logged (w₀ : World) (done : List Request) (w : World) (log : List AspectIdentifier)
    (hooks : ClassName → Selector → Prop) : Prop where
  containers : ∀ x s, (w.containers x (aliasForSelector s)).getD .new = collected log x s
  requests : ∀ a ∈ log, ∃ r ∈ done, a.object = r.target ∧ a.selector = r.selector ∧
    a.options = r.options ∧ a.blockSignature = r.blockSignature
  ids : log.map AspectIdentifier.id = List.range' w₀.created log.length
  created : w.created = w₀.created + log.length
  tokens : ∀ a ∈ log, w.tokens a.id = some a
  object : ∀ a ∈ log, ∀ o, a.object = .object o →
    w.isa o = w₀.isa o ++ aspectsSubclassSuffix ∧
      Reached w₀.classes hooks (w₀.isa o ++ aspectsSubclassSuffix) a.selector
  classObject : ∀ a ∈ log, ∀ c, a.object = .classObject c → hooks c a.selector
  arguments : ∀ a ∈ log, ∃ m, w₀.classes.resolve (w₀.hookedClass a.object) a.selector = some m ∧
    a.blockSignature.length ≤ m.types.length

theorem Start.logged {w₀ : World} (h : Start w₀) : Logged w₀ [] w₀ [] (fun _ _ => False) where
  containers := by
    intro x s
    rw [h.containers]
    rfl
  requests := fun _ ha => absurd ha List.not_mem_nil
  ids := rfl
  created := rfl
  tokens := fun _ ha => absurd ha List.not_mem_nil
  object := fun _ ha => absurd ha List.not_mem_nil
  classObject := fun _ ha => absurd ha List.not_mem_nil
  arguments := fun _ ha => absurd ha List.not_mem_nil

namespace Logged

variable {w₀ w : World} {done : List Request} {log : List AspectIdentifier}
  {hooks : ClassName → Selector → Prop}

theorem more (h : Logged w₀ done w log hooks) (r : Request) :
    Logged w₀ (done ++ [r]) w log hooks :=
  { h with
    requests := by
      intro a ha
      obtain ⟨r', hr', heq⟩ := h.requests a ha
      exact ⟨r', List.mem_append_left _ hr', heq⟩ }

theorem id_lt (h : Logged w₀ done w log hooks) {a : AspectIdentifier} (ha : a ∈ log) :
    a.id < w.created := by
  have hmem : a.id ∈ log.map AspectIdentifier.id := List.mem_map_of_mem ha
  rw [h.ids, List.mem_range'_1] at hmem
  rw [h.created]
  exact hmem.2

end Logged

namespace World

variable {w w' : World} {x : Target} {s : Selector}

theorem setContainer_containers (w : World) (x y : Target) (s s' : Selector)
    (c : Option AspectsContainer) :
    (w.setContainer x (aliasForSelector s) c).containers y (aliasForSelector s') =
      if y = x ∧ s' = s then c else w.containers y (aliasForSelector s') := by
  rw [setContainer]
  by_cases hy : y = x
  · subst hy
    by_cases hs : s' = s
    · subst hs
      simp
    · have hne : aliasForSelector s' ≠ aliasForSelector s := fun he => hs (aliasForSelector_inj he)
      simp [hs, hne]
  · simp [hy]

/-- The container that is there afterwards, whether or not it was created. -/
theorem getContainerForObject_eq (w : World) (x : Target) (s : Selector) :
    (w.getContainerForObject x s).2 = (w.containers x (aliasForSelector s)).getD .new ∧
    ∃ containers, (w.getContainerForObject x s).1 = { w with containers := containers } ∧
      ∀ y s', (containers y (aliasForSelector s')).getD .new =
        (w.containers y (aliasForSelector s')).getD .new := by
  rw [getContainerForObject]
  cases hc : w.containers x (aliasForSelector s) with
  | some c => exact ⟨rfl, w.containers, rfl, fun _ _ => rfl⟩
  | none =>
    refine ⟨rfl, _, rfl, ?_⟩
    intro y s'
    refine (congrArg (fun c => c.getD .new)
      (w.setContainer_containers x y s s' (some .new))).trans ?_
    split
    · next he =>
      rw [he.1, he.2, hc]
      rfl
    · rfl

/-- A request that is allowed changes at most the trackers. -/
theorem isSelectorAllowedAndTrack_ok {options : Nat}
    (h : w.isSelectorAllowedAndTrack x s options = .ok w') :
    ∃ T, w' = { w with trackers := T } ∧ (∀ o, x = .object o → T = w.trackers) ∧
      ∀ c, x = .classObject c → w.trackers.allowedAndTrack w.classes c s = .ok T := by
  unfold isSelectorAllowedAndTrack at h
  split at h
  · cases h
  split at h
  · cases h
  split at h
  · cases h
  cases x with
  | object o =>
    cases h
    refine ⟨w.trackers, rfl, fun _ _ => rfl, ?_⟩
    intro c hc
    cases hc
  | classObject klass =>
    dsimp only at h
    split at h
    · next T hT =>
      cases h
      refine ⟨T, rfl, ?_, ?_⟩
      · intro o ho
        cases ho
      · intro c hc
        cases hc
        exact hT
    · cases h

end World

theorem compatible_length {blockSignature methodSignature : Signature}
    (h : isCompatibleBlockSignature blockSignature methodSignature = true) :
    blockSignature.length ≤ methodSignature.length := by
  rw [isCompatibleBlockSignature] at h
  split at h
  · cases h
  · next hle => exact Nat.le_of_not_lt hle

/-- A hook of the selector is met at the target. -/
def Target.Met (w₀ w : World) (hooks : ClassName → Selector → Prop) (s : Selector) :
    Target → Prop
  | .object o => w.isa o = w₀.isa o ++ aspectsSubclassSuffix ∧
      Reached w₀.classes hooks (w₀.isa o ++ aspectsSubclassSuffix) s
  | .classObject c => hooks c s

namespace Hooked

variable {w₀ w : World} {done : List Request} {hooks : ClassName → Selector → Prop} {r : Request}

/-- Signatures are those of the program, also for methods that are forwarded. -/
theorem methodSignature (h : Hooked w₀ done w hooks) (hstart : Start w₀) (hfair : Fair w₀ r) :
    w.instanceMethodSignature (w.statedClass r.target) r.selector =
      ((w₀.classes.resolve (w₀.hookedClass r.target) r.selector).map Method.types).getD [] := by
  have hclass : w.statedClass r.target = w₀.hookedClass r.target := by
    cases hr : r.target with
    | object o => exact h.statedClass_object hstart o
    | classObject c => rfl
  have hmem : w₀.hookedClass r.target ∈ w₀.classes.names := by
    cases hr : r.target with
    | object o => exact hstart.isa o
    | classObject c => exact hfair.registered c hr
  rw [World.instanceMethodSignature, hclass]
  have horigin := origin_of_mem hmem
  rcases h.installed.resolve_cases (h.installed.names _ hmem) hfair.ordinary with
    ⟨-, hsame⟩ | ⟨-, m, hm, hfound, -⟩
  · rw [hsame, horigin]
  · rw [hfound, ← horigin, hm]
    rfl

/-- `aspect_prepareClassAndHookSelector` succeeds, and hooks of the selector are met at its
target afterwards. -/
theorem prepare (h : Hooked w₀ done w hooks) (hstart : Start w₀) (hfair : Fair w₀ r)
    {m : Method Imp Signature}
    (hm : w₀.classes.resolve (w₀.hookedClass r.target) r.selector = some m)
    (hdone : r ∈ done) (htracked : ∀ c, r.target = .classObject c →
      r.selector ∈ w.trackers.names c)
    (hover : ∀ r' ∈ done, ¬ Overrides w₀ r' r) :
    ∃ w' hooks', w.prepareClassAndHookSelector r.target r.selector = some w' ∧
      Hooked w₀ done w' hooks' ∧ (∀ l s, hooks l s → hooks' l s) ∧
      r.target.Met w₀ w' hooks' r.selector ∧
      (∀ o, w.isa o = w₀.isa o ++ aspectsSubclassSuffix →
        w'.isa o = w₀.isa o ++ aspectsSubclassSuffix) ∧
      w'.containers = w.containers ∧ w'.tokens = w.tokens ∧ w'.created = w.created := by
  cases hr : r.target with
  | classObject c =>
    rw [hr] at hm
    have hc := hfair.registered c hr
    obtain ⟨hswizzled, haware⟩ := h.swizzleClassInPlace hc ⟨r, hdone, hr⟩
    have hsame : (w.swizzleClassInPlace c).trackers = w.trackers ∧
        (w.swizzleClassInPlace c).isa = w.isa ∧
        (w.swizzleClassInPlace c).containers = w.containers ∧
        (w.swizzleClassInPlace c).tokens = w.tokens ∧
        (w.swizzleClassInPlace c).created = w.created := by
      rw [World.swizzleClassInPlace]
      split
      · exact ⟨rfl, rfl, rfl, rfl, rfl⟩
      · exact ⟨rfl, rfl, rfl, rfl, rfl⟩
    obtain ⟨htrackers, hisa, hcontainers, htokens, hcreated⟩ := hsame
    obtain ⟨hooks', hhooked, hle, hhook⟩ := hswizzled.install_class hstart hc haware
      hfair.ordinary hm (by rw [htrackers]; exact htracked c hr) ⟨r, hdone, hr, rfl⟩
    refine ⟨_, hooks', ?_, hhooked, hle, hhook, ?_, hcontainers, htokens, hcreated⟩
    · rw [World.prepareClassAndHookSelector, World.hookClass, hstart.program.names c hc,
        if_neg Bool.false_ne_true]
    · intro o ho
      exact (congrFun hisa o).trans ho
  | object o =>
    rw [hr] at hm
    obtain ⟨w₁, hclass, hhooked₁, hisa, hsame⟩ := h.hookClass_object hstart o
    have hmem : w₀.isa o ++ aspectsSubclassSuffix ∈ w₁.classes.names :=
      hisa ▸ hhooked₁.isa_mem hstart o
    obtain ⟨hooks', hhooked, hle, hreached⟩ :=
      hhooked₁.install_object hstart hr hdone hmem hfair.ordinary hm hover
    refine ⟨_, hooks', ?_, hhooked, hle, ⟨hisa, hreached⟩, ?_, hsame.containers, hsame.tokens,
      hsame.created⟩
    · rw [World.prepareClassAndHookSelector, hclass]
    · intro o' ho'
      by_cases heq : o' = o
      · rw [heq]
        exact hisa
      · exact (hsame.isa o' heq).trans ho'

end Hooked

/-- The aspect that a request has added, if it has. -/
def added (result : Except AspectError AspectIdentifier) : List AspectIdentifier :=
  result.toOption.toList

theorem Hooked.track_request {w₀ w : World} {done : List Request}
    {hooks : ClassName → Selector → Prop} {r : Request} {T : Trackers ClassName Selector}
    (h : Hooked w₀ done w hooks) (hfair : Fair w₀ r)
    (hobject : ∀ o, r.target = .object o → T = w.trackers)
    (hclass : ∀ c, r.target = .classObject c →
      w.trackers.allowedAndTrack w.classes c r.selector = .ok T) :
    Hooked w₀ done { w with trackers := T } hooks ∧
      ∀ c, r.target = .classObject c → r.selector ∈ T.names c := by
  cases hr : r.target with
  | object o =>
    rw [hobject o hr]
    refine ⟨h, ?_⟩
    intro c hc
    cases hc
  | classObject c =>
    obtain ⟨htracked, hin⟩ := h.track (hfair.registered c hr) (hclass c hr)
    refine ⟨htracked, ?_⟩
    intro c' hc'
    cases hc'
    exact hin

/-- A new aspect in the log. -/
theorem Logged.add {w₀ w w' : World} {done : List Request} {log : List AspectIdentifier}
    {hooks hooks' : ClassName → Selector → Prop} {r : Request} {m : Method Imp Signature}
    (h : Logged w₀ done w log hooks) (hdone : r ∈ done) (hle : ∀ l s, hooks l s → hooks' l s)
    (hmet : r.target.Met w₀ w' hooks' r.selector)
    (hisa : ∀ o, w.isa o = w₀.isa o ++ aspectsSubclassSuffix →
      w'.isa o = w₀.isa o ++ aspectsSubclassSuffix)
    (hm : w₀.classes.resolve (w₀.hookedClass r.target) r.selector = some m)
    (hlength : r.blockSignature.length ≤ m.types.length)
    (hcontainers : ∀ x s, (w'.containers x (aliasForSelector s)).getD .new =
      if x = r.target ∧ s = r.selector then (collected log x s).addAspect
        ⟨w.created, r.selector, r.target, r.options, r.blockSignature⟩ r.options
      else collected log x s)
    (htokens : w'.tokens = Function.update w.tokens w.created
      (some ⟨w.created, r.selector, r.target, r.options, r.blockSignature⟩))
    (hcreated : w'.created = w.created + 1) :
    Logged w₀ done w' (log ++ [⟨w.created, r.selector, r.target, r.options, r.blockSignature⟩])
      hooks' := by
  have hsplit : ∀ {P : AspectIdentifier → Prop}, (∀ a ∈ log, P a) →
      P ⟨w.created, r.selector, r.target, r.options, r.blockSignature⟩ →
      ∀ a ∈ log ++ [⟨w.created, r.selector, r.target, r.options, r.blockSignature⟩], P a := by
    intro P hold hnew a ha
    rcases List.mem_append.mp ha with ha | ha
    · exact hold a ha
    · rw [List.mem_singleton.mp ha]
      exact hnew
  refine ⟨?_, ?_, ?_, ?_, ?_, ?_, ?_, ?_⟩
  · intro x s
    rw [hcontainers, collected_append]
    refine if_congr ?_ rfl rfl
    exact ⟨fun he => ⟨he.1.symm, he.2.symm⟩, fun he => ⟨he.1.symm, he.2.symm⟩⟩
  · exact hsplit h.requests ⟨r, hdone, rfl, rfl, rfl, rfl⟩
  · rw [List.map_append, h.ids, List.length_append, List.length_singleton,
      List.range'_1_concat, ← h.created]
    rfl
  · rw [hcreated, h.created, List.length_append, List.length_singleton, Nat.add_assoc]
  · rw [htokens]
    refine hsplit ?_ (Function.update_self ..)
    intro a ha
    rw [Function.update_of_ne (Nat.ne_of_lt (h.id_lt ha)), h.tokens a ha]
  · refine hsplit ?_ ?_
    · intro a ha o ho
      obtain ⟨hsub, hreached⟩ := h.object a ha o ho
      exact ⟨hisa o hsub, hreached.mono hle⟩
    · intro o ho
      change r.target = .object o at ho
      rw [ho] at hmet
      exact hmet
  · refine hsplit ?_ ?_
    · exact fun a ha c hc => hle _ _ (h.classObject a ha c hc)
    · intro c hc
      change r.target = .classObject c at hc
      rw [hc] at hmet
      exact hmet
  · exact hsplit h.arguments ⟨m, hm, hlength⟩

/-- A fair request returns, keeps the hooks that there are, and adds its aspect to the log or
is refused. -/
theorem add_spec {w₀ w : World} {done : List Request} {log : List AspectIdentifier}
    {hooks : ClassName → Selector → Prop} {r : Request} (hstart : Start w₀)
    (h : Hooked w₀ done w hooks) (hlog : Logged w₀ done w log hooks) (hfair : Fair w₀ r)
    (hover : ∀ r' ∈ done, ¬ Overrides w₀ r' r) :
    ∃ w' result hooks', w.add r.target r.selector r.options r.blockSignature = some (w', result) ∧
      Hooked w₀ (done ++ [r]) w' hooks' ∧
      Logged w₀ (done ++ [r]) w' (log ++ added result) hooks' := by
  rw [World.add]
  cases hallowed : w.isSelectorAllowedAndTrack r.target r.selector r.options with
  | error e =>
    refine ⟨w, .error e, hooks, rfl, h.more r, ?_⟩
    rw [added, Except.toOption, Option.toList_none, List.append_nil]
    exact hlog.more r
  | ok w₁ =>
    obtain ⟨T, rfl, hobject, hclass⟩ := World.isSelectorAllowedAndTrack_ok hallowed
    obtain ⟨h₁, htracked⟩ := h.track_request hfair hobject hclass
    obtain ⟨hcontainer, containers, hget, hsame⟩ :=
      World.getContainerForObject_eq { w with trackers := T } r.target r.selector
    have h₂ : Hooked w₀ (done ++ [r]) { w with trackers := T, containers := containers } hooks :=
      { h₁.more r with }
    have hlog₂ : Logged w₀ (done ++ [r]) { w with trackers := T, containers := containers } log
        hooks :=
      { hlog.more r with containers := fun x s => (hsame x s).trans (hlog.containers x s) }
    dsimp only
    rw [hget, hcontainer]
    have hsignature := h₂.methodSignature hstart hfair
    cases hcompatible : isCompatibleBlockSignature r.blockSignature
        (World.instanceMethodSignature { w with trackers := T, containers := containers }
          (World.statedClass { w with trackers := T, containers := containers } r.target)
          r.selector) with
    | false =>
      refine ⟨_, _, hooks, rfl, h₂, ?_⟩
      rw [added, Except.toOption, Option.toList_none, List.append_nil]
      exact hlog₂
    | true =>
      have hlength := compatible_length hcompatible
      rw [hsignature] at hlength
      obtain ⟨m, hm⟩ : ∃ m, w₀.classes.resolve (w₀.hookedClass r.target) r.selector = some m := by
        cases hfind : w₀.classes.resolve (w₀.hookedClass r.target) r.selector with
        | some m => exact ⟨m, rfl⟩
        | none =>
          rw [hfind] at hlength
          exact absurd (List.eq_nil_of_length_eq_zero (Nat.le_zero.mp hlength)) hfair.block
      rw [hm] at hlength
      have hover' : ∀ r' ∈ done ++ [r], ¬ Overrides w₀ r' r := by
        intro r' hr'
        rcases List.mem_append.mp hr' with hr' | hr'
        · exact hover r' hr'
        · rw [List.mem_singleton.mp hr']
          rintro ⟨c, o, d, hc, ho, -⟩
          rw [hc] at ho
          cases ho
      have hdone : r ∈ done ++ [r] := List.mem_append_right _ (List.mem_singleton_self r)
      obtain ⟨w', hooks', hprepare, hhooked, hle, hmet, hisa, hcontainers, htokens, hcreated⟩ :=
        Hooked.prepare (w := { World.setContainer { w with trackers := T, containers := containers }
            r.target (aliasForSelector r.selector)
            (some (((w.containers r.target (aliasForSelector r.selector)).getD .new).addAspect
              ⟨w.created, r.selector, r.target, r.options, r.blockSignature⟩ r.options)) with
          tokens := Function.update w.tokens w.created
            (some ⟨w.created, r.selector, r.target, r.options, r.blockSignature⟩)
          created := w.created + 1 }) { h₂ with } hstart hfair hm hdone htracked hover'
      refine ⟨w', .ok ⟨w.created, r.selector, r.target, r.options, r.blockSignature⟩, hooks', ?_,
        hhooked, hlog₂.add hdone hle hmet hisa hm hlength ?_ htokens hcreated⟩
      · rw [if_pos rfl]
        exact congrArg (Option.map _) hprepare
      · intro x s
        rw [hcontainers]
        refine (congrArg (fun c => c.getD .new)
          (World.setContainer_containers _ r.target x r.selector s _)).trans ?_
        rw [hlog.containers]
        split
        · next he =>
          rw [he.1, he.2]
          rfl
        · exact hlog₂.containers x s

/-- The requests of a program one after the other, with the aspects that were added. -/
def World.adds (w : World) : List Request → Option (World × List AspectIdentifier)
  | [] => some (w, [])
  | r :: rest =>
    (w.add r.target r.selector r.options r.blockSignature).bind (fun step =>
      (step.1.adds rest).map (fun run => (run.1, added step.2 ++ run.2)))

/-- The requests of a run: each one is fair, and none hooks an object below a hook of a class
that a class in between overrides. -/
structure FairRun (w₀ : World) (requests : List Request) : Prop where
  fair : ∀ r ∈ requests, Fair w₀ r
  overrides : requests.Pairwise (fun earlier later => ¬ Overrides w₀ earlier later)

theorem adds_from {w₀ w : World} {done rest : List Request} {log : List AspectIdentifier}
    {hooks : ClassName → Selector → Prop} (hstart : Start w₀) (h : Hooked w₀ done w hooks)
    (hlog : Logged w₀ done w log hooks) (hrun : FairRun w₀ (done ++ rest)) :
    ∃ w' log' hooks', w.adds rest = some (w', log') ∧ Hooked w₀ (done ++ rest) w' hooks' ∧
      Logged w₀ (done ++ rest) w' (log ++ log') hooks' := by
  induction rest generalizing w done log hooks with
  | nil =>
    rw [List.append_nil] at hrun ⊢
    exact ⟨w, [], hooks, rfl, h, by rwa [List.append_nil]⟩
  | cons r rest ih =>
    have hover : ∀ r' ∈ done, ¬ Overrides w₀ r' r :=
      fun r' hr' => (List.pairwise_append.mp hrun.overrides).2.2 r' hr' r List.mem_cons_self
    obtain ⟨w₁, result, hooks₁, hadd, h₁, hlog₁⟩ :=
      add_spec hstart h hlog (hrun.fair r (by simp)) hover
    obtain ⟨w', log', hooks', hrest, h', hlog'⟩ := ih h₁ hlog₁ (by simpa using hrun)
    rw [List.append_assoc, List.singleton_append] at h'
    rw [List.append_assoc, List.append_assoc, List.singleton_append] at hlog'
    refine ⟨w', added result ++ log', hooks', ?_, h', hlog'⟩
    rw [World.adds, hadd, Option.bind_some, hrest]
    rfl

/-- A run of fair requests returns, whatever it is refused. -/
theorem adds_spec {w₀ : World} {requests : List Request} (hstart : Start w₀)
    (hrun : FairRun w₀ requests) :
    ∃ w log hooks, w₀.adds requests = some (w, log) ∧ Hooked w₀ requests w hooks ∧
      Logged w₀ requests w log hooks :=
  adds_from hstart hstart.hooked hstart.logged hrun

end BasicDemo.Aspects
