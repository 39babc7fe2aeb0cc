import BasicDemo.Library.Runs
import BasicDemo.Timer.Registry
import Mathlib.Logic.Function.Basic

namespace BasicDemo.Timer.Screens
open Library.Runs

/-- What an `SKRunloopVC` keeps of its timers. `armed` records that it has started
one since it last cancelled; the code has no such flag. -/
structure Screen where
  taskID : Option String
  alive : Bool
  armed : Bool

/-- All screens share one registry. `startedBy` records, for each source, the screen
whose `timerAction` made it. -/
structure State where
  registry : Registry
  screens : Nat → Screen
  startedBy : Nat → Option Nat

def initial : State := ⟨Registry.empty, fun _ => ⟨none, true, false⟩, fun _ => none⟩

inductive Event where
  | timerAction (v : Nat)
  | cancelAction (v : Nat)
  | dealloc (v : Nat)

/-- The identifier of a timer started before is overwritten. -/
def timerAction (s : State) (v : Nat) : State :=
  match executeTask s.registry timerRequest with
  | (r, none) =>
    { s with
      registry := r
      screens := Function.update s.screens v { s.screens v with taskID := none } }
  | (r, some task) =>
    { registry := r
      screens := Function.update s.screens v
        { s.screens v with taskID := some task.timerID, armed := true }
      startedBy := Function.update s.startedBy task.source.handle (some v) }

/-- Both ways of stopping call `cancelTask` with the stored identifier, and neither
clears it. -/
def stop (s : State) (v : Nat) (alive : Bool) : State :=
  { s with
    registry := cancelTask s.registry (s.screens v).taskID
    screens := Function.update s.screens v { s.screens v with alive := alive, armed := false } }

def cancelAction (s : State) (v : Nat) : State := stop s v (s.screens v).alive

def dealloc (s : State) (v : Nat) : State := stop s v false

/-- Any screen may act as long as it has not been deallocated. -/
def step (s : State) : Event → Option State
  | .timerAction v => if (s.screens v).alive then some (timerAction s v) else none
  | .cancelAction v => if (s.screens v).alive then some (cancelAction s v) else none
  | .dealloc v => if (s.screens v).alive then some (dealloc s v) else none

/-- No timer of a deallocated screen is still registered. -/
def NoneLeft (s : State) : Prop :=
  ∀ v, (s.screens v).alive = false → ∀ id source,
    s.registry.timerDict.lookup id = some source → s.startedBy source.handle ≠ some v

/-- Stopping a screen neither unregisters nor cancels a timer of another one. -/
def SparesOthers (s : State) (e : Event) : Prop :=
  ∀ v t, (e = .cancelAction v ∨ e = .dealloc v) → step s e = some t →
    (∀ id source, s.registry.timerDict.lookup id = some source →
      s.startedBy source.handle ≠ some v → t.registry.timerDict.lookup id = some source) ∧
    (∀ n ∈ t.registry.cancelled, n ∈ s.registry.cancelled ∨ s.startedBy n = some v)

/-- A screen whose timer runs starts another one only in its place, a screen
without one gets an unused identifier, and a screen that has already cancelled
stops again only while nobody is registered under its old identifier. -/
def Disciplined (s : State) : Event → Prop
  | .timerAction v =>
    if (s.screens v).armed then (s.screens v).taskID = some (freshID s.registry)
    else freshID s.registry ∉ s.registry.timerDict
  | .cancelAction v | .dealloc v =>
    (s.screens v).armed ∨ ∀ id ∈ (s.screens v).taskID, id ∉ s.registry.timerDict

instance (s : State) : (e : Event) → Decidable (Disciplined s e)
  | .timerAction v =>
    inferInstanceAs (Decidable
      (if (s.screens v).armed then (s.screens v).taskID = some (freshID s.registry)
      else freshID s.registry ∉ s.registry.timerDict))
  | .cancelAction _ => inferInstanceAs (Decidable (_ ∨ _))
  | .dealloc _ => inferInstanceAs (Decidable (_ ∨ _))

/-- Registered timers and armed screens correspond one to one. -/
structure Owned (s : State) : Prop where
  sound : Sound s.registry
  entry : ∀ id source, s.registry.timerDict.lookup id = some source →
    ∃ v, s.startedBy source.handle = some v ∧ (s.screens v).taskID = some id ∧
      (s.screens v).armed = true ∧ (s.screens v).alive = true
  holder : ∀ v, (s.screens v).armed = true → ∃ id source, (s.screens v).taskID = some id ∧
    s.registry.timerDict.lookup id = some source ∧ s.startedBy source.handle = some v

theorem timerAction_eq (s : State) (v : Nat) :
    timerAction s v =
      { registry :=
          { s.registry with
            timerDict := s.registry.timerDict.insert (freshID s.registry)
              (newSource s.registry timerRequest)
            created := s.registry.created + 1 }
        screens := Function.update s.screens v
          { s.screens v with taskID := some (freshID s.registry), armed := true }
        startedBy := Function.update s.startedBy s.registry.created (some v) } := by
  simp [timerAction, executeTask_accepted timerRequest_accepted]

/-- A step starts a timer or stops a screen, and the screen was alive. -/
theorem step_cases {s t : State} {e : Event} (h : step s e = some t) :
    (∃ v, e = .timerAction v ∧ (s.screens v).alive = true ∧ t = timerAction s v) ∨
    (∃ v b, (e = .cancelAction v ∨ e = .dealloc v) ∧ (s.screens v).alive = true ∧
      t = stop s v b) := by
  cases e with
  | timerAction v =>
    simp only [step] at h
    split at h
    · exact Or.inl ⟨v, rfl, ‹_›, (Option.some.inj h).symm⟩
    · cases h
  | cancelAction v =>
    simp only [step] at h
    split at h
    · exact Or.inr ⟨v, _, Or.inl rfl, ‹_›, (Option.some.inj h).symm⟩
    · cases h
  | dealloc v =>
    simp only [step] at h
    split at h
    · exact Or.inr ⟨v, _, Or.inr rfl, ‹_›, (Option.some.inj h).symm⟩
    · cases h

/-- A source registered before a start keeps its record of who started it. -/
theorem Owned.startedBy_old {s : State} (h : Owned s) (v : Nat) (id : String)
    (source : TimerSource) (hs : s.registry.timerDict.lookup id = some source) :
    (timerAction s v).startedBy source.handle = s.startedBy source.handle := by
  rw [timerAction_eq]
  have := h.sound.made id source hs
  exact Function.update_of_ne (by omega) _ _

theorem owned_initial : Owned initial := by
  refine ⟨sound_empty, ?_, ?_⟩
  · intro id source h
    simp [initial, Registry.empty] at h
  · intro v h
    simp [initial] at h

/-- Before a disciplined start the screen has at most one entry, under the key about to be
written. -/
theorem Owned.other_keys {s : State} (h : Owned s) {v : Nat} (hd : Disciplined s (.timerAction v))
    {id : String} {source : TimerSource} {w : Nat} (hne : id ≠ freshID s.registry)
    (hs : s.registry.timerDict.lookup id = some source)
    (hw : s.startedBy source.handle = some w) : w ≠ v := by
  intro he
  subst he
  obtain ⟨u, hu, hid, harm, _⟩ := h.entry id source hs
  have hwu : w = u := Option.some.inj (hw.symm.trans hu)
  subst u
  simp only [Disciplined, harm, if_true] at hd
  exact hne (Option.some.inj (hid.symm.trans hd))

/-- The key about to be written is not that of another screen. -/
theorem Owned.other_screens {s : State} (h : Owned s) {v : Nat}
    (hd : Disciplined s (.timerAction v)) {id : String} {source : TimerSource} {w : Nat} (hwv : w ≠ v)
    (hs : s.registry.timerDict.lookup id = some source)
    (hw : s.startedBy source.handle = some w) : id ≠ freshID s.registry := by
  intro he
  subst he
  cases harm : (s.screens v).armed with
  | true =>
    simp only [Disciplined, harm, if_true] at hd
    obtain ⟨id', source', hid', hs', hv'⟩ := h.holder v harm
    cases Option.some.inj (hd.symm.trans hid')
    cases Option.some.inj (hs.symm.trans hs')
    exact hwv (Option.some.inj (hw.symm.trans hv'))
  | false =>
    simp only [Disciplined, harm, Bool.false_eq_true, if_false] at hd
    exact hd (AList.lookup_isSome.mp (by simp [hs]))

theorem Owned.after_start {s : State} (h : Owned s) {v : Nat} (ha : (s.screens v).alive = true)
    (hd : Disciplined s (.timerAction v)) : Owned (timerAction s v) := by
  have hold := h.startedBy_old v
  rw [timerAction_eq] at hold ⊢
  refine ⟨?_, ?_, ?_⟩
  · have := h.sound.executeTask timerRequest
    rwa [executeTask_accepted timerRequest_accepted] at this
  · intro id source hs
    rcases lookup_insert_cases hs with ⟨rfl, rfl⟩ | ⟨hne, hs⟩
    · exact ⟨v, by simp, by simp, by simp, by simpa using ha⟩
    · obtain ⟨w, hw, hid, harm, hal⟩ := h.entry id source hs
      have hwv := h.other_keys hd hne hs hw
      refine ⟨w, (hold id source hs).trans hw, ?_⟩
      simp only [Function.update_of_ne hwv]
      exact ⟨hid, harm, hal⟩
  · intro w harm
    by_cases hwv : w = v
    · subst w
      exact ⟨freshID s.registry, newSource s.registry timerRequest, by simp,
        AList.lookup_insert _, by simp⟩
    · simp only [Function.update_of_ne hwv] at harm
      obtain ⟨id, source, hid, hs, hw⟩ := h.holder w harm
      refine ⟨id, source, by simpa only [Function.update_of_ne hwv] using hid, ?_,
        (hold id source hs).trans hw⟩
      change (s.registry.timerDict.insert _ _).lookup id = _
      rw [AList.lookup_insert_ne (h.other_screens hd hwv hs hw)]
      exact hs

/-- Under the discipline the stored identifier reaches the screen's own timer or
none at all. -/
theorem Owned.stopped_own {s : State} (h : Owned s) {v : Nat}
    (hd : (s.screens v).armed ∨
      ∀ id ∈ (s.screens v).taskID, id ∉ s.registry.timerDict)
    {id : String} {source : TimerSource} (hid : (s.screens v).taskID = some id)
    (hs : s.registry.timerDict.lookup id = some source) : s.startedBy source.handle = some v := by
  rcases hd with harm | hfree
  · obtain ⟨id', source', hid', hs', hv⟩ := h.holder v harm
    cases Option.some.inj (hid.symm.trans hid')
    cases Option.some.inj (hs.symm.trans hs')
    exact hv
  · exact absurd (AList.lookup_isSome.mp (by simp [hs])) (hfree id hid)

theorem Owned.after_stop {s : State} (h : Owned s) {v : Nat} (b : Bool)
    (hd : (s.screens v).armed ∨
      ∀ id ∈ (s.screens v).taskID, id ∉ s.registry.timerDict) :
    Owned (stop s v b) := by
  refine ⟨h.sound.cancelTask _, ?_, ?_⟩
  · intro id source hs
    have hold := cancelTask_lookup_some hs
    obtain ⟨w, hw, hid, harm, hal⟩ := h.entry id source hold
    have hwv : w ≠ v := by
      intro he
      subst he
      change (cancelTask s.registry (s.screens w).taskID).timerDict.lookup id = _ at hs
      rw [hid, cancelTask_lookup_self _ _ (h.sound.named id source hold)] at hs
      cases hs
    refine ⟨w, hw, ?_⟩
    simp only [stop, Function.update_of_ne hwv]
    exact ⟨hid, harm, hal⟩
  · intro w harm
    have hwv : w ≠ v := by
      intro he
      subst he
      simp [stop] at harm
    simp only [stop, Function.update_of_ne hwv] at harm ⊢
    obtain ⟨id, source, hid, hs, hw⟩ := h.holder w harm
    refine ⟨id, source, hid, ?_, hw⟩
    rw [cancelTask_lookup_other]
    · exact hs
    · intro he
      have hv := h.stopped_own hd he hs
      exact hwv (Option.some.inj (hw.symm.trans hv))

theorem owned_step (s : State) (e : Event) (t : State) (h : Owned s) (hd : Disciplined s e)
    (hs : step s e = some t) : Owned t := by
  rcases step_cases hs with ⟨v, rfl, ha, rfl⟩ | ⟨v, b, rfl | rfl, _, rfl⟩
  · exact h.after_start ha hd
  · exact h.after_stop b hd
  · exact h.after_stop b hd

theorem Owned.noneLeft {s : State} (h : Owned s) : NoneLeft s := by
  intro v hv id source hs hstart
  obtain ⟨w, hw, _, _, hal⟩ := h.entry id source hs
  cases Option.some.inj (hstart.symm.trans hw)
  rw [hv] at hal
  cases hal

theorem Owned.sparesOthers (s : State) (e : Event) (t : State) (h : Owned s)
    (hd : Disciplined s e) (_ : step s e = some t) : SparesOthers s e := by
  intro v u he hu
  rcases step_cases hu with ⟨w, rfl, _⟩ | ⟨w, b, he', _, rfl⟩
  · rcases he with he | he <;> cases he
  · have hwv : w = v := by
      rcases he with rfl | rfl <;> rcases he' with he' | he' <;> cases he' <;> rfl
    subst w
    have hd' : (s.screens v).armed ∨
        ∀ id ∈ (s.screens v).taskID, id ∉ s.registry.timerDict := by
      rcases he with rfl | rfl <;> exact hd
    constructor
    · intro id source hs hne
      change (cancelTask s.registry _).timerDict.lookup id = _
      rw [cancelTask_lookup_other]
      · exact hs
      · intro hid
        exact hne (h.stopped_own hd' hid hs)
    · intro n hn
      rcases mem_cancelTask_cancelled hn with hold | ⟨id, source, hid, hs, rfl⟩
      · exact Or.inl hold
      · exact Or.inr (h.stopped_own hd' hid hs)

/-- The two clauses of timer ownership over a whole run. -/
def TimersOwned (es : List Event) : Prop :=
  Throughout step NoneLeft initial es ∧ Along step SparesOthers initial es

theorem disciplined_owned {es : List Event} (h : Along step Disciplined initial es) :
    Throughout step Owned initial es :=
  throughout_of_along owned_step owned_initial h

/-- A second timer started under another identifier leaves the first one behind
when the screen goes. -/
theorem Owned.second_timer_leaks {s : State} (h : Owned s) {v : Nat}
    (harm : (s.screens v).armed = true)
    (hne : (s.screens v).taskID ≠ some (freshID s.registry)) :
    ¬ NoneLeft (dealloc (timerAction s v) v) := by
  obtain ⟨id, source, hid, hs, hv⟩ := h.holder v harm
  have hold := h.startedBy_old v id source hs
  intro hnone
  refine hnone v (by simp [dealloc, stop]) id source ?_ (hold.trans hv)
  rw [hid] at hne
  have hfresh : id ≠ freshID s.registry := fun he => hne (congrArg some he)
  rw [timerAction_eq]
  change (cancelTask _ _).timerDict.lookup id = _
  rw [cancelTask_lookup_other]
  · change (s.registry.timerDict.insert _ _).lookup id = _
    rw [AList.lookup_insert_ne hfresh]
    exact hs
  · simpa using hfresh.symm

/-- A timer started under the identifier of another screen's timer is lost when
that screen cancels. -/
theorem Owned.taken_key_cancelled {s : State} (h : Owned s) {v : Nat}
    (harm : (s.screens v).armed = false) (hmem : freshID s.registry ∈ s.registry.timerDict) :
    ∃ w, ¬ SparesOthers (timerAction s v) (.cancelAction w) := by
  obtain ⟨source, hs⟩ := Option.isSome_iff_exists.mp (AList.lookup_isSome.mpr hmem)
  obtain ⟨w, _, hid, harmw, hal⟩ := h.entry _ _ hs
  have hwv : w ≠ v := by
    intro he
    rw [he, harm] at harmw
    cases harmw
  refine ⟨w, ?_⟩
  intro hspare
  have hscreen : (timerAction s v).screens w = s.screens w := by
    simp [timerAction_eq, Function.update_of_ne hwv]
  have hstep : step (timerAction s v) (.cancelAction w) =
      some (cancelAction (timerAction s v) w) := by
    simp [step, hscreen, hal]
  have hnew : (timerAction s v).registry.timerDict.lookup (freshID s.registry) =
      some (newSource s.registry timerRequest) := by
    rw [timerAction_eq]
    exact AList.lookup_insert _
  have hstart : (timerAction s v).startedBy (newSource s.registry timerRequest).handle ≠ some w := by
    rw [timerAction_eq]
    simpa using hwv.symm
  have hlost := (hspare w _ (Or.inl rfl) hstep).1 _ _ hnew hstart
  change (cancelTask _ ((timerAction s v).screens w).taskID).timerDict.lookup _ = _ at hlost
  rw [hscreen, hid, cancelTask_lookup_self _ _ (freshID_length _)] at hlost
  cases hlost

/-- A stale identifier that is in use again belongs to another screen. -/
theorem Owned.stale_stop {s t : State} (h : Owned s) {v : Nat} {e : Event}
    (he : e = .cancelAction v ∨ e = .dealloc v) (hstep : step s e = some t)
    (hbad : ¬ ((s.screens v).armed ∨
      ∀ id ∈ (s.screens v).taskID, id ∉ s.registry.timerDict)) :
    ¬ SparesOthers s e := by
  simp only [not_or, not_forall, not_not] at hbad
  obtain ⟨harm, id, hid, hmem⟩ := hbad
  obtain ⟨source, hs⟩ := Option.isSome_iff_exists.mp (AList.lookup_isSome.mpr hmem)
  obtain ⟨w, hw, _, harmw, _⟩ := h.entry id source hs
  have hne : s.startedBy source.handle ≠ some v := by
    intro hv
    cases Option.some.inj (hw.symm.trans hv)
    exact harm harmw
  intro hspare
  have hlost := (hspare v t he hstep).1 id source hs hne
  have ht : t.registry = cancelTask s.registry (some id) := by
    rw [← Option.mem_def.mp hid]
    rcases he with rfl | rfl <;> simp only [step] at hstep <;> split at hstep <;> cases hstep <;>
      simp [cancelAction, dealloc, stop]
  rw [ht, cancelTask_lookup_self _ _ (h.sound.named id source hs)] at hlost
  cases hlost

/-- Breaking the discipline once is enough: at most one more cancel or dealloc
shows a leaked or a stolen timer. -/
theorem Owned.undisciplined {s t : State} (h : Owned s) {e : Event}
    (hstep : step s e = some t) (hbad : ¬ Disciplined s e) :
    ∃ more, ¬ (Throughout step NoneLeft s (e :: more) ∧ Along step SparesOthers s (e :: more)) := by
  cases e with
  | timerAction v =>
    have ht : t = timerAction s v := by
      simp only [step] at hstep
      split at hstep
      · exact (Option.some.inj hstep).symm
      · cases hstep
    subst t
    cases harm : (s.screens v).armed with
    | true =>
      simp only [Disciplined, harm, if_true] at hbad
      refine ⟨[.dealloc v], ?_⟩
      intro ⟨hnone, _⟩
      have hal : ((timerAction s v).screens v).alive = true := by
        obtain ⟨id, source, _, hs, hv⟩ := h.holder v harm
        obtain ⟨w, hw, _, _, hal⟩ := h.entry id source hs
        cases Option.some.inj (hv.symm.trans hw)
        simpa [timerAction_eq] using hal
      exact h.second_timer_leaks harm hbad
        ((hnone.2 _ hstep).2 _ (by simp [step, hal]))
    | false =>
      simp only [Disciplined, harm, Bool.false_eq_true, if_false, not_not] at hbad
      obtain ⟨w, hw⟩ := h.taken_key_cancelled harm hbad
      refine ⟨[.cancelAction w], ?_⟩
      intro ⟨_, hspare⟩
      apply hw
      intro u x he hx
      exact ((hspare _ hstep).2 x hx).1 u x he hx
  | cancelAction v =>
    refine ⟨[], ?_⟩
    intro ⟨_, hspare⟩
    exact h.stale_stop (Or.inl rfl) hstep hbad (hspare t hstep).1
  | dealloc v =>
    refine ⟨[], ?_⟩
    intro ⟨_, hspare⟩
    exact h.stale_stop (Or.inr rfl) hstep hbad (hspare t hstep).1

/-- Every disciplined run keeps timers with their screens, and the discipline is
the weakest one: a run that has kept it so far and breaks it with its next event
has a continuation that leaks a timer or stops another screen's. -/
theorem timers_owned (es : List Event) :
    (Along step Disciplined initial es → TimersOwned es) ∧
    (∀ e s t, Along step Disciplined initial es → run step initial es = some s →
      step s e = some t → ¬ Disciplined s e → ∃ more, ¬ TimersOwned (es ++ e :: more)) := by
  constructor
  · intro h
    have howned := disciplined_owned h
    exact ⟨howned.mono (fun _ => Owned.noneLeft), howned.along Owned.sparesOthers h⟩
  · intro e s t h hrun hstep hbad
    obtain ⟨more, hmore⟩ := ((disciplined_owned h).last hrun).undisciplined hstep hbad
    refine ⟨more, ?_⟩
    intro ⟨hnone, hspare⟩
    exact hmore ⟨hnone.drop hrun, hspare.drop hrun⟩

/-- Starting and cancelling in turn is disciplined, and so is a screen that cancels twice
while the timer of another one runs under its own identifier. -/
theorem timers_owned_restart :
    TimersOwned [.timerAction 0, .cancelAction 0, .timerAction 0, .dealloc 0] ∧
    TimersOwned [.timerAction 0, .timerAction 1, .cancelAction 0, .cancelAction 0, .dealloc 0,
      .dealloc 1] := by
  constructor
  · apply (timers_owned _).1
    decide +kernel
  · apply (timers_owned _).1
    decide +kernel

/-- One screen starts two timers and goes; two screens in turn get one identifier
and the first cancels twice. -/
theorem leaked_and_stolen_timer :
    ¬ TimersOwned [.timerAction 0, .timerAction 0, .dealloc 0] ∧
    ¬ TimersOwned [.timerAction 0, .cancelAction 0, .timerAction 1, .cancelAction 0] := by
  refine ⟨?_, ?_⟩
  · intro ⟨hnone, _⟩
    have hrun : (run step initial [.timerAction 0, .timerAction 0, .dealloc 0]).map (fun s =>
        ((s.screens 0).alive, (s.registry.timerDict.lookup "0").map (fun t => s.startedBy t.handle))) =
        some (false, some (some 0)) := by
      decide +kernel
    obtain ⟨s, hs, hleft⟩ := Option.map_eq_some_iff.mp hrun
    obtain ⟨halive, hlook⟩ := Prod.mk.inj hleft
    obtain ⟨source, hsource, hstart⟩ := Option.map_eq_some_iff.mp hlook
    exact hnone.last hs 0 halive "0" source hsource hstart
  · intro ⟨_, hspare⟩
    have hrun : (run step initial [.timerAction 0, .cancelAction 0, .timerAction 1]).map (fun s =>
        ((s.screens 0).alive, (s.screens 0).taskID,
          (s.registry.timerDict.lookup "0").map (fun t => s.startedBy t.handle))) =
        some (true, some "0", some (some 1)) := by
      decide +kernel
    obtain ⟨s, hs, hstale⟩ := Option.map_eq_some_iff.mp hrun
    simp only [Prod.mk.injEq] at hstale
    obtain ⟨halive, hid, hlook⟩ := hstale
    obtain ⟨source, hsource, hstart⟩ := Option.map_eq_some_iff.mp hlook
    have hstep : step s (.cancelAction 0) = some (cancelAction s 0) := by simp [step, halive]
    change Along step SparesOthers initial
      ([.timerAction 0, .cancelAction 0, .timerAction 1] ++ [.cancelAction 0]) at hspare
    have hlast := (hspare.drop hs _ hstep).1
    have hkept := (hlast 0 _ (Or.inl rfl) hstep).1 "0" source hsource (by simp [hstart])
    simp [cancelAction, stop, hid, cancelTask] at hkept

end BasicDemo.Timer.Screens
