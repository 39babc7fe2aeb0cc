import BasicDemo.Observing.Delivery

namespace BasicDemo.Observing
open Library.Runs

variable {Data Value : Type}

theorem becomeKvo_observers (s : State Data Value) (x : ObjectID) :
    (becomeKvo s x).life = s.life ∧ (becomeKvo s x).scheduled = s.scheduled ∧
      ∀ y, (becomeKvo s x).infos y = s.infos y := by
  unfold becomeKvo
  split
  · exact ⟨rfl, rfl, fun _ => rfl⟩
  · refine ⟨rfl, rfl, fun y => ?_⟩
    exact modify_infos { s with classes := (makeKvoClass s x (s.isa x)).1 } x
      (f := fun o => { o with isa := (makeKvoClass s x (s.isa x)).2 }) (fun _ => rfl) y

theorem addSetter_observers (s : State Data Value) (x : ObjectID) (sel : Selector)
    (types : Option Signature) :
    (addSetter s x sel types).life = s.life ∧ (addSetter s x sel types).scheduled = s.scheduled ∧
      ∀ y, (addSetter s x sel types).infos y = s.infos y := by
  unfold addSetter
  split
  · exact ⟨rfl, rfl, fun _ => rfl⟩
  · exact ⟨rfl, rfl, fun _ => rfl⟩

theorem mem_addInfo {s : State Data Value} {x o y : ObjectID} {key : NSString} {block : Nat}
    {i : Info} (h : i ∈ (addInfo s x o key block).infos y) :
    i ∈ s.infos y ∨ i.observer = o := by
  unfold addInfo State.infos at h
  by_cases hy : y = x
  · subst y
    simp only [modify_self, Option.getD_some, List.mem_append, List.mem_singleton] at h
    rcases h with h | h
    · exact Or.inl h
    · exact Or.inr (by rw [h])
  · simp only [modify_other s hy] at h
    exact Or.inl h

theorem mem_skRemoveObserver {s : State Data Value} {x o y : ObjectID} {key : NSString}
    {i : Info} (h : i ∈ (skRemoveObserver s x o key).infos y) : i ∈ s.infos y := by
  rcases skRemoveObserver_cases s x o key with he | ⟨id, he⟩
  · rw [he] at h
    exact h
  · rw [he] at h
    unfold State.infos at h ⊢
    by_cases hy : y = x
    · rw [hy] at h ⊢
      rw [modify_self] at h
      cases hl : (s.objects x).observers with
      | none => simp [hl] at h
      | some infos =>
        simp only [hl, Option.map_some, Option.getD_some] at h ⊢
        exact (List.mem_filter.mp h).1
    · rw [modify_other s hy] at h
      exact h

theorem skRemoveObserver_life (s : State Data Value) (x o : ObjectID) (key : NSString) :
    (skRemoveObserver s x o key).life = s.life ∧
      (skRemoveObserver s x o key).scheduled = s.scheduled := by
  rcases skRemoveObserver_cases s x o key with he | ⟨id, he⟩
  · rw [he]
    exact ⟨rfl, rfl⟩
  · rw [he]
    exact ⟨rfl, rfl⟩

/-- The end of an observer releases its own list and no other; every other step
keeps all lives and lists only infos of observers that were listed or are alive. -/
theorem step_observers {F : Foundation Data Value} {w v : World Data Value} {e : Event Value}
    (h : step F w e = some v) :
    (∃ o calls, e = .dealloc o calls ∧ v.state.life = Function.update w.state.life o .dead ∧
      v.state.infos o = [] ∧ ∀ y, y ≠ o → v.state.infos y = w.state.infos y) ∨
    ((∀ o calls, e ≠ .dealloc o calls) ∧ v.state.life = w.state.life ∧
      ∀ y, ∀ i ∈ v.state.infos y, i ∈ w.state.infos y ∨ w.state.life i.observer = .alive) := by
  cases step_stepped h with
  | @accepted x o key block sel method alive _ =>
    obtain ⟨hlife, _, hinfos⟩ := becomeKvo_observers w.state x
    obtain ⟨hlife', _, hinfos'⟩ := addSetter_observers (becomeKvo w.state x) x sel
      method.types
    refine Or.inr ⟨by simp, hlife'.trans hlife, fun y i hi => ?_⟩
    rcases mem_addInfo hi with hi | ho
    · rw [hinfos', hinfos] at hi
      exact Or.inl hi
    · rw [ho]
      exact Or.inr alive
  | refused => exact Or.inr ⟨by simp, rfl, fun y i hi => Or.inl hi⟩
  | removed =>
    refine Or.inr ⟨by simp, (skRemoveObserver_life _ _ _ _).1, fun y i hi => ?_⟩
    exact Or.inl (mem_skRemoveObserver hi)
  | @sent x sel value =>
    obtain ⟨data, calls, he, _⟩ := sendSetter_cases F w.state x sel value
    rw [he]
    refine Or.inr ⟨by simp, rfl, fun y i hi => Or.inl ?_⟩
    have hinfos := modify_infos w.state x (f := fun o => { o with data := data })
      (fun _ => rfl) y
    rw [← hinfos]
    exact hi
  | @gone o calls =>
    rw [deallocObserver_eq]
    refine Or.inl ⟨o, calls, rfl, rfl, by simp [State.infos], fun y hy => ?_⟩
    simp [State.infos, modify_other w.state hy]

/-- Whatever a step schedules belongs to an info listed before it. -/
theorem step_scheduled {F : Foundation Data Value} {w v : World Data Value} {e : Event Value}
    (h : step F w e = some v) :
    ∃ calls, v.state.scheduled = w.state.scheduled ++ calls ∧
      ∀ c ∈ calls, ∃ x, c.info ∈ w.state.infos x := by
  cases step_stepped h with
  | @accepted x o key block sel method _ _ =>
    have hquiet := (addSetter_observers (becomeKvo w.state x) x sel method.types).2.1.trans
      (becomeKvo_observers w.state x).2.1
    exact ⟨[], by simpa [addInfo] using hquiet, by simp⟩
  | refused => exact ⟨[], by simp, by simp⟩
  | removed => exact ⟨[], by simp [(skRemoveObserver_life _ _ _ _).2], by simp⟩
  | @sent x sel value =>
    obtain ⟨data, calls, he, hcalls⟩ := sendSetter_cases F w.state x sel value
    rw [he]
    exact ⟨calls, rfl, fun c hc => ⟨x, hcalls c hc⟩⟩
  | gone =>
    rw [deallocObserver_eq]
    exact ⟨[], by simp, by simp⟩

/-- No list has an info that was created for an observer that is gone. -/
def Deregistered (w : World Data Value) : Prop :=
  ∀ o, w.state.life o = .dead → ∀ x, ∀ i ∈ w.state.infos x, i.observer ≠ o

/-- The event schedules no block of an observer that is gone. -/
def SparesDead (F : Foundation Data Value) (w : World Data Value) (e : Event Value) : Prop :=
  ∀ v calls, step F w e = some v → v.state.scheduled = w.state.scheduled ++ calls →
    ∀ c ∈ calls, w.state.life c.info.observer ≠ .dead

/-- An observer's `dealloc` makes one removal call for each registration it made on
an object that still exists. -/
def RemovesInDealloc (w : World Data Value) (e : Event Value) : Prop :=
  ∀ o calls, e = .dealloc o calls →
    calls.Perm ((w.accepted.filter (fun r => r.observer = o ∧ w.state.life r.object = .alive)).map
      (fun r => (r.object, r.key)))

/-- An observer's `dealloc` starts when no other object lists an info of it. -/
def RemovedBefore (w : World Data Value) (e : Event Value) : Prop :=
  ∀ o calls, e = .dealloc o calls → ∀ x, x ≠ o → ∀ i ∈ w.state.infos x, i.observer ≠ o

theorem Deregistered.step_iff {F : Foundation Data Value} {w v : World Data Value}
    {e : Event Value} (hd : Deregistered w) (h : step F w e = some v) :
    Deregistered v ↔ RemovedBefore w e := by
  rcases step_observers h with ⟨o, calls, he, hlife, hown, hother⟩ | ⟨hne, hlife, hinfos⟩
  · constructor
    · intro hv o' calls' he' x hx i hi
      rw [he] at he'
      cases he'
      apply hv o (by simp [hlife]) x i
      rw [hother x hx]
      exact hi
    · intro hb p hp x i hi
      by_cases hx : x = o
      · rw [hx, hown] at hi
        cases hi
      · rw [hother x hx] at hi
        by_cases hpo : p = o
        · rw [hpo]
          exact hb o calls he x hx i hi
        · rw [hlife, Function.update_of_ne hpo] at hp
          exact hd p hp x i hi
  · constructor
    · intro _ o calls he
      exact absurd he (hne o calls)
    · intro _ p hp x i hi hip
      rw [hlife] at hp
      rcases hinfos x i hi with hi | halive
      · exact hd p hp x i hi hip
      · rw [hip, hp] at halive
        cases halive

theorem Deregistered.sparesDead {F : Foundation Data Value} {w : World Data Value}
    (hd : Deregistered w) (e : Event Value) : SparesDead F w e := by
  intro v calls hv hcalls c hc hdead
  obtain ⟨calls', hcalls', hinfos⟩ := step_scheduled hv
  rw [List.append_cancel_left (hcalls.symm.trans hcalls')] at hc
  obtain ⟨x, hx⟩ := hinfos c hc
  exact hd _ hdead x _ hx rfl

/-- Registrations end with their observer in exactly the runs in which every one of
them was removed before the observer's `dealloc`; the calls made from there never
remove anything. -/
theorem deregistration_iff (P : Program) (F : Foundation Data Value) (data : ObjectID → Data)
    (es : List (Event Value)) :
    (Throughout (step F) Deregistered (P.initial data) es ∧
      Along (step F) (SparesDead F) (P.initial data) es) ↔
    Along (step F) RemovedBefore (P.initial data) es := by
  have hstart : Deregistered (P.initial data : World Data Value) := by
    intro o ho
    cases ho
  have hiff : Throughout (step F) Deregistered (P.initial data) es ↔
      Along (step F) RemovedBefore (P.initial data) es :=
    throughout_iff_along (I := fun _ => True) (fun _ _ _ _ _ => trivial)
      (fun w e v _ hd h => hd.step_iff h) trivial hstart
  constructor
  · intro h
    exact hiff.mp h.1
  · intro h
    have hd := hiff.mpr h
    exact ⟨hd, hd.along (fun w e _ hw _ _ => hw.sparesDead e) h⟩

/-- The only observer of a model goes, calling for the removal of its one
registration. Its info stays, and the next setter call schedules its block. -/
theorem gone_observer_still_notified :
    ∃ w v, run (step (modelFoundation (text "stdName")))
        ((modelProgram (text "setStdName:")).initial (fun _ => 3))
        [.add 0 1 (text "stdName") 7, .dealloc 1 [(0, text "stdName")]] = some w ∧
      Along (step (modelFoundation (text "stdName"))) RemovesInDealloc
        ((modelProgram (text "setStdName:")).initial (fun _ => 3))
        [.add 0 1 (text "stdName") 7, .dealloc 1 [(0, text "stdName")]] ∧
      w.state.life 1 = .dead ∧ w.state.infos 0 = [⟨0, 1, text "stdName", 7⟩] ∧
      step (modelFoundation (text "stdName")) w (.set 0 (text "setStdName:") 5) = some v ∧
      v.state.scheduled = [⟨⟨0, 1, text "stdName", 7⟩, 0, text "stdName", 3, 5⟩] := by
  have hrun : (run (step (modelFoundation (text "stdName")))
      ((modelProgram (text "setStdName:")).initial (fun _ => 3))
      [.add 0 1 (text "stdName") 7, .dealloc 1 [(0, text "stdName")]]).map
        (fun w => (w.state.life 1, w.state.infos 0,
          (step (modelFoundation (text "stdName")) w (.set 0 (text "setStdName:") 5)).map
            (fun v => v.state.scheduled))) =
      some (.dead, [⟨0, 1, text "stdName", 7⟩],
        some [⟨⟨0, 1, text "stdName", 7⟩, 0, text "stdName", 3, 5⟩]) := by
    decide +kernel
  obtain ⟨w, hw, he⟩ := Option.map_eq_some_iff.mp hrun
  simp only [Prod.mk.injEq] at he
  obtain ⟨hdead, hinfos, hset⟩ := he
  obtain ⟨v, hv, hscheduled⟩ := Option.map_eq_some_iff.mp hset
  refine ⟨w, v, hw, ?_, hdead, hinfos, hv, hscheduled⟩
  intro u hu
  refine ⟨nofun, fun t ht => ⟨?_, trivial⟩⟩
  intro o calls he
  cases he
  have hfirst : (step (modelFoundation (text "stdName"))
      ((modelProgram (text "setStdName:")).initial (fun _ => 3))
      (.add 0 1 (text "stdName") 7)).map (fun w => (w.accepted, w.state.life 0)) =
      some ([⟨0, 1, text "stdName"⟩], .alive) := by
    decide +kernel
  rw [hu] at hfirst
  simp only [Option.map_some, Option.some.injEq, Prod.mk.injEq] at hfirst
  simp [hfirst.1, hfirst.2]

end BasicDemo.Observing
