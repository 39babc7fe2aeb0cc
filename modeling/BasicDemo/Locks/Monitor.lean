import BasicDemo.Locks.Discipline

namespace BasicDemo.Locks
open Library.Runs

/-- The two pairs of methods written as a lock with a condition variable. -/
inductive Monitor where
  | pthread
  | condation
  deriving DecidableEq

def Monitor.lock : Monitor → Lock
  | .pthread => .pthreadLock
  | .condation => .condation

def Monitor.add : Monitor → Method
  | .pthread => .addObject
  | .condation => .condationAdd

def Monitor.remove : Monitor → Method
  | .pthread => .removeObject
  | .condation => .condationRemove

def Monitor.entry : Monitor → Entry
  | .pthread => .pthreadCondation
  | .condation => .nscondationMethod

/-- The event starts no thread outside the monitor. -/
def Monitor.Only (m : Monitor) : Event → Prop
  | .start method => method = m.add ∨ method = m.remove
  | .call entry => entry = m.entry
  | _ => True

instance (m : Monitor) (e : Event) : Decidable (m.Only e) :=
  match e with
  | .start _ => inferInstanceAs (Decidable (_ ∨ _))
  | .call _ => inferInstanceAs (Decidable (_ = _))
  | .run _ _ | .spurious _ | .resume _ => isTrue trivial

theorem Monitor.add_body (m : Monitor) : m.add.body = producer m.lock := by
  cases m with
  | pthread => rfl
  | condation => rfl

theorem Monitor.remove_body (m : Monitor) : m.remove.body = consumer m.lock := by
  cases m with
  | pthread => rfl
  | condation => rfl

theorem Monitor.entry_threads (m : Monitor) : m.entry.threads = [m.remove, m.add] := by
  cases m with
  | pthread => rfl
  | condation => rfl

/-- The places of `producer` and `consumer`. -/
def Monitor.discipline (m : Monitor) : Discipline where
  lock := m.lock
  outside := [producer m.lock, consumer m.lock, []]
  inside :=
    [[.addObject, .signal m.lock, .unlock m.lock], [.signal m.lock, .unlock m.lock],
      [.unlock m.lock], [.ifEmpty, .wait m.lock, .removeLastObject, .unlock m.lock],
      [.wait m.lock, .removeLastObject, .unlock m.lock]]
  asleep := [[.removeLastObject, .unlock m.lock]]
  removing := [[.removeLastObject, .unlock m.lock]]

theorem Guarded.signal {d : Discipline} {s s' : State} {t : ThreadID} {rest : List Instr}
    {wakes : Option ThreadID} (h : Guarded d s) (held : s.holder d.lock = some t)
    (ht : s.threads[t]? = some ⟨.signal d.lock :: rest, .ready⟩) (place : rest ∈ d.inside)
    (hs : (s.wake d.lock wakes).map (·.goto t rest) = some s') : Guarded d s' := by
  obtain ⟨s₁, hw, rfl⟩ := Option.map_eq_some_iff.mp hs
  rcases wake_cases hw with rfl | ⟨u, code, hu, rfl⟩
  · exact h.own ht rfl rfl (Or.inr held) (.inside held place)
  · have hlt : u < s.threads.length := (List.getElem?_eq_some_iff.mp hu).1
    have hne : u ≠ t := by
      intro he
      rw [he, ht] at hu
      cases hu
    have ht' : (s.put u ⟨code, .woken d.lock⟩).threads[t]? =
        some ⟨.signal d.lock :: rest, .ready⟩ := by
      rw [getElem?_put s u t _ hlt, if_neg hne]
      exact ht
    exact (h.woken hu).own ht' rfl rfl (Or.inr held) (.inside held place)

/-- One statement of a thread keeps every thread at its place. -/
theorem Monitor.exec_guarded {m : Monitor} {s s' : State} {t : ThreadID}
    {wakes : Option ThreadID} {i : Instr} {rest : List Instr} (h : Guarded m.discipline s)
    (ht : s.threads[t]? = some ⟨i :: rest, .ready⟩) (hs : s.exec t wakes rest i = some s') :
    Guarded m.discipline s' := by
  cases h.fits t _ ht with
  | outside place =>
    simp only [Monitor.discipline, List.mem_cons, producer, consumer, List.cons.injEq,
      reduceCtorEq, List.not_mem_nil, or_false] at place
    rcases place with ⟨rfl, rfl⟩ | ⟨rfl, rfl⟩
    all_goals
      simp only [State.exec] at hs
      split at hs
      · rename_i hfree
        cases hs
        exact h.own ht rfl rfl (Or.inl hfree)
          (.inside (acquire_goto_holder s m.lock t _) (by simp [Monitor.discipline]))
      · cases hs
  | inside held place =>
    have hown : s.holder m.discipline.lock = none ∨ s.holder m.discipline.lock = some t :=
      Or.inr held
    have hlock : s.holder m.lock = some t := held
    simp only [Monitor.discipline, List.mem_cons, List.cons.injEq, List.not_mem_nil, or_false]
      at place
    rcases place with ⟨rfl, rfl⟩ | ⟨rfl, rfl⟩ | ⟨rfl, rfl⟩ | ⟨rfl, rfl⟩ | ⟨rfl, rfl⟩
    · exact h.addObject held ht (by simp [Monitor.discipline]) hs
    · exact h.signal held ht (by simp [Monitor.discipline]) hs
    · exact h.unlock held ht (by simp [Monitor.discipline]) hs
    · simp only [State.exec] at hs
      cases hs
      by_cases hdata : s.data.length = 0
      · rw [if_pos hdata]
        exact h.own ht rfl rfl hown (.inside held (by simp [Monitor.discipline]))
      · rw [if_neg hdata]
        refine h.own ht rfl rfl hown (.removing held ?_ (by simp [Monitor.discipline]))
        intro he
        exact hdata (by simp [← he, State.goto, State.put])
    · simp only [State.exec, if_pos hlock, release_held hlock] at hs
      cases hs
      exact h.own ht rfl rfl hown (.asleep (by simp [Monitor.discipline]) List.mem_cons_self)
  | asleep place away => simp at away
  | removing held element place =>
    simp only [Monitor.discipline, List.mem_cons, List.cons.injEq, List.not_mem_nil, or_false]
      at place
    obtain ⟨rfl, rfl⟩ := place
    exact h.removeLastObject held element ht (by simp [Monitor.discipline]) hs

/-- A thread that comes back from its wait finds an element. -/
def ReturnsToElement (s : State) (e : Event) : Prop := ∀ t, e = .resume t → s.data ≠ []

instance (s : State) : (e : Event) → Decidable (ReturnsToElement s e)
  | .resume t => decidable_of_iff (s.data ≠ []) ⟨fun h _ _ => h, fun h => h t rfl⟩
  | .start _ | .call _ | .run _ _ | .spurious _ => isTrue nofun

theorem Monitor.step_guarded {m : Monitor} {s s' : State} {e : Event}
    (h : Guarded m.discipline s) (hm : m.Only e) (hc : ReturnsToElement s e)
    (hs : step s e = some s') : Guarded m.discipline s' := by
  have hadd : m.add.body ∈ m.discipline.outside := by simp [Monitor.discipline, m.add_body]
  have hremove : m.remove.body ∈ m.discipline.outside := by
    simp [Monitor.discipline, m.remove_body]
  cases e with
  | start method =>
    rw [step_start hs]
    rcases hm with rfl | rfl
    · exact h.start hadd
    · exact h.start hremove
  | call entry =>
    cases hm
    rw [step_call hs, m.entry_threads]
    apply h.starts
    simp [hadd, hremove]
  | run t wakes =>
    obtain ⟨i, rest, ht, hexec⟩ := step_run hs
    exact Monitor.exec_guarded h ht hexec
  | spurious t =>
    obtain ⟨code, l, ht, rfl⟩ := step_spurious hs
    exact h.woken ht
  | resume t =>
    obtain ⟨code, l, ht, hfree, rfl⟩ := step_resume hs
    cases h.fits t _ ht with
    | asleep place away =>
      simp only [List.mem_cons, reduceCtorEq, Phase.woken.injEq, List.not_mem_nil, or_false,
        false_or] at away
      subst l
      exact h.own ht rfl rfl (Or.inl hfree)
        (.removing (acquire_goto_holder s _ t code) (hc t rfl) place)

/-- A thread that comes back to an empty array removes from it next. -/
theorem Monitor.resume_empty {m : Monitor} {s u : State} {t : ThreadID}
    (h : Guarded m.discipline s) (hs : step s (.resume t) = some u) (hdata : s.data = []) :
    ∃ v, step u (.run t none) = some v ∧ ¬ Unraised v := by
  obtain ⟨code, l, ht, _, rfl⟩ := step_resume hs
  have hlt : t < s.threads.length := (List.getElem?_eq_some_iff.mp ht).1
  cases h.fits t _ ht with
  | asleep place _ =>
    cases List.mem_singleton.mp place
    refine ⟨{ (s.acquire l t).goto t [.removeLastObject, .unlock m.lock] with raised := true }, ?_,
      nofun⟩
    have hcode : ((s.acquire l t).goto t [.removeLastObject, .unlock m.lock]).threads[t]? =
        some ⟨[.removeLastObject, .unlock m.lock], .ready⟩ := by
      rw [State.goto, getElem?_put (s.acquire l t) t t _ hlt, if_pos rfl]
    have hraised : ((s.acquire l t).goto t [.removeLastObject, .unlock m.lock]).raised = false :=
      h.unraised
    simp only [step, hraised, hcode, State.exec]
    exact if_pos hdata

/-- As long as threads come back from a wait to a non-empty array, no removal fails;
the first that comes back to an empty one fails with its next statement. -/
theorem removal_after_wait (m : Monitor) (es : List Event) (hm : ∀ e ∈ es, m.Only e)
    (h : Along step ReturnsToElement State.init es) :
    Throughout step Unraised State.init es ∧
    ∀ s t u, run step State.init es = some s → step s (.resume t) = some u → s.data = [] →
      ∃ v, step u (.run t none) = some v ∧ ¬ Unraised v := by
  have hguarded : Throughout step (Guarded m.discipline) State.init es := by
    apply throughout_of_along ?_ (guarded_init m.discipline) (h.and_mem hm)
    intro s e t hs he ht
    exact Monitor.step_guarded hs he.1 he.2 ht
  refine ⟨hguarded.mono (fun _ hs => hs.unraised), ?_⟩
  intro s t u hs hu hdata
  exact Monitor.resume_empty (hguarded.last hs) hu hdata

/-- One consumer waits, is woken by the producer and removes its element. -/
theorem removal_after_handover :
    Throughout step Unraised State.init
      [.call .pthreadCondation, .run 0 none, .run 0 none, .run 0 none, .run 1 none, .run 1 none,
        .run 1 (some 0), .run 1 none, .resume 0, .run 0 none, .run 0 none] :=
  (removal_after_wait .pthread _ (by decide) (by decide +kernel)).1

/-- A consumer waits and is signalled, but a second consumer takes the lock and the
element before it. -/
def stolenElement (m : Monitor) : List Event :=
  [.call m.entry, .run 0 none, .run 0 none, .run 0 none, .run 1 none, .run 1 none,
    .run 1 (some 0), .run 1 none, .start m.remove, .run 2 none, .run 2 none, .run 2 none,
    .run 2 none, .resume 0, .run 0 none]

theorem stolen_element_raises :
    (∀ e ∈ stolenElement .pthread, Monitor.pthread.Only e) ∧
    (∀ e ∈ stolenElement .condation, Monitor.condation.Only e) ∧
    ¬ Throughout step Unraised State.init (stolenElement .pthread) ∧
    ¬ Throughout step Unraised State.init (stolenElement .condation) := by
  refine ⟨by decide, by decide, ?_, ?_⟩
  · exact not_throughout_unraised (by decide +kernel)
  · exact not_throughout_unraised (by decide +kernel)

end BasicDemo.Locks
