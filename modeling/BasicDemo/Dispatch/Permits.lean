import BasicDemo.Dispatch.Semaphore

namespace BasicDemo.Dispatch
open Library Library.Runs

/-- Where a thread is in `dispatch_semaphoreTestMethod`: `inside` is between the return of the
wait and the call of the signal. -/
inductive Stage where
  | fresh
  | entering
  | inside
  | leaving
  | done
  deriving DecidableEq

/-- The semaphore of an `SKGCDSafeAnalysis` and the threads that were started. -/
structure Limited where
  semaphore : Semaphore
  stages : List Stage
  deriving DecidableEq

namespace Limited

/-- `dispatch_semaphoreMethod`, with the value of the semaphore and the number of threads. -/
def dispatchSemaphoreMethod (value : Int) (n : Nat) : Option Limited :=
  (Semaphore.dispatchSemaphoreCreate value n).map
    (fun s => ⟨s, List.replicate n .fresh⟩)

/-- One step of a call, after which the thread is `returned` or still in the call. -/
def call (c : Limited) (t : ThreadID) (action : Action) (inCall returned : Stage) :
    Option Limited :=
  (step c.semaphore action).map (fun s =>
    ⟨s, c.stages.set t (if s.threads[t]? = some .outside then returned else inCall)⟩)

/-- The next step of a thread. -/
def dispatchSemaphoreTestMethod (c : Limited) (t : ThreadID) : Option Limited :=
  match c.stages[t]? with
  | some .fresh => c.call t (.wait t .forever) .entering .inside
  | some .entering => c.call t (.awake t) .entering .inside
  | some .inside => c.call t (.signal t) .leaving .done
  | some .leaving => c.call t (.signalSlow t) .leaving .done
  | _ => none

end Limited

/-- Where the thread is in the semaphore's code. -/
def Stage.phase : Stage → Phase
  | .entering => .wait
  | .leaving => .signalSlow
  | _ => .outside

/-- Steps that a thread has left at most. -/
def Stage.left : Stage → Nat
  | .fresh => 4
  | .entering => 3
  | .inside => 2
  | .leaving => 1
  | .done => 0

def isInside (stage : Stage) : Bool := stage = .inside

/-- A token is free or belongs to a thread inside. -/
structure Shared (permits : Nat) (c : Limited) : Prop where
  phases : c.semaphore.threads = c.stages.map Stage.phase
  alive : c.semaphore.crashed = false
  counted : ∃ a, Matches a c.semaphore ∧ a.tokens + c.stages.countP isInside = permits

section steps

variable {permits : Nat} {c c' : Limited} {t : ThreadID}

theorem Shared.phase (h : Shared permits c) {stage : Stage} (ht : c.stages[t]? = some stage) :
    c.semaphore.threads[t]? = some stage.phase := by
  rw [h.phases, List.getElem?_map, ht]
  rfl

/-- A step of a call that leaves the thread at the stage `new`. -/
theorem Shared.called (h : Shared permits c) (inCall returned new : Stage) {old : Stage}
    {action : Action} (ht : c.stages[t]? = some old) {a : Counting.Semaphore} {s : Semaphore}
    (hs : step c.semaphore action = some s)
    (hthreads : s.threads = c.semaphore.threads.set t new.phase)
    (hnew : (if some new.phase = some .outside then returned else inCall) = new)
    (halive : s.crashed = false) (hmatches : Matches a s)
    (htokens : a.tokens + c.stages.countP isInside + (isInside new).toNat =
      permits + (isInside old).toNat) :
    c.call t action inCall returned = some ⟨s, c.stages.set t new⟩ ∧
      Shared permits ⟨s, c.stages.set t new⟩ := by
  have hphase : s.threads[t]? = some new.phase := by
    rw [hthreads, List.getElem?_set_self', h.phase ht]
    rfl
  refine ⟨?_, ?_, halive, a, hmatches, ?_⟩
  · rw [Limited.call, hs, Option.map_some, hphase, hnew]
  · rw [hthreads, h.phases, List.map_set]
  · have := countP_set_add ht new isInside
    dsimp only
    omega

/-- Every thread that is not done can go on, unless it sleeps and the kernel has no signal. -/
theorem Shared.proceeds (h : Shared permits c) (hpermits : (permits : Int) ≤ longMax)
    {old : Stage} (ht : c.stages[t]? = some old) (hold : old ≠ .done)
    (hwake : old = .entering → 0 < c.semaphore.dsemaSema) :
    ∃ s new, c.dispatchSemaphoreTestMethod t = some ⟨s, c.stages.set t new⟩ ∧
      new.left < old.left ∧ Shared permits ⟨s, c.stages.set t new⟩ := by
  obtain ⟨a, hmatches, htokens⟩ := h.counted
  have hphase := h.phase ht
  rw [Limited.dispatchSemaphoreTestMethod, ht]
  cases old with
  | fresh =>
    have hs : step c.semaphore (.wait t .forever) =
        some (c.semaphore.dispatchSemaphoreWait t .forever) := by
      simp [step, h.alive, hphase, Stage.phase]
    obtain ⟨b, hb, hmatches'⟩ := hmatches.wait hphase .forever
    have hcount := Counting.run_tokens hb
    by_cases hfast : 0 ≤ longDec c.semaphore.dsemaValue
    · have hafter : c.semaphore.dispatchSemaphoreWait t .forever =
          { c.semaphore with dsemaValue := longDec c.semaphore.dsemaValue } := if_pos hfast
      rw [answer, if_pos hfast] at hcount
      rw [hafter] at hs hmatches'
      obtain ⟨hcall, hshared⟩ := h.called .entering .inside .inside ht hs
        (set_of_getElem? hphase).symm rfl h.alive hmatches' (by
          have : b.tokens + 1 = a.tokens := hcount
          change b.tokens + c.stages.countP isInside + 1 = permits
          omega)
      exact ⟨_, .inside, hcall, by decide, hshared⟩
    · have hafter : c.semaphore.dispatchSemaphoreWait t .forever =
          { c.semaphore with dsemaValue := longDec c.semaphore.dsemaValue }.goto t .wait :=
        if_neg hfast
      rw [answer, if_neg hfast] at hcount
      rw [hafter] at hs hmatches'
      obtain ⟨hcall, hshared⟩ := h.called .entering .inside .entering ht hs rfl rfl h.alive
        hmatches' (by
          have : b.tokens = a.tokens := hcount
          rw [this]
          exact htokens)
      exact ⟨_, .entering, hcall, by decide, hshared⟩
  | entering =>
    have hs : step c.semaphore (.awake t) =
        some ({ c.semaphore with dsemaSema := c.semaphore.dsemaSema - 1 }.goto t .outside) := by
      simp [step, h.alive, hphase, Stage.phase, Semaphore.sema4Wait, hwake rfl]
    obtain ⟨b, hb, hmatches'⟩ := hmatches.awake hphase rfl rfl (if_pos (hwake rfl))
    have hcount : b.tokens + 1 = a.tokens := Counting.step_tokens hb
    obtain ⟨hcall, hshared⟩ := h.called .entering .inside .inside ht hs rfl rfl h.alive
      hmatches' (by
        change b.tokens + c.stages.countP isInside + 1 = permits
        omega)
    exact ⟨_, .inside, hcall, by decide, hshared⟩
  | inside =>
    have hs : step c.semaphore (.signal t) = some (c.semaphore.dispatchSemaphoreSignal t) := by
      simp [step, h.alive, hphase, Stage.phase]
    have hinside : 0 < c.stages.countP isInside :=
      List.countP_pos_iff.mpr ⟨_, List.mem_of_getElem? ht, rfl⟩
    have htokens' : a.tokens + 1 + c.stages.countP isInside = permits + 1 := by omega
    have hmax : c.semaphore.dsemaValue ≠ longMax := by
      have := hmatches.value
      omega
    have hrefines := refines_signal hmatches hphase
    rcases hmatches.signal_cases hmax t with hafter | hafter
    · rw [hafter] at hs hrefines
      have hmatches' := hrefines.resolve_left (by rw [h.alive]; exact Bool.false_ne_true)
      obtain ⟨hcall, hshared⟩ := h.called .leaving .done .done ht hs
        (set_of_getElem? hphase).symm rfl h.alive hmatches' htokens'
      exact ⟨_, .done, hcall, by decide, hshared⟩
    · rw [hafter] at hs hrefines
      have hmatches' := hrefines.resolve_left (by
        change c.semaphore.crashed ≠ true
        rw [h.alive]
        exact Bool.false_ne_true)
      obtain ⟨hcall, hshared⟩ := h.called .leaving .done .leaving ht hs rfl rfl h.alive
        hmatches' htokens'
      exact ⟨_, .leaving, hcall, by decide, hshared⟩
  | leaving =>
    have hs : step c.semaphore (.signalSlow t) =
        some (c.semaphore.dispatchSemaphoreSignalSlow t) := by
      simp [step, h.alive, hphase, Stage.phase]
    obtain ⟨hcall, hshared⟩ := h.called .leaving .done .done ht hs rfl rfl h.alive
      (hmatches.signalSlow hphase) htokens
    exact ⟨_, .done, hcall, by decide, hshared⟩
  | done => exact absurd rfl hold

/-- A thread that goes on was not done, and it was not asleep. -/
theorem Limited.of_step (hstep : c.dispatchSemaphoreTestMethod t = some c') :
    ∃ old, c.stages[t]? = some old ∧ old ≠ .done ∧
      (old = .entering → 0 < c.semaphore.dsemaSema) := by
  rw [Limited.dispatchSemaphoreTestMethod] at hstep
  cases ht : c.stages[t]? with
  | none =>
    rw [ht] at hstep
    cases hstep
  | some old =>
    refine ⟨old, rfl, ?_, ?_⟩
    · rintro rfl
      rw [ht] at hstep
      cases hstep
    · rintro rfl
      rw [ht] at hstep
      obtain ⟨s, hs, -⟩ := Option.map_eq_some_iff.mp hstep
      obtain ⟨-, hmoves⟩ := step_moves hs
      cases hmoves with
      | awake _ _ _ hsema =>
        exact (Option.ite_none_right_eq_some.mp hsema).1

theorem Shared.step (h : Shared permits c) (hpermits : (permits : Int) ≤ longMax)
    (hstep : c.dispatchSemaphoreTestMethod t = some c') :
    Shared permits c' ∧ weight Stage.left c'.stages < weight Stage.left c.stages := by
  obtain ⟨old, ht, hold, hwake⟩ := Limited.of_step hstep
  obtain ⟨s, new, hnext, hless, hshared⟩ := h.proceeds hpermits ht hold hwake
  obtain rfl := Option.some.inj (hstep.symm.trans hnext)
  refine ⟨hshared, ?_⟩
  have := weight_set_add ht new Stage.left
  dsimp only
  omega

theorem Shared.run (h : Shared permits c) (hpermits : (permits : Int) ≤ longMax)
    {schedule : List ThreadID}
    (hrun : Runs.run Limited.dispatchSemaphoreTestMethod c schedule = some c') :
    Shared permits c' ∧
      weight Stage.left c'.stages + schedule.length ≤ weight Stage.left c.stages := by
  induction schedule generalizing c with
  | nil =>
    cases hrun
    exact ⟨h, Nat.le_refl _⟩
  | cons t schedule ih =>
    obtain ⟨d, hd, hrest⟩ := Option.bind_eq_some_iff.mp hrun
    obtain ⟨hshared, hless⟩ := h.step hpermits hd
    obtain ⟨hlast, hle⟩ := ih hshared hrest
    refine ⟨hlast, ?_⟩
    rw [List.length_cons]
    omega

/-- When nobody can go on, everybody is done: a thread that sleeps is owed a signal by a thread
inside or by one that leaves. -/
theorem Shared.finished (h : Shared permits c) (hpermits : (permits : Int) ≤ longMax)
    (hpos : 0 < permits) (hstuck : ∀ t, c.dispatchSemaphoreTestMethod t = none) :
    ∀ stage ∈ c.stages, stage = .done := by
  have hplace : ∀ stage ∈ c.stages, stage = .done ∨
      (stage = .entering ∧ c.semaphore.dsemaSema = 0) := by
    intro stage hmem
    obtain ⟨t, ht⟩ := List.mem_iff_getElem?.mp hmem
    by_cases hdone : stage = .done
    · exact Or.inl hdone
    by_cases hasleep : stage = .entering ∧ c.semaphore.dsemaSema = 0
    · exact Or.inr hasleep
    obtain ⟨s, new, hnext, -⟩ := h.proceeds hpermits ht hdone
      (fun hentering => Nat.pos_of_ne_zero (fun hsema => hasleep ⟨hentering, hsema⟩))
    rw [hstuck t] at hnext
    cases hnext
  intro stage hmem
  refine (hplace stage hmem).resolve_right ?_
  intro hasleep
  obtain ⟨hentering, hsema⟩ := hasleep
  obtain ⟨a, hmatches, htokens⟩ := h.counted
  have hinside : c.stages.countP isInside = 0 := by
    apply List.countP_eq_zero.mpr
    intro stage hmem
    rcases hplace stage hmem with rfl | ⟨rfl, -⟩
    · decide
    · decide
  have hsignals : c.semaphore.threads.countP Phase.signals = 0 := by
    rw [h.phases, List.countP_map]
    apply List.countP_eq_zero.mpr
    intro stage hmem
    rcases hplace stage hmem with rfl | ⟨rfl, -⟩
    · decide
    · decide
  have hwaits : 0 < c.semaphore.threads.countP Phase.waits := by
    rw [h.phases, List.countP_map]
    apply List.countP_pos_iff.mpr
    exact ⟨stage, hmem, by rw [hentering]; rfl⟩
  have hhanded := hmatches.handed
  have hwaiters := hmatches.waiters
  omega

end steps

theorem start_shared {value : Int} {n : Nat} {c : Limited}
    (h : Limited.dispatchSemaphoreMethod value n = some c) (hfew : (n : Int) ≤ longMax) :
    Shared value.toNat c ∧ c.stages = List.replicate n .fresh := by
  obtain ⟨s, hs, rfl⟩ := Option.map_eq_some_iff.mp h
  obtain ⟨halive, -⟩ := create_alive hs
  refine ⟨⟨?_, halive, _, create_matches hs hfew, ?_⟩, rfl⟩
  · obtain ⟨-, ⟨⟩⟩ := Option.ite_none_left_eq_some.mp hs
    simp [Stage.phase]
  · have : (List.replicate n Stage.fresh).countP isInside = 0 := by
      apply List.countP_eq_zero.mpr
      intro stage hmem
      rw [List.eq_of_mem_replicate hmem]
      decide
    dsimp only
    omega

/-- However the threads are scheduled, never more of them are between the wait and the signal
than the semaphore has permits, there are at most four steps for each thread, and when no thread
can go on all of them have been through. -/
theorem permits_limit {value : Int} {n : Nat} {c c' : Limited} {schedule : List ThreadID}
    (hstart : Limited.dispatchSemaphoreMethod value n = some c) (hpos : 0 < value)
    (hvalue : value ≤ longMax) (hfew : (n : Int) ≤ longMax)
    (hrun : run Limited.dispatchSemaphoreTestMethod c schedule = some c') :
    (c'.stages.countP isInside : Int) ≤ value ∧ schedule.length ≤ 4 * n ∧
      ((∀ t, c'.dispatchSemaphoreTestMethod t = none) → ∀ stage ∈ c'.stages, stage = .done) := by
  obtain ⟨hshared, hstages⟩ := start_shared hstart hfew
  have hpermits : (value.toNat : Int) ≤ longMax := by omega
  obtain ⟨hlast, hlength⟩ := hshared.run hpermits hrun
  obtain ⟨a, -, htokens⟩ := hlast.counted
  refine ⟨by omega, ?_, hlast.finished hpermits (by omega)⟩
  rw [hstages, weight_replicate, Stage.left] at hlength
  omega

theorem twenty_threads_five_permits :
    ∃ c, Limited.dispatchSemaphoreMethod 5 20 = some c ∧
      ∀ schedule c', run Limited.dispatchSemaphoreTestMethod c schedule = some c' →
        (c'.stages.countP isInside : Int) ≤ 5 ∧ schedule.length ≤ 80 ∧
          ((∀ t, c'.dispatchSemaphoreTestMethod t = none) →
            ∀ stage ∈ c'.stages, stage = .done) := by
  obtain ⟨c, hstart⟩ : ∃ c, Limited.dispatchSemaphoreMethod 5 20 = some c := ⟨_, rfl⟩
  exact ⟨c, hstart, fun _ _ hrun =>
    permits_limit hstart (by decide) (by decide) (by decide) hrun⟩

end BasicDemo.Dispatch
