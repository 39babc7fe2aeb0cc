import BasicDemo.Locks.Discipline

namespace BasicDemo.Locks
open Library.Runs

/-- Threads are started by `nscondationLockMethod` only. -/
def OnlyCalls : Event → Prop
  | .start _ => False
  | .call entry => entry = .nscondationLockMethod
  | _ => True

instance : (e : Event) → Decidable (OnlyCalls e)
  | .start _ => isFalse id
  | .call _ => inferInstanceAs (Decidable (_ = _))
  | .run _ _ | .spurious _ | .resume _ => isTrue trivial

def isCall : Event → Bool
  | .call _ => true
  | _ => false

/-- `P` in every state of every interleaving of at most `n` calls. -/
def InEveryRun (n : Nat) (P : State → Prop) : Prop :=
  ∀ es, (∀ e ∈ es, OnlyCalls e) → es.countP isCall ≤ n → Throughout step P State.init es

/-- Condition 2 on the free lock stands for a non-empty array. -/
def FullAtTwo (s : State) : Prop :=
  s.condition = 2 → s.holder .condationLock = none → s.data ≠ []

/-- The places of `__condationLockAdd` and `__condationLockRemove`. -/
def lockDiscipline : Discipline where
  lock := .condationLock
  outside := [Method.condationLockAdd.body, Method.condationLockRemove.body, []]
  inside :=
    [[.addObject, .unlockWithCondition 2], [.unlockWithCondition 2], [.unlock .condationLock]]
  asleep := []
  removing := [[.removeLastObject, .unlock .condationLock]]

/-- A consumer is granted the lock for condition 2 only while there is an element. -/
def GrantsElement (s : State) (e : Event) : Prop :=
  ∀ t wakes rest, e = .run t wakes →
    s.threads[t]? = some ⟨.lockWhenCondition 2 :: rest, .ready⟩ →
    s.holder .condationLock = none → s.condition = 2 → s.data ≠ []

theorem lockWhen_guarded {s s' : State} {t : ThreadID} {wakes : Option ThreadID} {n : Int}
    {rest : List Instr} (h : Guarded lockDiscipline s)
    (ht : s.threads[t]? = some ⟨.lockWhenCondition n :: rest, .ready⟩)
    (hs : s.exec t wakes rest (.lockWhenCondition n) = some s')
    (hfit : s.holder .condationLock = none → s.condition = n →
      Fits lockDiscipline ((s.acquire .condationLock t).goto t rest) t ⟨rest, .ready⟩) :
    Guarded lockDiscipline s' := by
  simp only [State.exec] at hs
  split at hs
  · rename_i hgrant
    cases hs
    exact h.own ht rfl rfl (Or.inl hgrant.1) (hfit hgrant.1 hgrant.2)
  · cases hs

theorem lock_exec_guarded {s s' : State} {t : ThreadID} {wakes : Option ThreadID} {i : Instr}
    {rest : List Instr} (h : Guarded lockDiscipline s) (hc : GrantsElement s (.run t wakes))
    (ht : s.threads[t]? = some ⟨i :: rest, .ready⟩) (hs : s.exec t wakes rest i = some s') :
    Guarded lockDiscipline s' := by
  cases h.fits t _ ht with
  | outside place =>
    simp only [lockDiscipline, Method.body, List.mem_cons, List.cons.injEq, reduceCtorEq,
      List.not_mem_nil, or_false] at place
    rcases place with ⟨rfl, rfl⟩ | ⟨rfl, rfl⟩
    · refine lockWhen_guarded h ht hs (fun _ _ => ?_)
      exact .inside (acquire_goto_holder s _ t _) List.mem_cons_self
    · refine lockWhen_guarded h ht hs (fun hfree htwo => ?_)
      exact .removing (acquire_goto_holder s _ t _) (hc t wakes _ rfl ht hfree htwo)
        List.mem_cons_self
  | inside held place =>
    have hlock : s.holder .condationLock = some t := held
    simp only [lockDiscipline, List.mem_cons, List.cons.injEq, List.not_mem_nil, or_false] at place
    rcases place with ⟨rfl, rfl⟩ | ⟨rfl, rfl⟩ | ⟨rfl, rfl⟩
    · exact h.addObject held ht (by simp [lockDiscipline]) hs
    · simp only [State.exec, if_pos hlock, release_held hlock] at hs
      cases hs
      exact h.own ht rfl rfl (Or.inr held) (.outside (by simp [lockDiscipline]))
    · exact h.unlock held ht (by simp [lockDiscipline]) hs
  | asleep place away => cases place
  | removing held element place =>
    simp only [lockDiscipline, List.mem_cons, List.cons.injEq, List.not_mem_nil, or_false] at place
    obtain ⟨rfl, rfl⟩ := place
    exact h.removeLastObject held element ht (by simp [lockDiscipline]) hs

theorem lock_step_guarded {s s' : State} {e : Event} (h : Guarded lockDiscipline s)
    (honly : OnlyCalls e) (hc : GrantsElement s e) (hs : step s e = some s') :
    Guarded lockDiscipline s' := by
  cases e with
  | start m => exact honly.elim
  | call entry =>
    cases honly
    rw [step_call hs]
    apply h.starts
    simp [Entry.threads, lockDiscipline]
  | run t wakes =>
    obtain ⟨i, rest, ht, hexec⟩ := step_run hs
    exact lock_exec_guarded h hc ht hexec
  | spurious t =>
    obtain ⟨code, l, ht, rfl⟩ := step_spurious hs
    exact h.woken ht
  | resume t =>
    obtain ⟨code, l, ht, _⟩ := step_resume hs
    cases h.fits t _ ht with
    | asleep place _ => cases place

/-- The steps of one call in the order the conditions leave: the producer's three
statements, then the consumer's. -/
def handOver : List Event :=
  [.run 1 none, .run 1 none, .run 1 none, .run 0 none, .run 0 none, .run 0 none]

/-- The state after the call and the first `k` of these steps. -/
def stage (k : Nat) : State :=
  (run step State.init (.call .nscondationLockMethod :: handOver.take k)).getD State.init

theorem stage_shape : ∀ k < 7, (stage k).threads.length = 2 ∧
    (∀ thread ∈ (stage k).threads, thread.phase = .ready ∧ ∀ i ∈ thread.code,
      ∀ l ∈ Finset.univ, i ≠ .signal l) ∧ Unraised (stage k) := by
  decide +kernel

/-- In every stage one thread at most can run, and it leads to the next stage. -/
theorem stage_run : ∀ k < 7, ∀ t < 2, ∀ s ∈ step (stage k) (.run t none),
    k < 6 ∧ s = stage (k + 1) := by
  decide +kernel

theorem stage_step {k : Nat} (hk : k < 7) {e : Event} {s : State} (he : isCall e = false)
    (honly : OnlyCalls e) (h : step (stage k) e = some s) : ∃ j < 7, s = stage j := by
  obtain ⟨hlen, hready, _⟩ := stage_shape k hk
  cases e with
  | start m => exact honly.elim
  | call entry => cases he
  | run t wakes =>
    obtain ⟨i, rest, ht, hexec⟩ := step_run h
    have hmem := List.mem_of_getElem? ht
    have hlt : t < 2 := by
      rw [← hlen]
      exact (List.getElem?_eq_some_iff.mp ht).1
    rw [exec_wakes (fun l => (hready _ hmem).2 i List.mem_cons_self l (Finset.mem_univ l))] at hexec
    have hstep : step (stage k) (.run t none) = some s := by
      have hraised : (stage k).raised = false := (stage_shape k hk).2.2
      simp only [step, hraised, ht]
      exact hexec
    obtain ⟨hk', hs⟩ := stage_run k hk t hlt s hstep
    exact ⟨k + 1, by omega, hs⟩
  | spurious t =>
    obtain ⟨code, l, ht, _⟩ := step_spurious h
    have hphase := (hready _ (List.mem_of_getElem? ht)).1
    cases hphase
  | resume t =>
    obtain ⟨code, l, ht, _⟩ := step_resume h
    have hphase := (hready _ (List.mem_of_getElem? ht)).1
    cases hphase

theorem no_thread_steps {s s' : State} {e : Event} (hs : s.threads = []) (he : isCall e = false)
    (honly : OnlyCalls e) : step s e ≠ some s' := by
  intro h
  cases e with
  | start m => exact honly
  | call entry => cases he
  | run t wakes =>
    obtain ⟨_, _, ht, _⟩ := step_run h
    simp [hs] at ht
  | spurious t =>
    obtain ⟨_, _, ht, _⟩ := step_spurious h
    simp [hs] at ht
  | resume t =>
    obtain ⟨_, _, ht, _⟩ := step_resume h
    simp [hs] at ht

/-- In a run with one call at most, the call finds no thread. -/
theorem first_call {s : State} {es : List Event} (honly : ∀ e ∈ es, OnlyCalls e)
    (h : es.countP isCall = 0 ∨ es.countP isCall ≤ 1 ∧ s.threads = []) :
    Along step (fun s e => isCall e = true → s.threads = []) s es := by
  induction es generalizing s with
  | nil => trivial
  | cons e es ih =>
    intro t ht
    have hrest : ∀ d ∈ es, OnlyCalls d := fun d hd => honly d (List.mem_cons_of_mem e hd)
    cases he : isCall e with
    | true =>
      simp only [List.countP_cons, he, if_true] at h
      rcases h with h | ⟨hone, hnone⟩
      · omega
      · exact ⟨fun _ => hnone, ih hrest (Or.inl (by omega))⟩
    | false =>
      simp only [List.countP_cons, he, Bool.false_eq_true, if_false, Nat.add_zero] at h
      refine ⟨fun hc => by simp [he] at hc, ih hrest ?_⟩
      rcases h with h | ⟨_, hnone⟩
      · exact Or.inl h
      · exact absurd ht (no_thread_steps hnone he (honly e List.mem_cons_self))

/-- With one call, every interleaving goes through the seven stages. -/
def OneCall (s : State) : Prop := s = State.init ∨ ∃ k < 7, s = stage k

theorem oneCall_step {s s' : State} {e : Event} (h : OneCall s) (honly : OnlyCalls e)
    (hfirst : isCall e = true → s.threads = []) (hs : step s e = some s') : OneCall s' := by
  cases he : isCall e with
  | true =>
    rcases h with rfl | ⟨k, hk, rfl⟩
    · cases e with
      | call entry =>
        cases honly
        rw [step_call hs]
        exact Or.inr ⟨0, by decide, by decide +kernel⟩
      | _ => cases he
    · have hlen := (stage_shape k hk).1
      rw [hfirst he] at hlen
      cases hlen
  | false =>
    rcases h with rfl | ⟨k, hk, rfl⟩
    · exact absurd hs (no_thread_steps rfl he honly)
    · exact Or.inr (stage_step hk he honly hs)

theorem OneCall.unraised {s : State} (h : OneCall s) : Unraised s := by
  rcases h with rfl | ⟨k, hk, rfl⟩
  · rfl
  · exact (stage_shape k hk).2.2

theorem one_call_throughout {es : List Event} (honly : ∀ e ∈ es, OnlyCalls e)
    (hcalls : es.countP isCall ≤ 1) : Throughout step OneCall State.init es := by
  have hinit : OneCall State.init := Or.inl rfl
  apply throughout_of_along ?_ hinit ((first_call honly (Or.inr ⟨hcalls, rfl⟩)).and_mem honly)
  intro s e t hs he ht
  exact oneCall_step hs he.1 he.2 ht

/-- Without a call nothing happens. -/
theorem no_call_throughout {es : List Event} (honly : ∀ e ∈ es, OnlyCalls e)
    (hcalls : es.countP isCall = 0) : Throughout step (fun s => s = State.init) State.init es := by
  have hnone : ∀ e ∈ es, isCall e = false := by
    intro e he
    simpa using List.countP_eq_zero.mp hcalls e he
  cases es with
  | nil => rfl
  | cons e es =>
    refine ⟨rfl, fun t ht => ?_⟩
    have hempty : State.init.threads = [] := rfl
    exact absurd ht (no_thread_steps hempty (hnone e List.mem_cons_self)
      (honly e List.mem_cons_self))

/-- Two calls; the second consumer follows the first. -/
def twoCalls : List Event :=
  .call .nscondationLockMethod :: .call .nscondationLockMethod ::
    handOver ++ [.run 2 none, .run 2 none]

theorem twoCalls_raised : (run step State.init twoCalls).map State.raised = some true := by
  decide +kernel

theorem handOver_empties :
    (run step State.init (.call .nscondationLockMethod :: handOver)).map
      (fun s => (s.condition, s.holder .condationLock, s.data)) = some (2, none, []) := by
  decide +kernel

/-- Removals are safe for a single call and no more; already after one call the
condition no longer tells that there is an element. With more calls, the runs that
grant the lock to a consumer only while there is one are safe. -/
theorem condition_lock_iff (n : Nat) :
    (InEveryRun n Unraised ↔ n ≤ 1) ∧ (InEveryRun n FullAtTwo ↔ n = 0) ∧
    ∀ es, (∀ e ∈ es, OnlyCalls e) → Along step GrantsElement State.init es →
      Throughout step Unraised State.init es := by
  refine ⟨⟨fun h => ?_, fun hn es honly hcalls => ?_⟩,
    ⟨fun h => ?_, fun hn es honly hcalls => ?_⟩, fun es honly hgrants => ?_⟩
  · by_contra hn
    have hcount : twoCalls.countP isCall = 2 := rfl
    exact not_throughout_unraised twoCalls_raised (h twoCalls (by decide) (by omega))
  · exact (one_call_throughout honly (by omega)).mono (fun _ hs => hs.unraised)
  · by_contra hn
    obtain ⟨s, hs, he⟩ := Option.map_eq_some_iff.mp handOver_empties
    simp only [Prod.mk.injEq] at he
    obtain ⟨hcondition, hfree, hdata⟩ := he
    have hcount : (Event.call .nscondationLockMethod :: handOver).countP isCall = 1 := rfl
    exact (h _ (by decide) (by omega)).last hs hcondition hfree hdata
  · refine (no_call_throughout honly (by omega)).mono ?_
    intro s hs hcondition
    subst s
    cases hcondition
  · have hguarded : Throughout step (Guarded lockDiscipline) State.init es := by
      apply throughout_of_along ?_ (guarded_init lockDiscipline) (hgrants.and_mem honly)
      intro s e t hs he ht
      exact lock_step_guarded hs he.1 he.2 ht
    exact hguarded.mono (fun _ hs => hs.unraised)

theorem second_consumer_raises :
    (∀ e ∈ twoCalls, OnlyCalls e) ∧ ¬ Throughout step Unraised State.init twoCalls :=
  ⟨by decide, not_throughout_unraised twoCalls_raised⟩

end BasicDemo.Locks
