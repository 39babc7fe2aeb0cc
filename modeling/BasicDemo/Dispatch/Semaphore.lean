import BasicDemo.Library.Counting
import BasicDemo.Library.Simulation

namespace BasicDemo.Dispatch
open Library Library.Runs

abbrev ThreadID := Nat

def longMax : Int := 9223372036854775807

def longMin : Int := -9223372036854775808

/-- The value of `os_atomic_inc2o` on a `long`. -/
def longInc (value : Int) : Int := if value = longMax then longMin else value + 1

def longDec (value : Int) : Int := if value = longMin then longMax else value - 1

inductive Timeout where
  | now
  | after
  | forever
  deriving DecidableEq

/-- Where a thread is in a call of the semaphore. `undo` has read `orig` and tries to exchange
it; `load` is before the read. -/
inductive Phase where
  | outside
  | signalSlow
  | timedwait
  | load
  | undo (orig : Int)
  | wait
  deriving DecidableEq

/-- A `dispatch_semaphore_s`, with the count of the kernel's semaphore and the threads that
call it. -/
structure Semaphore where
  dsemaValue : Int
  dsemaOrig : Int
  dsemaSema : Nat
  threads : List Phase
  crashed : Bool
  deriving DecidableEq

namespace Semaphore

def dispatchSemaphoreCreate (value : Int) (threads : Nat) : Option Semaphore :=
  if value < 0 then none
  else some ⟨value, value, 0, List.replicate threads .outside, false⟩

def goto (s : Semaphore) (t : ThreadID) (phase : Phase) : Semaphore :=
  { s with threads := s.threads.set t phase }

def dispatchSemaphoreSignal (s : Semaphore) (t : ThreadID) : Semaphore :=
  let value := longInc s.dsemaValue
  let s := { s with dsemaValue := value }
  if 0 < value then s
  else if value = longMin then { s with crashed := true }
  else s.goto t .signalSlow

/-- The kernel gets its signal. -/
def dispatchSemaphoreSignalSlow (s : Semaphore) (t : ThreadID) : Semaphore :=
  { s with dsemaSema := s.dsemaSema + 1 }.goto t .outside

def dispatchSemaphoreWait (s : Semaphore) (t : ThreadID) (timeout : Timeout) : Semaphore :=
  let value := longDec s.dsemaValue
  let s := { s with dsemaValue := value }
  if 0 ≤ value then s
  else
    match timeout with
    | .after => s.goto t .timedwait
    | .now => s.goto t .load
    | .forever => s.goto t .wait

/-- The test of the loop that undoes the decrement: with a negative value it tries, otherwise
another thread has signalled, and its wake-up is drained. -/
def undoLoop (s : Semaphore) (t : ThreadID) (orig : Int) : Semaphore :=
  if orig < 0 then s.goto t (.undo orig) else s.goto t .wait

/-- The kernel's semaphore is taken. -/
def sema4Wait (s : Semaphore) (t : ThreadID) : Option Semaphore :=
  if 0 < s.dsemaSema then some ({ s with dsemaSema := s.dsemaSema - 1 }.goto t .outside) else none

/-- The weak exchange may fail although the value is the one that was read. -/
def cmpxchg (s : Semaphore) (t : ThreadID) (orig : Int) (spurious : Bool) : Semaphore :=
  if s.dsemaValue = orig ∧ spurious = false then
    { s with dsemaValue := orig + 1 }.goto t .outside
  else s.undoLoop t s.dsemaValue

end Semaphore

inductive Action where
  | signal (t : ThreadID)
  | signalSlow (t : ThreadID)
  | wait (t : ThreadID) (timeout : Timeout)
  | awake (t : ThreadID)
  | expire (t : ThreadID)
  | load (t : ThreadID)
  | exchange (t : ThreadID) (spurious : Bool)
  deriving DecidableEq

/-- Any interleaving of the threads' atomic steps. -/
def step (s : Semaphore) (action : Action) : Option Semaphore :=
  if s.crashed then none
  else
    match action with
    | .signal t => if s.threads[t]? = some .outside then some (s.dispatchSemaphoreSignal t) else none
    | .signalSlow t =>
      if s.threads[t]? = some .signalSlow then some (s.dispatchSemaphoreSignalSlow t) else none
    | .wait t timeout =>
      if s.threads[t]? = some .outside then some (s.dispatchSemaphoreWait t timeout) else none
    | .awake t =>
      if s.threads[t]? = some .wait ∨ s.threads[t]? = some .timedwait then s.sema4Wait t else none
    | .expire t => if s.threads[t]? = some .timedwait then some (s.goto t .load) else none
    | .load t => if s.threads[t]? = some .load then some (s.undoLoop t s.dsemaValue) else none
    | .exchange t spurious =>
      match s.threads[t]? with
      | some (.undo orig) => some (s.cmpxchg t orig spurious)
      | _ => none

/-- The thread has decremented the value and has not come back. -/
def Phase.waits : Phase → Bool
  | .timedwait => true
  | .load => true
  | .undo _ => true
  | .wait => true
  | _ => false

/-- The thread owes the kernel a signal. -/
def Phase.signals : Phase → Bool
  | .signalSlow => true
  | _ => false

/-- What one step is. -/
inductive Moves (s : Semaphore) : Action → Semaphore → Prop where
  | signal {t : ThreadID} (ht : s.threads[t]? = some .outside) :
    Moves s (.signal t) (s.dispatchSemaphoreSignal t)
  | signalSlow {t : ThreadID} (ht : s.threads[t]? = some .signalSlow) :
    Moves s (.signalSlow t) (s.dispatchSemaphoreSignalSlow t)
  | wait {t : ThreadID} (ht : s.threads[t]? = some .outside) (timeout : Timeout) :
    Moves s (.wait t timeout) (s.dispatchSemaphoreWait t timeout)
  | awake {t : ThreadID} {old : Phase} {s' : Semaphore} (ht : s.threads[t]? = some old)
    (hwaits : old.waits = true) (hsignals : old.signals = false)
    (hs : s.sema4Wait t = some s') : Moves s (.awake t) s'
  | expire {t : ThreadID} (ht : s.threads[t]? = some .timedwait) :
    Moves s (.expire t) (s.goto t .load)
  | load {t : ThreadID} (ht : s.threads[t]? = some .load) :
    Moves s (.load t) (s.undoLoop t s.dsemaValue)
  | exchange {t : ThreadID} {orig : Int} (ht : s.threads[t]? = some (.undo orig))
    (spurious : Bool) : Moves s (.exchange t spurious) (s.cmpxchg t orig spurious)

theorem step_moves {s s' : Semaphore} {action : Action} (h : step s action = some s') :
    s.crashed = false ∧ Moves s action s' := by
  unfold step at h
  split at h
  · cases h
  next halive =>
  refine ⟨by simpa using halive, ?_⟩
  cases action with
  | signal t =>
    obtain ⟨ht, ⟨⟩⟩ := Option.ite_none_right_eq_some.mp h
    exact .signal ht
  | signalSlow t =>
    obtain ⟨ht, ⟨⟩⟩ := Option.ite_none_right_eq_some.mp h
    exact .signalSlow ht
  | wait t timeout =>
    obtain ⟨ht, ⟨⟩⟩ := Option.ite_none_right_eq_some.mp h
    exact .wait ht timeout
  | awake t =>
    obtain ⟨ht | ht, hs⟩ := Option.ite_none_right_eq_some.mp h
    · exact .awake ht rfl rfl hs
    · exact .awake ht rfl rfl hs
  | expire t =>
    obtain ⟨ht, ⟨⟩⟩ := Option.ite_none_right_eq_some.mp h
    exact .expire ht
  | load t =>
    obtain ⟨ht, ⟨⟩⟩ := Option.ite_none_right_eq_some.mp h
    exact .load ht
  | exchange t spurious =>
    dsimp only at h
    split at h
    · next orig ht =>
      obtain rfl := Option.some.inj h
      exact .exchange ht spurious
    · cases h

/-- The value counts the tokens less the threads that wait, and every waiting thread for which
there is a token has its signal in the kernel or on its way there. -/
structure Matches (a : Counting.Semaphore) (s : Semaphore) : Prop where
  value : s.dsemaValue = a.tokens - a.waiters
  waiters : s.threads.countP Phase.waits = a.waiters
  handed : s.dsemaSema + s.threads.countP Phase.signals = min a.tokens a.waiters
  few : (s.threads.length : Int) ≤ longMax
  undo : ∀ phase ∈ s.threads, ∀ orig, phase = .undo orig → orig < 0

/-- What the calls of the threads are to a counting semaphore. -/
def answer (s : Semaphore) : Action → List Counting.Op
  | .signal _ => [.signal]
  | .wait _ _ => if 0 ≤ longDec s.dsemaValue then [.arrive, .acquire] else [.arrive]
  | .awake _ => [.acquire]
  | .exchange t spurious =>
    if s.threads[t]? = some (.undo s.dsemaValue) ∧ spurious = false then [.giveUp] else []
  | _ => []

/-- Apart from the crash, the states of the semaphore are those of a counting semaphore. -/
def Refines (a : Counting.Semaphore) (s : Semaphore) : Prop := s.crashed = true ∨ Matches a s

theorem create_matches {value : Int} {threads : Nat} {s : Semaphore}
    (h : Semaphore.dispatchSemaphoreCreate value threads = some s)
    (hfew : (threads : Int) ≤ longMax) : Matches ⟨value.toNat, 0⟩ s := by
  rw [Semaphore.dispatchSemaphoreCreate] at h
  split at h
  · cases h
  · next hvalue =>
    obtain rfl := Option.some.inj h
    refine ⟨?_, ?_, ?_, ?_, ?_⟩
    · dsimp only
      omega
    · simp [Phase.waits]
    · simp [Phase.signals]
    · simpa using hfew
    · intro phase hphase orig horig
      rw [List.eq_of_mem_replicate hphase] at horig
      cases horig

section steps

variable {a : Counting.Semaphore} {s : Semaphore} {t : ThreadID} {old new : Phase}

/-- A thread moves, and the value and the kernel's count change with it. -/
theorem Matches.move (h : Matches a s) (ht : s.threads[t]? = some old) (new : Phase)
    {b : Counting.Semaphore} {value : Int} {sema : Nat} (hvalue : value = b.tokens - b.waiters)
    (hwaiters : a.waiters + new.waits.toNat = b.waiters + old.waits.toNat)
    (hhanded : sema + s.threads.countP Phase.signals + new.signals.toNat =
      min b.tokens b.waiters + old.signals.toNat)
    (hundo : ∀ orig, new = .undo orig → orig < 0) :
    Matches b ({ s with dsemaValue := value, dsemaSema := sema }.goto t new) := by
  have hw := countP_set_add ht new Phase.waits
  have hs := countP_set_add ht new Phase.signals
  have := h.waiters
  refine ⟨hvalue, ?_, ?_, ?_, ?_⟩
  · change (s.threads.set t new).countP Phase.waits = b.waiters
    omega
  · change sema + (s.threads.set t new).countP Phase.signals = _
    omega
  · change ((s.threads.set t new).length : Int) ≤ longMax
    rw [List.length_set]
    exact h.few
  · intro phase hphase
    rcases List.mem_or_eq_of_mem_set hphase with hphase | rfl
    · exact h.undo phase hphase
    · exact hundo

theorem Matches.value_bounds (h : Matches a s) : longMin < s.dsemaValue := by
  have hcount := List.countP_le_length (p := Phase.waits) (l := s.threads)
  have := h.value
  have := h.waiters
  have := h.few
  simp only [longMin, longMax] at *
  omega

theorem refines_signal (h : Matches a s) (ht : s.threads[t]? = some .outside) :
    Refines ⟨a.tokens + 1, a.waiters⟩ (s.dispatchSemaphoreSignal t) := by
  have hvalue := h.value
  have hhanded := h.handed
  rw [Semaphore.dispatchSemaphoreSignal]
  by_cases hmax : s.dsemaValue = longMax
  · -- The value wraps round to the least one.
    rw [longInc, if_pos hmax]
    exact Or.inl rfl
  · rw [longInc, if_neg hmax]
    dsimp only
    split
    · next hpos =>
      refine Or.inr ⟨?_, h.waiters, ?_, h.few, h.undo⟩
      · dsimp only
        omega
      · dsimp only
        omega
    · next hneg =>
      have := h.value_bounds
      rw [if_neg (by omega)]
      refine Or.inr (h.move ht .signalSlow ?_ rfl ?_ (fun _ h => by cases h))
      · dsimp only
        omega
      · simp only [Phase.signals, Bool.toNat_true, Bool.toNat_false]
        omega

/-- Short of the greatest value a signal does not crash: it returns at once, or it goes on to the
kernel. -/
theorem Matches.signal_cases (h : Matches a s) (hmax : s.dsemaValue ≠ longMax) (t : ThreadID) :
    s.dispatchSemaphoreSignal t = { s with dsemaValue := s.dsemaValue + 1 } ∨
      s.dispatchSemaphoreSignal t =
        { s with dsemaValue := s.dsemaValue + 1 }.goto t .signalSlow := by
  have hbound := h.value_bounds
  rw [Semaphore.dispatchSemaphoreSignal, longInc, if_neg hmax]
  dsimp only
  split
  · exact Or.inl rfl
  · exact Or.inr (if_neg (by omega))

theorem Matches.signalSlow (h : Matches a s) (ht : s.threads[t]? = some .signalSlow) :
    Matches a (s.dispatchSemaphoreSignalSlow t) := by
  have hhanded := h.handed
  refine h.move ht .outside h.value rfl ?_ (fun _ h => by cases h)
  simp only [Phase.signals, Bool.toNat_true, Bool.toNat_false]
  omega

/-- The fast path takes a token at once; otherwise the thread is one more that waits. -/
theorem Matches.wait (h : Matches a s) (ht : s.threads[t]? = some .outside) (timeout : Timeout) :
    ∃ b, run Counting.step a (answer s (.wait t timeout)) = some b ∧
      Matches b (s.dispatchSemaphoreWait t timeout) := by
  have hvalue := h.value
  have hhanded := h.handed
  have hdec : longDec s.dsemaValue = s.dsemaValue - 1 := by
    rw [longDec, if_neg (Int.ne_of_gt h.value_bounds)]
  unfold Semaphore.dispatchSemaphoreWait
  rw [answer, hdec]
  dsimp only
  by_cases hfast : 0 ≤ s.dsemaValue - 1
  · rw [if_pos hfast, if_pos hfast]
    refine ⟨⟨a.tokens - 1, a.waiters⟩, ?_, ?_, h.waiters, ?_, h.few, h.undo⟩
    · have htoken : 0 < a.tokens := by omega
      exact congrArg (fun o => Option.bind o some) (if_pos ⟨htoken, Nat.succ_pos a.waiters⟩)
    · dsimp only
      omega
    · dsimp only
      omega
  · rw [if_neg hfast, if_neg hfast]
    refine ⟨⟨a.tokens, a.waiters + 1⟩, rfl, ?_⟩
    have hmove : ∀ phase : Phase, phase.waits = true → phase.signals = false →
        (∀ orig, phase = .undo orig → orig < 0) →
        Matches ⟨a.tokens, a.waiters + 1⟩
          ({ s with dsemaValue := s.dsemaValue - 1 }.goto t phase) := by
      intro phase hwaits hsignals hundo
      refine h.move ht _ ?_ ?_ ?_ hundo
      · dsimp only
        omega
      · rw [hwaits]
        rfl
      · rw [hsignals]
        simp only [Phase.signals, Bool.toNat_false]
        omega
    cases timeout with
    | now => exact hmove .load rfl rfl (fun _ h => by cases h)
    | after => exact hmove .timedwait rfl rfl (fun _ h => by cases h)
    | forever => exact hmove .wait rfl rfl (fun _ h => by cases h)

/-- A thread that stays among those that wait. -/
theorem Matches.stay (h : Matches a s) (ht : s.threads[t]? = some old) (hold : old.waits = true)
    (hold' : old.signals = false) (hnew : new.waits = true) (hnew' : new.signals = false)
    (hundo : ∀ orig, new = .undo orig → orig < 0) : Matches a (s.goto t new) := by
  refine h.move ht new h.value ?_ ?_ hundo
  · rw [hold, hnew]
  · rw [hold', hnew']
    exact h.handed

theorem Matches.undoLoop (h : Matches a s) (ht : s.threads[t]? = some old)
    (hold : old.waits = true) (hold' : old.signals = false) (orig : Int) :
    Matches a (s.undoLoop t orig) := by
  rw [Semaphore.undoLoop]
  split
  · next hneg =>
    refine h.stay ht hold hold' rfl rfl ?_
    intro orig' horig
    cases horig
    exact hneg
  · exact h.stay ht hold hold' rfl rfl (fun _ h => by cases h)

/-- A token is taken with the kernel's signal. -/
theorem Matches.awake (h : Matches a s) (ht : s.threads[t]? = some old) (hold : old.waits = true)
    (hold' : old.signals = false) {s' : Semaphore} (hs : s.sema4Wait t = some s') :
    ∃ b, Counting.step a .acquire = some b ∧ Matches b s' := by
  have hvalue := h.value
  have hhanded := h.handed
  rw [Semaphore.sema4Wait] at hs
  split at hs
  · next hsema =>
    obtain rfl := Option.some.inj hs
    refine ⟨⟨a.tokens - 1, a.waiters - 1⟩, if_pos (by omega), ?_⟩
    refine h.move ht _ ?_ ?_ ?_ (fun _ h => by cases h)
    · dsimp only
      omega
    · rw [hold]
      simp only [Phase.waits, Bool.toNat_true, Bool.toNat_false]
      omega
    · rw [hold']
      simp only [Phase.signals, Bool.toNat_false]
      omega
  · cases hs

/-- A thread takes its decrement back while the value is negative: there are fewer tokens than
threads that wait. -/
theorem Matches.giveUp (h : Matches a s) (ht : s.threads[t]? = some old) (hold : old.waits = true)
    (hold' : old.signals = false) (hneg : s.dsemaValue < 0) :
    ∃ b, Counting.step a .giveUp = some b ∧
      Matches b ({ s with dsemaValue := s.dsemaValue + 1 }.goto t .outside) := by
  have hvalue := h.value
  have hhanded := h.handed
  refine ⟨⟨a.tokens, a.waiters - 1⟩, if_pos (by omega), ?_⟩
  refine h.move ht _ ?_ ?_ ?_ (fun _ h => by cases h)
  · dsimp only
    omega
  · rw [hold]
    simp only [Phase.waits, Bool.toNat_true, Bool.toNat_false]
    omega
  · rw [hold']
    simp only [Phase.signals, Bool.toNat_false]
    omega

end steps

theorem step_simulates : Simulates step Counting.step answer Refines := by
  intro a s action s' hrefines hs
  obtain ⟨halive, hmoves⟩ := step_moves hs
  have h : Matches a s := hrefines.resolve_left (by rw [halive]; exact Bool.false_ne_true)
  cases hmoves with
  | signal ht => exact ⟨_, rfl, refines_signal h ht⟩
  | signalSlow ht => exact ⟨a, rfl, Or.inr (h.signalSlow ht)⟩
  | wait ht timeout =>
    obtain ⟨b, hb, hmatches⟩ := h.wait ht timeout
    exact ⟨b, hb, Or.inr hmatches⟩
  | awake ht hwaits hsignals hawake =>
    obtain ⟨b, hb, hmatches⟩ := h.awake ht hwaits hsignals hawake
    exact ⟨b, congrArg (fun o => Option.bind o some) hb, Or.inr hmatches⟩
  | expire ht => exact ⟨a, rfl, Or.inr (h.stay ht rfl rfl rfl rfl (fun _ h => by cases h))⟩
  | load ht => exact ⟨a, rfl, Or.inr (h.undoLoop ht rfl rfl _)⟩
  | @exchange t orig ht spurious =>
    rw [answer, ht, Semaphore.cmpxchg]
    by_cases hdone : s.dsemaValue = orig ∧ spurious = false
    · obtain ⟨rfl, rfl⟩ := hdone
      have hneg := h.undo _ (List.mem_of_getElem? ht) _ rfl
      obtain ⟨b, hb, hmatches⟩ := h.giveUp ht rfl rfl hneg
      rw [if_pos ⟨rfl, rfl⟩, if_pos ⟨rfl, rfl⟩]
      exact ⟨b, congrArg (fun o => Option.bind o some) hb, Or.inr hmatches⟩
    · have hkeep : ¬ (some (Phase.undo orig) = some (.undo s.dsemaValue) ∧ spurious = false) := by
        intro hboth
        obtain ⟨horig, hspurious⟩ := hboth
        cases horig
        exact hdone ⟨rfl, hspurious⟩
      rw [if_neg hdone, if_neg hkeep]
      exact ⟨a, rfl, Or.inr (h.undoLoop ht rfl rfl _)⟩

theorem create_alive {value : Int} {n : Nat} {s : Semaphore}
    (h : Semaphore.dispatchSemaphoreCreate value n = some s) :
    s.crashed = false ∧ s.dsemaOrig = value ∧ 0 ≤ value := by
  rw [Semaphore.dispatchSemaphoreCreate] at h
  split at h
  · cases h
  · next hvalue =>
    obtain rfl := Option.some.inj h
    exact ⟨rfl, rfl, Int.not_lt.mp hvalue⟩

/-- In every interleaving of its callers the semaphore is a counting semaphore: no more waits
succeed than there were permits and signals, and threads sleep with no wake-up on its way only
while all of these are used up. -/
theorem semaphore_counts {value : Int} {n : Nat} {s s' : Semaphore} {actions : List Action}
    (hcreate : Semaphore.dispatchSemaphoreCreate value n = some s) (hfew : (n : Int) ≤ longMax)
    (hrun : run step s actions = some s') (halive : s'.crashed = false) :
    let calls := answers step answer s actions
    (∃ b, run Counting.step ⟨value.toNat, 0⟩ calls = some b ∧ Matches b s') ∧
      calls.count .acquire ≤ value.toNat + calls.count .signal ∧
      (s'.dsemaSema = 0 → s'.threads.countP Phase.signals = 0 →
        0 < s'.threads.countP Phase.waits →
        calls.count .acquire = value.toNat + calls.count .signal) := by
  intro calls
  obtain ⟨b, hb, hrefines⟩ := step_simulates.run (Or.inr (create_matches hcreate hfew)) hrun
  have hmatches : Matches b s' :=
    hrefines.resolve_left (by rw [halive]; exact Bool.false_ne_true)
  have htokens := Counting.run_tokens hb
  refine ⟨⟨b, hb, hmatches⟩, ?_, ?_⟩
  · dsimp only [calls] at *
    omega
  · intro hsema hsignals hwaits
    have hhanded := hmatches.handed
    have hwaiters := hmatches.waiters
    dsimp only [calls] at *
    omega

/-- Two threads at a new semaphore. -/
def raceStart : Semaphore := ⟨0, 0, 0, [.outside, .outside], false⟩

/-- A signal meets a thread that is about to give up; the thread drains its wake-up. -/
def race : List Action :=
  [.wait 0 .after, .signal 1, .expire 0, .load 0, .signalSlow 1, .awake 0]

theorem race_counts :
    ∃ s', run step raceStart race = some s' ∧
      ∃ b, run Counting.step ⟨0, 0⟩ (answers step answer raceStart race) = some b ∧
        Matches b s' := by
  have hcreate : Semaphore.dispatchSemaphoreCreate 0 2 = some raceStart := rfl
  exact ⟨_, rfl, (semaphore_counts hcreate (by decide) rfl rfl).1⟩

end BasicDemo.Dispatch
