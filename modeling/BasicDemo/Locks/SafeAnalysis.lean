import BasicDemo.Library.Runs
import Mathlib.Data.Fintype.Pi

namespace BasicDemo.Locks
open Library.Runs

abbrev ThreadID := Nat

inductive Lock where
  | pthreadLock
  | condation
  | condationLock
  deriving DecidableEq

instance : Fintype Lock where
  elems := {.pthreadLock, .condation, .condationLock}
  complete l := by cases l <;> decide

/-- The statements of the producers and consumers of `SKGCDSafeAnalysis`. `ifEmpty`
is the test of `self.data.count` and guards the statement after it; `wait` and
`signal` are on the condition that belongs to the lock. -/
inductive Instr where
  | lock (l : Lock)
  | unlock (l : Lock)
  | ifEmpty
  | wait (l : Lock)
  | signal (l : Lock)
  | addObject
  | removeLastObject
  | lockWhenCondition (condition : Int)
  | unlockWithCondition (condition : Int)
  deriving DecidableEq

inductive Method where
  | addObject
  | removeObject
  | condationAdd
  | condationRemove
  | condationLockAdd
  | condationLockRemove
  deriving DecidableEq

def producer (l : Lock) : List Instr := [.lock l, .addObject, .signal l, .unlock l]

def consumer (l : Lock) : List Instr :=
  [.lock l, .ifEmpty, .wait l, .removeLastObject, .unlock l]

def Method.body : Method → List Instr
  | .addObject => producer .pthreadLock
  | .removeObject => consumer .pthreadLock
  | .condationAdd => producer .condation
  | .condationRemove => consumer .condation
  | .condationLockAdd => [.lockWhenCondition 1, .addObject, .unlockWithCondition 2]
  | .condationLockRemove => [.lockWhenCondition 2, .removeLastObject, .unlock .condationLock]

/-- The methods that start two threads. -/
inductive Entry where
  | pthreadCondation
  | nscondationMethod
  | nscondationLockMethod
  deriving DecidableEq

def Entry.threads : Entry → List Method
  | .pthreadCondation => [.removeObject, .addObject]
  | .nscondationMethod => [.condationRemove, .condationAdd]
  | .nscondationLockMethod => [.condationLockRemove, .condationLockAdd]

/-- A waiting thread sleeps; a woken one has left the condition's queue and needs
the lock before it goes on. -/
inductive Phase where
  | ready
  | waiting (l : Lock)
  | woken (l : Lock)
  deriving DecidableEq

structure Thread where
  code : List Instr
  phase : Phase
  deriving DecidableEq

/-- One `SKGCDSafeAnalysis` object and the threads started on it, numbered in the
order of their start. `raised` is the end of the process by an exception. -/
structure State where
  threads : List Thread
  holder : Lock → Option ThreadID
  condition : Int
  data : List String
  raised : Bool
  deriving DecidableEq

def State.init : State := ⟨[], fun _ => none, 1, [], false⟩

def State.start (s : State) (m : Method) : State :=
  { s with threads := s.threads ++ [⟨m.body, .ready⟩] }

def State.put (s : State) (t : ThreadID) (thread : Thread) : State :=
  { s with threads := s.threads.set t thread }

/-- The thread goes on with the rest of its code. -/
def State.goto (s : State) (t : ThreadID) (code : List Instr) : State :=
  s.put t ⟨code, .ready⟩

def State.acquire (s : State) (l : Lock) (t : ThreadID) : State :=
  { s with holder := Function.update s.holder l (some t) }

/-- An unlock by a thread that does not hold the lock is refused. -/
def State.release (s : State) (l : Lock) (t : ThreadID) : State :=
  if s.holder l = some t then { s with holder := Function.update s.holder l none } else s

/-- Wake the chosen waiter; without a choice, nobody may be waiting. -/
def State.wake (s : State) (l : Lock) : Option ThreadID → Option State
  | some u =>
    match s.threads[u]? with
    | some ⟨code, .waiting l'⟩ => if l' = l then some (s.put u ⟨code, .woken l⟩) else none
    | _ => none
  | none => if ∀ thread ∈ s.threads, thread.phase ≠ .waiting l then some s else none

/-- One statement of thread `t`, with the waiter that a signal wakes. A lock that
cannot be taken blocks the thread. -/
def State.exec (s : State) (t : ThreadID) (wakes : Option ThreadID) (rest : List Instr) :
    Instr → Option State
  | .lock l => if s.holder l = none then some ((s.acquire l t).goto t rest) else none
  | .unlock l => some ((s.release l t).goto t rest)
  | .ifEmpty => some (s.goto t (if s.data.length = 0 then rest else rest.tail))
  | .wait l =>
    if s.holder l = some t then some ((s.release l t).put t ⟨rest, .waiting l⟩)
    else some (s.goto t rest)
  | .signal l => (s.wake l wakes).map (·.goto t rest)
  | .addObject => some ({ s with data := s.data ++ ["1"] }.goto t rest)
  | .removeLastObject =>
    if s.data = [] then some { s with raised := true }
    else some ({ s with data := s.data.dropLast }.goto t rest)
  | .lockWhenCondition condition =>
    if s.holder .condationLock = none ∧ s.condition = condition then
      some ((s.acquire .condationLock t).goto t rest)
    else none
  | .unlockWithCondition condition =>
    if s.holder .condationLock = some t then
      some ({ s.release .condationLock t with condition := condition }.goto t rest)
    else some (s.goto t rest)

inductive Event where
  | start (m : Method)
  | call (entry : Entry)
  | run (t : ThreadID) (wakes : Option ThreadID)
  | spurious (t : ThreadID)
  | resume (t : ThreadID)
  deriving DecidableEq

/-- Any interleaving: threads are started, run one statement, wake up without a
signal, or come back from a wait once the lock is free. -/
def step (s : State) (e : Event) : Option State :=
  if s.raised then none
  else
    match e with
    | .start m => some (s.start m)
    | .call entry => some (entry.threads.foldl State.start s)
    | .run t wakes =>
      match s.threads[t]? with
      | some ⟨i :: rest, .ready⟩ => s.exec t wakes rest i
      | _ => none
    | .spurious t =>
      match s.threads[t]? with
      | some ⟨code, .waiting l⟩ => some (s.put t ⟨code, .woken l⟩)
      | _ => none
    | .resume t =>
      match s.threads[t]? with
      | some ⟨code, .woken l⟩ =>
        if s.holder l = none then some ((s.acquire l t).goto t code) else none
      | _ => none

/-- No exception was raised: `removeLastObject` never met an empty array. -/
def Unraised (s : State) : Prop := s.raised = false

instance (s : State) : Decidable (Unraised s) := inferInstanceAs (Decidable (_ = _))

theorem not_throughout_unraised {s : State} {es : List Event}
    (h : (run step s es).map State.raised = some true) : ¬ Throughout step Unraised s es := by
  intro hsafe
  obtain ⟨t, ht, hraised⟩ := Option.map_eq_some_iff.mp h
  exact Bool.false_ne_true ((hsafe.last ht).symm.trans hraised)

theorem step_start {s s' : State} {m : Method} (h : step s (.start m) = some s') :
    s' = s.start m := by
  simp only [step] at h
  split at h
  · cases h
  · exact (Option.some.inj h).symm

theorem step_call {s s' : State} {entry : Entry} (h : step s (.call entry) = some s') :
    s' = entry.threads.foldl State.start s := by
  simp only [step] at h
  split at h
  · cases h
  · exact (Option.some.inj h).symm

theorem step_run {s s' : State} {t : ThreadID} {wakes : Option ThreadID}
    (h : step s (.run t wakes) = some s') :
    ∃ i rest, s.threads[t]? = some ⟨i :: rest, .ready⟩ ∧ s.exec t wakes rest i = some s' := by
  simp only [step] at h
  split at h
  · cases h
  · split at h
    · rename_i i rest ht
      exact ⟨i, rest, ht, h⟩
    · cases h

theorem step_spurious {s s' : State} {t : ThreadID} (h : step s (.spurious t) = some s') :
    ∃ code l, s.threads[t]? = some ⟨code, .waiting l⟩ ∧ s' = s.put t ⟨code, .woken l⟩ := by
  simp only [step] at h
  split at h
  · cases h
  · split at h
    · rename_i code l ht
      exact ⟨code, l, ht, (Option.some.inj h).symm⟩
    · cases h

theorem step_resume {s s' : State} {t : ThreadID} (h : step s (.resume t) = some s') :
    ∃ code l, s.threads[t]? = some ⟨code, .woken l⟩ ∧ s.holder l = none ∧
      s' = (s.acquire l t).goto t code := by
  simp only [step] at h
  split at h
  · cases h
  · split at h
    · rename_i code l ht
      split at h
      · rename_i hfree
        exact ⟨code, l, ht, hfree, (Option.some.inj h).symm⟩
      · cases h
    · cases h

theorem wake_cases {s s' : State} {l : Lock} {wakes : Option ThreadID}
    (h : s.wake l wakes = some s') :
    s' = s ∨ ∃ u code, s.threads[u]? = some ⟨code, .waiting l⟩ ∧ s' = s.put u ⟨code, .woken l⟩ := by
  cases wakes with
  | none =>
    simp only [State.wake] at h
    split at h
    · cases h
      exact Or.inl rfl
    · cases h
  | some u =>
    simp only [State.wake] at h
    split at h
    · rename_i code l' hu
      split at h
      · rename_i hl
        subst l'
        cases h
        exact Or.inr ⟨u, code, hu, rfl⟩
      · cases h
    · cases h

/-- Only a signal makes use of the choice of a waiter. -/
theorem exec_wakes {s : State} {t : ThreadID} {rest : List Instr} {i : Instr}
    (h : ∀ l, i ≠ .signal l) (wakes : Option ThreadID) :
    s.exec t wakes rest i = s.exec t none rest i := by
  cases i with
  | signal l => exact absurd rfl (h l)
  | _ => rfl

theorem getElem?_put (s : State) (t u : ThreadID) (thread : Thread) (ht : t < s.threads.length) :
    (s.put t thread).threads[u]? = if t = u then some thread else s.threads[u]? := by
  simp [State.put, List.getElem?_set, ht]

end BasicDemo.Locks
