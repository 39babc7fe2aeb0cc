import Mathlib.Data.List.AList
import Mathlib.Data.Rat.Defs

namespace BasicDemo.Timer

inductive Queue where
  | main
  | global
  deriving DecidableEq

/-- A dispatch timer source. The handle is its identity as an object. -/
structure TimerSource where
  handle : Nat
  queue : Queue
  start : Rat
  interval : Rat
  deriving DecidableEq

/-- The arguments of `executeTask`. The block itself is opaque; only whether it
is nil is looked at. -/
structure Request where
  action : Bool
  start : Rat
  timeInterval : Rat
  repeats : Bool
  async : Bool

/-- A source together with what its event handler block has captured. -/
structure Task where
  source : TimerSource
  timerID : String
  repeats : Bool
  deriving DecidableEq

/-- The static variables of `SKTimerTest`, the number of sources made so far,
and the handles on which `dispatch_source_cancel` was called. -/
structure Registry where
  timerDict : AList (fun _ : String => TimerSource)
  created : Nat
  cancelled : List Nat

def Registry.empty : Registry := ⟨∅, 0, []⟩

def Registry.count (r : Registry) : Nat := r.timerDict.keys.length

def nsecPerSec : Rat := 1000000000

/-- The guard of `executeTask`: a nil block, a negative start, or a negative
interval of a repeating timer. -/
def refuses (q : Request) : Bool :=
  !q.action || q.start < 0 || (q.timeInterval < 0 && q.repeats)

def newSource (r : Registry) (q : Request) : TimerSource :=
  ⟨r.created, if q.async then .global else .main, q.start * nsecPerSec,
    q.timeInterval * nsecPerSec⟩

/-- The key of a new timer is the number of timers now registered, in decimal. -/
def freshID (r : Registry) : String := Nat.repr r.count

/-- `+executeTask:startAt:timeInterval:repeats:async:`. The task it returns holds
the identifier handed to the caller. -/
def executeTask (r : Registry) (q : Request) : Registry × Option Task :=
  if refuses q then (r, none)
  else
    let timer := newSource r q
    let timerID := freshID r
    ({ r with timerDict := r.timerDict.insert timerID timer, created := r.created + 1 },
      some ⟨timer, timerID, q.repeats⟩)

/-- `+cancelTask:`. A nil or empty identifier returns at once. -/
def cancelTask (r : Registry) (taskID : Option String) : Registry :=
  match taskID with
  | none => r
  | some id =>
    if id.length = 0 then r
    else
      { r with
        timerDict := r.timerDict.erase id
        cancelled :=
          match r.timerDict.lookup id with
          | some timer => timer.handle :: r.cancelled
          | none => r.cancelled }

/-- The event handler installed by `executeTask`, after the caller's block. -/
def eventHandler (r : Registry) (task : Task) : Registry :=
  if task.repeats then r else cancelTask r (some task.timerID)

/-- The repeating timer `SKRunloopVC` asks for: from 2 s on, every 5 s. -/
def timerRequest : Request := ⟨true, 2, 5, true, false⟩

theorem freshID_length (r : Registry) : (freshID r).length ≠ 0 := by
  have := Nat.length_repr_pos (n := r.count)
  unfold freshID
  omega

theorem executeTask_refused {r : Registry} {q : Request} (h : refuses q = true) :
    executeTask r q = (r, none) := by
  simp [executeTask, h]

theorem executeTask_accepted {r : Registry} {q : Request} (h : refuses q = false) :
    executeTask r q =
      ({ r with timerDict := r.timerDict.insert (freshID r) (newSource r q)
                created := r.created + 1 },
        some ⟨newSource r q, freshID r, q.repeats⟩) := by
  simp [executeTask, h]

theorem timerRequest_accepted : refuses timerRequest = false := by decide +kernel

@[simp] theorem newSource_handle (r : Registry) (q : Request) :
    (newSource r q).handle = r.created := rfl

@[simp] theorem cancelTask_created (r : Registry) (taskID : Option String) :
    (cancelTask r taskID).created = r.created := by
  unfold cancelTask
  split
  · rfl
  · split <;> rfl

/-- Cancelling touches no key but the one named. -/
theorem cancelTask_lookup_other (r : Registry) (taskID : Option String) (id : String)
    (h : taskID ≠ some id) :
    (cancelTask r taskID).timerDict.lookup id = r.timerDict.lookup id := by
  cases taskID with
  | none => rfl
  | some other =>
    have hne : id ≠ other := fun he => h (congrArg some he.symm)
    by_cases hl : other.length = 0
    · simp [cancelTask, hl]
    · simp [cancelTask, hl, AList.lookup_erase_ne hne]

theorem cancelTask_lookup_self (r : Registry) (id : String) (h : id.length ≠ 0) :
    (cancelTask r (some id)).timerDict.lookup id = none := by
  simp [cancelTask, h]

/-- No lookup succeeds after a cancel that did not succeed before it. -/
theorem cancelTask_lookup_some {r : Registry} {taskID : Option String} {id : String}
    {source : TimerSource} (h : (cancelTask r taskID).timerDict.lookup id = some source) :
    r.timerDict.lookup id = some source := by
  by_cases he : taskID = some id
  · subst he
    by_cases hl : id.length = 0
    · simpa [cancelTask, hl] using h
    · simp [cancelTask_lookup_self r id hl] at h
  · rwa [cancelTask_lookup_other r taskID id he] at h

/-- The sources a cancel reaches are the one under the key and those reached before. -/
theorem mem_cancelTask_cancelled {r : Registry} {taskID : Option String} {n : Nat}
    (h : n ∈ (cancelTask r taskID).cancelled) :
    n ∈ r.cancelled ∨
      ∃ id source, taskID = some id ∧ r.timerDict.lookup id = some source ∧ source.handle = n := by
  cases taskID with
  | none => exact Or.inl h
  | some id =>
    by_cases hl : id.length = 0
    · exact Or.inl (by simpa [cancelTask, hl] using h)
    · cases hs : r.timerDict.lookup id with
      | none => exact Or.inl (by simpa [cancelTask, hl, hs] using h)
      | some source =>
        simp only [cancelTask, hl, hs, if_false, List.mem_cons] at h
        rcases h with he | hm
        · exact Or.inr ⟨id, source, rfl, hs, he.symm⟩
        · exact Or.inl hm

/-- Facts of the registry alone, true whatever its callers do: keys are never
empty and every registered source has been made. -/
structure Sound (r : Registry) : Prop where
  named : ∀ id source, r.timerDict.lookup id = some source → id.length ≠ 0
  made : ∀ id source, r.timerDict.lookup id = some source → source.handle < r.created

theorem sound_empty : Sound Registry.empty := by
  constructor <;> intro id source h <;> simp [Registry.empty] at h

/-- A lookup after a registration finds the new source under the fresh key and
the old registry elsewhere. -/
theorem lookup_insert_cases {r : Registry} {q : Request} {id : String} {source : TimerSource}
    (h : (r.timerDict.insert (freshID r) (newSource r q)).lookup id = some source) :
    (id = freshID r ∧ source = newSource r q) ∨
      (id ≠ freshID r ∧ r.timerDict.lookup id = some source) := by
  by_cases he : id = freshID r
  · subst he
    rw [AList.lookup_insert] at h
    exact Or.inl ⟨rfl, (Option.some.inj h).symm⟩
  · rw [AList.lookup_insert_ne he] at h
    exact Or.inr ⟨he, h⟩

theorem Sound.executeTask {r : Registry} (h : Sound r) (q : Request) :
    Sound (executeTask r q).1 := by
  cases hq : refuses q with
  | true => simpa [executeTask_refused hq] using h
  | false =>
    rw [executeTask_accepted hq]
    constructor
    · intro id source hs
      rcases lookup_insert_cases hs with ⟨rfl, _⟩ | ⟨_, hold⟩
      · exact freshID_length r
      · exact h.named id source hold
    · intro id source hs
      change source.handle < r.created + 1
      rcases lookup_insert_cases hs with ⟨_, rfl⟩ | ⟨_, hold⟩
      · simp
      · have := h.made id source hold
        omega

theorem Sound.cancelTask {r : Registry} (h : Sound r) (taskID : Option String) :
    Sound (cancelTask r taskID) := by
  constructor
  · intro id source hs
    exact h.named id source (cancelTask_lookup_some hs)
  · intro id source hs
    rw [cancelTask_created]
    exact h.made id source (cancelTask_lookup_some hs)

end BasicDemo.Timer
