import BasicDemo.Library.Simulation

namespace BasicDemo.Fluecy
open Library.Runs

/-- `CFRunLoopActivity`. -/
inductive Activity where
  | entry
  | beforeTimers
  | beforeSources
  | beforeWaiting
  | afterWaiting
  | exit
  deriving DecidableEq

/-- What is left of `stopMonitoring` after its test. -/
inductive Stopping where
  | clearMonitoring
  | removeObserver
  | releaseObserver
  | clearObserver
  deriving DecidableEq

/-- What the main thread is in the middle of. `observed` is in the observer's callback before the
signal, `answered` in a block of the event monitor before its signal. -/
inductive Main where
  | idle
  | observed
  | answered
  | createObserver
  | addObserver
  | startEvent
  | startFluecy
  | stopping (rest : Stopping)
  deriving DecidableEq

/-- Where the block on `lxd_event_monitor_queue` is; `idle` while no block runs. A ping is the
block that it sends to the main queue, with its variable `timeOut`. -/
inductive EventLoop where
  | idle
  | test
  | activity
  | send
  | sleeping (ping : Nat) (until' : Nat)
  | check (ping : Nat)
  | log (ping : Nat)
  | wait (ping : Nat)
  deriving DecidableEq

/-- Where the block on `lxd_fluecy_monitor_queue` is. -/
inductive FluecyLoop where
  | idle
  | test
  | wait (deadline : Nat)
  | observer
  | clearTimeOut
  | stop
  | stopping (rest : Stopping)
  | sources
  | waiting
  | count
  | log
  | restore (until' : Nat)
  | reset
  deriving DecidableEq

/-- The shared monitor, the main thread and the two serial queues. Time is in milliseconds. -/
structure Monitor where
  isMonitoring : Bool
  /-- `_observer`. -/
  observer : Option Nat
  /-- The observers that the main run loop holds and calls. -/
  installed : List Nat
  /-- The observers that were released while the run loop held them. -/
  released : List Nat
  /-- The observers that nobody holds any more. -/
  freed : List Nat
  observers : Nat
  currentActivity : Option Activity
  timeOut : Nat
  semphore : Nat
  eventSemphore : Nat
  now : Nat
  main : Main
  mainQueue : List Nat
  event : EventLoop
  eventBlocks : Nat
  fluecy : FluecyLoop
  fluecyBlocks : Nat
  pings : Nat
  /-- Pings whose variable `timeOut` is NO. -/
  inTime : List Nat
  crashed : Bool

def lxdTimeOutInterval : Nat := 1000

def lxdWaitInterval : Nat := 200

def lxdRestoreInterval : Nat := 5000

namespace Monitor

/-- After `commonInit`. -/
def init : Monitor where
  isMonitoring := false
  observer := none
  installed := []
  released := []
  freed := []
  observers := 0
  currentActivity := none
  timeOut := 0
  semphore := 0
  eventSemphore := 0
  now := 0
  main := .idle
  mainQueue := []
  event := .idle
  eventBlocks := 0
  fluecy := .idle
  fluecyBlocks := 0
  pings := 0
  inTime := []
  crashed := false

/-- `CFRunLoopAddObserver` reads the observer, which has to be there. -/
def addObserver (m : Monitor) : Monitor :=
  match m.observer with
  | none => { m with crashed := true }
  | some id =>
    if m.freed.contains id then { m with crashed := true }
    else { m with installed := id :: m.installed }

/-- `CFRunLoopRemoveObserver` looks for the observer, and reads it, if the run loop has any. -/
def removeObserver (m : Monitor) : Monitor :=
  if m.installed = [] then m
  else
    match m.observer with
    | none => { m with crashed := true }
    | some id =>
      if m.freed.contains id then { m with crashed := true }
      else if m.installed.contains id && m.released.contains id then
        { m with installed := m.installed.erase id, freed := id :: m.freed }
      else { m with installed := m.installed.erase id }

/-- `CFRelease` crashes on NULL and on what is freed; the run loop holds what it has. -/
def releaseObserver (m : Monitor) : Monitor :=
  match m.observer with
  | none => { m with crashed := true }
  | some id =>
    if m.freed.contains id then { m with crashed := true }
    else if m.installed.contains id then
      -- the one reference that is left is the run loop's
      if m.released.contains id then { m with crashed := true }
      else { m with released := id :: m.released }
    else { m with freed := id :: m.freed }

/-- One statement of `stopMonitoring`, and what is left of it. -/
def stopMonitoring (m : Monitor) : Stopping → Monitor × Option Stopping
  | .clearMonitoring => ({ m with isMonitoring := false }, some .removeObserver)
  | .removeObserver => (m.removeObserver, some .releaseObserver)
  | .releaseObserver => (m.releaseObserver, some .clearObserver)
  | .clearObserver => ({ m with observer := none }, none)

/-- `lxdRunLoopObserverCallback` stores the activity first. -/
def lxdRunLoopObserverCallback (m : Monitor) (activity : Activity) : Option Monitor :=
  if m.main = .idle ∧ m.installed ≠ [] then
    some { m with currentActivity := some activity, main := .observed }
  else none

def startMonitoring (m : Monitor) : Option Monitor :=
  if m.main = .idle then
    if m.isMonitoring then some m
    else some { m with isMonitoring := true, main := .createObserver }
  else none

def callStop (m : Monitor) : Option Monitor :=
  if m.main = .idle then
    if m.isMonitoring then some { m with main := .stopping .clearMonitoring } else some m
  else none

/-- The main queue's next block. -/
def answerPing (m : Monitor) : Option Monitor :=
  match m.main, m.mainQueue with
  | .idle, ping :: rest =>
    some { m with mainQueue := rest, inTime := ping :: m.inTime, main := .answered }
  | _, _ => none

/-- The next statement of what the main thread is in the middle of. -/
def mainStep (m : Monitor) : Option Monitor :=
  match m.main with
  | .idle => none
  | .observed => some { m with semphore := m.semphore + 1, main := .idle }
  | .answered => some { m with eventSemphore := m.eventSemphore + 1, main := .idle }
  | .createObserver =>
    some { m with
      observer := some m.observers
      observers := m.observers + 1
      main := .addObserver }
  | .addObserver => some { m.addObserver with main := .startEvent }
  | .startEvent => some { m with eventBlocks := m.eventBlocks + 1, main := .startFluecy }
  | .startFluecy => some { m with fluecyBlocks := m.fluecyBlocks + 1, main := .idle }
  | .stopping rest =>
    some { (m.stopMonitoring rest).1 with
      main := (m.stopMonitoring rest).2.elim .idle .stopping }

/-- The next step of the block on `lxd_event_monitor_queue`, or of the queue. -/
def eventStep (m : Monitor) : Option Monitor :=
  match m.event with
  | .idle =>
    if 0 < m.eventBlocks then some { m with eventBlocks := m.eventBlocks - 1, event := .test }
    else none
  | .test => some { m with event := if m.isMonitoring then .activity else .idle }
  | .activity =>
    some { m with event := if m.currentActivity = some .beforeWaiting then .send else .test }
  | .send =>
    some { m with
      mainQueue := m.mainQueue ++ [m.pings]
      pings := m.pings + 1
      event := .sleeping m.pings (m.now + lxdTimeOutInterval) }
  | .sleeping ping until' => if until' ≤ m.now then some { m with event := .check ping } else none
  | .check ping =>
    some { m with event := if m.inTime.contains ping then .wait ping else .log ping }
  | .log ping => some { m with event := .wait ping }
  | .wait _ =>
    if 0 < m.eventSemphore then
      some { m with eventSemphore := m.eventSemphore - 1, event := .test }
    else none

/-- The next step of the block on `lxd_fluecy_monitor_queue`, or of the queue. A wait that can
take the semaphore takes it, also after its deadline. -/
def fluecyStep (m : Monitor) : Option Monitor :=
  match m.fluecy with
  | .idle =>
    if 0 < m.fluecyBlocks then some { m with fluecyBlocks := m.fluecyBlocks - 1, fluecy := .test }
    else none
  | .test =>
    some { m with fluecy := if m.isMonitoring then .wait (m.now + lxdWaitInterval) else .idle }
  | .wait deadline =>
    if 0 < m.semphore then some { m with semphore := m.semphore - 1, fluecy := .reset }
    else if deadline ≤ m.now then some { m with fluecy := .observer }
    else none
  | .observer => some { m with fluecy := if m.observer.isSome then .sources else .clearTimeOut }
  | .clearTimeOut => some { m with timeOut := 0, fluecy := .stop }
  | .stop =>
    some { m with fluecy := if m.isMonitoring then .stopping .clearMonitoring else .test }
  | .stopping rest =>
    some { (m.stopMonitoring rest).1 with
      fluecy := (m.stopMonitoring rest).2.elim .test .stopping }
  | .sources =>
    some { m with fluecy := if m.currentActivity = some .beforeSources then .count else .waiting }
  | .waiting =>
    some { m with fluecy := if m.currentActivity = some .afterWaiting then .count else .reset }
  | .count =>
    some { m with timeOut := m.timeOut + 1, fluecy := if m.timeOut + 1 < 5 then .test else .log }
  | .log => some { m with fluecy := .restore (m.now + lxdRestoreInterval) }
  | .restore until' => if until' ≤ m.now then some { m with fluecy := .reset } else none
  | .reset => some { m with timeOut := 0, fluecy := .test }

end Monitor

inductive Event where
  | tick
  | callback (activity : Activity)
  | start
  | stop
  | answer
  | main
  | event
  | fluecy
  deriving DecidableEq

/-- Any interleaving of the main thread, the two monitoring threads and time. -/
def step (m : Monitor) (e : Event) : Option Monitor :=
  if m.crashed then none
  else
    match e with
    | .tick => some { m with now := m.now + 1 }
    | .callback activity => m.lxdRunLoopObserverCallback activity
    | .start => m.startMonitoring
    | .stop => m.callStop
    | .answer => m.answerPing
    | .main => m.mainStep
    | .event => m.eventStep
    | .fluecy => m.fluecyStep

namespace Monitor

variable {m m' : Monitor}

theorem addObserver_eq (m : Monitor) :
    ∃ installed crashed, m.addObserver = { m with installed := installed, crashed := crashed } := by
  rw [addObserver]
  split
  · exact ⟨m.installed, true, rfl⟩
  · split
    · exact ⟨m.installed, true, rfl⟩
    · exact ⟨_, m.crashed, rfl⟩

theorem addObserver_held {id : Nat} (hobserver : m.observer = some id) (hfreed : id ∉ m.freed) :
    m.addObserver = { m with installed := id :: m.installed } := by
  simp [addObserver, hobserver, hfreed]

theorem removeObserver_held {id : Nat} (hobserver : m.observer = some id)
    (hinstalled : m.installed = [id]) (hreleased : m.released = []) (hfreed : id ∉ m.freed) :
    m.removeObserver = { m with installed := [] } := by
  simp [removeObserver, hobserver, hinstalled, hreleased, hfreed]

theorem releaseObserver_held {id : Nat} (hobserver : m.observer = some id)
    (hinstalled : m.installed = []) (hfreed : id ∉ m.freed) :
    m.releaseObserver = { m with freed := id :: m.freed } := by
  simp [releaseObserver, hobserver, hfreed, hinstalled]

theorem removeObserver_eq (m : Monitor) :
    ∃ installed freed crashed, m.removeObserver =
      { m with installed := installed, freed := freed, crashed := crashed } := by
  rw [removeObserver]
  split
  · exact ⟨_, _, _, rfl⟩
  split
  · exact ⟨_, _, _, rfl⟩
  split
  · exact ⟨_, _, _, rfl⟩
  split
  · exact ⟨_, _, _, rfl⟩
  · exact ⟨_, _, _, rfl⟩

theorem releaseObserver_eq (m : Monitor) :
    ∃ released freed crashed, m.releaseObserver =
      { m with released := released, freed := freed, crashed := crashed } := by
  rw [releaseObserver]
  split
  · exact ⟨_, _, _, rfl⟩
  split
  · exact ⟨_, _, _, rfl⟩
  split
  · split
    · exact ⟨_, _, _, rfl⟩
    · exact ⟨_, _, _, rfl⟩
  · exact ⟨_, _, _, rfl⟩

/-- Stopping touches nothing but the flag and the observer. -/
theorem stopMonitoring_eq (m : Monitor) (rest : Stopping) :
    ∃ isMonitoring observer installed released freed crashed, (m.stopMonitoring rest).1 =
      { m with
        isMonitoring := isMonitoring
        observer := observer
        installed := installed
        released := released
        freed := freed
        crashed := crashed } := by
  cases rest with
  | clearMonitoring => exact ⟨_, _, _, _, _, _, rfl⟩
  | removeObserver =>
    obtain ⟨installed, freed, crashed, heq⟩ := m.removeObserver_eq
    exact ⟨_, _, _, _, _, _, heq⟩
  | releaseObserver =>
    obtain ⟨released, freed, crashed, heq⟩ := m.releaseObserver_eq
    exact ⟨_, _, _, _, _, _, heq⟩
  | clearObserver => exact ⟨_, _, _, _, _, _, rfl⟩

/-- What the main thread's next statement is to the other threads: a signal, or nothing. -/
structure MainStep (m m' : Monitor) : Prop where
  fluecy : m'.fluecy = m.fluecy
  timeOut : m'.timeOut = m.timeOut
  now : m'.now = m.now
  event : m'.event = m.event
  mainQueue : m'.mainQueue = m.mainQueue
  inTime : m'.inTime = m.inTime
  pings : m'.pings = m.pings
  semphore : m'.semphore = m.semphore + if m.main = .observed then 1 else 0
  eventSemphore : m'.eventSemphore = m.eventSemphore + if m.main = .answered then 1 else 0
  main : m'.main ≠ .observed ∧ m'.main ≠ .answered

theorem mainStep_spec (h : m.mainStep = some m') : MainStep m m' := by
  rw [mainStep] at h
  cases hmain : m.main with
  | idle =>
    rw [hmain] at h
    cases h
  | addObserver =>
    obtain ⟨installed, crashed, heq⟩ := m.addObserver_eq
    rw [hmain, heq] at h
    obtain rfl := Option.some.inj h
    constructor <;> simp [hmain]
  | stopping rest =>
    obtain ⟨isMonitoring, observer, installed, released, freed, crashed, heq⟩ :=
      m.stopMonitoring_eq rest
    rw [hmain] at h
    dsimp only at h
    rw [heq] at h
    generalize (m.stopMonitoring rest).2 = left at h
    obtain rfl := Option.some.inj h
    cases left with
    | none => constructor <;> simp [hmain]
    | some left => constructor <;> simp [hmain]
  | _ =>
    rw [hmain] at h
    obtain rfl := Option.some.inj h
    constructor <;> simp [hmain]

end Monitor

end BasicDemo.Fluecy
