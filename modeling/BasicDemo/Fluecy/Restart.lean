import BasicDemo.Fluecy.Monitor

namespace BasicDemo.Fluecy
open Library.Runs

/-- The observer is created and alive, and `installed` is what the run loop has. -/
def Holding (m : Monitor) (installed : Nat → List Nat) : Prop :=
  ∃ id, m.observer = some id ∧ id < m.observers ∧ id ∉ m.freed ∧ m.installed = installed id

/-- Monitoring: the run loop has the observer and no other. -/
def Active (m : Monitor) : Prop := m.isMonitoring = true ∧ Holding m (fun id => [id])

/-- Not monitoring: there is no observer. -/
def Stopped (m : Monitor) : Prop :=
  m.isMonitoring = false ∧ m.observer = none ∧ m.installed = []

/-- What holds of the observer, by what the main thread is in the middle of. -/
def Orderly (m : Monitor) : Main → Prop
  | .idle | .observed | .answered => Active m ∨ Stopped m
  | .createObserver => m.isMonitoring = true ∧ m.observer = none ∧ m.installed = [] ∧
      m.fluecy = .idle ∧ m.fluecyBlocks = 0
  | .addObserver => m.isMonitoring = true ∧ Holding m (fun _ => [])
  | .startEvent | .startFluecy | .stopping .clearMonitoring => Active m
  | .stopping .removeObserver => m.isMonitoring = false ∧ Holding m (fun id => [id])
  | .stopping .releaseObserver => m.isMonitoring = false ∧ Holding m (fun _ => [])
  | .stopping .clearObserver =>
      m.isMonitoring = false ∧ (∃ id, m.observer = some id) ∧ m.installed = []

/-- One session at a time: the fluency monitor stops nothing itself. -/
structure Ordered (m : Monitor) : Prop where
  orderly : Orderly m m.main
  alive : m.crashed = false
  freed : ∀ id ∈ m.freed, id < m.observers
  released : m.released = []
  ended : m.fluecy = .clearTimeOut ∨ m.fluecy = .stop → m.isMonitoring = false
  passive : ∀ rest, m.fluecy ≠ .stopping rest

/-- Monitoring is started only when the fluency monitor's earlier blocks have ended. -/
def Unhurried (m : Monitor) (e : Event) : Prop :=
  e = .start → m.isMonitoring = false → m.fluecy = .idle ∧ m.fluecyBlocks = 0

instance (m : Monitor) (e : Event) : Decidable (Unhurried m e) :=
  inferInstanceAs (Decidable (_ → _ → _))

/-- The flag, the observers and what the main thread does are as they were. -/
structure SameSession (m m' : Monitor) : Prop where
  isMonitoring : m'.isMonitoring = m.isMonitoring
  observer : m'.observer = m.observer
  installed : m'.installed = m.installed
  freed : m'.freed = m.freed
  released : m'.released = m.released
  observers : m'.observers = m.observers
  crashed : m'.crashed = m.crashed

section steps

variable {m m' : Monitor}

theorem orderly_congr {x : Main} (h : Orderly m x) (hsame : SameSession m m')
    (hfluecy : x = .createObserver →
      m'.fluecy = m.fluecy ∧ m'.fluecyBlocks = m.fluecyBlocks) : Orderly m' x := by
  have hholding : ∀ installed, Holding m installed → Holding m' installed := by
    intro installed hheld
    rw [Holding, hsame.observer, hsame.observers, hsame.freed, hsame.installed]
    exact hheld
  have hactive : Active m → Active m' :=
    fun hactive => ⟨hsame.isMonitoring.trans hactive.1, hholding _ hactive.2⟩
  have hstopped : Stopped m → Stopped m' := by
    intro hstopped
    rw [Stopped, hsame.isMonitoring, hsame.observer, hsame.installed]
    exact hstopped
  cases x with
  | idle | observed | answered => exact h.imp hactive hstopped
  | createObserver =>
    obtain ⟨hloop, hblocks⟩ := hfluecy rfl
    rw [Orderly, hsame.isMonitoring, hsame.observer, hsame.installed, hloop, hblocks]
    exact h
  | addObserver => exact ⟨hsame.isMonitoring.trans h.1, hholding _ h.2⟩
  | startEvent | startFluecy => exact hactive h
  | stopping rest =>
    cases rest with
    | clearMonitoring => exact hactive h
    | removeObserver | releaseObserver => exact ⟨hsame.isMonitoring.trans h.1, hholding _ h.2⟩
    | clearObserver =>
      rw [Orderly, hsame.isMonitoring, hsame.observer, hsame.installed]
      exact h

/-- A step that is not one of the main thread's and leaves the session alone. -/
theorem Ordered.aside (h : Ordered m) (hsame : SameSession m m') (hmain : m'.main = m.main)
    (hfluecy : m'.fluecy = m.fluecy ∧ m'.fluecyBlocks = m.fluecyBlocks) : Ordered m' where
  orderly := by
    rw [hmain]
    exact orderly_congr h.orderly hsame (fun _ => hfluecy)
  alive := hsame.crashed.trans h.alive
  freed := by
    rw [hsame.freed, hsame.observers]
    exact h.freed
  released := hsame.released.trans h.released
  ended := by
    rw [hfluecy.1, hsame.isMonitoring]
    exact h.ended
  passive := by
    rw [hfluecy.1]
    exact h.passive

theorem eventStep_aside (h : m.eventStep = some m') :
    SameSession m m' ∧ m'.main = m.main ∧ m'.fluecy = m.fluecy ∧
      m'.fluecyBlocks = m.fluecyBlocks := by
  rw [Monitor.eventStep] at h
  cases hevent : m.event with
  | idle | sleeping | wait =>
    rw [hevent] at h
    obtain ⟨-, ⟨⟩⟩ := Option.ite_none_right_eq_some.mp h
    exact ⟨⟨rfl, rfl, rfl, rfl, rfl, rfl, rfl⟩, rfl, rfl, rfl⟩
  | _ =>
    rw [hevent] at h
    obtain rfl := Option.some.inj h
    exact ⟨⟨rfl, rfl, rfl, rfl, rfl, rfl, rfl⟩, rfl, rfl, rfl⟩

/-- While the main thread is about to create the observer there is no fluency monitor. -/
theorem Ordered.creating (h : Ordered m) (hstep : m.fluecyStep = some m') :
    m.main ≠ .createObserver := by
  intro hmain
  have horderly := h.orderly
  rw [hmain] at horderly
  obtain ⟨-, -, -, hidle, hblocks⟩ := horderly
  rw [Monitor.fluecyStep, hidle, hblocks] at hstep
  cases hstep

/-- Without an observer, and past its creation, monitoring has been stopped. -/
theorem Ordered.stopped_of_no_observer (h : Ordered m) (hobserver : m.observer = none)
    (hmain : m.main ≠ .createObserver) : m.isMonitoring = false := by
  have hheld : ∀ installed, ¬ Holding m installed := by
    intro installed hheld
    obtain ⟨id, hid, -⟩ := hheld
    rw [hobserver] at hid
    cases hid
  have horderly := h.orderly
  cases hphase : m.main with
  | idle | observed | answered =>
    rw [hphase] at horderly
    rcases horderly with hactive | hstopped
    · exact absurd hactive.2 (hheld _)
    · exact hstopped.1
  | createObserver => exact absurd hphase hmain
  | addObserver | startEvent | startFluecy =>
    rw [hphase] at horderly
    exact absurd horderly.2 (hheld _)
  | stopping rest =>
    rw [hphase] at horderly
    cases rest with
    | clearMonitoring => exact absurd horderly.2 (hheld _)
    | removeObserver | releaseObserver | clearObserver => exact horderly.1

theorem Ordered.fluecyGoto (h : Ordered m) (hmain : m.main ≠ .createObserver)
    {timeOut semphore blocks : Nat} {loop : FluecyLoop}
    (hended : loop = .clearTimeOut ∨ loop = .stop → m.isMonitoring = false)
    (hpassive : ∀ rest, loop ≠ .stopping rest) :
    Ordered { m with
      timeOut := timeOut, semphore := semphore, fluecyBlocks := blocks, fluecy := loop } where
  orderly := orderly_congr h.orderly ⟨rfl, rfl, rfl, rfl, rfl, rfl, rfl⟩
    (fun hcreate => absurd hcreate hmain)
  alive := h.alive
  freed := h.freed
  released := h.released
  ended := hended
  passive := hpassive

theorem Ordered.fluecyStep (h : Ordered m) (hstep : m.fluecyStep = some m') : Ordered m' := by
  have hmain := h.creating hstep
  have hgoto : ∀ {timeOut semphore blocks : Nat} {loop : FluecyLoop},
      loop ≠ .clearTimeOut → loop ≠ .stop → (∀ rest, loop ≠ .stopping rest) →
      Ordered { m with
        timeOut := timeOut, semphore := semphore, fluecyBlocks := blocks, fluecy := loop } := by
    intro timeOut semphore blocks loop hclear hstop hpassive
    refine h.fluecyGoto hmain ?_ hpassive
    intro hloop
    exact hloop.elim (fun heq => absurd heq hclear) (fun heq => absurd heq hstop)
  rw [Monitor.fluecyStep] at hstep
  cases hfluecy : m.fluecy with
  | idle =>
    rw [hfluecy] at hstep
    obtain ⟨-, ⟨⟩⟩ := Option.ite_none_right_eq_some.mp hstep
    exact hgoto (by simp) (by simp) (by simp)
  | test =>
    rw [hfluecy] at hstep
    obtain rfl := Option.some.inj hstep
    split
    · exact hgoto (by simp) (by simp) (by simp)
    · exact hgoto (by simp) (by simp) (by simp)
  | wait deadline =>
    rw [hfluecy] at hstep
    dsimp only at hstep
    split at hstep
    · obtain rfl := Option.some.inj hstep
      exact hgoto (by simp) (by simp) (by simp)
    · obtain ⟨-, ⟨⟩⟩ := Option.ite_none_right_eq_some.mp hstep
      exact hgoto (by simp) (by simp) (by simp)
  | observer =>
    rw [hfluecy] at hstep
    obtain rfl := Option.some.inj hstep
    split
    · exact hgoto (by simp) (by simp) (by simp)
    · next hnone =>
      have hobserver : m.observer = none := by simpa using hnone
      refine h.fluecyGoto hmain (fun _ => ?_) (by simp)
      exact h.stopped_of_no_observer hobserver hmain
  | clearTimeOut =>
    rw [hfluecy] at hstep
    obtain rfl := Option.some.inj hstep
    exact h.fluecyGoto hmain (fun _ => h.ended (Or.inl hfluecy)) (by simp)
  | stop =>
    rw [hfluecy] at hstep
    obtain rfl := Option.some.inj hstep
    have hoff := h.ended (Or.inr hfluecy)
    split
    · next hon =>
      rw [hoff] at hon
      cases hon
    · exact hgoto (by simp) (by simp) (by simp)
  | stopping rest => exact absurd hfluecy (h.passive rest)
  | sources | waiting | count =>
    rw [hfluecy] at hstep
    obtain rfl := Option.some.inj hstep
    split
    · exact hgoto (by simp) (by simp) (by simp)
    · exact hgoto (by simp) (by simp) (by simp)
  | log | reset =>
    rw [hfluecy] at hstep
    obtain rfl := Option.some.inj hstep
    exact hgoto (by simp) (by simp) (by simp)
  | restore =>
    rw [hfluecy] at hstep
    obtain ⟨-, ⟨⟩⟩ := Option.ite_none_right_eq_some.mp hstep
    exact hgoto (by simp) (by simp) (by simp)

theorem Ordered.idle (h : Ordered m) (hmain : m.main = .idle) : Active m ∨ Stopped m := by
  have horderly := h.orderly
  rw [hmain] at horderly
  exact horderly

theorem Ordered.start (h : Ordered m) (hcalm : Unhurried m .start)
    (hstep : m.startMonitoring = some m') : Ordered m' := by
  obtain ⟨hidle, hstep⟩ := Option.ite_none_right_eq_some.mp hstep
  split at hstep
  · obtain rfl := Option.some.inj hstep
    exact h
  · next hoff =>
    have hoff : m.isMonitoring = false := by simpa using hoff
    obtain ⟨hloop, hblocks⟩ := hcalm rfl hoff
    obtain rfl := Option.some.inj hstep
    rcases h.idle hidle with hactive | ⟨-, hobserver, hinstalled⟩
    · rw [hactive.1] at hoff
      cases hoff
    · refine ⟨⟨rfl, hobserver, hinstalled, hloop, hblocks⟩, h.alive, h.freed, h.released, ?_,
        h.passive⟩
      intro hended
      rw [show _ = FluecyLoop.idle from hloop] at hended
      rcases hended with hended | hended
      · cases hended
      · cases hended

theorem Ordered.callStop (h : Ordered m) (hstep : m.callStop = some m') : Ordered m' := by
  obtain ⟨hidle, hstep⟩ := Option.ite_none_right_eq_some.mp hstep
  split at hstep
  · next hon =>
    obtain rfl := Option.some.inj hstep
    rcases h.idle hidle with hactive | hstopped
    · exact ⟨hactive, h.alive, h.freed, h.released, h.ended, h.passive⟩
    · rw [hstopped.1] at hon
      cases hon
  · obtain rfl := Option.some.inj hstep
    exact h

theorem Ordered.callback (h : Ordered m) {activity : Activity}
    (hstep : m.lxdRunLoopObserverCallback activity = some m') : Ordered m' := by
  obtain ⟨⟨hidle, -⟩, ⟨⟩⟩ := Option.ite_none_right_eq_some.mp hstep
  exact ⟨h.idle hidle, h.alive, h.freed, h.released, h.ended, h.passive⟩

theorem Ordered.answerPing (h : Ordered m) (hstep : m.answerPing = some m') : Ordered m' := by
  unfold Monitor.answerPing at hstep
  split at hstep
  · next hidle _ =>
    obtain rfl := Option.some.inj hstep
    exact ⟨h.idle hidle, h.alive, h.freed, h.released, h.ended, h.passive⟩
  · cases hstep

theorem Ordered.mainStep (h : Ordered m) (hstep : m.mainStep = some m') : Ordered m' := by
  have horderly := h.orderly
  rw [Monitor.mainStep] at hstep
  cases hmain : m.main with
  | idle =>
    rw [hmain] at hstep
    cases hstep
  | observed | answered | startEvent =>
    rw [hmain] at hstep horderly
    obtain rfl := Option.some.inj hstep
    exact ⟨horderly, h.alive, h.freed, h.released, h.ended, h.passive⟩
  | createObserver =>
    rw [hmain] at hstep horderly
    obtain rfl := Option.some.inj hstep
    obtain ⟨hon, -, hinstalled, -, -⟩ := horderly
    have hfresh : m.observers ∉ m.freed := fun hin => Nat.lt_irrefl _ (h.freed _ hin)
    exact ⟨⟨hon, m.observers, rfl, Nat.lt_succ_self _, hfresh, hinstalled⟩, h.alive,
      fun id hid => Nat.lt_succ_of_lt (h.freed id hid), h.released, h.ended, h.passive⟩
  | addObserver =>
    rw [hmain] at hstep horderly
    obtain ⟨hon, id, hobserver, hid, hfreed, hinstalled⟩ := horderly
    rw [Monitor.addObserver_held hobserver hfreed, hinstalled] at hstep
    obtain rfl := Option.some.inj hstep
    exact ⟨⟨hon, id, hobserver, hid, hfreed, rfl⟩, h.alive, h.freed, h.released, h.ended, h.passive⟩
  | startFluecy =>
    rw [hmain] at hstep horderly
    obtain rfl := Option.some.inj hstep
    exact ⟨Or.inl horderly, h.alive, h.freed, h.released, h.ended, h.passive⟩
  | stopping rest =>
    rw [hmain] at hstep horderly
    obtain rfl := Option.some.inj hstep
    cases rest with
    | clearMonitoring =>
      exact ⟨⟨rfl, horderly.2⟩, h.alive, h.freed, h.released, fun _ => rfl, h.passive⟩
    | removeObserver =>
      obtain ⟨hoff, id, hobserver, hid, hfreed, hinstalled⟩ := horderly
      rw [Monitor.stopMonitoring,
        Monitor.removeObserver_held hobserver hinstalled h.released hfreed]
      exact ⟨⟨hoff, id, hobserver, hid, hfreed, rfl⟩, h.alive, h.freed, h.released, h.ended, h.passive⟩
    | releaseObserver =>
      obtain ⟨hoff, id, hobserver, hid, hfreed, hinstalled⟩ := horderly
      rw [Monitor.stopMonitoring, Monitor.releaseObserver_held hobserver hinstalled hfreed]
      refine ⟨⟨hoff, ⟨id, hobserver⟩, hinstalled⟩, h.alive, ?_, h.released, h.ended, h.passive⟩
      intro other hother
      rcases List.mem_cons.mp hother with rfl | hother
      · exact hid
      · exact h.freed other hother
    | clearObserver =>
      obtain ⟨hoff, -, hinstalled⟩ := horderly
      exact ⟨Or.inr ⟨hoff, rfl, hinstalled⟩, h.alive, h.freed, h.released, h.ended, h.passive⟩

theorem Ordered.step {e : Event} (h : Ordered m) (hcalm : Unhurried m e)
    (hstep : step m e = some m') : Ordered m' := by
  unfold Fluecy.step at hstep
  split at hstep
  · cases hstep
  cases e with
  | tick =>
    obtain rfl := Option.some.inj hstep
    exact h.aside ⟨rfl, rfl, rfl, rfl, rfl, rfl, rfl⟩ rfl ⟨rfl, rfl⟩
  | callback activity => exact h.callback hstep
  | start => exact h.start hcalm hstep
  | stop => exact h.callStop hstep
  | answer => exact h.answerPing hstep
  | main => exact h.mainStep hstep
  | event =>
    obtain ⟨hsame, hmain, hfluecy⟩ := eventStep_aside hstep
    exact h.aside hsame hmain hfluecy
  | fluecy => exact h.fluecyStep hstep

end steps

theorem init_ordered : Ordered Monitor.init where
  orderly := Or.inr ⟨rfl, rfl, rfl⟩
  alive := rfl
  freed := fun _ h => by cases h
  released := rfl
  ended := fun _ => rfl
  passive := fun _ h => by cases h

/-- As long as monitoring is started only after the fluency monitor's earlier blocks have ended,
no interleaving crashes, and between calls the run loop has exactly the observer of the
monitoring that is on. -/
theorem unhurried_sessions {es : List Event} {m : Monitor}
    (hcalm : Along step Unhurried Monitor.init es) (hrun : run step Monitor.init es = some m) :
    m.crashed = false ∧ (m.main = .idle →
      (m.isMonitoring = true ↔ m.observer ≠ none) ∧ m.installed = m.observer.toList) := by
  have h : Ordered m := (throughout_of_along (fun _ _ _ h hc hstep => Ordered.step h hc hstep)
    init_ordered hcalm).last hrun
  refine ⟨h.alive, ?_⟩
  intro hidle
  rcases h.idle hidle with ⟨hon, id, hobserver, -, -, hinstalled⟩ | ⟨hoff, hobserver, hinstalled⟩
  · rw [hon, hobserver, hinstalled]
    simp
  · rw [hoff, hobserver, hinstalled]
    simp

/-- A session is started and stopped while its fluency monitor waits. -/
def stoppedSession : List Event :=
  [.start, .main, .main, .main, .main, .fluecy, .fluecy, .stop, .main, .main, .main, .main]

theorem stoppedSession_unhurried : Along step Unhurried Monitor.init stoppedSession := by
  decide

theorem stopped_session_clean :
    ∃ m, run step Monitor.init stoppedSession = some m ∧ m.crashed = false ∧ m.main = .idle ∧
      m.installed = m.observer.toList := by
  have hend : (run step Monitor.init stoppedSession).map Monitor.main = some .idle := by decide
  obtain ⟨m, hm, hidle⟩ := Option.map_eq_some_iff.mp hend
  obtain ⟨halive, hobservers⟩ := unhurried_sessions stoppedSession_unhurried hm
  exact ⟨m, hm, halive, hidle, (hobservers hidle).2⟩

theorem run_ticks {m : Monitor} (h : m.crashed = false) (n : Nat) :
    run step m (List.replicate n .tick) = some { m with now := m.now + n } := by
  induction n generalizing m with
  | zero => rfl
  | succ n ih =>
    have htick : step m .tick = some { m with now := m.now + 1 } := if_neg (by simp [h])
    rw [List.replicate_succ, run, htick, Option.bind_some, ih (m := { m with now := m.now + 1 }) h]
    simp only [Nat.add_assoc, Nat.add_comm 1 n]

/-- The fluency monitor's wait times out and finds no observer. -/
theorem run_expires {m : Monitor} {deadline : Nat} (halive : m.crashed = false)
    (hwait : m.fluecy = .wait deadline) (hsemphore : m.semphore = 0)
    (hobserver : m.observer = none) :
    run step m (List.replicate (deadline - m.now) .tick ++ [.fluecy, .fluecy]) =
      some { m with now := m.now + (deadline - m.now), fluecy := .clearTimeOut } := by
  have hlate : deadline ≤ m.now + (deadline - m.now) := by omega
  have hexpire : step { m with now := m.now + (deadline - m.now) } .fluecy =
      some { m with now := m.now + (deadline - m.now), fluecy := .observer } := by
    rw [step]
    simp only [halive, Monitor.fluecyStep, hwait, hsemphore]
    simp only [Bool.false_eq_true, if_false, Nat.lt_irrefl, if_pos hlate]
  have hlook : step { m with now := m.now + (deadline - m.now), fluecy := .observer } .fluecy =
      some { m with now := m.now + (deadline - m.now), fluecy := .clearTimeOut } := by
    rw [step]
    simp only [halive, Monitor.fluecyStep, hobserver]
    rfl
  rw [run_append, run_ticks halive, Option.bind_some, run_cons hexpire, run_cons hlook, run]

/-- `startMonitoring` to its end, with no other thread in between. -/
theorem run_starts {m : Monitor} (halive : m.crashed = false) (hidle : m.main = .idle)
    (hoff : m.isMonitoring = false) (hfresh : m.observers ∉ m.freed) :
    run step m [.start, .main, .main, .main, .main] =
      some { m with
        isMonitoring := true
        observer := some m.observers
        installed := m.observers :: m.installed
        observers := m.observers + 1
        eventBlocks := m.eventBlocks + 1
        fluecyBlocks := m.fluecyBlocks + 1 } := by
  cases m
  dsimp only at halive hidle hoff hfresh
  subst halive hidle hoff
  rw [run_cons rfl, run_cons rfl]
  refine Eq.trans (run_cons (congrArg (fun m => some { m with main := .startEvent })
    (Monitor.addObserver_held rfl hfresh)) _) ?_
  rfl

/-- The fluency monitor's call of `stopMonitoring` to its end. -/
theorem run_stops {m : Monitor} {id : Nat} (halive : m.crashed = false)
    (hloop : m.fluecy = .clearTimeOut) (hon : m.isMonitoring = true)
    (hobserver : m.observer = some id) (hinstalled : m.installed = [id])
    (hreleased : m.released = []) (hfreed : id ∉ m.freed) :
    run step m (List.replicate 6 .fluecy) =
      some { m with
        timeOut := 0
        fluecy := .test
        isMonitoring := false
        observer := none
        installed := []
        freed := id :: m.freed } := by
  cases m
  dsimp only at halive hloop hon hobserver hinstalled hreleased hfreed
  subst halive hloop hon hobserver hinstalled
  rw [List.replicate, run_cons rfl, List.replicate, run_cons rfl, List.replicate, run_cons rfl]
  refine Eq.trans (run_cons (congrArg (fun m => some { m with fluecy := .stopping .releaseObserver })
    (Monitor.removeObserver_held rfl rfl hreleased hfreed)) _) ?_
  refine Eq.trans (run_cons (congrArg (fun m => some { m with fluecy := .stopping .clearObserver })
    (Monitor.releaseObserver_held rfl rfl hfreed)) _) ?_
  rfl

/-- Monitoring is started again while the fluency monitor of the session before still waits. Its
time-out finds no observer; if the start has then set the flag and not yet created the
observer, NULL is released, and if the start has come to its end, the new session is stopped,
which nobody asked for. -/
theorem hurried_restart {es : List Event} {m : Monitor} {deadline : Nat}
    (hcalm : Along step Unhurried Monitor.init es) (hrun : run step Monitor.init es = some m)
    (hidle : m.main = .idle) (hoff : m.isMonitoring = false) (hwait : m.fluecy = .wait deadline)
    (hsemphore : m.semphore = 0) :
    (∃ more m', more.count .start = 1 ∧ .stop ∉ more ∧ run step m more = some m' ∧
        m'.crashed = true) ∧
      ∃ more m', more.count .start = 1 ∧ .stop ∉ more ∧ run step m more = some m' ∧
        m'.crashed = false ∧ m'.main = .idle ∧ m'.isMonitoring = false := by
  have h : Ordered m := (throughout_of_along (fun _ _ _ h hc hstep => Ordered.step h hc hstep)
    init_ordered hcalm).last hrun
  have halive := h.alive
  have hstopped : Stopped m := by
    rcases h.idle hidle with hactive | hstopped
    · rw [hactive.1] at hoff
      cases hoff
    · exact hstopped
  obtain ⟨-, hobserver, hinstalled⟩ := hstopped
  have hfresh : m.observers ∉ m.freed := fun hin => Nat.lt_irrefl _ (h.freed _ hin)
  obtain ⟨expiry, hstart, hstop, hexpires⟩ : ∃ expiry : List Event,
      expiry.count .start = 0 ∧ .stop ∉ expiry ∧ run step m expiry =
        some { m with now := m.now + (deadline - m.now), fluecy := .clearTimeOut } :=
    ⟨_, by simp [List.count_replicate], by simp, run_expires halive hwait hsemphore hobserver⟩
  refine ⟨⟨expiry ++ [.fluecy, .start, .fluecy, .fluecy, .fluecy, .fluecy], ?_⟩,
    expiry ++ ([.start, .main, .main, .main, .main] ++ List.replicate 6 .fluecy), ?_⟩
  · -- the start has set the flag, and the observer is still NULL
    rw [run_append, hexpires]
    cases m
    dsimp only at halive hidle hoff hobserver hinstalled
    subst halive hidle hoff hobserver hinstalled
    exact ⟨_, by simp [hstart], by simp [hstop], rfl, rfl⟩
  · have hrestarts := run_starts
      (m := { m with now := m.now + (deadline - m.now), fluecy := .clearTimeOut })
      halive hidle hoff hfresh
    rw [run_append, hexpires, Option.bind_some, run_append, hrestarts, Option.bind_some]
    refine ⟨_, by simp [hstart], by simp [hstop],
      run_stops ?_ rfl rfl rfl ?_ h.released hfresh, halive, hidle, rfl⟩
    · exact halive
    · rw [hinstalled]

theorem stopped_session_hurried :
    ∃ m, run step Monitor.init stoppedSession = some m ∧
      ∃ more m', more.count .start = 1 ∧ .stop ∉ more ∧ run step m more = some m' ∧
        m'.crashed = true := by
  have hend : (run step Monitor.init stoppedSession).map
      (fun m => (m.main, m.isMonitoring, m.fluecy, m.semphore)) =
      some (.idle, false, .wait 200, 0) := by
    decide
  obtain ⟨m, hm, hends⟩ := Option.map_eq_some_iff.mp hend
  obtain ⟨hidle, hends⟩ := Prod.mk.inj hends
  obtain ⟨hoff, hends⟩ := Prod.mk.inj hends
  obtain ⟨hwait, hsemphore⟩ := Prod.mk.inj hends
  exact ⟨m, hm, (hurried_restart stoppedSession_unhurried hm hidle hoff hwait hsemphore).1⟩

end BasicDemo.Fluecy
