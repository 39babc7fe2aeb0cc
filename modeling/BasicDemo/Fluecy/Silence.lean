import BasicDemo.Fluecy.Monitor

namespace BasicDemo.Fluecy
open Library.Runs

/-- A run that keeps track of the silence: the time since the main thread last signalled, and
what it was when a wait of the fluency monitor last timed out. -/
structure Watched where
  monitor : Monitor
  silence : Nat
  silenceAtExpiry : Nat

def watch (w : Watched) (e : Event) : Option Watched :=
  (step w.monitor e).map (fun m =>
    { monitor := m
      silence :=
        if e = .main ∧ w.monitor.main = .observed then 0
        else if e = .tick then w.silence + 1
        else w.silence
      silenceAtExpiry :=
        if e = .fluecy ∧ m.fluecy = .observer then w.silence else w.silenceAtExpiry })

/-- Time-outs that were counted in a row lasted as long as the silence, unless a signal has come
since. -/
def Quiet (semphore timeOut now silence silenceAtExpiry : Nat) : FluecyLoop → Prop
  | .wait deadline => deadline ≤ now + lxdWaitInterval ∧
      (0 < semphore ∨ lxdWaitInterval * timeOut + (now + lxdWaitInterval - deadline) ≤ silence)
  | .observer | .sources | .waiting | .count =>
      lxdWaitInterval * (timeOut + 1) ≤ silenceAtExpiry ∧
        (0 < semphore ∨ lxdWaitInterval * (timeOut + 1) ≤ silence)
  | .log => 5 * lxdWaitInterval ≤ silenceAtExpiry
  | .clearTimeOut | .restore _ | .reset => True
  | .idle | .test | .stop | .stopping _ => 0 < semphore ∨ lxdWaitInterval * timeOut ≤ silence

/-- What the fluency monitor works on is as it was. -/
structure Unseen (m m' : Monitor) : Prop where
  fluecy : m'.fluecy = m.fluecy
  timeOut : m'.timeOut = m.timeOut
  now : m'.now = m.now
  semphore : m'.semphore = m.semphore

section unseen

variable {m m' : Monitor}

theorem callback_unseen {activity : Activity}
    (h : m.lxdRunLoopObserverCallback activity = some m') : Unseen m m' := by
  obtain ⟨-, ⟨⟩⟩ := Option.ite_none_right_eq_some.mp h
  exact ⟨rfl, rfl, rfl, rfl⟩

theorem start_unseen (h : m.startMonitoring = some m') : Unseen m m' := by
  obtain ⟨-, h⟩ := Option.ite_none_right_eq_some.mp h
  split at h
  · obtain rfl := Option.some.inj h
    exact ⟨rfl, rfl, rfl, rfl⟩
  · obtain rfl := Option.some.inj h
    exact ⟨rfl, rfl, rfl, rfl⟩

theorem callStop_unseen (h : m.callStop = some m') : Unseen m m' := by
  obtain ⟨-, h⟩ := Option.ite_none_right_eq_some.mp h
  split at h
  · obtain rfl := Option.some.inj h
    exact ⟨rfl, rfl, rfl, rfl⟩
  · obtain rfl := Option.some.inj h
    exact ⟨rfl, rfl, rfl, rfl⟩

theorem answer_unseen (h : m.answerPing = some m') : Unseen m m' := by
  unfold Monitor.answerPing at h
  split at h
  · obtain rfl := Option.some.inj h
    exact ⟨rfl, rfl, rfl, rfl⟩
  · cases h

theorem eventStep_unseen (h : m.eventStep = some m') : Unseen m m' := by
  rw [Monitor.eventStep] at h
  cases hevent : m.event with
  | idle | sleeping | wait =>
    rw [hevent] at h
    obtain ⟨-, ⟨⟩⟩ := Option.ite_none_right_eq_some.mp h
    exact ⟨rfl, rfl, rfl, rfl⟩
  | _ =>
    rw [hevent] at h
    obtain rfl := Option.some.inj h
    exact ⟨rfl, rfl, rfl, rfl⟩

end unseen

section quiet

variable {semphore timeOut now silence silenceAtExpiry : Nat} {loop : FluecyLoop}

theorem Quiet.tick (h : Quiet semphore timeOut now silence silenceAtExpiry loop) :
    Quiet semphore timeOut (now + 1) (silence + 1) silenceAtExpiry loop := by
  cases loop with
  | wait deadline =>
    obtain ⟨hdeadline, hquiet⟩ := h
    refine ⟨by omega, ?_⟩
    rcases hquiet with hsignal | hquiet
    · exact Or.inl hsignal
    · exact Or.inr (by omega)
  | observer | sources | waiting | count =>
    exact ⟨h.1, h.2.imp_right Nat.le_succ_of_le⟩
  | idle | test | stop | stopping => exact Or.imp_right Nat.le_succ_of_le h
  | log | clearTimeOut | restore | reset => exact h

/-- After a signal the silence does not matter. -/
theorem Quiet.signal (h : Quiet semphore timeOut now silence silenceAtExpiry loop) :
    Quiet (semphore + 1) timeOut now 0 silenceAtExpiry loop := by
  cases loop with
  | wait => exact ⟨h.1, Or.inl (Nat.succ_pos _)⟩
  | observer | sources | waiting | count => exact ⟨h.1, Or.inl (Nat.succ_pos _)⟩
  | idle | test | stop | stopping => exact Or.inl (Nat.succ_pos _)
  | log | clearTimeOut | restore | reset => exact h

end quiet

section watching

variable {w w' : Watched} {e : Event}

/-- The state of the fluency monitor fits the silence. -/
def Watched.Fits (w : Watched) : Prop :=
  Quiet w.monitor.semphore w.monitor.timeOut w.monitor.now w.silence w.silenceAtExpiry
    w.monitor.fluecy

theorem fluecyStep_quiet {m m' : Monitor} {silence silenceAtExpiry : Nat}
    (h : Quiet m.semphore m.timeOut m.now silence silenceAtExpiry m.fluecy)
    (hstep : m.fluecyStep = some m') :
    Quiet m'.semphore m'.timeOut m'.now silence
      (if m'.fluecy = .observer then silence else silenceAtExpiry) m'.fluecy := by
  rw [Monitor.fluecyStep] at hstep
  cases hfluecy : m.fluecy with
  | idle =>
    rw [hfluecy] at h hstep
    obtain ⟨-, ⟨⟩⟩ := Option.ite_none_right_eq_some.mp hstep
    exact h
  | test =>
    rw [hfluecy] at h hstep
    obtain rfl := Option.some.inj hstep
    dsimp only
    split
    · refine ⟨Nat.le_refl _, h.imp_right ?_⟩
      intro hquiet
      omega
    · exact h
  | wait deadline =>
    rw [hfluecy] at h hstep
    dsimp only at hstep
    split at hstep
    · obtain rfl := Option.some.inj hstep
      trivial
    · next hzero =>
      obtain ⟨hexpired, ⟨⟩⟩ := Option.ite_none_right_eq_some.mp hstep
      obtain ⟨hdeadline, hquiet⟩ := h
      have hquiet := hquiet.resolve_left hzero
      have hlong : lxdWaitInterval * (m.timeOut + 1) ≤ silence := by
        rw [Nat.mul_add, Nat.mul_one]
        omega
      exact ⟨hlong, Or.inr hlong⟩
  | observer =>
    rw [hfluecy] at h hstep
    obtain rfl := Option.some.inj hstep
    dsimp only
    split
    · exact h
    · trivial
  | clearTimeOut =>
    rw [hfluecy] at hstep
    obtain rfl := Option.some.inj hstep
    exact Or.inr (Nat.zero_le _)
  | stop =>
    rw [hfluecy] at h hstep
    obtain rfl := Option.some.inj hstep
    dsimp only
    split
    · exact h
    · exact h
  | stopping rest =>
    obtain ⟨isMonitoring, observer, installed, released, freed, crashed, heq⟩ :=
      m.stopMonitoring_eq rest
    rw [hfluecy] at h hstep
    dsimp only at hstep
    rw [heq] at hstep
    generalize (m.stopMonitoring rest).2 = left at hstep
    obtain rfl := Option.some.inj hstep
    cases left with
    | none => exact h
    | some left => exact h
  | sources =>
    rw [hfluecy] at h hstep
    obtain rfl := Option.some.inj hstep
    dsimp only
    split
    · exact h
    · exact h
  | waiting =>
    rw [hfluecy] at h hstep
    obtain rfl := Option.some.inj hstep
    dsimp only
    split
    · exact h
    · trivial
  | count =>
    rw [hfluecy] at h hstep
    obtain rfl := Option.some.inj hstep
    dsimp only
    split
    · exact h.2
    · next hfive =>
      change 5 * lxdWaitInterval ≤ silenceAtExpiry
      have := h.1
      simp only [lxdWaitInterval] at *
      omega
  | log =>
    rw [hfluecy] at hstep
    obtain rfl := Option.some.inj hstep
    trivial
  | restore =>
    rw [hfluecy] at hstep
    obtain ⟨-, ⟨⟩⟩ := Option.ite_none_right_eq_some.mp hstep
    trivial
  | reset =>
    rw [hfluecy] at hstep
    obtain rfl := Option.some.inj hstep
    exact Or.inr (Nat.zero_le _)

theorem Watched.Fits.unseen (h : w.Fits) {m : Monitor} (hm : Unseen w.monitor m) :
    Watched.Fits ⟨m, w.silence, w.silenceAtExpiry⟩ := by
  rw [Fits]
  dsimp only
  rw [hm.fluecy, hm.timeOut, hm.now, hm.semphore]
  exact h

theorem Watched.Fits.mainStep (h : w.Fits) {m : Monitor} (hm : w.monitor.mainStep = some m) :
    Watched.Fits ⟨m, if w.monitor.main = .observed then 0 else w.silence, w.silenceAtExpiry⟩ := by
  have hspec := Monitor.mainStep_spec hm
  rw [Fits]
  dsimp only
  rw [hspec.fluecy, hspec.timeOut, hspec.now, hspec.semphore]
  split
  · exact Quiet.signal h
  · exact h

theorem watch_fits (h : w.Fits) (hw : watch w e = some w') : w'.Fits := by
  obtain ⟨m, hm, rfl⟩ := Option.map_eq_some_iff.mp hw
  unfold step at hm
  split at hm
  · cases hm
  cases e with
  | tick =>
    obtain rfl := Option.some.inj hm
    exact Quiet.tick h
  | callback activity => exact h.unseen (callback_unseen hm)
  | start => exact h.unseen (start_unseen hm)
  | stop => exact h.unseen (callStop_unseen hm)
  | answer => exact h.unseen (answer_unseen hm)
  | main =>
    have hfits := h.mainStep hm
    simpa using hfits
  | event => exact h.unseen (eventStep_unseen hm)
  | fluecy =>
    have hquiet := fluecyStep_quiet h hm
    simpa [Watched.Fits] using hquiet

/-- Watching does not change the run. -/
theorem run_watch (w : Watched) (es : List Event) :
    (run watch w es).map Watched.monitor = run step w.monitor es := by
  induction es generalizing w with
  | nil => rfl
  | cons e es ih =>
    rw [run, run, watch]
    cases hm : step w.monitor e with
    | none => rfl
    | some m => exact ih _

end watching

/-- Before the first event. -/
def Watched.init : Watched := ⟨.init, 0, 0⟩

/-- Whenever the fluency monitor logs the main thread, this thread had not signalled for five
waiting intervals when the monitor's last wait timed out, however the threads and restarts are
interleaved. -/
theorem alarm_after_silence {es : List Event} {m : Monitor}
    (hrun : run step Monitor.init es = some m) (hlog : m.fluecy = .log) :
    ∃ w, run watch Watched.init es = some w ∧ w.monitor = m ∧
      5 * lxdWaitInterval ≤ w.silenceAtExpiry := by
  have hwatched := run_watch Watched.init es
  rw [show Watched.init.monitor = Monitor.init from rfl, hrun] at hwatched
  obtain ⟨w, hw, rfl⟩ := Option.map_eq_some_iff.mp hwatched
  refine ⟨w, hw, rfl, ?_⟩
  have hinit : Watched.init.Fits := Or.inr (Nat.zero_le _)
  have hfits : w.Fits :=
    (throughout_keeps (fun _ _ _ h hstep => watch_fits h hstep) hinit es).last hw
  rw [Watched.Fits, hlog] at hfits
  exact hfits

/-- A wait that times out while sources are handled. -/
def stallRound : List Event :=
  .fluecy :: List.replicate lxdWaitInterval .tick ++ [.fluecy, .fluecy, .fluecy, .fluecy]

/-- The monitor starts, sees the run loop before sources, and then waits five times in vain. -/
def stall : List Event :=
  [.start, .main, .main, .main, .main, .fluecy, .callback .beforeSources, .main, .fluecy, .fluecy,
    .fluecy] ++ (List.replicate 5 stallRound).flatten

theorem stall_reported :
    ∃ m w, run step Monitor.init stall = some m ∧ m.fluecy = .log ∧
      run watch Watched.init stall = some w ∧ 5 * lxdWaitInterval ≤ w.silenceAtExpiry := by
  have hlogged : (run step Monitor.init stall).map Monitor.fluecy = some .log := by
    decide +kernel
  obtain ⟨m, hm, hlog⟩ := Option.map_eq_some_iff.mp hlogged
  obtain ⟨w, hw, -, hsilence⟩ := alarm_after_silence hm hlog
  exact ⟨m, w, hm, hlog, hw, hsilence⟩

end BasicDemo.Fluecy
