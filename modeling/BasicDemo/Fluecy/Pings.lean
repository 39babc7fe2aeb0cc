import BasicDemo.Fluecy.Monitor

namespace BasicDemo.Fluecy
open Library.Runs

/-- The ping that the event monitor has sent and waits for. -/
def EventLoop.ping : EventLoop → Option Nat
  | .sleeping ping _ => some ping
  | .check ping => some ping
  | .log ping => some ping
  | .wait ping => some ping
  | _ => none

/-- Where the ping is: in the main queue, in the hands of the main thread, or answered. -/
inductive Placed (m : Monitor) (ping : Nat) : Prop where
  | queued (queue : m.mainQueue = [ping]) (late : ping ∉ m.inTime) (main : m.main ≠ .answered)
    (event : m.eventSemphore = 0)
  | running (queue : m.mainQueue = []) (inTime : ping ∈ m.inTime) (main : m.main = .answered)
    (event : m.eventSemphore = 0)
  | answered (queue : m.mainQueue = []) (inTime : ping ∈ m.inTime) (main : m.main ≠ .answered)
    (event : m.eventSemphore = 1)

/-- The ping that was sent is in one place, and nothing is left of the earlier ones. -/
structure Pinged (m : Monitor) : Prop where
  placed : ∀ ping, m.event.ping = some ping → Placed m ping
  clean : m.event.ping = none → m.mainQueue = [] ∧ m.main ≠ .answered ∧ m.eventSemphore = 0
  sent : ∀ ping, m.event.ping = some ping → ping < m.pings
  fresh : ∀ ping ∈ m.inTime, ping < m.pings

/-- What the pings depend on is as it was. -/
structure SamePings (m m' : Monitor) : Prop where
  event : m'.event = m.event
  mainQueue : m'.mainQueue = m.mainQueue
  inTime : m'.inTime = m.inTime
  pings : m'.pings = m.pings
  eventSemphore : m'.eventSemphore = m.eventSemphore
  main : m'.main = .answered ↔ m.main = .answered

section steps

variable {m m' : Monitor}

theorem Placed.same {ping : Nat} (h : Placed m ping) (hsame : SamePings m m') : Placed m' ping := by
  cases h with
  | queued queue late main event =>
    exact .queued (hsame.mainQueue.trans queue) (by rwa [hsame.inTime]) (by rwa [Ne, hsame.main])
      (hsame.eventSemphore.trans event)
  | running queue inTime main event =>
    exact .running (hsame.mainQueue.trans queue) (by rwa [hsame.inTime]) (hsame.main.mpr main)
      (hsame.eventSemphore.trans event)
  | answered queue inTime main event =>
    exact .answered (hsame.mainQueue.trans queue) (by rwa [hsame.inTime])
      (by rwa [Ne, hsame.main]) (hsame.eventSemphore.trans event)

theorem Pinged.same (h : Pinged m) (hsame : SamePings m m') : Pinged m' where
  placed := by
    intro ping hping
    rw [hsame.event] at hping
    exact (h.placed ping hping).same hsame
  clean := by
    intro hnone
    rw [hsame.event] at hnone
    rw [hsame.mainQueue, hsame.eventSemphore, Ne, hsame.main]
    exact h.clean hnone
  sent := by
    rw [hsame.event, hsame.pings]
    exact h.sent
  fresh := by
    rw [hsame.inTime, hsame.pings]
    exact h.fresh

theorem callback_same {activity : Activity}
    (h : m.lxdRunLoopObserverCallback activity = some m') : SamePings m m' := by
  obtain ⟨hidle, ⟨⟩⟩ := Option.ite_none_right_eq_some.mp h
  exact ⟨rfl, rfl, rfl, rfl, rfl, by simp [hidle.1]⟩

theorem start_same (h : m.startMonitoring = some m') : SamePings m m' := by
  obtain ⟨hidle, h⟩ := Option.ite_none_right_eq_some.mp h
  split at h
  · obtain rfl := Option.some.inj h
    exact ⟨rfl, rfl, rfl, rfl, rfl, Iff.rfl⟩
  · obtain rfl := Option.some.inj h
    exact ⟨rfl, rfl, rfl, rfl, rfl, by simp [hidle]⟩

theorem callStop_same (h : m.callStop = some m') : SamePings m m' := by
  obtain ⟨hidle, h⟩ := Option.ite_none_right_eq_some.mp h
  split at h
  · obtain rfl := Option.some.inj h
    exact ⟨rfl, rfl, rfl, rfl, rfl, by simp [hidle]⟩
  · obtain rfl := Option.some.inj h
    exact ⟨rfl, rfl, rfl, rfl, rfl, Iff.rfl⟩

theorem fluecyStep_same (h : m.fluecyStep = some m') : SamePings m m' := by
  rw [Monitor.fluecyStep] at h
  cases hfluecy : m.fluecy with
  | idle | restore =>
    rw [hfluecy] at h
    obtain ⟨-, ⟨⟩⟩ := Option.ite_none_right_eq_some.mp h
    exact ⟨rfl, rfl, rfl, rfl, rfl, Iff.rfl⟩
  | wait deadline =>
    rw [hfluecy] at h
    dsimp only at h
    split at h
    · obtain rfl := Option.some.inj h
      exact ⟨rfl, rfl, rfl, rfl, rfl, Iff.rfl⟩
    · obtain ⟨-, ⟨⟩⟩ := Option.ite_none_right_eq_some.mp h
      exact ⟨rfl, rfl, rfl, rfl, rfl, Iff.rfl⟩
  | stopping rest =>
    obtain ⟨isMonitoring, observer, installed, released, freed, crashed, heq⟩ :=
      m.stopMonitoring_eq rest
    rw [hfluecy] at h
    dsimp only at h
    rw [heq] at h
    obtain rfl := Option.some.inj h
    exact ⟨rfl, rfl, rfl, rfl, rfl, Iff.rfl⟩
  | _ =>
    rw [hfluecy] at h
    obtain rfl := Option.some.inj h
    exact ⟨rfl, rfl, rfl, rfl, rfl, Iff.rfl⟩

/-- The main thread takes the ping from its queue. -/
theorem Pinged.answerPing (h : Pinged m) (hstep : m.answerPing = some m') : Pinged m' := by
  unfold Monitor.answerPing at hstep
  split at hstep
  · next ping rest hidle hqueue =>
    obtain rfl := Option.some.inj hstep
    -- The queue is not empty, so the event monitor waits for what is in it.
    cases hping : m.event.ping with
    | none =>
      have hclean := (h.clean hping).1
      rw [hqueue] at hclean
      cases hclean
    | some sent =>
      cases h.placed sent hping with
      | queued queue late main event =>
        obtain ⟨rfl, rfl⟩ := List.cons.inj (hqueue.symm.trans queue)
        refine ⟨?_, ?_, h.sent, ?_⟩
        · intro other hother
          obtain rfl := Option.some.inj (hping.symm.trans hother)
          exact .running rfl List.mem_cons_self rfl event
        · intro hnone
          rw [hping] at hnone
          cases hnone
        · intro other hother
          rcases List.mem_cons.mp hother with rfl | hother
          · exact h.sent other hping
          · exact h.fresh other hother
      | running queue =>
        rw [hqueue] at queue
        cases queue
      | answered queue =>
        rw [hqueue] at queue
        cases queue
  · cases hstep

/-- The main thread's signal reaches the event monitor's semaphore. -/
theorem Pinged.mainStep (h : Pinged m) (hstep : m.mainStep = some m') : Pinged m' := by
  have hspec := Monitor.mainStep_spec hstep
  by_cases hmain : m.main = .answered
  · have hsemphore := hspec.eventSemphore
    rw [if_pos hmain] at hsemphore
    refine ⟨?_, ?_, ?_, ?_⟩
    · intro ping hping
      rw [hspec.event] at hping
      cases h.placed ping hping with
      | running queue inTime _ event =>
        refine .answered (hspec.mainQueue.trans queue) (by rwa [hspec.inTime]) hspec.main.2 ?_
        rw [hsemphore, event]
      | queued _ _ main => exact absurd hmain main
      | answered _ _ main => exact absurd hmain main
    · intro hnone
      rw [hspec.event] at hnone
      exact absurd hmain (h.clean hnone).2.1
    · rw [hspec.event, hspec.pings]
      exact h.sent
    · rw [hspec.inTime, hspec.pings]
      exact h.fresh
  · have hsemphore := hspec.eventSemphore
    rw [if_neg hmain, Nat.add_zero] at hsemphore
    exact h.same ⟨hspec.event, hspec.mainQueue, hspec.inTime, hspec.pings, hsemphore,
      iff_of_false hspec.main.2 hmain⟩

/-- The event monitor goes on without a ping, or goes on with the same one. -/
theorem Pinged.goto (h : Pinged m) {event : EventLoop} (hping : event.ping = m.event.ping)
    (blocks : Nat) : Pinged { m with event := event, eventBlocks := blocks } where
  placed := by
    intro ping hsome
    cases h.placed ping (hping.symm.trans hsome) with
    | queued queue late main event => exact .queued queue late main event
    | running queue inTime main event => exact .running queue inTime main event
    | answered queue inTime main event => exact .answered queue inTime main event
  clean := fun hnone => h.clean (hping.symm.trans hnone)
  sent := fun ping hsome => h.sent ping (hping.symm.trans hsome)
  fresh := h.fresh

theorem Pinged.eventStep (h : Pinged m) (hstep : m.eventStep = some m') : Pinged m' := by
  rw [Monitor.eventStep] at hstep
  cases hevent : m.event with
  | idle =>
    rw [hevent] at hstep
    obtain ⟨-, ⟨⟩⟩ := Option.ite_none_right_eq_some.mp hstep
    exact h.goto (by rw [hevent]; rfl) _
  | test =>
    rw [hevent] at hstep
    obtain rfl := Option.some.inj hstep
    refine h.goto ?_ m.eventBlocks
    rw [hevent]
    split
    · rfl
    · rfl
  | activity =>
    rw [hevent] at hstep
    obtain rfl := Option.some.inj hstep
    refine h.goto ?_ m.eventBlocks
    rw [hevent]
    split
    · rfl
    · rfl
  | send =>
    rw [hevent] at hstep
    obtain rfl := Option.some.inj hstep
    obtain ⟨hqueue, hmain, hsemphore⟩ := h.clean (by rw [hevent]; rfl)
    have hlate : m.pings ∉ m.inTime := fun hin => Nat.lt_irrefl _ (h.fresh _ hin)
    refine ⟨?_, ?_, ?_, ?_⟩
    · intro ping hping
      obtain rfl := Option.some.inj hping
      refine .queued ?_ hlate hmain hsemphore
      dsimp only
      rw [hqueue]
      rfl
    · intro hnone
      cases hnone
    · intro ping hping
      obtain rfl := Option.some.inj hping
      exact Nat.lt_succ_self _
    · exact fun ping hping => Nat.lt_succ_of_lt (h.fresh ping hping)
  | sleeping ping until' =>
    rw [hevent] at hstep
    obtain ⟨-, ⟨⟩⟩ := Option.ite_none_right_eq_some.mp hstep
    exact h.goto (by rw [hevent]; rfl) m.eventBlocks
  | check ping =>
    rw [hevent] at hstep
    obtain rfl := Option.some.inj hstep
    refine h.goto ?_ m.eventBlocks
    rw [hevent]
    split
    · rfl
    · rfl
  | log ping =>
    rw [hevent] at hstep
    obtain rfl := Option.some.inj hstep
    exact h.goto (by rw [hevent]; rfl) m.eventBlocks
  | wait ping =>
    rw [hevent] at hstep
    obtain ⟨hsignal, ⟨⟩⟩ := Option.ite_none_right_eq_some.mp hstep
    -- The semaphore was signalled, so the ping was answered and its signal is taken.
    cases h.placed ping (by rw [hevent]; rfl) with
    | queued _ _ _ event =>
      rw [event] at hsignal
      cases hsignal
    | running _ _ _ event =>
      rw [event] at hsignal
      cases hsignal
    | answered queue _ main event =>
      refine ⟨?_, ?_, ?_, h.fresh⟩
      · intro ping hping
        cases hping
      · refine fun _ => ⟨queue, main, ?_⟩
        dsimp only
        rw [event]
      · intro ping hping
        cases hping

theorem Pinged.step {e : Event} (h : Pinged m) (hstep : step m e = some m') : Pinged m' := by
  unfold Fluecy.step at hstep
  split at hstep
  · cases hstep
  cases e with
  | tick =>
    obtain rfl := Option.some.inj hstep
    exact h.same ⟨rfl, rfl, rfl, rfl, rfl, Iff.rfl⟩
  | callback activity => exact h.same (callback_same hstep)
  | start => exact h.same (start_same hstep)
  | stop => exact h.same (callStop_same hstep)
  | answer => exact h.answerPing hstep
  | main => exact h.mainStep hstep
  | event => exact h.eventStep hstep
  | fluecy => exact h.same (fluecyStep_same hstep)

end steps

theorem init_pinged : Pinged Monitor.init where
  placed := fun _ h => by cases h
  clean := fun _ => ⟨rfl, by decide, rfl⟩
  sent := fun _ h => by cases h
  fresh := fun _ h => by cases h

/-- However the threads and restarts are interleaved, the event monitor has at most one ping
under way, its semaphore is never signalled without a ping, and it logs the main thread exactly
if the ping is still in the main queue when it looks. -/
theorem one_ping_under_way {es : List Event} {m : Monitor}
    (hrun : run step Monitor.init es = some m) :
    m.mainQueue.length + (if m.main = .answered then 1 else 0) + m.eventSemphore =
        m.event.ping.toList.length ∧
      ∀ ping, m.event = .check ping → (m.mainQueue = [ping] ↔
        m.eventStep = some { m with event := .log ping }) := by
  have h : Pinged m :=
    (throughout_keeps (fun _ _ _ h hstep => Pinged.step h hstep) init_pinged es).last hrun
  refine ⟨?_, ?_⟩
  · cases hping : m.event.ping with
    | none =>
      obtain ⟨hqueue, hmain, hsemphore⟩ := h.clean hping
      simp [hqueue, hmain, hsemphore]
    | some ping =>
      cases h.placed ping hping with
      | queued queue _ main event => simp [queue, main, event]
      | running queue _ main event => simp [queue, main, event]
      | answered queue _ main event => simp [queue, main, event]
  · intro ping hcheck
    rw [Monitor.eventStep, hcheck]
    cases h.placed ping (by rw [hcheck]; rfl) with
    | queued queue late => simp [queue, late]
    | running queue inTime => simp [queue, inTime]
    | answered queue inTime => simp [queue, inTime]

/-- The run loop is about to wait, and then does not run the main queue for a second. -/
def unanswered : List Event :=
  [.start, .main, .main, .main, .main, .event, .callback .beforeWaiting, .main, .event, .event,
    .event] ++ List.replicate lxdTimeOutInterval .tick ++ [.event]

theorem unanswered_logged :
    ∃ m, run step Monitor.init unanswered = some m ∧ m.event = .check 0 ∧
      m.eventStep = some { m with event := .log 0 } := by
  have hchecks : (run step Monitor.init unanswered).map (fun m => (m.event, m.mainQueue)) =
      some (.check 0, [0]) := by
    decide +kernel
  obtain ⟨m, hm, hcheck⟩ := Option.map_eq_some_iff.mp hchecks
  obtain ⟨hevent, hqueue⟩ := Prod.mk.inj hcheck
  exact ⟨m, hm, hevent, ((one_ping_under_way hm).2 0 hevent).mp hqueue⟩

end BasicDemo.Fluecy
