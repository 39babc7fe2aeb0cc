import BasicDemo.Locks.SafeAnalysis

namespace BasicDemo.Locks
open Library.Runs

/-- The places in the code of threads that work on the array under one lock: without
the lock, with it, asleep until a signal, and with the lock before a removal. -/
structure Discipline where
  lock : Lock
  outside : List (List Instr)
  inside : List (List Instr)
  asleep : List (List Instr)
  removing : List (List Instr)

/-- A thread is at one of the places. Past the lock it holds it, and before a
removal there is an element. -/
inductive Fits (d : Discipline) (s : State) (t : ThreadID) : Thread → Prop where
  | outside {code : List Instr} (place : code ∈ d.outside) : Fits d s t ⟨code, .ready⟩
  | inside {code : List Instr} (held : s.holder d.lock = some t) (place : code ∈ d.inside) :
      Fits d s t ⟨code, .ready⟩
  | asleep {code : List Instr} {phase : Phase} (place : code ∈ d.asleep)
      (away : phase ∈ [.waiting d.lock, .woken d.lock]) : Fits d s t ⟨code, phase⟩
  | removing {code : List Instr} (held : s.holder d.lock = some t) (element : s.data ≠ [])
      (place : code ∈ d.removing) : Fits d s t ⟨code, .ready⟩

theorem Fits.frame {d : Discipline} {s s' : State} {t : ThreadID} {thread : Thread}
    (h : Fits d s t thread)
    (keep : s.holder d.lock = some t → s'.holder d.lock = some t ∧ s'.data = s.data) :
    Fits d s' t thread := by
  cases h with
  | outside place => exact .outside place
  | inside held place => exact .inside (keep held).1 place
  | asleep place away => exact .asleep place away
  | removing held element place =>
    obtain ⟨hheld, hdata⟩ := keep held
    exact .removing hheld (hdata ▸ element) place

/-- Every thread is at one of its places, and no removal has failed. -/
structure Guarded (d : Discipline) (s : State) : Prop where
  fits : ∀ t thread, s.threads[t]? = some thread → Fits d s t thread
  unraised : Unraised s

theorem guarded_init (d : Discipline) : Guarded d State.init where
  fits := by simp [State.init]
  unraised := rfl

/-- A step of one thread that leaves the holder of the lock undisturbed. -/
theorem Guarded.put {d : Discipline} {s s' : State} {t : ThreadID} {old thread : Thread}
    (h : Guarded d s) (ht : s.threads[t]? = some old)
    (hthreads : s'.threads = (s.put t thread).threads) (hraised : s'.raised = s.raised)
    (keep : ∀ u, u ≠ t → s.holder d.lock = some u →
      s'.holder d.lock = some u ∧ s'.data = s.data)
    (hfit : Fits d s' t thread) : Guarded d s' := by
  have hlt : t < s.threads.length := (List.getElem?_eq_some_iff.mp ht).1
  refine ⟨?_, hraised.trans h.unraised⟩
  intro u th hu
  rw [hthreads, getElem?_put s t u thread hlt] at hu
  split at hu
  · rename_i htu
    cases hu
    exact htu ▸ hfit
  · rename_i htu
    exact (h.fits u th hu).frame (keep u (Ne.symm htu))

/-- A step of the thread that holds the lock, or takes it while it is free, which
no other thread notices. -/
theorem Guarded.own {d : Discipline} {s s' : State} {t : ThreadID} {old thread : Thread}
    (h : Guarded d s) (ht : s.threads[t]? = some old)
    (hthreads : s'.threads = (s.put t thread).threads) (hraised : s'.raised = s.raised)
    (hholder : s.holder d.lock = none ∨ s.holder d.lock = some t) (hfit : Fits d s' t thread) :
    Guarded d s' := by
  refine h.put ht hthreads hraised ?_ hfit
  intro u hu held
  rcases hholder with hnone | hown
  · rw [hnone] at held
    cases held
  · rw [hown] at held
    exact absurd (Option.some.inj held).symm hu

theorem acquire_goto_holder (s : State) (l : Lock) (t : ThreadID) (code : List Instr) :
    ((s.acquire l t).goto t code).holder l = some t := by
  simp [State.acquire, State.goto, State.put]

theorem release_held {s : State} {l : Lock} {t : ThreadID} (held : s.holder l = some t) :
    s.release l t = { s with holder := Function.update s.holder l none } := by
  unfold State.release
  rw [if_pos held]

theorem Guarded.addObject {d : Discipline} {s s' : State} {t : ThreadID} {rest : List Instr}
    {wakes : Option ThreadID} (h : Guarded d s) (held : s.holder d.lock = some t)
    (ht : s.threads[t]? = some ⟨.addObject :: rest, .ready⟩) (place : rest ∈ d.inside)
    (hs : s.exec t wakes rest .addObject = some s') : Guarded d s' := by
  cases hs
  exact h.own ht rfl rfl (Or.inr held) (.inside held place)

theorem Guarded.removeLastObject {d : Discipline} {s s' : State} {t : ThreadID}
    {rest : List Instr} {wakes : Option ThreadID} (h : Guarded d s)
    (held : s.holder d.lock = some t) (element : s.data ≠ [])
    (ht : s.threads[t]? = some ⟨.removeLastObject :: rest, .ready⟩) (place : rest ∈ d.inside)
    (hs : s.exec t wakes rest .removeLastObject = some s') : Guarded d s' := by
  simp only [State.exec, if_neg element] at hs
  cases hs
  exact h.own ht rfl rfl (Or.inr held) (.inside held place)

theorem Guarded.unlock {d : Discipline} {s s' : State} {t : ThreadID} {rest : List Instr}
    {wakes : Option ThreadID} (h : Guarded d s) (held : s.holder d.lock = some t)
    (ht : s.threads[t]? = some ⟨.unlock d.lock :: rest, .ready⟩) (place : rest ∈ d.outside)
    (hs : s.exec t wakes rest (.unlock d.lock) = some s') : Guarded d s' := by
  simp only [State.exec, release_held held] at hs
  cases hs
  exact h.own ht rfl rfl (Or.inr held) (.outside place)

theorem Guarded.start {d : Discipline} {s : State} {m : Method} (h : Guarded d s)
    (hm : m.body ∈ d.outside) : Guarded d (s.start m) := by
  refine ⟨?_, h.unraised⟩
  intro t thread ht
  simp only [State.start, List.getElem?_append] at ht
  split at ht
  · exact (h.fits t thread ht).frame (fun held => ⟨held, rfl⟩)
  · obtain ⟨_, hthread⟩ := List.getElem?_eq_some_iff.mp ht
    rw [List.getElem_singleton] at hthread
    subst thread
    exact .outside hm

theorem Guarded.starts {d : Discipline} {s : State} {ms : List Method} (h : Guarded d s)
    (hms : ∀ m ∈ ms, m.body ∈ d.outside) : Guarded d (ms.foldl State.start s) := by
  induction ms generalizing s with
  | nil => exact h
  | cons m ms ih =>
    exact ih (h.start (hms m List.mem_cons_self)) (fun m' hm => hms m' (List.mem_cons_of_mem m hm))

/-- Waking a waiter changes nothing but its phase. -/
theorem Guarded.woken {d : Discipline} {s : State} {u : ThreadID} {code : List Instr} {l : Lock}
    (h : Guarded d s) (hu : s.threads[u]? = some ⟨code, .waiting l⟩) :
    Guarded d (s.put u ⟨code, .woken l⟩) := by
  refine h.put hu rfl rfl (fun _ _ held => ⟨held, rfl⟩) ?_
  cases h.fits u _ hu with
  | asleep place away =>
    simp only [List.mem_cons, Phase.waiting.injEq, reduceCtorEq, List.not_mem_nil, or_false]
      at away
    subst l
    exact .asleep place (by simp)

end BasicDemo.Locks
