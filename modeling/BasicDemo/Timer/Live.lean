import BasicDemo.Library.Runs
import BasicDemo.Timer.Registry

namespace BasicDemo.Timer.Live
open Library.Runs

/-- The registry with everything that can still touch it: the installed handlers
and those now between their block and their own cancel. `live` records which tasks
ought to be registered and is never read by the code. -/
structure State where
  registry : Registry
  tasks : List Task
  running : List Task
  live : List Task

def initial : State := ⟨Registry.empty, [], [], []⟩

/-- Each event is one critical section of the registry, or the start of a handler.
Splitting a firing in two lets any other call come between a one-shot timer's
block and the cancel that follows it. -/
inductive Event where
  | execute (q : Request)
  | cancel (taskID : Option String)
  | fire (task : Task)
  | finish (task : Task)

/-- The tasks that outlive a cancel with this identifier. -/
def survivors (taskID : Option String) (live : List Task) : List Task :=
  live.filter (fun t => taskID ≠ some t.timerID)

def step (s : State) : Event → Option State
  | .execute q =>
    match executeTask s.registry q with
    | (r, none) => some { s with registry := r }
    | (r, some task) =>
      some { s with registry := r, tasks := task :: s.tasks, live := task :: s.live }
  | .cancel taskID =>
    some { s with registry := cancelTask s.registry taskID, live := survivors taskID s.live }
  | .fire task =>
    -- a cancelled source runs no more handlers, and one source runs one at a time
    if task ∈ s.tasks ∧ task.source.handle ∉ s.registry.cancelled ∧ task ∉ s.running then
      some { s with running := task :: s.running }
    else none
  | .finish task =>
    if task ∈ s.running then
      some { s with
        registry := eventHandler s.registry task
        running := s.running.erase task
        live := if task.repeats then s.live else survivors (some task.timerID) s.live }
    else none

/-- Every live task is stored under the identifier its caller was given. -/
structure Registered (s : State) : Prop where
  stored : ∀ t ∈ s.live, s.registry.timerDict.lookup t.timerID = some t.source
  distinct : (s.live.map Task.timerID).Nodup

/-- A creation leaves the source of every live task where it was. -/
def KeepsSources (s : State) (e : Event) : Prop :=
  ∀ q, e = .execute q → ∀ t ∈ s.live,
    (executeTask s.registry q).1.timerDict.lookup t.timerID = some t.source

/-- A creation that passes the guard gets an identifier no timer is registered under. -/
def Unused (s : State) (e : Event) : Prop :=
  ∀ q, e = .execute q → refuses q = false → freshID s.registry ∉ s.registry.timerDict

/-- What holds in every reachable state, collisions or not: a registered source
belongs to a live task with that identifier. -/
structure Tracked (s : State) : Prop where
  sound : Sound s.registry
  owned : ∀ id source, s.registry.timerDict.lookup id = some source →
    ∃ t ∈ s.live, t.timerID = id ∧ t.source = source
  made : ∀ t ∈ s.live, t.source.handle < s.registry.created

theorem survivors_none (live : List Task) : survivors none live = live := by
  simp [survivors]

theorem mem_survivors {taskID : Option String} {live : List Task} {t : Task} :
    t ∈ survivors taskID live ↔ t ∈ live ∧ taskID ≠ some t.timerID := by
  simp [survivors]

/-- All that a step does to the registry and the live tasks. A handler's start and
a repeating handler's end act like a cancel without an identifier. -/
theorem step_cases {s t : State} {e : Event} (h : step s e = some t) :
    (∃ q, e = .execute q ∧ refuses q = false ∧
      t.registry = (executeTask s.registry q).1 ∧
      t.live = ⟨newSource s.registry q, freshID s.registry, q.repeats⟩ :: s.live) ∨
    ((∀ q, e = .execute q → refuses q = true) ∧ ∃ taskID,
      t.registry = cancelTask s.registry taskID ∧ t.live = survivors taskID s.live) := by
  cases e with
  | execute q =>
    cases hq : refuses q with
    | true =>
      simp only [step, executeTask_refused hq, Option.some.injEq] at h
      subst t
      exact Or.inr ⟨fun q' he => by cases he; exact hq, none, rfl, (survivors_none _).symm⟩
    | false =>
      simp only [step, executeTask_accepted hq, Option.some.injEq] at h
      subst t
      exact Or.inl ⟨q, rfl, hq, by rw [executeTask_accepted hq], rfl⟩
  | cancel taskID =>
    simp only [step, Option.some.injEq] at h
    subst t
    exact Or.inr ⟨nofun, taskID, rfl, rfl⟩
  | fire task =>
    simp only [step] at h
    split at h
    · cases h
      exact Or.inr ⟨nofun, none, rfl, (survivors_none _).symm⟩
    · cases h
  | finish task =>
    simp only [step] at h
    split at h
    · cases h
      refine Or.inr ⟨nofun, ?_⟩
      cases hr : task.repeats with
      | true => exact ⟨none, by simp [eventHandler, hr, cancelTask], by simp [survivors_none]⟩
      | false => exact ⟨some task.timerID, by simp [eventHandler, hr], by simp⟩
    · cases h

theorem tracked_initial : Tracked initial := by
  refine ⟨sound_empty, ?_, ?_⟩
  · intro id source h
    simp [initial, Registry.empty] at h
  · intro t h
    simp [initial] at h

theorem tracked_step (s : State) (e : Event) (t : State) (h : Tracked s)
    (hs : step s e = some t) : Tracked t := by
  rcases step_cases hs with ⟨q, _, hq, hr, hl⟩ | ⟨_, taskID, hr, hl⟩
  · refine ⟨hr ▸ h.sound.executeTask q, ?_, ?_⟩
    · intro id source hlook
      rw [hr, executeTask_accepted hq] at hlook
      rw [hl]
      rcases lookup_insert_cases hlook with ⟨rfl, rfl⟩ | ⟨_, hold⟩
      · exact ⟨_, List.mem_cons_self, rfl, rfl⟩
      · obtain ⟨u, hu, hid, hsource⟩ := h.owned id source hold
        exact ⟨u, List.mem_cons_of_mem _ hu, hid, hsource⟩
    · intro u hu
      rw [hl] at hu
      rw [hr, executeTask_accepted hq]
      change u.source.handle < s.registry.created + 1
      rcases List.mem_cons.mp hu with rfl | hu
      · simp
      · have := h.made u hu
        omega
  · refine ⟨hr ▸ h.sound.cancelTask taskID, ?_, ?_⟩
    · intro id source hlook
      rw [hr] at hlook
      have hold := cancelTask_lookup_some hlook
      obtain ⟨u, hu, hid, hsource⟩ := h.owned id source hold
      refine ⟨u, ?_, hid, hsource⟩
      rw [hl]
      refine mem_survivors.mpr ⟨hu, ?_⟩
      intro he
      rw [he, hid, cancelTask_lookup_self _ _ (h.sound.named id source hold)] at hlook
      cases hlook
    · intro u hu
      rw [hl] at hu
      rw [hr, cancelTask_created]
      exact h.made u (mem_survivors.mp hu).1

theorem registered_initial : Registered initial :=
  ⟨by intro t h; simp [initial] at h, by simp [initial]⟩

/-- A cancel takes away exactly the tasks that end with it. -/
theorem Registered.cancel {s t : State} (h : Registered s) {taskID : Option String}
    (hr : t.registry = cancelTask s.registry taskID) (hl : t.live = survivors taskID s.live) :
    Registered t := by
  constructor
  · intro u hu
    rw [hl] at hu
    obtain ⟨hu, hne⟩ := mem_survivors.mp hu
    rw [hr, cancelTask_lookup_other _ _ _ hne]
    exact h.stored u hu
  · rw [hl]
    exact h.distinct.sublist (List.filter_sublist.map Task.timerID)

/-- Under an unused key no live task loses its source. -/
theorem Registered.keeps {s : State} (h : Registered s) {q : Request}
    (hq : refuses q = false) (hu : freshID s.registry ∉ s.registry.timerDict)
    {t : Task} (ht : t ∈ s.live) :
    t.timerID ≠ freshID s.registry ∧
      (executeTask s.registry q).1.timerDict.lookup t.timerID = some t.source := by
  have hs := h.stored t ht
  have hne : t.timerID ≠ freshID s.registry := by
    intro he
    rw [he] at hs
    exact hu (AList.lookup_isSome.mp (by simp [hs]))
  refine ⟨hne, ?_⟩
  rw [executeTask_accepted hq]
  change (s.registry.timerDict.insert _ _).lookup _ = _
  rw [AList.lookup_insert_ne hne]
  exact hs

theorem registered_step (s : State) (e : Event) (t : State) (hi : Tracked s)
    (h : Registered s) (hs : step s e = some t) : Registered t ↔ Unused s e := by
  rcases step_cases hs with ⟨q, rfl, hq, hr, hl⟩ | ⟨hno, taskID, hr, hl⟩
  · constructor
    · intro ht q' he _ hmem
      cases he
      -- the task already registered under the key is live, and its source is older
      obtain ⟨source, hsource⟩ := Option.isSome_iff_exists.mp (AList.lookup_isSome.mpr hmem)
      obtain ⟨u, hu, hid, rfl⟩ := hi.owned _ _ hsource
      have hnow := ht.stored u (hl ▸ List.mem_cons_of_mem _ hu)
      rw [hr, executeTask_accepted hq] at hnow
      change (s.registry.timerDict.insert _ _).lookup _ = _ at hnow
      rw [hid, AList.lookup_insert] at hnow
      have hold := hi.made u hu
      rw [← Option.some.inj hnow] at hold
      simp at hold
    · intro hu
      have hfree := hu q rfl hq
      constructor
      · intro u hm
        rw [hl] at hm
        rw [hr]
        rcases List.mem_cons.mp hm with rfl | hm
        · rw [executeTask_accepted hq]
          exact AList.lookup_insert _
        · exact (h.keeps hq hfree hm).2
      · rw [hl, List.map_cons, List.nodup_cons]
        refine ⟨?_, h.distinct⟩
        intro hm
        obtain ⟨u, hm, he⟩ := List.mem_map.mp hm
        exact (h.keeps hq hfree hm).1 he
  · refine ⟨fun _ q he hq => ?_, fun _ => h.cancel hr hl⟩
    rw [hno q he] at hq
    cases hq

/-- A creation that keeps the invariant drops nothing, and one that finds its key
taken drops the live task there; nothing else can break the registry. -/
theorem registered_iff_unused (es : List Event) :
    Throughout step Registered initial es ↔ Along step Unused initial es :=
  throughout_iff_along tracked_step registered_step tracked_initial registered_initial

theorem keeps_sources (s : State) (e : Event) (t : State) (h : Registered s)
    (hu : Unused s e) (_ : step s e = some t) : KeepsSources s e := by
  intro q he u hm
  subst he
  cases hq : refuses q with
  | true =>
    rw [executeTask_refused hq]
    exact h.stored u hm
  | false => exact (h.keeps hq (hu q rfl hq) hm).2

/-- Every run keeps each live task registered under its own identifier, with no two
sharing one and no creation dropping another's source, exactly when no creation of
the run is given the identifier of a registered timer. -/
theorem live_tasks_registered_iff (es : List Event) :
    (Throughout step Registered initial es ∧ Along step KeepsSources initial es) ↔
      Along step Unused initial es := by
  rw [registered_iff_unused]
  refine ⟨fun h => h.1, fun h => ⟨h, ?_⟩⟩
  exact ((registered_iff_unused es).mpr h).along keeps_sources h

/-- Two timers are started, the first is cancelled, and a third is started: it is
given the identifier of the second. -/
def reusedID : List Event :=
  [.execute timerRequest, .execute timerRequest, .cancel (some "0"), .execute timerRequest]

theorem reusedID_drops_live_task :
    ¬ (Throughout step Registered initial reusedID ∧
      Along step KeepsSources initial reusedID) := by
  intro ⟨h, _⟩
  have hrun : (run step initial reusedID).map (fun s => decide
      (∀ t ∈ s.live, s.registry.timerDict.lookup t.timerID = some t.source)) = some false := by
    decide +kernel
  obtain ⟨s, hs, hbad⟩ := Option.map_eq_some_iff.mp hrun
  exact of_decide_eq_false hbad (h.last hs).stored

end BasicDemo.Timer.Live
