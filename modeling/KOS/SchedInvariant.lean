import KOS.Sched

/-! The scheduler invariant: the ready list is exactly the TASK_READY threads, and one
running thread is off it. Every operation of the current thread and the timer keeps it. -/

namespace KOS.SchedInvariant
open KOS.DoublyLinked KOS.KernelList KOS.Sched

variable {τ : Type*} [DecidableEq τ]

/-- The ready list is well formed and holds exactly the TASK_READY threads, each once. -/
structure Queued (s : SchedState τ) (queue : List τ) : Prop where
  linked : Ready s queue
  exact : ∀ t, t ∈ queue ↔ s.status t = .ready

structure Good (s : SchedState τ) : Prop where
  queued : ∃ queue, Queued s queue
  running : s.status s.current = .running
  alive : s.status s.idle ≠ .died

/-- The idle thread carries TASK_RUNNING only while it executes. A thread that was created
and never run carries it too, because it is the zero status. -/
def IdleStarted (s : SchedState τ) : Prop := s.idle = s.current ∨ s.status s.idle ≠ .running

theorem Queued.absent {s : SchedState τ} {queue : List τ} {t : τ} (queued : Queued s queue)
    (other : s.status t ≠ .ready) : t ∉ queue := by
  intro member
  exact other ((queued.exact t).mp member)

theorem Queued.setStatus {s : SchedState τ} {queue : List τ} (t : τ) (stat : TaskStatus)
    (queued : Queued s queue) (before : s.status t ≠ .ready) (after : stat ≠ .ready) :
    Queued (setStatus s t stat) queue := by
  refine ⟨queued.linked, ?_⟩
  intro u
  rw [queued.exact u]
  by_cases same : u = t
  · subst same
    simp [Sched.setStatus, before, after]
  · simp [Sched.setStatus, same]

/-- A thread off the list that becomes TASK_READY and is appended or pushed. -/
theorem exact_insert {status : τ → TaskStatus} {queue longer : List τ} {t : τ}
    (exact : ∀ u, u ∈ queue ↔ status u = .ready) (members : ∀ u, u ∈ longer ↔ u = t ∨ u ∈ queue) :
    ∀ u, u ∈ longer ↔ Function.update status t .ready u = .ready := by
  intro u
  rw [members, exact u]
  by_cases same : u = t
  · simp [same]
  · simp [same]

theorem Queued.append {s : SchedState τ} {queue : List τ} {t : τ} (queued : Queued s queue)
    (other : s.status t ≠ .ready) :
    Queued (appendReady (Sched.setStatus s t .ready) t) (queue ++ [t]) := by
  have linked : Ready (Sched.setStatus s t .ready) queue := queued.linked
  refine ⟨linked.append (queued.absent other), exact_insert queued.exact ?_⟩
  intro u
  rw [List.mem_append, List.mem_singleton, or_comm]

theorem Queued.push {s : SchedState τ} {queue : List τ} {t : τ} (queued : Queued s queue)
    (other : s.status t ≠ .ready) :
    Queued (pushReady (Sched.setStatus s t .ready) t) (t :: queue) := by
  have linked : Ready (Sched.setStatus s t .ready) queue := queued.linked
  refine ⟨linked.push (queued.absent other), exact_insert queued.exact ?_⟩
  intro u
  rw [List.mem_cons]

theorem not_ready_of_sleeping {stat : TaskStatus} (sleeping : stat.sleeping) : stat ≠ .ready := by
  rintro rfl
  simp [TaskStatus.sleeping] at sleeping

theorem sleeping_of_not {stat : TaskStatus} (notRunning : stat ≠ .running) (notReady : stat ≠ .ready)
    (notDied : stat ≠ .died) : stat.sleeping := by
  cases stat with
  | running => exact absurd rfl notRunning
  | ready => exact absurd rfl notReady
  | blocked => exact .inl rfl
  | waiting => exact .inr (.inl rfl)
  | hanging => exact .inr (.inr rfl)
  | died => exact absurd rfl notDied

theorem kthreadUnblock_queued {s : SchedState τ} {queue : List τ} (t : τ) (queued : Queued s queue) :
    ∃ queue', Queued (kthreadUnblock s t) queue' := by
  unfold kthreadUnblock
  by_cases sleeping : (s.status t).sleeping
  · rw [if_pos sleeping]
    exact ⟨_, queued.push (not_ready_of_sleeping sleeping)⟩
  · rw [if_neg sleeping]
    exact ⟨queue, queued⟩

/-! `schedule` from a state whose queue is exact. -/

theorem Queued.current_absent {s : SchedState τ} {queue : List τ} (queued : Queued s queue)
    (running : s.status s.current = .running) : s.current ∉ queue :=
  queued.absent (by rw [running]; decide)

theorem requeued_exact {s : SchedState τ} {queue : List τ} (queued : Queued s queue) :
    ∀ u, u ∈ requeued s queue ↔ (requeue s).status u = .ready := by
  obtain ⟨-, -, status⟩ := requeue_frame s
  rw [status, requeued]
  by_cases running : s.status s.current = .running
  · rw [if_pos running, if_pos running]
    apply exact_insert queued.exact
    intro u
    rw [List.mem_append, List.mem_singleton, or_comm]
  · rw [if_neg running, if_neg running]
    exact queued.exact

/-- Whoever is picked, the rest of the queue stays exact. -/
theorem switched_queued {s s' : SchedState τ} {t : τ} {rest : List τ} (switched : Switched s t rest s')
    (exact : ∀ u, u ≠ t → (u ∈ rest ↔ (requeue s).status u = .ready)) : Queued s' rest := by
  refine ⟨switched.linked, ?_⟩
  intro u
  rw [switched.status]
  by_cases same : u = t
  · subst same
    simp [switched.fresh]
  · rw [Function.update_of_ne same]
    exact exact u same

theorem requeue_idle {s : SchedState τ} (alive : s.status s.idle ≠ .died) (started : IdleStarted s) :
    (requeue s).status s.idle ≠ .died ∧ (requeue s).status s.idle ≠ .running := by
  obtain ⟨-, -, status⟩ := requeue_frame s
  rw [status]
  by_cases running : s.status s.current = .running
  · rw [if_pos running]
    by_cases same : s.idle = s.current
    · simp [same]
    · simp [same, alive, started.resolve_left same]
  · rw [if_neg running]
    refine ⟨alive, ?_⟩
    rcases started with same | waiting
    · rw [same]
      exact running
    · exact waiting

theorem switched_good {s s' : SchedState τ} {t : τ} {rest : List τ} (switched : Switched s t rest s')
    (queued : Queued s' rest) (alive : s.status s.idle ≠ .died) (started : IdleStarted s) :
    Good s' ∧ IdleStarted s' := by
  obtain ⟨alive', waiting⟩ := requeue_idle alive started
  refine ⟨⟨⟨rest, queued⟩, ?_, ?_⟩, ?_⟩
  · rw [switched.status, switched.current, Function.update_self]
  · rw [switched.status, switched.idle]
    by_cases same : s.idle = t
    · simp [same]
    · rw [Function.update_of_ne same]
      exact alive'
  · rw [IdleStarted, switched.status, switched.idle, switched.current]
    by_cases same : s.idle = t
    · exact .inl same
    · right
      rw [Function.update_of_ne same]
      exact waiting

/-- `schedule` never finds the list empty when it pops, and leaves a good state. -/
theorem schedule_good {s : SchedState τ} {queue : List τ} (queued : Queued s queue)
    (alive : s.status s.idle ≠ .died) (started : IdleStarted s) :
    ∃ s', schedule s = some s' ∧ Good s' ∧ IdleStarted s' ∧ Picked s' := by
  have exact := requeued_exact queued
  obtain ⟨alive', waiting⟩ := requeue_idle alive started
  cases shape : requeued s queue with
  | nil =>
    rw [shape] at exact
    have same := requeue_of_empty shape
    have unready : s.status s.idle ≠ .ready := by
      intro ready
      exact List.not_mem_nil ((exact s.idle).mpr (by rw [same]; exact ready))
    have asleep : (s.status s.idle).sleeping := by
      rw [same] at waiting
      exact sleeping_of_not waiting unready alive
    obtain ⟨s', ran, switched⟩ := schedule_idles queued.linked queued.current_absent shape asleep
    have queued' := switched_queued switched (fun u _ => exact u)
    obtain ⟨good, started'⟩ := switched_good switched queued' alive started
    exact ⟨s', ran, good, started', switched.picked⟩
  | cons t rest =>
    obtain ⟨s', ran, switched⟩ := schedule_switches queued.linked queued.current_absent shape
    have queued' := switched_queued switched (fun u different => by
      rw [← exact u, shape, List.mem_cons, or_iff_right different])
    obtain ⟨good, started'⟩ := switched_good switched queued' alive started
    exact ⟨s', ran, good, started', switched.picked⟩

/-! The operations. -/

/-- What the current thread or the timer interrupt does to the scheduler. -/
inductive Op (τ : Type*) where
  | run (task : τ)
  | yield
  | block (stat : TaskStatus)
  | unblock (task : τ)
  | tick

def apply (s : SchedState τ) : Op τ → Option (SchedState τ)
  | .run task => some (kthreadRun s task)
  | .yield => kthreadYield s
  | .block stat => kthreadBlock s stat
  | .unblock task => some (kthreadUnblock s task)
  | .tick => timerHandler s

/-- A thread that is started is not the current one and is not queued. -/
def Startable (s : SchedState τ) : Op τ → Prop
  | .run task => task ≠ s.current ∧ s.status task ≠ .ready
  | _ => True

theorem kthreadRun_good {s : SchedState τ} {task : τ} (good : Good s) (started : IdleStarted s)
    (other : task ≠ s.current) (unqueued : s.status task ≠ .ready) :
    Good (kthreadRun s task) ∧ IdleStarted (kthreadRun s task) := by
  obtain ⟨queue, queued⟩ := good.queued
  have appended := queued.append unqueued
  refine ⟨⟨⟨_, appended.linked, appended.exact⟩, ?_, ?_⟩, ?_⟩
  · exact (Function.update_of_ne other.symm ..).trans good.running
  · by_cases same : s.idle = task
    · simp [kthreadRun, appendReady, resetSlice, Sched.setStatus, same]
    · exact (Function.update_of_ne same ..).trans_ne good.alive
  · by_cases same : s.idle = task
    · right
      simp [kthreadRun, appendReady, resetSlice, Sched.setStatus, same]
    · exact started.imp_right (fun waiting => (Function.update_of_ne same ..).trans_ne waiting)

theorem kthreadUnblock_good {s : SchedState τ} (task : τ) (good : Good s) (started : IdleStarted s) :
    Good (kthreadUnblock s task) ∧ IdleStarted (kthreadUnblock s task) := by
  obtain ⟨queue, queued⟩ := good.queued
  have woken := kthreadUnblock_queued task queued
  unfold kthreadUnblock at *
  by_cases sleeping : (s.status task).sleeping
  · rw [if_pos sleeping] at *
    have other : s.current ≠ task := by
      rintro rfl
      rw [good.running] at sleeping
      simp [TaskStatus.sleeping] at sleeping
    refine ⟨⟨woken, (Function.update_of_ne other ..).trans good.running, ?_⟩, ?_⟩
    · by_cases same : s.idle = task
      · simp [pushReady, Sched.setStatus, same]
      · exact (Function.update_of_ne same ..).trans_ne good.alive
    · by_cases same : s.idle = task
      · right
        simp [pushReady, Sched.setStatus, same]
      · exact started.imp_right (fun waiting => (Function.update_of_ne same ..).trans_ne waiting)
  · rw [if_neg sleeping] at *
    exact ⟨good, started⟩

theorem kthreadYield_good {s : SchedState τ} (good : Good s) (started : IdleStarted s) :
    ∃ s', kthreadYield s = some s' ∧ Good s' ∧ IdleStarted s' ∧ Picked s' := by
  obtain ⟨queue, queued⟩ := good.queued
  have appended := queued.append (t := s.current) (by rw [good.running]; decide)
  apply schedule_good appended
  · by_cases same : s.idle = s.current
    · simp [appendReady, Sched.setStatus, same]
    · exact (Function.update_of_ne same ..).trans_ne good.alive
  · by_cases same : s.idle = s.current
    · exact .inl same
    · exact .inr ((Function.update_of_ne same ..).trans_ne (started.resolve_left same))

theorem kthreadBlock_good {s : SchedState τ} {stat : TaskStatus} (good : Good s)
    (started : IdleStarted s) (sleeping : stat.sleeping) :
    ∃ s', kthreadBlock s stat = some s' ∧ Good s' ∧ IdleStarted s' ∧ Picked s' := by
  obtain ⟨queue, queued⟩ := good.queued
  rw [kthreadBlock, if_pos sleeping]
  have blocked := queued.setStatus s.current stat (by rw [good.running]; decide)
    (not_ready_of_sleeping sleeping)
  apply schedule_good blocked
  · by_cases same : s.idle = s.current
    · have shown : (Sched.setStatus s s.current stat).status s.idle = stat := by
        simp [Sched.setStatus, same]
      rw [show (Sched.setStatus s s.current stat).idle = s.idle from rfl, shown]
      rintro rfl
      simp [TaskStatus.sleeping] at sleeping
    · exact (Function.update_of_ne same ..).trans_ne good.alive
  · by_cases same : s.idle = s.current
    · exact .inl same
    · exact .inr ((Function.update_of_ne same ..).trans_ne (started.resolve_left same))

theorem timerHandler_good {s : SchedState τ} (good : Good s) (started : IdleStarted s) :
    ∃ s', timerHandler s = some s' ∧ Good s' ∧ IdleStarted s' := by
  obtain ⟨queue, queued⟩ := good.queued
  unfold timerHandler
  by_cases expired : s.timeSlice s.current = 0
  · have ticked : Queued { s with jiffies := (s.jiffies + 1) % 2 ^ 32 } queue :=
      ⟨queued.linked, queued.exact⟩
    obtain ⟨s', ran, good', started', -⟩ := schedule_good ticked good.alive started
    refine ⟨s', ?_, good', started'⟩
    simpa [expired] using ran
  · refine ⟨_, if_neg expired, ⟨⟨queue, queued.linked, queued.exact⟩, good.running, good.alive⟩, ?_⟩
    exact started

/-- Every operation of the current thread and the timer leads from a good state to a good one. -/
theorem apply_good (s : SchedState τ) (op : Op τ) (good : Good s) (started : IdleStarted s)
    (startable : Startable s op) :
    ∃ s', apply s op = some s' ∧ Good s' ∧ IdleStarted s' := by
  cases op with
  | run task => exact ⟨_, rfl, kthreadRun_good good started startable.1 startable.2⟩
  | yield =>
    obtain ⟨s', ran, good', started', -⟩ := kthreadYield_good good started
    exact ⟨s', ran, good', started'⟩
  | block stat =>
    by_cases sleeping : stat.sleeping
    · obtain ⟨s', ran, good', started', -⟩ := kthreadBlock_good good started sleeping
      exact ⟨s', ran, good', started'⟩
    · exact ⟨s, if_neg sleeping, good, started⟩
  | unblock task => exact ⟨_, rfl, kthreadUnblock_good task good started⟩
  | tick => exact timerHandler_good good started

/-! Which statuses an operation changes. -/

/-- Running, or waiting for the processor. -/
def Active (stat : TaskStatus) : Prop := stat = .running ∨ stat = .ready

/-- `s'` differs from `s` in the status of `u` at most between running and ready. -/
def SameActivity (s s' : SchedState τ) (u : τ) : Prop :=
  s'.status u = s.status u ∨ Active (s.status u) ∧ Active (s'.status u)

omit [DecidableEq τ] in
theorem SameActivity.active {s s' : SchedState τ} {u : τ} (same : SameActivity s s' u)
    (before : Active (s.status u)) : Active (s'.status u) := by
  rcases same with unchanged | ⟨-, after⟩
  · rw [unchanged]
    exact before
  · exact after

theorem not_active_blocked : ¬ Active .blocked := by
  rintro (same | same) <;> cases same

omit [DecidableEq τ] in
theorem SameActivity.blocked {s s' : SchedState τ} {u : τ} (same : SameActivity s s' u) :
    s'.status u = .blocked ↔ s.status u = .blocked := by
  rcases same with unchanged | ⟨before, after⟩
  · rw [unchanged]
  · constructor
    · intro blocked
      exact absurd (blocked ▸ after) not_active_blocked
    · intro blocked
      exact absurd (blocked ▸ before) not_active_blocked

theorem schedule_effect {s s' : SchedState τ} {queue : List τ} (queued : Queued s queue)
    (ran : schedule s = some s') : s'.idle = s.idle ∧ ∀ u, u ≠ s.idle → SameActivity s s' u := by
  obtain ⟨-, -, status⟩ := requeue_frame s
  have exact := requeued_exact queued
  have requeueEffect (u : τ) : SameActivity s (requeue s) u := by
    unfold SameActivity
    rw [status]
    by_cases running : s.status s.current = .running
    · by_cases same : u = s.current
      · right
        simp [running, same, Active]
      · simp [running, same]
    · simp [running]
  cases shape : requeued s queue with
  | nil =>
    have same := requeue_of_empty shape
    by_cases asleep : (s.status s.idle).sleeping
    · obtain ⟨t, picked, switched⟩ := schedule_idles queued.linked queued.current_absent shape asleep
      rw [picked] at ran
      cases ran
      refine ⟨switched.idle, ?_⟩
      intro u other
      left
      rw [switched.status, Function.update_of_ne other, same]
    · rw [schedule_fails queued.linked queued.current_absent shape asleep] at ran
      cases ran
  | cons t rest =>
    obtain ⟨next, picked, switched⟩ := schedule_switches queued.linked queued.current_absent shape
    rw [picked] at ran
    cases ran
    refine ⟨switched.idle, ?_⟩
    intro u other
    have ready := (exact t).mp (by rw [shape]; exact List.mem_cons_self)
    rw [SameActivity, switched.status]
    by_cases same : u = t
    · subst same
      right
      rw [Function.update_self]
      rcases requeueEffect u with unchanged | ⟨active, -⟩
      · exact ⟨.inr (unchanged.symm.trans ready), .inl rfl⟩
      · exact ⟨active, .inl rfl⟩
    · rw [Function.update_of_ne same]
      exact requeueEffect u

theorem kthreadYield_effect {s s' : SchedState τ} (good : Good s) (ran : kthreadYield s = some s') :
    s'.idle = s.idle ∧ ∀ u, u ≠ s.idle → SameActivity s s' u := by
  obtain ⟨queue, queued⟩ := good.queued
  have appended := queued.append (t := s.current) (by rw [good.running]; decide)
  obtain ⟨idle, effect⟩ := schedule_effect appended ran
  refine ⟨idle, ?_⟩
  intro u other
  have later := effect u other
  by_cases same : u = s.current
  · subst same
    right
    refine ⟨.inl good.running, ?_⟩
    rcases later with unchanged | ⟨-, active⟩
    · right
      rw [unchanged]
      exact Function.update_self ..
    · exact active
  · simpa [SameActivity, appendReady, Sched.setStatus, same] using later

theorem timerHandler_effect {s s' : SchedState τ} (good : Good s) (ran : timerHandler s = some s') :
    s'.idle = s.idle ∧ ∀ u, u ≠ s.idle → SameActivity s s' u := by
  obtain ⟨queue, queued⟩ := good.queued
  unfold timerHandler at ran
  by_cases expired : s.timeSlice s.current = 0
  · have ticked : Queued { s with jiffies := (s.jiffies + 1) % 2 ^ 32 } queue :=
      ⟨queued.linked, queued.exact⟩
    rw [if_pos expired] at ran
    have effect := schedule_effect ticked ran
    exact effect
  · rw [if_neg expired] at ran
    cases ran
    exact ⟨rfl, fun _ _ => .inl rfl⟩

theorem kthreadBlock_effect {s s' : SchedState τ} {stat : TaskStatus} (good : Good s)
    (sleeping : stat.sleeping) (ran : kthreadBlock s stat = some s') :
    s'.idle = s.idle ∧ (∀ u, u ≠ s.idle → u ≠ s.current → SameActivity s s' u) ∧
      (s.current ≠ s.idle → s'.status s.current = stat) := by
  obtain ⟨queue, queued⟩ := good.queued
  rw [kthreadBlock, if_pos sleeping] at ran
  have blocked := queued.setStatus s.current stat (by rw [good.running]; decide)
    (not_ready_of_sleeping sleeping)
  obtain ⟨idle, effect⟩ := schedule_effect blocked ran
  refine ⟨idle, ?_, ?_⟩
  · intro u other elsewhere
    have later := effect u other
    simpa [SameActivity, Sched.setStatus, elsewhere] using later
  · intro busy
    rcases effect s.current busy with unchanged | ⟨active, -⟩
    · rw [unchanged]
      exact Function.update_self ..
    · simp only [Sched.setStatus, Function.update_self] at active
      rcases active with rfl | rfl <;> simp [TaskStatus.sleeping] at sleeping

/-- The idle thread stays active too, unless it blocks itself. -/
theorem schedule_idle_active {s s' : SchedState τ} {queue : List τ} (queued : Queued s queue)
    (ran : schedule s = some s') (active : Active (s.status s.idle)) : Active (s'.status s.idle) := by
  obtain ⟨-, -, status⟩ := requeue_frame s
  have kept : Active ((requeue s).status s.idle) := by
    rw [status]
    by_cases running : s.status s.current = .running
    · by_cases same : s.idle = s.current
      · simp [running, same, Active]
      · simpa [running, same] using active
    · simpa [running] using active
  cases shape : requeued s queue with
  | nil =>
    have awake : ¬ (s.status s.idle).sleeping := by
      rcases active with running | ready
      · rw [running]
        decide
      · rw [ready]
        decide
    rw [schedule_fails queued.linked queued.current_absent shape awake] at ran
    cases ran
  | cons t rest =>
    obtain ⟨next, picked, switched⟩ := schedule_switches queued.linked queued.current_absent shape
    cases picked.symm.trans ran
    rw [switched.status]
    by_cases same : s.idle = t
    · rw [same, Function.update_self]
      exact .inl rfl
    · rw [Function.update_of_ne same]
      exact kept

/-- A status that becomes ready or stays what it was. -/
theorem active_setReady {s : SchedState τ} {t u : τ} (active : Active (s.status u)) :
    Active ((setStatus s t .ready).status u) := by
  by_cases same : u = t
  · rw [same]
    exact .inr (Function.update_self ..)
  · rw [show (setStatus s t .ready).status u = s.status u from Function.update_of_ne same ..]
    exact active

theorem kthreadYield_active {s s' : SchedState τ} (good : Good s) (ran : kthreadYield s = some s') {u : τ}
    (active : Active (s.status u)) : Active (s'.status u) := by
  obtain ⟨queue, queued⟩ := good.queued
  by_cases idle : u = s.idle
  · subst idle
    have appended := queued.append (t := s.current) (by rw [good.running]; decide)
    have kept := schedule_idle_active appended ran (active_setReady active)
    exact kept
  · exact ((kthreadYield_effect good ran).2 u idle).active active

theorem timerHandler_active {s s' : SchedState τ} (good : Good s) (ran : timerHandler s = some s') {u : τ}
    (active : Active (s.status u)) : Active (s'.status u) := by
  obtain ⟨queue, queued⟩ := good.queued
  by_cases idle : u = s.idle
  · subst idle
    unfold timerHandler at ran
    by_cases expired : s.timeSlice s.current = 0
    · have ticked : Queued { s with jiffies := (s.jiffies + 1) % 2 ^ 32 } queue :=
        ⟨queued.linked, queued.exact⟩
      rw [if_pos expired] at ran
      have kept := schedule_idle_active ticked ran active
      exact kept
    · rw [if_neg expired] at ran
      cases ran
      exact active
  · exact ((timerHandler_effect good ran).2 u idle).active active

theorem kthreadBlock_active {s s' : SchedState τ} {stat : TaskStatus} (good : Good s)
    (sleeping : stat.sleeping) (ran : kthreadBlock s stat = some s') {u : τ} (other : u ≠ s.current)
    (active : Active (s.status u)) : Active (s'.status u) := by
  obtain ⟨queue, queued⟩ := good.queued
  by_cases idle : u = s.idle
  · subst idle
    rw [kthreadBlock, if_pos sleeping] at ran
    have blocked := queued.setStatus s.current stat (by rw [good.running]; decide)
      (not_ready_of_sleeping sleeping)
    apply schedule_idle_active blocked ran
    rw [show (setStatus s s.current stat).status (setStatus s s.current stat).idle = s.status s.idle from
      Function.update_of_ne other ..]
    exact active
  · exact ((kthreadBlock_effect good sleeping ran).2.1 u idle other).active active

/-! What a caller needs to know once the operation has returned. -/

theorem kthreadYield_result {s s' : SchedState τ} (good : Good s) (started : IdleStarted s)
    (ran : kthreadYield s = some s') : Good s' ∧ IdleStarted s' ∧ s'.idle = s.idle ∧
      ∀ u, u ≠ s.idle → SameActivity s s' u := by
  obtain ⟨next, again, good', started', -⟩ := kthreadYield_good good started
  cases again.symm.trans ran
  exact ⟨good', started', kthreadYield_effect good ran⟩

theorem timerHandler_result {s s' : SchedState τ} (good : Good s) (started : IdleStarted s)
    (ran : timerHandler s = some s') : Good s' ∧ IdleStarted s' ∧ s'.idle = s.idle ∧
      ∀ u, u ≠ s.idle → SameActivity s s' u := by
  obtain ⟨next, again, good', started'⟩ := timerHandler_good good started
  cases again.symm.trans ran
  exact ⟨good', started', timerHandler_effect good ran⟩

theorem kthreadBlock_result {s s' : SchedState τ} {stat : TaskStatus} (good : Good s)
    (started : IdleStarted s) (sleeping : stat.sleeping) (ran : kthreadBlock s stat = some s') :
    Good s' ∧ IdleStarted s' ∧ s'.idle = s.idle ∧
      (∀ u, u ≠ s.idle → u ≠ s.current → SameActivity s s' u) ∧
      (s.current ≠ s.idle → s'.status s.current = stat) := by
  obtain ⟨next, again, good', started', -⟩ := kthreadBlock_good good started sleeping
  cases again.symm.trans ran
  exact ⟨good', started', kthreadBlock_effect good sleeping ran⟩

/-- Thread 0 executes, thread 1 is the idle thread, and nobody is queued. -/
def quiet (idleStatus : TaskStatus) : SchedState Nat where
  ready := listInit Node.null ⟨fun _ => .null, fun _ => .null⟩ taskList
  all := listInit Node.null ⟨fun _ => .null, fun _ => .null⟩ taskList
  status t := if t = 1 then idleStatus else .running
  timeSlice _ := 0
  current := 0
  idle := 1
  jiffies := 0

theorem quiet_good (idleStatus : TaskStatus) (unqueued : idleStatus ≠ .ready)
    (alive : idleStatus ≠ .died) : Good (quiet idleStatus) := by
  refine ⟨⟨[], listInit_holds Node.null _ (apart_iff.mpr (by simp [taskList])) trivial trivial, ?_⟩, rfl, ?_⟩
  · intro t
    by_cases idle : t = 1
    · simp [quiet, idle, unqueued]
    · simp [quiet, idle]
  · simpa [quiet] using alive

/-- Threads 2 and 3 have been started and wait. -/
def crowded : SchedState Nat := kthreadRun (kthreadRun (quiet .blocked) 2) 3

theorem crowded_good : Good crowded ∧ IdleStarted crowded := by
  have one : Good (kthreadRun (quiet .blocked) 2) ∧ IdleStarted (kthreadRun (quiet .blocked) 2) :=
    kthreadRun_good (quiet_good .blocked (by decide) (by decide)) (.inr (by decide)) (by decide) (by decide)
  obtain ⟨good, started⟩ := one
  exact kthreadRun_good good started (by decide) (by decide)

theorem crowded_yields : ∃ s', apply crowded .yield = some s' ∧ Good s' ∧ IdleStarted s' :=
  apply_good crowded .yield crowded_good.1 crowded_good.2 trivial

/-- `kthread_init` has created the idle thread, and not yet started it. -/
def created : SchedState Nat := clearTask (quiet .blocked) 1

theorem clear_cleared {l : Links Nat} {x : Node Nat} (prev : l.prev x = .null) (next : l.next x = .null) :
    NodeStore.setNext (NodeStore.setPrev l x .null) x .null = l := by
  show Links.mk (Function.update l.prev x .null) (Function.update l.next x .null) = l
  rw [← next, Function.update_eq_self, next, ← prev, Function.update_eq_self]

theorem created_eq : created = quiet .running := by
  have status : Function.update (quiet .blocked).status 1 .running = (quiet .running).status := by
    funext t
    by_cases idle : t = 1
    · simp [quiet, idle]
    · simp [quiet, idle]
  have slice : Function.update (quiet .blocked).timeSlice 1 0 = (quiet .running).timeSlice := Function.update_eq_self ..
  unfold created clearTask
  rw [status, slice, clear_cleared rfl rfl, clear_cleared rfl rfl]
  rfl

/-- Two states of the plain invariant that are left: the idle thread was created and never
run, or the thread that is started is the one that executes. -/
theorem created_unstarted :
    Good created ∧ apply created (.block .blocked) = none ∧
      apply created (.run 0) = some (kthreadRun created 0) ∧ ¬ Good (kthreadRun created 0) := by
  refine ⟨?_, rfl, rfl, ?_⟩
  · rw [created_eq]
    exact quiet_good .running (by decide) (by decide)
  · intro good
    exact absurd good.running (by decide)

end KOS.SchedInvariant
