import KOS.Exit
import KOS.Locks

/-! A thread that has exited stays dead as long as its `page_free` meets no contended lock:
contention sends it through `schedule`, which gives it back the status of a live thread. -/

namespace KOS.ExitRun
open KOS.DoublyLinked KOS.KernelList KOS.Sched KOS.SchedInvariant KOS.Locks KOS.Machine KOS.Exit

variable {κ τ : Type*} [DecidableEq κ] [DecidableEq τ]

/-! The scheduler when exits may have dropped ready threads from the list. -/

/-- The ready list is well formed and holds TASK_READY threads only. -/
structure Lined (s : SchedState τ) (queue : List τ) : Prop where
  linked : Ready s queue
  members : ∀ t ∈ queue, s.status t = .ready

/-- The current thread's node points from the head to a thread that is still queued, or to the tail. -/
structure Stale (s : SchedState τ) (queue : List τ) : Prop where
  prev : s.ready.prev (.tag s.current) = .head
  next : ∃ lost kept, queue = lost ++ kept ∧ s.ready.next (.tag s.current) = firstNode kept

/-- `s'` follows `s`, with a thread running that was not dead, and no dead thread revived. -/
structure Dispatched (s s' : SchedState τ) : Prop where
  idle : s'.idle = s.idle
  lined : ∃ queue, Lined s' queue ∧ Stale s' queue
  running : s'.status s'.current = .running
  alive : s'.status s'.idle ≠ .died
  dead : ∀ u, s.status u = .died → s'.status u = .died

theorem Lined.absent {s : SchedState τ} {queue : List τ} {t : τ} (lined : Lined s queue)
    (other : s.status t ≠ .ready) : t ∉ queue :=
  fun member => other (lined.members t member)

theorem Lined.setStatus {s : SchedState τ} {queue : List τ} (t : τ) (stat : TaskStatus)
    (lined : Lined s queue) (absent : t ∉ queue) : Lined (setStatus s t stat) queue := by
  refine ⟨lined.linked, ?_⟩
  intro u member
  have other : u ≠ t := fun same => absent (same ▸ member)
  exact (Function.update_of_ne other ..).trans (lined.members u member)

theorem Lined.append {s : SchedState τ} {queue : List τ} {t : τ} (lined : Lined s queue)
    (other : s.status t ≠ .ready) :
    Lined (appendReady (Sched.setStatus s t .ready) t) (queue ++ [t]) := by
  have absent := lined.absent other
  have kept := lined.setStatus t .ready absent
  refine ⟨kept.linked.append absent, ?_⟩
  intro u member
  rw [List.mem_append, List.mem_singleton] at member
  rcases member with old | rfl
  · exact kept.members u old
  · exact Function.update_self ..

theorem Lined.push {s : SchedState τ} {queue : List τ} {t : τ} (lined : Lined s queue)
    (other : s.status t ≠ .ready) :
    Lined (pushReady (Sched.setStatus s t .ready) t) (t :: queue) := by
  have absent := lined.absent other
  have kept := lined.setStatus t .ready absent
  refine ⟨kept.linked.push absent, ?_⟩
  intro u member
  rw [List.mem_cons] at member
  rcases member with rfl | old
  · exact Function.update_self ..
  · exact kept.members u old

theorem requeued_ready {s : SchedState τ} {queue : List τ} (lined : Lined s queue) :
    ∀ u ∈ requeued s queue, (requeue s).status u = .ready := by
  obtain ⟨-, -, status⟩ := requeue_frame s
  rw [status, requeued]
  intro u member
  by_cases running : s.status s.current = .running
  · rw [if_pos running] at member ⊢
    rw [List.mem_append, List.mem_singleton] at member
    rcases member with old | rfl
    · have other : u ≠ s.current := by
        rintro rfl
        rw [lined.members _ old] at running
        cases running
      rw [Function.update_of_ne other]
      exact lined.members u old
    · exact Function.update_self ..
  · rw [if_neg running] at member ⊢
    exact lined.members u member

theorem requeue_dead {s : SchedState τ} {u : τ} (dead : s.status u = .died) :
    (requeue s).status u = .died := by
  obtain ⟨-, -, status⟩ := requeue_frame s
  rw [status]
  by_cases running : s.status s.current = .running
  · have other : u ≠ s.current := by
      rintro rfl
      rw [dead] at running
      cases running
    rw [if_pos running, Function.update_of_ne other]
    exact dead
  · rw [if_neg running]
    exact dead

/-- The picked thread was requeued or is the idle thread; either way it was not dead. -/
theorem switched_dispatches {s s' : SchedState τ} {t : τ} {rest : List τ} (switched : Switched s t rest s')
    (members : ∀ u ∈ rest, (requeue s).status u = .ready) (picked : (requeue s).status t ≠ .died)
    (alive : (requeue s).status s.idle ≠ .died) : Dispatched s s' := by
  refine ⟨switched.idle, ⟨rest, ⟨switched.linked, ?_⟩, ⟨switched.picked.prev, [], rest, rfl, ?_⟩⟩, ?_, ?_, ?_⟩
  · intro u member
    have other : u ≠ t := fun same => switched.fresh (same ▸ member)
    rw [switched.status, Function.update_of_ne other]
    exact members u member
  · rw [switched.picked.next, switched.linked.first]
  · rw [switched.status, switched.current]
    exact Function.update_self ..
  · rw [switched.status, switched.idle]
    by_cases same : s.idle = t
    · simp [same]
    · rw [Function.update_of_ne same]
      exact alive
  · intro u dead
    have other : u ≠ t := by
      rintro rfl
      exact picked (requeue_dead dead)
    rw [switched.status, Function.update_of_ne other]
    exact requeue_dead dead

theorem schedule_dispatches {s s' : SchedState τ} {queue : List τ} (lined : Lined s queue)
    (alive : s.status s.idle ≠ .died) (ran : schedule s = some s') : Dispatched s s' := by
  have absent : s.status s.current = .running → s.current ∉ queue := by
    intro running
    exact lined.absent (by rw [running]; decide)
  have ready := requeued_ready lined
  have alive' : (requeue s).status s.idle ≠ .died := by
    obtain ⟨-, -, status⟩ := requeue_frame s
    rw [status]
    by_cases running : s.status s.current = .running
    · rw [if_pos running]
      by_cases same : s.idle = s.current
      · simp [same]
      · rw [Function.update_of_ne same]
        exact alive
    · rw [if_neg running]
      exact alive
  cases shape : requeued s queue with
  | nil =>
    by_cases asleep : (s.status s.idle).sleeping
    · obtain ⟨next, picked, switched⟩ := schedule_idles lined.linked absent shape asleep
      cases picked.symm.trans ran
      exact switched_dispatches switched (fun _ member => absurd member List.not_mem_nil) alive' alive'
    · rw [schedule_fails lined.linked absent shape asleep] at ran
      cases ran
  | cons t rest =>
    obtain ⟨next, picked, switched⟩ := schedule_switches lined.linked absent shape
    cases picked.symm.trans ran
    rw [shape] at ready
    apply switched_dispatches switched _ _ alive'
    · intro u member
      exact ready u (List.mem_cons_of_mem _ member)
    · rw [ready t List.mem_cons_self]
      decide

/-- The current thread changes its own status before it calls `schedule`. -/
theorem schedule_dispatches_after {s before s' : SchedState τ} {queue : List τ} (stat : TaskStatus)
    (lined : Lined before queue) (ran : schedule before = some s')
    (running : s.status s.current = .running) (alive : s.status s.idle ≠ .died) (other : stat ≠ .died)
    (changed : before.status = Function.update s.status s.current stat) (idle : before.idle = s.idle) :
    Dispatched s s' := by
  have alive' : before.status before.idle ≠ .died := by
    rw [changed, idle]
    by_cases same : s.idle = s.current
    · rw [same, Function.update_self]
      exact other
    · rw [Function.update_of_ne same]
      exact alive
  have done := schedule_dispatches lined alive' ran
  refine { done with idle := done.idle.trans idle, dead := ?_ }
  intro u dead
  apply done.dead
  have elsewhere : u ≠ s.current := by
    rintro rfl
    rw [dead] at running
    cases running
  rw [changed, Function.update_of_ne elsewhere]
  exact dead

theorem kthreadYield_dispatches {s s' : SchedState τ} {queue : List τ} (lined : Lined s queue)
    (running : s.status s.current = .running) (alive : s.status s.idle ≠ .died)
    (ran : kthreadYield s = some s') : Dispatched s s' := by
  have appended := lined.append (t := s.current) (by rw [running]; decide)
  exact schedule_dispatches_after .ready appended ran running alive (by decide) rfl rfl

theorem kthreadBlock_dispatches {s s' : SchedState τ} {queue : List τ} (lined : Lined s queue)
    (running : s.status s.current = .running) (alive : s.status s.idle ≠ .died)
    (ran : kthreadBlock s .blocked = some s') : Dispatched s s' := by
  rw [kthreadBlock, if_pos (.inl rfl)] at ran
  have blocked := lined.setStatus s.current .blocked (lined.absent (by rw [running]; decide))
  exact schedule_dispatches_after .blocked blocked ran running alive (by decide) rfl rfl

theorem timerHandler_dispatches {s s' : SchedState τ} {queue : List τ} (lined : Lined s queue)
    (stale : Stale s queue) (running : s.status s.current = .running) (alive : s.status s.idle ≠ .died)
    (ran : timerHandler s = some s') : Dispatched s s' := by
  unfold timerHandler at ran
  by_cases expired : s.timeSlice s.current = 0
  · rw [if_pos expired] at ran
    have ticked : Lined { s with jiffies := (s.jiffies + 1) % 2 ^ 32 } queue := ⟨lined.linked, lined.members⟩
    have done := schedule_dispatches ticked alive ran
    exact ⟨done.idle, done.lined, done.running, done.alive, done.dead⟩
  · rw [if_neg expired] at ran
    cases ran
    exact ⟨rfl, ⟨queue, ⟨lined.linked, lined.members⟩, stale.prev, stale.next⟩, running, alive, fun _ dead => dead⟩

/-- Unlinking the stale node leaves the queued threads from its successor on. -/
theorem leave_lined {s : SchedState τ} {queue : List τ} (lined : Lined s queue) (stale : Stale s queue)
    (running : s.status s.current = .running) : ∃ kept, Lined (leave s) kept := by
  obtain ⟨lost, kept, rfl, next⟩ := stale.next
  refine ⟨kept, leave_linked lost kept lined.linked stale.prev next, ?_⟩
  intro u member
  have old := lined.members u (List.mem_append_right _ member)
  have other : u ≠ s.current := by
    rintro rfl
    rw [old] at running
    cases running
  exact (Function.update_of_ne other ..).trans old

theorem kthreadUnblock_lined {s : SchedState τ} {queue : List τ} (u : τ) (lined : Lined s queue) :
    ∃ queue', Lined (kthreadUnblock s u) queue' ∧
      (s.status s.current = .running → Stale s queue → Stale (kthreadUnblock s u) queue') := by
  unfold kthreadUnblock
  by_cases sleeping : (s.status u).sleeping
  · rw [if_pos sleeping]
    refine ⟨u :: queue, lined.push (not_ready_of_sleeping sleeping), ?_⟩
    intro running stale
    have absent : s.current ∉ queue := lined.absent (by rw [running]; decide)
    have other : u ≠ s.current := by
      rintro rfl
      rw [running] at sleeping
      simp [TaskStatus.sleeping] at sleeping
    have away := listPush_away (e := Node.tag u) lined.linked (tag_apart other) (tag_away absent)
    obtain ⟨lost, kept, rfl, next⟩ := stale.next
    exact ⟨away.2.trans stale.prev, u :: lost, kept, rfl, away.1.trans next⟩
  · rw [if_neg sleeping]
    exact ⟨queue, lined, fun _ stale => stale⟩

/-! The machine. -/

/-- The next step finds the spinlock taken or the mutex owned. -/
def contends (k : Kernel κ τ) : Bool :=
  match k.pc k.sched.current with
  | .xchg c => k.slock c.mutex
  | .testOwner m => (k.owner m).isSome
  | _ => false

/-- A thread inside `kthread_exit` finds every lock free. -/
def Uncontended (k : Kernel κ τ) (e : Event κ) : Prop :=
  e = .exec → k.life k.sched.current = .exiting → contends k = false

instance (k : Kernel κ τ) : DecidablePred (Uncontended k) :=
  fun e => inferInstanceAs (Decidable (e = .exec → k.life k.sched.current = .exiting → contends k = false))

/-- The steps of the lock functions that contention does not lead to. -/
def Smooth : Pc κ τ → Prop
  | .watch _ | .yield _ | .park _ | .drop _ | .block _ | .parked _ => False
  | _ => True

structure Inv (k : Kernel κ τ) : Prop where
  lined : ∃ queue, Lined k.sched queue ∧ (k.life k.sched.current = .alive → Stale k.sched queue)
  running : k.life k.sched.current = .alive → k.sched.status k.sched.current = .running
  idle : k.life k.sched.idle = .alive
  alive : k.sched.status k.sched.idle ≠ .died
  dead : ∀ t, k.life t = .exiting ∨ k.life t = .gone → k.sched.status t = .died
  exiting : ∀ t, k.life t = .exiting → t = k.sched.current
  gone : ∀ t, k.life t = .gone → t ≠ k.sched.current
  final : ∀ t, k.life t ≠ .returned
  smooth : k.life k.sched.current = .exiting → Smooth (k.pc k.sched.current)

omit [DecidableEq κ] in
theorem Inv.goto {k : Kernel κ τ} {t : τ} {pc : Pc κ τ} (inv : Inv k)
    (smooth : k.life t = .exiting → Smooth pc) : Inv (goto k t pc) := by
  refine { inv with smooth := ?_ }
  intro exiting
  by_cases same : k.sched.current = t
  · subst same
    rw [show (Locks.goto k k.sched.current pc).sched.current = k.sched.current from rfl, goto_pc_self]
    exact smooth exiting
  · rw [show (Locks.goto k t pc).sched.current = k.sched.current from rfl, goto_pc_other k pc same]
    exact inv.smooth exiting

omit [DecidableEq κ] in
/-- A live thread that calls the scheduler leaves the processor to a live thread. -/
theorem Inv.dispatch {k : Kernel κ τ} {s : SchedState τ} (inv : Inv k)
    (alive : k.life k.sched.current = .alive) (done : Dispatched k.sched s) : Inv (setSched k s) := by
  have nobody : ∀ t, k.life t ≠ .exiting := by
    intro t exiting
    rw [inv.exiting t exiting, alive] at exiting
    cases exiting
  have others : ∀ t, k.life t = .gone → t ≠ s.current := by
    rintro t gone rfl
    have dead := done.dead _ (inv.dead _ (.inr gone))
    rw [done.running] at dead
    cases dead
  obtain ⟨queue, lined, stale⟩ := done.lined
  refine ⟨⟨queue, lined, fun _ => stale⟩, fun _ => done.running, ?_, done.alive, ?_, ?_, others, inv.final, ?_⟩
  · rw [setSched, done.idle]
    exact inv.idle
  · intro t ended
    exact done.dead t (inv.dead t ended)
  · intro t exiting
    exact absurd exiting (nobody t)
  · intro exiting
    exact absurd exiting (nobody _)

omit [DecidableEq κ] in
/-- `mutex_unlock` revives no dead thread either. -/
theorem Inv.unblock {k : Kernel κ τ} (u : τ) (inv : Inv k) :
    Inv (setSched k (kthreadUnblock k.sched u)) := by
  obtain ⟨queue, lined, stale⟩ := inv.lined
  obtain ⟨queue', lined', stale'⟩ := kthreadUnblock_lined u lined
  have kept : (kthreadUnblock k.sched u).current = k.sched.current ∧
      (kthreadUnblock k.sched u).idle = k.sched.idle := by
    unfold kthreadUnblock
    split_ifs <;> exact ⟨rfl, rfl⟩
  have awake : ∀ t, ¬ (k.sched.status t).sleeping →
      (kthreadUnblock k.sched u).status t = k.sched.status t := by
    intro t awake
    unfold kthreadUnblock
    split_ifs with sleeping
    · have other : t ≠ u := fun same => awake (same ▸ sleeping)
      exact Function.update_of_ne other ..
    · rfl
  have alive : (kthreadUnblock k.sched u).status k.sched.idle ≠ .died := by
    by_cases asleep : (k.sched.status k.sched.idle).sleeping
    · unfold kthreadUnblock
      split_ifs
      · by_cases same : k.sched.idle = u
        · simp [pushReady, setStatus, same]
        · exact (Function.update_of_ne same ..).trans_ne inv.alive
      · exact inv.alive
    · exact (awake _ asleep).trans_ne inv.alive
  generalize kthreadUnblock k.sched u = s at *
  obtain ⟨current, idle⟩ := kept
  refine ⟨⟨queue', lined', ?_⟩, ?_, ?_, ?_, ?_, ?_, ?_, inv.final, ?_⟩
  · intro life
    rw [setSched, current] at life
    exact stale' (inv.running life) (stale life)
  · intro life
    rw [setSched, current] at life ⊢
    have running := inv.running life
    rw [awake _ (by rw [running]; decide)]
    exact running
  · rw [setSched, idle]
    exact inv.idle
  · rw [setSched, idle]
    exact alive
  · intro t ended
    have dead := inv.dead t ended
    exact (awake t (by rw [dead]; decide)).trans dead
  · intro t exiting
    exact (inv.exiting t exiting).trans current.symm
  · intro t gone
    exact (inv.gone t gone).trans_eq current.symm
  · rw [setSched, current]
    exact inv.smooth

omit [DecidableEq κ] in
/-- The final `schedule` of `kthread_exit` does not requeue a dead thread. -/
theorem Inv.finish {k : Kernel κ τ} {s : SchedState τ} (inv : Inv k)
    (life : k.life k.sched.current = .exiting) (done : Dispatched k.sched s) :
    Inv (setLife (setSched k s) k.sched.current .gone) := by
  have died := done.dead _ (inv.dead _ (.inl life))
  have left : s.current ≠ k.sched.current := by
    intro same
    rw [← same, done.running] at died
    cases died
  have others : ∀ t, t ≠ k.sched.current →
      (setLife (setSched k s) k.sched.current .gone).life t = k.life t :=
    fun t other => Function.update_of_ne other ..
  have self : (setLife (setSched k s) k.sched.current .gone).life k.sched.current = .gone :=
    Function.update_self ..
  have nobody : ∀ t, (setLife (setSched k s) k.sched.current .gone).life t ≠ .exiting := by
    intro t exiting
    by_cases same : t = k.sched.current
    · rw [same, self] at exiting
      cases exiting
    · rw [others t same] at exiting
      exact same (inv.exiting t exiting)
  have dead : ∀ t, (setLife (setSched k s) k.sched.current .gone).life t = .gone → s.status t = .died := by
    intro t gone
    by_cases same : t = k.sched.current
    · rw [same]
      exact died
    · rw [others t same] at gone
      exact done.dead t (inv.dead t (.inr gone))
  obtain ⟨queue, lined, stale⟩ := done.lined
  refine ⟨⟨queue, lined, fun _ => stale⟩, fun _ => done.running, ?_, done.alive, ?_, ?_, ?_, ?_, ?_⟩
  · have other : k.sched.idle ≠ k.sched.current := by
      intro same
      rw [← same, inv.idle] at life
      cases life
    exact ((congrArg _ done.idle).trans (others _ other)).trans inv.idle
  · intro t ended
    exact dead t (ended.resolve_left (nobody t))
  · intro t exiting
    exact absurd exiting (nobody t)
  · rintro t gone rfl
    have ended := dead _ gone
    rw [show (setLife (setSched k s) k.sched.current .gone).sched.current = s.current from rfl,
      done.running] at ended
    cases ended
  · intro t
    by_cases same : t = k.sched.current
    · rw [same, self]
      decide
    · rw [others t same]
      exact inv.final t
  · intro exiting
    exact absurd exiting (nobody _)

omit [DecidableEq κ] in
theorem Inv.clientStep {k k' : Kernel κ τ} (inv : Inv k) (ran : clientStep k k.sched.current = some k') :
    Inv k' := by
  obtain ⟨queue, lined, -⟩ := inv.lined
  unfold Locks.clientStep at ran
  cases calls : k.todo k.sched.current with
  | cons c rest =>
    simp only [calls, Option.some.injEq] at ran
    subst ran
    have taken : Inv (setTodo k k.sched.current rest) := { inv with }
    exact taken.goto (fun _ => trivial)
  | nil =>
    cases life : k.life k.sched.current with
    | alive =>
      simp only [calls, life] at ran
      split_ifs at ran with idle
      · obtain ⟨s, blocked, rfl⟩ := Option.map_eq_some_iff.mp ran
        exact inv.dispatch life (kthreadBlock_dispatches lined (inv.running life) inv.alive blocked)
      · cases ran
        exact inv
    | exiting =>
      simp only [calls, life] at ran
      obtain ⟨s, scheduled, rfl⟩ := Option.map_eq_some_iff.mp ran
      exact inv.finish life (schedule_dispatches lined inv.alive scheduled)
    | gone => exact absurd rfl (inv.gone _ life)
    | returned => exact absurd life (inv.final _)

/-- A live thread may go anywhere; one that exits finds every lock free. -/
theorem Inv.exec {k k' : Kernel κ τ} (inv : Inv k) (free : Uncontended k .exec) (ran : exec k = some k') :
    Inv k' := by
  obtain ⟨queue, lined, -⟩ := inv.lined
  have free := free rfl
  have smooth := inv.smooth
  have living : k.life k.sched.current ≠ .exiting → k.life k.sched.current = .alive := by
    intro notExiting
    cases life : k.life k.sched.current with
    | alive => rfl
    | exiting => exact absurd life notExiting
    | gone => exact absurd rfl (inv.gone _ life)
    | returned => exact absurd life (inv.final _)
  unfold contends at free
  unfold Locks.exec at ran
  cases pc : k.pc k.sched.current with
  | client =>
    simp only [pc] at ran
    exact inv.clientStep ran
  | xchg c =>
    simp only [pc, Option.some.injEq] at ran free
    subst ran
    split_ifs with taken
    · apply inv.goto
      intro exiting
      rw [free exiting] at taken
      cases taken
    · have acquired : Inv (setSlock k c.mutex true) := { inv with }
      apply acquired.goto
      intro _
      cases c <;> trivial
  | watch c =>
    simp only [pc, Option.some.injEq] at ran smooth
    subst ran
    exact inv.goto (fun exiting => (smooth exiting).elim)
  | yield c =>
    simp only [pc] at ran smooth
    obtain ⟨s, yielded, rfl⟩ := Option.map_eq_some_iff.mp ran
    have life := living (fun exiting => smooth exiting)
    have later := inv.dispatch life (kthreadYield_dispatches lined (inv.running life) inv.alive yielded)
    exact later.goto (fun exiting => (smooth exiting).elim)
  | testOwner m =>
    simp only [pc, Option.some.injEq] at ran free
    subst ran
    apply inv.goto
    intro exiting
    have unowned : k.owner m = none := by simpa using free exiting
    rw [if_pos unowned]
    trivial
  | takeOwner m =>
    simp only [pc, Option.some.injEq] at ran
    subst ran
    have owned : Inv (setOwner k m (some k.sched.current)) := { inv with }
    exact owned.goto (fun _ => trivial)
  | park m =>
    simp only [pc, Option.some.injEq] at ran smooth
    subst ran
    have parked : Inv (setWaiters k m (k.waitList m ++ [k.sched.current])) := { inv with }
    exact parked.goto (fun exiting => (smooth exiting).elim)
  | drop m =>
    simp only [pc, Option.some.injEq] at ran smooth
    subst ran
    have dropped : Inv (setSlock k m false) := { inv with }
    exact dropped.goto (fun exiting => (smooth exiting).elim)
  | block m =>
    simp only [pc] at ran smooth
    obtain ⟨s, blocked, rfl⟩ := Option.map_eq_some_iff.mp ran
    have life := living (fun exiting => smooth exiting)
    have later := inv.dispatch life (kthreadBlock_dispatches lined (inv.running life) inv.alive blocked)
    exact later.goto (fun exiting => (smooth exiting).elim)
  | parked m =>
    simp only [pc, Option.some.injEq] at ran
    subst ran
    exact inv.goto (fun _ => trivial)
  | giveOwner m =>
    simp only [pc, Option.some.injEq] at ran
    subst ran
    have given : Inv (setOwner k m none) := { inv with }
    exact given.goto (fun _ => trivial)
  | testWaiters m =>
    simp only [pc, Option.some.injEq] at ran
    subst ran
    apply inv.goto
    intro _
    split_ifs <;> trivial
  | popWaiter m =>
    simp only [pc] at ran
    cases front : k.waitList m with
    | nil => simp [front] at ran
    | cons u rest =>
      simp only [front, Option.some.injEq] at ran
      subst ran
      have popped : Inv (setWaiters k m rest) := { inv with }
      exact popped.goto (fun _ => trivial)
  | wake m u =>
    simp only [pc, Option.some.injEq] at ran
    subst ran
    exact (inv.unblock u).goto (fun _ => trivial)
  | release m =>
    simp only [pc, Option.some.injEq] at ran
    subst ran
    have released : Inv (setSlock k m false) := { inv with }
    exact released.goto (fun _ => trivial)

omit [DecidableEq κ] in
/-- `kthread_exit` up to its `page_free`. -/
theorem Inv.exit {k : Kernel κ τ} (calls : List (Locks.Call κ)) (inv : Inv k) (ready : AtClient k) :
    Inv (setLife (setTodo (setSched k (leave k.sched)) k.sched.current calls) k.sched.current .exiting) := by
  obtain ⟨pc, -, life, busy⟩ := ready
  obtain ⟨queue, lined, stale⟩ := inv.lined
  obtain ⟨kept, left⟩ := leave_lined lined (stale life) (inv.running life)
  have self : (Function.update k.life k.sched.current .exiting) k.sched.current = .exiting :=
    Function.update_self ..
  have others : ∀ t, t ≠ k.sched.current →
      (Function.update k.life k.sched.current .exiting) t = k.life t :=
    fun t other => Function.update_of_ne other ..
  refine ⟨⟨kept, left, ?_⟩, ?_, (others _ busy.symm).trans inv.idle, ?_, ?_, ?_, ?_, ?_, ?_⟩
  · intro alive
    cases self.symm.trans alive
  · intro alive
    cases self.symm.trans alive
  · exact (Function.update_of_ne busy.symm ..).trans_ne inv.alive
  · intro t ended
    by_cases same : t = k.sched.current
    · rw [same]
      exact Function.update_self ..
    · have before : k.life t = .exiting ∨ k.life t = .gone := by
        rw [← others t same]
        exact ended
      exact (Function.update_of_ne same ..).trans (inv.dead t before)
  · intro t exiting
    by_contra other
    exact other (inv.exiting t ((others t other).symm.trans exiting))
  · rintro t gone rfl
    cases self.symm.trans gone
  · intro t returned
    by_cases same : t = k.sched.current
    · rw [same] at returned
      cases self.symm.trans returned
    · exact inv.final t ((others t same).symm.trans returned)
  · intro _
    change Smooth (k.pc k.sched.current)
    rw [pc]
    trivial

theorem Inv.step {k k' : Kernel κ τ} {e : Event κ} (inv : Inv k) (free : Uncontended k e)
    (moved : step k e = some k') : Inv k' := by
  cases e with
  | exec => exact inv.exec free moved
  | tick =>
    simp only [Locks.step] at moved
    split_ifs at moved with ended
    obtain ⟨s, ran, rfl⟩ := Option.map_eq_some_iff.mp moved
    obtain ⟨queue, lined, stale⟩ := inv.lined
    have life : k.life k.sched.current = .alive := by
      cases life : k.life k.sched.current with
      | alive => rfl
      | exiting => exact absurd (.inl life) ended
      | gone => exact absurd (.inr life) ended
      | returned => exact absurd life (inv.final _)
    exact inv.dispatch life
      (timerHandler_dispatches lined (stale life) (inv.running life) inv.alive ran)
  | enter calls =>
    simp only [Locks.step] at moved
    split_ifs at moved
    cases moved
    exact { inv with }
  | exit calls =>
    simp only [Locks.step] at moved
    split_ifs at moved with ready
    · cases moved
      exact inv.exit _ ready
    · cases moved
      exact inv.exit _ ready

/-! Threads that use `page_malloc` and `page_free`, and exit. -/

def PageUse : Event PageLock → Prop
  | .enter calls => (∃ cnt, PageAcquire cnt calls) ∨ ∃ cnt, calls = pageRelease cnt
  | .exit calls => calls = pageRelease 1
  | _ => True

/-- The scheduler invariant, with the current thread's links as `schedule` left them. -/
structure Start (k : Kernel κ τ) : Prop where
  good : Good k.sched
  picked : Picked k.sched
  outside : ∀ t, k.pc t = .client ∧ k.todo t = [] ∧ k.life t = .alive

/-- Inside `kthread_exit` with `page_free` done, or beyond. -/
def Finished (k : Kernel κ τ) (t : τ) : Prop :=
  k.life t = .exiting ∧ k.pc t = .client ∧ k.todo t = [] ∨ k.life t = .gone ∨ k.life t = .returned

/-- Such a thread is off the ready list, is not picked after its last `schedule`, and never
returns from it. -/
def StaysDead (k : Kernel κ τ) : Prop :=
  ∃ queue, Ready k.sched queue ∧ ∀ t, Finished k t →
    t ∉ queue ∧ (k.life t = .gone → t ≠ k.sched.current) ∧ k.life t ≠ .returned

omit [DecidableEq κ] in
theorem Start.inv {k : Kernel κ τ} (start : Start k) : Inv k := by
  obtain ⟨queue, queued⟩ := start.good.queued
  have life := fun t => (start.outside t).2.2
  have stale : Stale k.sched queue :=
    ⟨start.picked.prev, [], queue, rfl, start.picked.next.trans queued.linked.first⟩
  refine ⟨⟨queue, ⟨queued.linked, fun t => (queued.exact t).mp⟩, fun _ => stale⟩, fun _ => start.good.running,
    life _, start.good.alive, ?_, ?_, ?_, ?_, ?_⟩ <;> simp [life]

omit [DecidableEq κ] in
theorem Inv.staysDead {k : Kernel κ τ} (inv : Inv k) : StaysDead k := by
  obtain ⟨queue, lined, -⟩ := inv.lined
  refine ⟨queue, lined.linked, ?_⟩
  intro t finished
  refine ⟨?_, inv.gone t, inv.final t⟩
  have ended : k.life t = .exiting ∨ k.life t = .gone := by
    rcases finished with ⟨exiting, -⟩ | gone | returned
    · exact .inl exiting
    · exact .inr gone
    · exact absurd returned (inv.final t)
  exact lined.absent (by rw [inv.dead t ended]; decide)

/-- In every run in which the exiting threads find their locks free, they stay dead. -/
theorem reach_staysDead {k k' : Kernel PageLock τ} (start : Start k)
    (run : Reach step (fun k e => PageUse e ∧ Uncontended k e) k k') : StaysDead k' := by
  have inv : Inv k' := by
    refine Reach.invariant ?_ start.inv run
    intro before e after inv permitted moved
    exact inv.step permitted.2 moved
  exact inv.staysDead

/-! Thread 2 uses pages, thread 0 exits, thread 1 is idle. -/

def rotated : SchedState Nat :=
  (kthreadYield (appendReady (setStatus (quiet .blocked) 2 .ready) 2)).getD (quiet .blocked)

def pageUsers : Kernel PageLock Nat where
  sched := rotated
  main := 2
  slock _ := false
  owner _ := none
  waitList _ := []
  pc _ := .client
  todo _ := []
  life _ := .alive

theorem pageUsers_start : Start pageUsers := by
  obtain ⟨queue, queued⟩ := (quiet_good .blocked (by decide) (by decide)).queued
  have ready : Good (appendReady (setStatus (quiet .blocked) 2 .ready) 2) :=
    ⟨⟨_, queued.append (t := 2) (by decide)⟩, by decide, by decide⟩
  obtain ⟨s', ran, good, -, picked⟩ := kthreadYield_good ready (.inr (by decide))
  have same : pageUsers.sched = s' := by rw [pageUsers, rotated, ran, Option.getD_some]
  refine ⟨?_, ?_, fun _ => ⟨rfl, rfl, rfl⟩⟩
  · rw [same]
    exact good
  · rw [same]
    exact picked

/-- The events of the runs below. -/
def OnePage (e : Event PageLock) : Prop :=
  e = .exec ∨ e = .tick ∨ e = .enter (pageRelease 1) ∨ e = .exit (pageRelease 1)

instance : DecidablePred OnePage := fun _ => inferInstanceAs (Decidable (_ ∨ _))

theorem OnePage.pageUse {e : Event PageLock} (one : OnePage e) : PageUse e := by
  rcases one with rfl | rfl | rfl | rfl
  · trivial
  · trivial
  · exact .inr ⟨1, rfl⟩
  · exact rfl

/-- Thread 2 releases a page, and is preempted with no lock held. -/
def takesTurns : List (Event PageLock) :=
  .enter (pageRelease 1) :: List.replicate 30 .exec ++ .tick :: .exit (pageRelease 1) :: List.replicate 31 .exec

theorem takesTurns_plays : (play step (fun k e => OnePage e ∧ Uncontended k e) pageUsers takesTurns).isSome := by
  decide +kernel

theorem takesTurns_staysDead : StaysDead ((play step (fun k e => OnePage e ∧ Uncontended k e) pageUsers
    takesTurns).get takesTurns_plays) :=
  reach_staysDead pageUsers_start
    (Reach.mono (fun _ _ permitted => ⟨permitted.1.pageUse, permitted.2⟩)
      (reach_of_play (Option.some_get takesTurns_plays).symm))

/-- Thread 2 is preempted inside the critical section on the physical pool, and thread 0 exits. -/
def collides : List (Event PageLock) :=
  .enter (pageRelease 1) :: .exec :: .exec :: .tick :: .exit (pageRelease 1) :: List.replicate 4 .exec ++
    List.replicate 28 .exec ++ .exit (pageRelease 1) :: .exec :: List.replicate 32 .exec

theorem collides_plays : (play step (fun _ e => OnePage e) pageUsers collides).isSome := by
  decide +kernel

def revived : Kernel PageLock Nat := (play step (fun _ e => OnePage e) pageUsers collides).get collides_plays

theorem revived_returned : revived.life 0 = .returned := by
  decide +kernel

/-- Thread 0 returns from `kthread_exit`. -/
theorem pageUsers_revive : Start pageUsers ∧ Reach step (fun _ e => PageUse e) pageUsers revived ∧
    revived.life 0 = .returned ∧ ¬ StaysDead revived := by
  refine ⟨pageUsers_start, ?_, revived_returned, ?_⟩
  · exact Reach.mono (fun _ _ permitted => permitted.pageUse)
      (reach_of_play (Option.some_get collides_plays).symm)
  · rintro ⟨queue, -, dead⟩
    exact (dead 0 (.inr (.inr revived_returned))).2.2 revived_returned

end KOS.ExitRun
