import KOS.SchedInvariant

/-! `kthread_exit` unlinks a node that `schedule` has already taken off the list, through
the links the node was left with. What that does depends on the front of the list then and now. -/

namespace KOS.Exit
open KOS.DoublyLinked KOS.KernelList KOS.Sched KOS.SchedInvariant NodeStore

variable {τ : Type*} [DecidableEq τ]

/-- What a thread may do to the scheduler and keep running. -/
inductive Call (τ : Type*) where
  | run (task : τ)
  | unblock (task : τ)

def call (s : SchedState τ) : Call τ → SchedState τ
  | .run task => kthreadRun s task
  | .unblock task => kthreadUnblock s task

def calls (s : SchedState τ) (made : List (Call τ)) : SchedState τ := made.foldl call s

/-- A thread that is started is not the current one and is not queued. -/
def Permitted (s : SchedState τ) : Call τ → Prop
  | .run task => task ≠ s.current ∧ s.status task ≠ .ready
  | .unblock _ => True

def AllPermitted : SchedState τ → List (Call τ) → Prop
  | _, [] => True
  | s, c :: rest => Permitted s c ∧ AllPermitted (call s c) rest

/-- After `kthread_exit` the ready list holds the other TASK_READY threads in their order,
less the one that was picked. -/
def LosesNobody (s : SchedState τ) : Prop :=
  ∃ queue, Queued s queue ∧
    ∃ s', kthreadExit s = some s' ∧ Queued s' (queue.erase s'.current)

/-- The running thread `cur` since it was picked from a list that held `queue`, with `front` first. -/
structure Since (cur : τ) (queue : List τ) (front : Node τ) (s : SchedState τ) : Prop where
  good : Good s
  started : IdleStarted s
  current : s.current = cur
  prev : s.ready.prev (.tag cur) = .head
  next : s.ready.next (.tag cur) = front
  grown : ∃ longer, Queued s longer ∧ queue ⊆ longer

theorem Since.run {cur task : τ} {queue : List τ} {front : Node τ} {s : SchedState τ}
    (since : Since cur queue front s) (permitted : Permitted s (.run task)) :
    Since cur queue front (kthreadRun s task) := by
  obtain ⟨other, unqueued⟩ := permitted
  obtain ⟨good, started, current, prev, next, longer, queued, grown⟩ := since
  obtain ⟨good', started'⟩ := kthreadRun_good good started other unqueued
  have absent : cur ∉ longer := queued.absent (by rw [← current, good.running]; decide)
  have away := listAppend_away (e := Node.tag task) queued.linked
    (tag_apart (current ▸ other)) (tag_away absent)
  have appended := queued.append unqueued
  refine ⟨good', started', current, away.2.trans prev, away.1.trans next, longer ++ [task],
    ⟨appended.linked, appended.exact⟩, ?_⟩
  intro t member
  exact List.mem_append_left _ (grown member)

theorem Since.unblock {cur : τ} (task : τ) {queue : List τ} {front : Node τ} {s : SchedState τ}
    (since : Since cur queue front s) : Since cur queue front (kthreadUnblock s task) := by
  obtain ⟨good', started'⟩ := kthreadUnblock_good task since.good since.started
  obtain ⟨good, started, current, prev, next, longer, queued, grown⟩ := since
  unfold kthreadUnblock at *
  by_cases sleeping : (s.status task).sleeping
  · rw [if_pos sleeping] at *
    have absent : cur ∉ longer := queued.absent (by rw [← current, good.running]; decide)
    have other : task ≠ cur := by
      rintro rfl
      rw [← current, good.running] at sleeping
      simp [TaskStatus.sleeping] at sleeping
    have away := listPush_away (e := Node.tag task) queued.linked
      (tag_apart other) (tag_away absent)
    have pushed := queued.push (not_ready_of_sleeping sleeping)
    refine ⟨good', started', current, away.2.trans prev, away.1.trans next, task :: longer, pushed, ?_⟩
    intro t member
    exact List.mem_cons_of_mem _ (grown member)
  · rw [if_neg sleeping] at *
    exact ⟨good, started, current, prev, next, longer, queued, grown⟩

theorem Since.calls {cur : τ} {queue : List τ} {front : Node τ} {s : SchedState τ}
    {made : List (Call τ)} (since : Since cur queue front s) (permitted : AllPermitted s made) :
    Since cur queue front (calls s made) := by
  induction made generalizing s with
  | nil => exact since
  | cons c rest ih =>
    obtain ⟨now, later⟩ := permitted
    apply ih _ later
    cases c with
    | run task => exact since.run now
    | unblock task => exact since.unblock task

theorem Since.start {s : SchedState τ} {queue : List τ} (good : Good s) (started : IdleStarted s)
    (picked : Picked s) (queued : Queued s queue) :
    Since s.current queue (s.ready.next .head) s :=
  ⟨good, started, rfl, picked.prev, picked.next, queue, queued, fun _ member => member⟩

/-- The stale node is joined out between the head and what followed it when it was picked. -/
theorem leave_ready {s : SchedState τ} (prev : s.ready.prev (.tag s.current) = .head) :
    (leave s).ready = join s.ready .head (s.ready.next (.tag s.current)) := by
  have apart : Apart (Links τ) (NodeStore.prev s.ready (Node.tag s.current)) (.tag s.current) := by
    show s.ready.prev (.tag s.current) ≠ _
    rw [prev]
    intro same
    cases same
  have joined := listRemove_eq_join apart
  rw [show NodeStore.prev s.ready (Node.tag s.current) = .head from prev] at joined
  exact joined

/-- A thread that has left is not requeued. -/
theorem leave_requeued (s : SchedState τ) (queue : List τ) :
    requeued (leave s) queue = queue ∧ requeue (leave s) = leave s ∧
      ((leave s).status (leave s).current = .running → (leave s).current ∉ queue) := by
  have died : (leave s).status (leave s).current = .died := Function.update_self ..
  have other : (leave s).status (leave s).current ≠ .running := by rw [died]; decide
  exact ⟨if_neg other, if_neg other, fun running => absurd running other⟩

/-- Unlinking the stale node drops everything in front of the thread it still points to. -/
theorem leave_linked {s : SchedState τ} (lost kept : List τ) (linked : Ready s (lost ++ kept))
    (prev : s.ready.prev (.tag s.current) = .head)
    (next : s.ready.next (.tag s.current) = firstNode kept) : Ready (leave s) kept := by
  obtain ⟨y, back, right⟩ : ∃ y back, kept.map Node.tag ++ [Node.tail] = y :: back :=
    List.exists_cons_of_ne_nil (by simp)
  have first : firstNode kept = y := by
    cases kept with
    | nil => exact (List.cons.inj right).1
    | cons t rest => exact (List.cons.inj right).1
  have whole : Threaded s.ready ([] ++ Node.head :: lost.map Node.tag ++ y :: back) := by
    rw [← right]
    simpa [Ready, Holds, taskList] using linked
  have joined := whole.bypass (lost.map Node.tag)
  rw [← first, ← next, ← leave_ready prev, next, first, List.nil_append, ← right] at joined
  exact joined

theorem leave_exact {s : SchedState τ} {queue : List τ} (good : Good s) (queued : Queued s queue) :
    ∀ t, t ∈ queue ↔ (leave s).status t = .ready :=
  (queued.setStatus s.current .died (by rw [good.running]; decide) (by decide)).exact

theorem losesNobody_of_front {s : SchedState τ} (good : Good s) (started : IdleStarted s)
    (prev : s.ready.prev (.tag s.current) = .head)
    (same : s.ready.next (.tag s.current) = s.ready.next .head)
    (supply : s.current = s.idle → s.ready.next .head ≠ .tail) : LosesNobody s := by
  obtain ⟨queue, queued⟩ := good.queued
  have front := queued.linked.first
  have left : Queued (leave s) queue :=
    ⟨leave_linked [] queue queued.linked prev (same.trans front), leave_exact good queued⟩
  obtain ⟨shape, unchanged, absent⟩ := leave_requeued s queue
  refine ⟨queue, queued, ?_⟩
  cases queue with
  | nil =>
    have idle : s.idle ≠ s.current := fun same => supply same.symm front
    have asleep : ((leave s).status s.idle).sleeping := by
      apply sleeping_of_not
      · exact (Function.update_of_ne idle ..).trans_ne (started.resolve_left idle)
      · intro ready
        exact List.not_mem_nil ((left.exact s.idle).mpr ready)
      · exact (Function.update_of_ne idle ..).trans_ne good.alive
    obtain ⟨s', ran, switched⟩ := schedule_idles left.linked absent shape asleep
    exact ⟨s', ran, switched_queued switched (fun u _ => by rw [unchanged]; exact left.exact u)⟩
  | cons t rest =>
    obtain ⟨s', ran, switched⟩ := schedule_switches left.linked absent shape
    refine ⟨s', ran, ?_⟩
    rw [switched.current, List.erase_cons_head]
    apply switched_queued switched
    intro u different
    rw [unchanged, ← left.exact u, List.mem_cons, or_iff_right different]

/-- An exit that leaves no list behind wakes the idle thread, which was not on it, or fails. -/
theorem exit_emptied {s s' : SchedState τ} {queue : List τ} (good : Good s) (queued : Queued s queue)
    (emptied : Ready (leave s) []) (ran : kthreadExit s = some s') :
    Ready s' [] ∧ s'.current ∉ queue ∧ s.idle ≠ s.current := by
  obtain ⟨shape, -, absent⟩ := leave_requeued s []
  by_cases asleep : ((leave s).status (leave s).idle).sleeping
  · obtain ⟨t, picked, switched⟩ := schedule_idles emptied absent shape asleep
    rw [kthreadExit, picked] at ran
    cases ran
    refine ⟨switched.linked, ?_, ?_⟩
    · rw [switched.current]
      intro member
      exact not_ready_of_sleeping asleep ((leave_exact good queued _).mp member)
    · intro same
      have died : (leave s).status (leave s).idle = .died := by
        rw [show (leave s).idle = s.current from same]
        exact Function.update_self ..
      rw [died] at asleep
      simp [TaskStatus.sleeping] at asleep
  · rw [kthreadExit, schedule_fails emptied absent shape asleep] at ran
    cases ran

theorem lost_of_front {s : SchedState τ} (lost kept : List τ) (good : Good s)
    (queued : Queued s (lost ++ kept)) (some_ : lost ≠ [])
    (prev : s.ready.prev (.tag s.current) = .head)
    (next : s.ready.next (.tag s.current) = firstNode kept) : ¬ LosesNobody s := by
  rintro ⟨queue, queued', s', ran, after⟩
  have same := queued'.linked.unique queued.linked
  subst same
  have left := leave_linked lost kept queued.linked prev next
  cases kept with
  | nil =>
    obtain ⟨linked, absent, -⟩ := exit_emptied good queued left ran
    rw [List.erase_of_not_mem absent] at after
    have none := after.linked.unique linked
    rw [List.append_nil] at none
    exact some_ none
  | cons m rest =>
    obtain ⟨shape, -, absent⟩ := leave_requeued s (m :: rest)
    obtain ⟨t, picked, switched⟩ := schedule_switches left absent shape
    rw [kthreadExit, picked] at ran
    cases ran
    have short := congrArg List.length (after.linked.unique switched.linked)
    rw [switched.current, List.length_erase_of_mem (by simp), List.length_append, List.length_cons] at short
    have long := List.length_pos_iff.mpr some_
    omega

theorem lost_of_idle {s : SchedState τ} (good : Good s) (queued : Queued s [])
    (prev : s.ready.prev (.tag s.current) = .head)
    (next : s.ready.next (.tag s.current) = .tail) (idle : s.current = s.idle) :
    ¬ LosesNobody s := by
  rintro ⟨-, -, s', ran, -⟩
  have left := leave_linked [] [] queued.linked prev next
  exact (exit_emptied good queued left ran).2.2 idle.symm

/-- A thread's exit loses nobody exactly when the front of the ready list is the one the
thread left behind when it was picked, and, for the idle thread, the list is not empty. -/
theorem kthreadExit_losesNobody_iff (s : SchedState τ) (made : List (Call τ)) (good : Good s)
    (started : IdleStarted s) (picked : Picked s) (permitted : AllPermitted s made) :
    LosesNobody (calls s made) ↔
      (calls s made).ready.next .head = s.ready.next .head ∧
        ((calls s made).current = (calls s made).idle → (calls s made).ready.next .head ≠ .tail) := by
  obtain ⟨queue, queued⟩ := good.queued
  have front := queued.linked.first
  obtain ⟨good', started', current, prev, next, longer, queued', grown⟩ :=
    (Since.start good started picked queued).calls permitted
  generalize calls s made = s' at *
  rw [← current] at prev next
  have front' := queued'.linked.first
  constructor
  · intro nobody
    have unmoved : s'.ready.next .head = s.ready.next .head := by
      by_contra moved
      cases queue with
      | nil =>
        apply lost_of_front longer [] good' (by simpa using queued') _ prev
          (next.trans front) nobody
        rintro rfl
        exact moved (front'.trans front.symm)
      | cons m rest =>
        obtain ⟨lost, kept, split⟩ := List.append_of_mem (grown List.mem_cons_self)
        subst split
        apply lost_of_front lost (m :: kept) good' queued' _ prev (next.trans front) nobody
        rintro rfl
        exact moved (front'.trans front.symm)
    refine ⟨unmoved, fun idle empty => ?_⟩
    cases longer with
    | nil => exact lost_of_idle good' queued' prev (next.trans (unmoved.symm.trans empty)) idle nobody
    | cons t rest =>
      rw [front'] at empty
      cases empty
  · rintro ⟨unmoved, supply⟩
    exact losesNobody_of_front good' started' prev (next.trans unmoved.symm) supply

theorem yielded_good {s : SchedState τ} (good : Good s) (started : IdleStarted s) :
    Good ((kthreadYield s).getD s) ∧ IdleStarted ((kthreadYield s).getD s) ∧ Picked ((kthreadYield s).getD s) := by
  obtain ⟨s', ran, good', started', picked⟩ := kthreadYield_good good started
  rw [ran, Option.getD_some]
  exact ⟨good', started', picked⟩

/-- Thread 2 has been picked, and threads 3 and 0 wait. -/
def second : SchedState Nat := (kthreadYield crowded).getD crowded

/-- Thread 2 starts thread 4, wakes nobody, and exits. -/
theorem second_losesNobody : LosesNobody (calls second [.run 4, .unblock 3]) := by
  obtain ⟨good, started, picked⟩ := yielded_good crowded_good.1 crowded_good.2
  exact (kthreadExit_losesNobody_iff second [.run 4, .unblock 3] good started picked
    ⟨⟨by decide, by decide⟩, trivial, trivial⟩).mpr (by decide)

/-- Thread 0 has yielded to itself: it was picked from a list that held nobody else. -/
def resumed : SchedState Nat := (kthreadYield (quiet .blocked)).getD (quiet .blocked)

theorem resumed_good : Good resumed ∧ IdleStarted resumed ∧ Picked resumed :=
  yielded_good (quiet_good .blocked (by decide) (by decide)) (.inr (by decide))

/-- Thread 0 starts thread 2 and exits: thread 2 is unlinked with it. -/
theorem resumed_loses_started :
    Good resumed ∧ IdleStarted resumed ∧ Picked resumed ∧ AllPermitted resumed [.run 2] ∧
      ¬ LosesNobody (calls resumed [.run 2]) := by
  obtain ⟨good, started, picked⟩ := resumed_good
  have permitted : Permitted resumed (.run 2) := ⟨by decide, by decide⟩
  refine ⟨good, started, picked, ⟨permitted, trivial⟩, ?_⟩
  obtain ⟨queue, queued⟩ := good.queued
  have empty : queue = [] := by
    have first : resumed.ready.next .head = .tail := by decide
    cases queue with
    | nil => rfl
    | cons t rest =>
      rw [queued.linked.first] at first
      cases first
  subst empty
  have appended := queued.append permitted.2
  apply lost_of_front [2] []
    (kthreadRun_good good started permitted.1 permitted.2).1 ⟨appended.linked, appended.exact⟩
  · decide
  · decide
  · decide

end KOS.Exit
