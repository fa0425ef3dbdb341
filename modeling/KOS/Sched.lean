import KOS.KernelList

/-! The scheduler state of `sched.c`, `thread.c` and `timer.c`: the two intrusive lists, the
status and time slice of every thread, and the thread that executes. Every operation below
runs with interrupts disabled, from the current thread or from the timer interrupt. -/

namespace KOS.Sched
open KOS.DoublyLinked KOS.KernelList NodeStore

inductive TaskStatus where
  | running
  | ready
  | blocked
  | waiting
  | hanging
  | died
  deriving DecidableEq

/-- A link field points to nothing, to a sentinel, or to the node embedded in a thread. -/
inductive Node (τ : Type*) where
  | null
  | head
  | tail
  | tag (t : τ)
  deriving DecidableEq

structure Links (τ : Type*) where
  prev : Node τ → Node τ
  next : Node τ → Node τ

variable {τ : Type*} [DecidableEq τ]

instance : NodeStore (Links τ) (Node τ) where
  prev s := s.prev
  next s := s.next
  setPrev s x v := { s with prev := Function.update s.prev x v }
  setNext s x v := { s with next := Function.update s.next x v }
  Apart x y := x ≠ y
  Fits _ := True
  apart_symm different := different.symm
  next_setNext _ _ _ _ := Function.update_self ..
  prev_setPrev _ _ _ _ := Function.update_self ..
  next_setNext_apart _ _ _ _ different := Function.update_of_ne different.symm ..
  prev_setPrev_apart _ _ _ _ different := Function.update_of_ne different.symm ..
  next_setPrev _ _ _ _ _ := rfl
  prev_setNext _ _ _ _ _ := rfl

@[simp] theorem next_setNext (l : Links τ) (x v : Node τ) :
    (NodeStore.setNext l x v).next = Function.update l.next x v := rfl
@[simp] theorem prev_setNext (l : Links τ) (x v : Node τ) : (NodeStore.setNext l x v).prev = l.prev := rfl
@[simp] theorem next_setPrev (l : Links τ) (x v : Node τ) : (NodeStore.setPrev l x v).next = l.next := rfl
@[simp] theorem prev_setPrev (l : Links τ) (x v : Node τ) :
    (NodeStore.setPrev l x v).prev = Function.update l.prev x v := rfl
@[simp] theorem store_next (l : Links τ) (x : Node τ) : NodeStore.next l x = l.next x := rfl
@[simp] theorem store_prev (l : Links τ) (x : Node τ) : NodeStore.prev l x = l.prev x := rfl

/-- `task_ready_list` and `task_all_list` are two stores with the same sentinels. -/
def taskList : KList (Node τ) := ⟨.head, .tail⟩

structure SchedState (τ : Type*) where
  ready : Links τ
  all : Links τ
  status : τ → TaskStatus
  timeSlice : τ → Nat
  current : τ
  /-- `g_idle_task`. -/
  idle : τ
  jiffies : Nat

def SYS_TICK_US : Nat := 10
def SCHED_RR_TIME_SLICE : Nat := 100 * 1000 / SYS_TICK_US

/-- The three states a thread can be blocked in, and woken from. -/
def TaskStatus.sleeping (stat : TaskStatus) : Prop :=
  stat = .blocked ∨ stat = .waiting ∨ stat = .hanging

instance (stat : TaskStatus) : Decidable stat.sleeping := inferInstanceAs (Decidable (_ ∨ _))

def setStatus (s : SchedState τ) (t : τ) (stat : TaskStatus) : SchedState τ :=
  { s with status := Function.update s.status t stat }

def resetSlice (s : SchedState τ) (t : τ) : SchedState τ :=
  { s with timeSlice := Function.update s.timeSlice t SCHED_RR_TIME_SLICE }

def appendReady (s : SchedState τ) (t : τ) : SchedState τ :=
  { s with ready := listAppend s.ready taskList (.tag t) }

def pushReady (s : SchedState τ) (t : τ) : SchedState τ :=
  { s with ready := listPush s.ready taskList (.tag t) }

def kthreadRun (s : SchedState τ) (task : τ) : SchedState τ :=
  let s := resetSlice (setStatus s task .ready) task
  let s := appendReady s task
  { s with all := listAppend s.all taskList (.tag task) }

def kthreadUnblock (s : SchedState τ) (task : τ) : SchedState τ :=
  if (s.status task).sleeping then pushReady (setStatus s task .ready) task else s

/-! `schedule`, in the order of its three steps. -/

def requeue (s : SchedState τ) : SchedState τ :=
  if s.status s.current = .running then
    appendReady (resetSlice (setStatus s s.current .ready) s.current) s.current
  else s

def wakeIdle (s : SchedState τ) : SchedState τ :=
  if listEmpty s.ready taskList then kthreadUnblock s s.idle else s

/-- `switch_to` a thread whose status has been set. -/
def switchTo (s : SchedState τ) (links : Links τ) (next : τ) : SchedState τ :=
  setStatus { s with ready := links, current := next } next .running

/-- `none` when the popped link is not the node of a thread: `switch_to` then loads a
stack pointer from wherever NULL or a sentinel leads. -/
def pick (s : SchedState τ) : Option (SchedState τ) :=
  match listPop s.ready taskList with
  | (some (.tag t), links) => some (switchTo s links t)
  | _ => none

def schedule (s : SchedState τ) : Option (SchedState τ) := pick (wakeIdle (requeue s))

def kthreadBlock (s : SchedState τ) (stat : TaskStatus) : Option (SchedState τ) :=
  if stat.sleeping then schedule (setStatus s s.current stat) else some s

def kthreadYield (s : SchedState τ) : Option (SchedState τ) :=
  schedule (appendReady (setStatus s s.current .ready) s.current)

/-- `timer_handler`, without the canary check. -/
def timerHandler (s : SchedState τ) : Option (SchedState τ) :=
  let s := { s with jiffies := (s.jiffies + 1) % 2 ^ 32 }
  if s.timeSlice s.current = 0 then schedule s
  else some { s with timeSlice := Function.update s.timeSlice s.current (s.timeSlice s.current - 1) }

/-- The unlinking half of `kthread_exit`, up to the release of the page. -/
def leave (s : SchedState τ) : SchedState τ :=
  let s := setStatus s s.current .died
  let s := { s with ready := listRemove s.ready (Node.tag s.current) }
  { s with all := listRemove s.all (Node.tag s.current) }

/-- `kthread_exit` when `page_free` meets no contended lock. -/
def kthreadExit (s : SchedState τ) : Option (SchedState τ) := schedule (leave s)

/-- `memset(task, 0, sizeof(struct task_struct))`: the zero status is TASK_RUNNING. -/
def clearTask (s : SchedState τ) (task : τ) : SchedState τ :=
  { s with
    status := Function.update s.status task .running
    timeSlice := Function.update s.timeSlice task 0
    ready := setNext (setPrev s.ready (Node.tag task) .null) (Node.tag task) .null
    all := setNext (setPrev s.all (Node.tag task) .null) (Node.tag task) .null }

/-- `kthread_init`, executed by the thread that becomes `main`. -/
def kthreadInit (s : SchedState τ) (idle main : τ) : SchedState τ :=
  let s := { s with ready := listInit Node.null s.ready taskList, all := listInit Node.null s.all taskList }
  let s := kthreadRun (clearTask { s with idle := idle } idle) idle
  kthreadRun (clearTask { s with current := main } main) main

/-! What one operation does to the queue. -/

/-- `task_ready_list` is well formed and holds `queue`, in this order. -/
def Ready (s : SchedState τ) (queue : List τ) : Prop := Holds s.ready taskList (queue.map Node.tag)

/-- The links the current thread was left with when `schedule` took it off the front. -/
structure Picked (s : SchedState τ) : Prop where
  prev : s.ready.prev (.tag s.current) = .head
  next : s.ready.next (.tag s.current) = s.ready.next .head

theorem apart_iff {x y : Node τ} : Apart (Links τ) x y ↔ x ≠ y := Iff.rfl

theorem not_apart_self (x : Node τ) : ¬ Apart (Links τ) x x := fun different => different rfl

/-- The node of a thread that is not queued is apart from the whole list. -/
theorem tag_fresh {queue : List τ} {t : τ} (absent : t ∉ queue) :
    ∀ z ∈ (taskList : KList (Node τ)).head :: queue.map Node.tag ++ [taskList.tail],
      Apart (Links τ) (Node.tag t) z := by
  intro z member same
  simp only [taskList, List.mem_append, List.mem_cons, List.mem_map, List.not_mem_nil, or_false] at member
  rcases member with (rfl | ⟨u, inside, rfl⟩) | rfl
  · cases same
  · cases same
    exact absent inside
  · cases same

theorem Ready.nodup {s : SchedState τ} {queue : List τ} (linked : Ready s queue) : queue.Nodup := by
  have apart := linked.apart.sublist (List.sublist_append_left _ _)
  have tags : (queue.map Node.tag).Nodup := (List.pairwise_cons.mp apart).2
  exact List.Nodup.of_map _ tags

theorem Ready.append {s : SchedState τ} {queue : List τ} {t : τ} (linked : Ready s queue)
    (absent : t ∉ queue) : Ready (appendReady s t) (queue ++ [t]) := by
  have appended := listAppend_holds linked trivial (tag_fresh absent)
  unfold Ready
  rw [List.map_append]
  exact appended

theorem Ready.push {s : SchedState τ} {queue : List τ} {t : τ} (linked : Ready s queue)
    (absent : t ∉ queue) : Ready (pushReady s t) (t :: queue) :=
  listPush_holds linked trivial (tag_fresh absent)

/-- The links of a thread that is not queued survive appending and pushing another thread. -/
theorem tag_away {queue : List τ} {t : τ} (absent : t ∉ queue) :
    ∀ z ∈ (taskList : KList (Node τ)).head :: queue.map Node.tag ++ [taskList.tail],
      Apart (Links τ) z (Node.tag t) := by
  intro z member
  exact apart_symm (tag_fresh absent z member)

theorem tag_apart {t u : τ} (different : t ≠ u) : Apart (Links τ) (Node.tag t) (Node.tag u) := by
  intro same
  cases same
  exact different rfl

/-- The node that follows the head of a list of threads. -/
def firstNode : List τ → Node τ
  | [] => .tail
  | t :: _ => .tag t

theorem Ready.first {s : SchedState τ} {queue : List τ} (linked : Ready s queue) :
    s.ready.next .head = firstNode queue := by
  cases queue with
  | nil => exact of_decide_eq_true ((listEmpty_iff linked not_apart_self).mpr rfl)
  | cons t rest => exact (Holds.first linked).1.1

theorem Ready.unique {s : SchedState τ} {queue others : List τ} (linked : Ready s queue)
    (linked' : Ready s others) : queue = others := by
  have same := Holds.unique not_apart_self linked linked'
  exact List.map_injective_iff.mpr (fun _ _ tags => Node.tag.inj tags) same

/-- Taking the front thread leaves its own links as they were. -/
theorem Ready.pick {s : SchedState τ} {t : τ} {rest : List τ} (linked : Ready s (t :: rest)) :
    ∃ s', pick s = some s' ∧ Ready s' rest ∧ Picked s' ∧ s'.current = t ∧ s'.idle = s.idle ∧
      s'.all = s.all ∧ s'.status = Function.update s.status t .running := by
  obtain ⟨popped, left⟩ := listPop_holds linked not_apart_self
  obtain ⟨back, forward⟩ := listRemove_keeps_links linked
  refine ⟨switchTo s (listRemove s.ready (Node.tag t)) t, ?_, left, ⟨back, forward⟩, rfl, rfl, rfl, rfl⟩
  rw [Sched.pick, popped]

theorem wakeIdle_cons {s : SchedState τ} {t : τ} {rest : List τ} (linked : Ready s (t :: rest)) :
    wakeIdle s = s := by
  have empty := listEmpty_iff linked not_apart_self
  rw [wakeIdle, if_neg]
  intro none
  exact absurd (empty.mp none) (List.cons_ne_nil _ _)

theorem wakeIdle_nil {s : SchedState τ} (linked : Ready s []) :
    wakeIdle s = kthreadUnblock s s.idle := by
  rw [wakeIdle, if_pos ((listEmpty_iff linked not_apart_self).mpr rfl)]

theorem pick_nil {s : SchedState τ} (linked : Ready s []) : pick s = none := by
  have empty := (listEmpty_iff linked not_apart_self).mpr rfl
  rw [pick, listPop, if_pos empty]

/-! `schedule` as a function of the queue. -/

/-- The queue after the first step of `schedule`. -/
def requeued (s : SchedState τ) (queue : List τ) : List τ :=
  if s.status s.current = .running then queue ++ [s.current] else queue

theorem requeue_ready {s : SchedState τ} {queue : List τ} (linked : Ready s queue)
    (absent : s.status s.current = .running → s.current ∉ queue) :
    Ready (requeue s) (requeued s queue) := by
  unfold requeue requeued
  by_cases running : s.status s.current = .running
  · rw [if_pos running, if_pos running]
    have unchanged : Ready (resetSlice (setStatus s s.current .ready) s.current) queue := linked
    exact unchanged.append (absent running)
  · rw [if_neg running, if_neg running]
    exact linked

theorem requeue_frame (s : SchedState τ) :
    (requeue s).idle = s.idle ∧ (requeue s).all = s.all ∧
      (requeue s).status = if s.status s.current = .running
        then Function.update s.status s.current .ready else s.status := by
  unfold requeue
  by_cases running : s.status s.current = .running
  · rw [if_pos running, if_pos running]
    exact ⟨rfl, rfl, rfl⟩
  · rw [if_neg running, if_neg running]
    exact ⟨rfl, rfl, rfl⟩

/-- `s'` is `s` with the current thread requeued and `t` taken off the front. -/
structure Switched (s : SchedState τ) (t : τ) (rest : List τ) (s' : SchedState τ) : Prop where
  linked : Ready s' rest
  fresh : t ∉ rest
  picked : Picked s'
  current : s'.current = t
  idle : s'.idle = s.idle
  all : s'.all = s.all
  status : s'.status = Function.update (requeue s).status t .running

theorem schedule_switches {s : SchedState τ} {queue : List τ} {t : τ} {rest : List τ}
    (linked : Ready s queue) (absent : s.status s.current = .running → s.current ∉ queue)
    (shape : requeued s queue = t :: rest) : ∃ s', schedule s = some s' ∧ Switched s t rest s' := by
  have linked' := requeue_ready linked absent
  rw [shape] at linked'
  obtain ⟨idle, all, -⟩ := requeue_frame s
  have fresh := (List.nodup_cons.mp linked'.nodup).1
  obtain ⟨s', picked, left, links, current, idle', all', status⟩ := linked'.pick
  refine ⟨s', ?_, left, fresh, links, current, idle'.trans idle, all'.trans all, status⟩
  rw [schedule, wakeIdle_cons linked', picked]

theorem requeue_of_empty {s : SchedState τ} {queue : List τ} (empty : requeued s queue = []) :
    requeue s = s := by
  rw [requeue, if_neg]
  intro running
  rw [requeued, if_pos running] at empty
  exact absurd empty (by simp)

/-- With an empty queue the idle thread is woken and picked at once. -/
theorem schedule_idles {s : SchedState τ} {queue : List τ} (linked : Ready s queue)
    (absent : s.status s.current = .running → s.current ∉ queue) (empty : requeued s queue = [])
    (asleep : (s.status s.idle).sleeping) :
    ∃ s', schedule s = some s' ∧ Switched s s.idle [] s' := by
  have same := requeue_of_empty empty
  have linked' := requeue_ready linked absent
  rw [empty, same] at linked'
  have woken : Ready (pushReady (setStatus s s.idle .ready) s.idle) [s.idle] :=
    Ready.push (s := setStatus s s.idle .ready) linked' List.not_mem_nil
  obtain ⟨s', picked, left, links, current, idle, all, status⟩ := woken.pick
  refine ⟨s', ?_, left, List.not_mem_nil, links, current, idle, all, ?_⟩
  · rw [schedule, same, wakeIdle_nil linked', kthreadUnblock, if_pos asleep, picked]
  · rw [status, same]
    exact Function.update_idem ..

/-- With an empty queue and an idle thread that is not asleep, NULL is popped. -/
theorem schedule_fails {s : SchedState τ} {queue : List τ} (linked : Ready s queue)
    (absent : s.status s.current = .running → s.current ∉ queue) (empty : requeued s queue = [])
    (awake : ¬ (s.status s.idle).sleeping) : schedule s = none := by
  have same := requeue_of_empty empty
  have linked' := requeue_ready linked absent
  rw [empty, same] at linked'
  rw [schedule, same, wakeIdle_nil linked', kthreadUnblock, if_neg awake, pick_nil linked']

end KOS.Sched
