import KOS.SchedInvariant
import KOS.Machine

/-! Runs from the state `kthread_init` leaves. The main thread executes there while it is
queued behind the idle thread, so its first reschedule decides whether the list survives. -/

namespace KOS.Boot
open KOS.DoublyLinked KOS.KernelList KOS.Sched KOS.SchedInvariant KOS.Machine

variable {τ : Type*} [DecidableEq τ]

/-- Every thread is as `kthread_create` leaves it: zero status, no links. -/
def blank (main : τ) : SchedState τ where
  ready := ⟨fun _ => .null, fun _ => .null⟩
  all := ⟨fun _ => .null, fun _ => .null⟩
  status _ := .running
  timeSlice _ := 0
  current := main
  idle := main
  jiffies := 0

def boot (idle main : τ) : SchedState τ := kthreadInit (blank main) idle main

/-- `kthread_run` gave the thread a place on `task_all_list`. -/
def Started (s : SchedState τ) (t : τ) : Prop := s.all.next (.tag t) ≠ .null

/-- Only threads fresh from `kthread_create` are started. -/
def StartsFresh (s : SchedState τ) : Op τ → Prop
  | .run task => ¬ Started s task
  | _ => True

instance (s : SchedState τ) : DecidablePred (StartsFresh s) := fun op => by
  cases op <;> unfold StartsFresh <;> unfold Started <;> infer_instance

def Linked (s : SchedState τ) (t : τ) : Prop := ∃ queue, Ready s queue ∧ t ∈ queue

/-- The steps that keep the list whole: a thread that yields is not linked, or is the last
one; a thread that is woken is not linked. -/
def Heals (s : SchedState τ) (op : Op τ) : Prop :=
  StartsFresh s op ∧
    match op with
    | .yield => Linked s s.current → s.ready.next (.tag s.current) = .tail
    | .unblock task => (s.status task).sleeping → ¬ Linked s task
    | _ => True

/-- Following `next` from the head meets every TASK_READY thread but the current one, and
no thread twice, before it reaches the tail. -/
def NoneLost (s : SchedState τ) : Prop :=
  ∃ queue : List τ, queue.Nodup ∧
    (Node.head :: queue.map Node.tag ++ [Node.tail]).IsChain (fun x y => s.ready.next x = y) ∧
    ∀ t, s.status t = .ready → t = s.current ∨ t ∈ queue

theorem noneLost_of_ready {s : SchedState τ} {queue : List τ} (linked : Ready s queue)
    (complete : ∀ t, s.status t = .ready → t ∈ queue) : NoneLost s :=
  ⟨queue, linked.nodup, linked.chain.imp (fun _ _ edge => edge.1), fun t ready => .inr (complete t ready)⟩

/-- The queue holds every TASK_READY thread; threads asleep may still be on it. -/
structure Complete (s : SchedState τ) (queue : List τ) : Prop where
  linked : Ready s queue
  complete : ∀ t, s.status t = .ready → t ∈ queue
  sound : ∀ t ∈ queue, s.status t = .ready ∨ (s.status t).sleeping
  alive : s.status s.idle ≠ .died
  registered : ∀ t, s.status t ≠ .running → Started s t

/-- After the first reschedule: the running thread is off the list. -/
structure Settled (s : SchedState τ) : Prop where
  queue : ∃ queue, Complete s queue
  running : s.status s.current = .running
  idleStarted : IdleStarted s
  started : Started s s.current

/-- Before it: main executes as TASK_READY behind the idle thread, and nobody sleeps. -/
structure Booting (idle main : τ) (s : SchedState τ) (rest : List τ) : Prop where
  complete : Complete s (idle :: main :: rest)
  current : s.current = main
  idle : s.idle = idle
  awake : ∀ t, ¬ (s.status t).sleeping
  executing : s.status main = .ready
  started : Started s main

theorem Complete.not_linked {s : SchedState τ} {queue : List τ} {t : τ} (whole : Complete s queue)
    (running : s.status t = .running) : t ∉ queue := by
  intro member
  have status := whole.sound t member
  rw [running] at status
  simp [TaskStatus.sleeping] at status

theorem Complete.insert {s s' : SchedState τ} {queue longer : List τ} {t : τ} (whole : Complete s queue)
    (linked : Ready s' longer) (members : ∀ u, u ∈ longer ↔ u = t ∨ u ∈ queue)
    (status : s'.status = Function.update s.status t .ready) (idle : s'.idle = s.idle)
    (started : Started s' t) (kept : ∀ u, Started s u → Started s' u) : Complete s' longer := by
  refine ⟨linked, ?_, ?_, ?_, ?_⟩
  · intro u ready
    rw [members]
    by_cases same : u = t
    · exact .inl same
    · rw [status, Function.update_of_ne same] at ready
      exact .inr (whole.complete u ready)
  · intro u member
    rw [status]
    by_cases same : u = t
    · simp [same]
    · rw [Function.update_of_ne same]
      exact whole.sound u (((members u).mp member).resolve_left same)
  · rw [status, idle]
    by_cases same : s.idle = t
    · simp [same]
    · rw [Function.update_of_ne same]
      exact whole.alive
  · intro u other
    by_cases same : u = t
    · rw [same]
      exact started
    · rw [status, Function.update_of_ne same] at other
      exact kept u (whole.registered u other)

theorem Complete.append {s : SchedState τ} {queue : List τ} {t : τ} (whole : Complete s queue)
    (absent : t ∉ queue) (started : Started s t) :
    Complete (appendReady (setStatus s t .ready) t) (queue ++ [t]) := by
  have linked : Ready (setStatus s t .ready) queue := whole.linked
  refine whole.insert (linked.append absent) ?_ rfl rfl started (fun _ before => before)
  intro u
  rw [List.mem_append, List.mem_singleton, or_comm]

theorem Complete.push {s : SchedState τ} {queue : List τ} {t : τ} (whole : Complete s queue)
    (absent : t ∉ queue) (started : Started s t) :
    Complete (pushReady (setStatus s t .ready) t) (t :: queue) := by
  have linked : Ready (setStatus s t .ready) queue := whole.linked
  refine whole.insert (linked.push absent) ?_ rfl rfl started (fun _ before => before)
  intro u
  rw [List.mem_cons]

/-- The picked thread comes off the list; the statuses of the others were set by `requeue`. -/
theorem switched_settled {s s' : SchedState τ} {t : τ} {rest : List τ} (switched : Switched s t rest s')
    (complete : ∀ u, u ≠ t → (requeue s).status u = .ready → u ∈ rest)
    (sound : ∀ u ∈ rest, (requeue s).status u = .ready ∨ ((requeue s).status u).sleeping)
    (alive : s.status s.idle ≠ .died) (idleStarted : IdleStarted s)
    (registered : ∀ u, (requeue s).status u ≠ .running → Started s u) (started : Started s t) :
    Settled s' := by
  obtain ⟨alive', waiting⟩ := requeue_idle alive idleStarted
  have all (u : τ) (before : Started s u) : Started s' u := by
    unfold Started
    rw [switched.all]
    exact before
  refine ⟨⟨rest, switched.linked, ?_, ?_, ?_, ?_⟩, ?_, ?_, ?_⟩
  · intro u ready
    rw [switched.status] at ready
    by_cases same : u = t
    · simp [same] at ready
    · rw [Function.update_of_ne same] at ready
      exact complete u same ready
  · intro u member
    have different : u ≠ t := fun same => switched.fresh (same ▸ member)
    rw [switched.status, Function.update_of_ne different]
    exact sound u member
  · rw [switched.status, switched.idle]
    by_cases same : s.idle = t
    · simp [same]
    · rw [Function.update_of_ne same]
      exact alive'
  · intro u other
    apply all
    rw [switched.status] at other
    by_cases same : u = t
    · simp [same] at other
    · rw [Function.update_of_ne same] at other
      exact registered u other
  · rw [switched.status, switched.current, Function.update_self]
  · rw [IdleStarted, switched.status, switched.idle, switched.current]
    by_cases same : s.idle = t
    · exact .inl same
    · rw [Function.update_of_ne same]
      exact .inr waiting
  · rw [switched.current]
    exact all t started

/-- `schedule` settles every complete state; a running thread is requeued behind the others. -/
theorem schedule_settled {s : SchedState τ} {queue : List τ} (whole : Complete s queue)
    (idleStarted : IdleStarted s) (started : Started s s.current) :
    ∃ s', schedule s = some s' ∧ Settled s' := by
  obtain ⟨-, -, status⟩ := requeue_frame s
  obtain ⟨alive', waiting⟩ := requeue_idle whole.alive idleStarted
  have absent : s.status s.current = .running → s.current ∉ queue := whole.not_linked
  have requeuedWhole : (∀ u, (requeue s).status u = .ready → u ∈ requeued s queue) ∧
      (∀ u ∈ requeued s queue, (requeue s).status u = .ready ∨ ((requeue s).status u).sleeping) ∧
      ∀ u, (requeue s).status u ≠ .running → Started s u := by
    rw [status, requeued]
    by_cases running : s.status s.current = .running
    · rw [if_pos running, if_pos running]
      have appended := whole.append (absent running) started
      exact ⟨appended.complete, appended.sound, appended.registered⟩
    · rw [if_neg running, if_neg running]
      exact ⟨whole.complete, whole.sound, whole.registered⟩
  obtain ⟨complete, sound, registered⟩ := requeuedWhole
  cases shape : requeued s queue with
  | nil =>
    rw [shape] at complete
    have same := requeue_of_empty shape
    rw [same] at waiting complete registered
    have asleep : (s.status s.idle).sleeping := by
      apply sleeping_of_not waiting _ whole.alive
      intro ready
      exact List.not_mem_nil (complete s.idle ready)
    obtain ⟨s', ran, switched⟩ := schedule_idles whole.linked absent shape asleep
    refine ⟨s', ran, switched_settled switched ?_ ?_ whole.alive idleStarted ?_ ?_⟩
    · intro u _ ready
      rw [same] at ready
      exact complete u ready
    · intro u member
      exact absurd member List.not_mem_nil
    · rw [same]
      exact registered
    · exact registered s.idle waiting
  | cons t rest =>
    rw [shape] at complete sound
    obtain ⟨s', ran, switched⟩ := schedule_switches whole.linked absent shape
    refine ⟨s', ran, switched_settled switched ?_ ?_ whole.alive idleStarted registered ?_⟩
    · intro u different ready
      exact (List.mem_cons.mp (complete u ready)).resolve_left different
    · intro u member
      exact sound u (List.mem_cons_of_mem _ member)
    · apply registered
      intro running
      have picked := sound t List.mem_cons_self
      rw [running] at picked
      simp [TaskStatus.sleeping] at picked

/-! Steps from a settled state. -/

theorem append_all_next (all : Links τ) (t u : τ) :
    (listAppend all taskList (Node.tag t)).next (.tag t) ≠ .null ∧
      (all.next (.tag u) ≠ .null → (listAppend all taskList (Node.tag t)).next (.tag u) ≠ .null) := by
  simp only [listAppend, listInsert, taskList, Sched.next_setNext, Sched.next_setPrev, store_prev,
    Function.update_apply]
  constructor
  · simp
  · intro before
    split_ifs <;> simp_all

theorem Settled.run {s : SchedState τ} {t : τ} (settled : Settled s) (fresh : ¬ Started s t) :
    Settled (kthreadRun s t) := by
  obtain ⟨⟨queue, whole⟩, running, idleStarted, started⟩ := settled
  have born : s.status t = .running := by
    by_contra other
    exact fresh (whole.registered t other)
  have different : s.current ≠ t := fun same => fresh (same ▸ started)
  have linked : Ready (resetSlice (setStatus s t .ready) t) queue := whole.linked
  have appended := linked.append (whole.not_linked born)
  have kept (u : τ) (before : Started s u) : Started (kthreadRun s t) u :=
    (append_all_next s.all t u).2 before
  refine ⟨⟨queue ++ [t], whole.insert appended ?_ rfl rfl (append_all_next s.all t t).1 kept⟩, ?_, ?_, ?_⟩
  · intro u
    rw [List.mem_append, List.mem_singleton, or_comm]
  · exact (Function.update_of_ne different ..).trans running
  · by_cases same : s.idle = t
    · right
      simp [kthreadRun, appendReady, resetSlice, setStatus, same]
    · exact idleStarted.imp_right (fun waiting => (Function.update_of_ne same ..).trans_ne waiting)
  · exact kept s.current started

theorem Settled.yield {s : SchedState τ} (settled : Settled s) :
    ∃ s', kthreadYield s = some s' ∧ Settled s' := by
  obtain ⟨⟨queue, whole⟩, running, idleStarted, started⟩ := settled
  apply schedule_settled (whole.append (whole.not_linked running) started)
  · by_cases same : s.idle = s.current
    · exact .inl same
    · exact .inr ((Function.update_of_ne same ..).trans_ne (idleStarted.resolve_left same))
  · exact started

theorem Complete.sleep {s : SchedState τ} {queue : List τ} {t : τ} {stat : TaskStatus}
    (whole : Complete s queue) (sleeping : stat.sleeping) (started : Started s t) :
    Complete (setStatus s t stat) queue := by
  refine ⟨whole.linked, ?_, ?_, ?_, ?_⟩
  · intro u ready
    by_cases same : u = t
    · subst same
      simp only [setStatus, Function.update_self] at ready
      exact absurd ready (not_ready_of_sleeping sleeping)
    · simp only [setStatus, Function.update_of_ne same] at ready
      exact whole.complete u ready
  · intro u member
    by_cases same : u = t
    · subst same
      simp only [setStatus, Function.update_self]
      exact .inr sleeping
    · simp only [setStatus, Function.update_of_ne same]
      exact whole.sound u member
  · by_cases same : s.idle = t
    · simp only [setStatus, same, Function.update_self]
      rintro rfl
      simp [TaskStatus.sleeping] at sleeping
    · exact (Function.update_of_ne same ..).trans_ne whole.alive
  · intro u other
    by_cases same : u = t
    · rw [same]
      exact started
    · simp only [setStatus, Function.update_of_ne same] at other
      exact whole.registered u other

theorem sleep_idleStarted {s : SchedState τ} {stat : TaskStatus} (idleStarted : IdleStarted s) :
    IdleStarted (setStatus s s.current stat) := by
  by_cases same : s.idle = s.current
  · exact .inl same
  · exact .inr ((Function.update_of_ne same ..).trans_ne (idleStarted.resolve_left same))

theorem Settled.unblock {s : SchedState τ} {t : τ} (settled : Settled s)
    (unlinked : (s.status t).sleeping → ¬ Linked s t) : Settled (kthreadUnblock s t) := by
  unfold kthreadUnblock
  by_cases sleeping : (s.status t).sleeping
  · rw [if_pos sleeping]
    obtain ⟨⟨queue, whole⟩, running, idleStarted, started⟩ := settled
    have absent : t ∉ queue := fun member => unlinked sleeping ⟨queue, whole.linked, member⟩
    have awake {u : τ} (active : s.status u = .running) : u ≠ t := by
      rintro rfl
      rw [active] at sleeping
      simp [TaskStatus.sleeping] at sleeping
    have other : s.status t ≠ .running := fun active => awake active rfl
    refine ⟨⟨t :: queue, whole.push absent (whole.registered t other)⟩, ?_, ?_, started⟩
    · exact (Function.update_of_ne (awake running) ..).trans running
    · by_cases same : s.idle = t
      · right
        simp [pushReady, setStatus, same]
      · exact idleStarted.imp_right (fun waiting => (Function.update_of_ne same ..).trans_ne waiting)
  · rw [if_neg sleeping]
    exact settled

theorem Settled.step {s : SchedState τ} {op : Op τ} (settled : Settled s) (heals : Heals s op) :
    ∃ s', apply s op = some s' ∧ Settled s' := by
  obtain ⟨fresh, kept⟩ := heals
  cases op with
  | run task => exact ⟨_, rfl, settled.run fresh⟩
  | yield => exact settled.yield
  | block stat =>
    by_cases sleeping : stat.sleeping
    · obtain ⟨⟨queue, whole⟩, -, idleStarted, started⟩ := settled
      simp only [apply, kthreadBlock, if_pos sleeping]
      exact schedule_settled (whole.sleep sleeping started) (sleep_idleStarted idleStarted) started
    · exact ⟨s, if_neg sleeping, settled⟩
  | unblock task => exact ⟨_, rfl, settled.unblock kept⟩
  | tick =>
    obtain ⟨⟨queue, whole⟩, running, idleStarted, started⟩ := settled
    simp only [apply, timerHandler]
    by_cases expired : s.timeSlice s.current = 0
    · rw [if_pos expired]
      exact schedule_settled ⟨whole.linked, whole.complete, whole.sound, whole.alive, whole.registered⟩
        idleStarted started
    · rw [if_neg expired]
      exact ⟨_, rfl, ⟨queue, whole.linked, whole.complete, whole.sound, whole.alive, whole.registered⟩,
        running, idleStarted, started⟩

/-! Steps before the first reschedule. -/

theorem Booting.idleStarted {idle main : τ} {s : SchedState τ} {rest : List τ}
    (booting : Booting idle main s rest) : IdleStarted s := by
  right
  rw [booting.idle]
  intro running
  exact booting.complete.not_linked running List.mem_cons_self

theorem Booting.run {idle main t : τ} {s : SchedState τ} {rest : List τ}
    (booting : Booting idle main s rest) (fresh : ¬ Started s t) :
    Booting idle main (kthreadRun s t) (rest ++ [t]) := by
  obtain ⟨whole, current, idle', awake, executing, started⟩ := booting
  have born : s.status t = .running := by
    by_contra other
    exact fresh (whole.registered t other)
  have linked : Ready (resetSlice (setStatus s t .ready) t) (idle :: main :: rest) := whole.linked
  have appended := linked.append (whole.not_linked born)
  have kept (u : τ) (before : Started s u) : Started (kthreadRun s t) u :=
    (append_all_next s.all t u).2 before
  refine ⟨whole.insert appended ?_ rfl rfl (append_all_next s.all t t).1 kept, current, idle', ?_, ?_,
    kept main started⟩
  · intro u
    simp only [List.mem_cons, List.mem_append, List.not_mem_nil]
    tauto
  · intro u
    by_cases same : u = t
    · simp [kthreadRun, appendReady, resetSlice, setStatus, same, TaskStatus.sleeping]
    · simp [kthreadRun, appendReady, resetSlice, setStatus, same, awake]
  · by_cases same : main = t
    · simp [kthreadRun, appendReady, resetSlice, setStatus, same]
    · exact (Function.update_of_ne same ..).trans executing

/-- Main appends itself although it is the last element, and `schedule` takes the idle thread
off the front: the two edits repair each other. -/
theorem reappend_last {links : Links τ} {idle main : τ} (different : idle ≠ main)
    (linked : Holds links taskList [Node.tag idle, Node.tag main]) :
    Holds (listRemove (listAppend links taskList (Node.tag main)) (Node.tag idle)) taskList
        [Node.tag main] ∧
      listEmpty (listAppend links taskList (Node.tag main)) taskList = false ∧
      (listAppend links taskList (Node.tag main)).next .head = .tag idle := by
  have chain := linked.chain
  simp only [taskList, List.cons_append, List.nil_append, List.isChain_cons_cons, Edge, store_next,
    store_prev] at chain
  obtain ⟨⟨headNext, idlePrev⟩, ⟨idleNext, mainPrev⟩, ⟨mainNext, tailPrev⟩, -⟩ := chain
  have tags : (Node.tag idle : Node τ) ≠ .tag main := fun same => different (Node.tag.inj same)
  refine ⟨⟨?_, ?_, fun _ _ => trivial⟩, ?_, ?_⟩
  · simp only [taskList, List.cons_append, List.nil_append, List.isChain_cons_cons, Edge,
      List.isChain_singleton, and_true]
    simp [listRemove, listAppend, listInsert, tailPrev, idlePrev, idleNext, different]
  · simp [taskList, apart_iff]
  · simp [listEmpty, listAppend, listInsert, taskList, tailPrev, headNext]
  · simp [listAppend, listInsert, taskList, tailPrev, headNext]

theorem Booting.nobody_behind {idle main : τ} {s : SchedState τ} {rest : List τ}
    (booting : Booting idle main s rest) (last : s.ready.next (.tag main) = .tail) : rest = [] := by
  cases rest with
  | nil => rfl
  | cons u more =>
    have linked : Threaded s.ready ([Node.head, Node.tag idle] ++
        Node.tag main :: Node.tag u :: (more.map Node.tag ++ [Node.tail])) := booting.complete.linked
    have edge := (neighbours _ _ linked).1.1
    rw [store_next, last] at edge
    cases edge

theorem Booting.yield {idle main : τ} {s : SchedState τ} {rest : List τ}
    (booting : Booting idle main s rest) (last : s.ready.next (.tag main) = .tail) :
    ∃ s', kthreadYield s = some s' ∧ Settled s' := by
  have alone := booting.nobody_behind last
  obtain ⟨whole, current, idle', awake, executing, started⟩ := booting
  subst alone
  have different : idle ≠ main := by
    have distinct := whole.linked.nodup
    simpa using distinct
  obtain ⟨linked, filled, front⟩ := reappend_last different whole.linked
  generalize view : appendReady (setStatus s s.current .ready) s.current = s1
  have links : s1.ready = listAppend s.ready taskList (Node.tag main) := by
    rw [← view, ← current]
    rfl
  have ready : s1.status = Function.update s.status main .ready := by
    rw [← view, ← current]
    rfl
  have same : requeue s1 = s1 := by
    rw [requeue, if_neg]
    rw [← view]
    simp [appendReady, setStatus]
  have picked : schedule s1 = some (switchTo s1 (listRemove s1.ready (Node.tag idle)) idle) := by
    rw [← links] at filled front
    have full : ¬ listEmpty s1.ready taskList = true := by rw [filled]; exact Bool.false_ne_true
    rw [schedule, same, wakeIdle, if_neg full, pick, listPop, if_neg full, store_next]
    rw [show (taskList : KList (Node τ)).head = Node.head from rfl, front]
  refine ⟨_, by rw [kthreadYield, view, picked], ?_⟩
  have all : s1.all = s.all := by rw [← view]; rfl
  have pointer : s1.idle = idle := by rw [← view]; exact idle'
  have kept (u : τ) (before : s.status u ≠ .running) : s1.all.next (.tag u) ≠ .null := by
    rw [all]
    exact whole.registered u before
  refine ⟨⟨[main], ?_, ?_, ?_, ?_, ?_⟩, ?_, ?_, ?_⟩
  · rw [← links] at linked
    exact linked
  · intro u now
    have other : u ≠ idle := by
      rintro rfl
      simp [switchTo, setStatus] at now
    simp only [switchTo, setStatus, Function.update_of_ne other, ready] at now
    by_cases here : u = main
    · simp [here]
    · rw [Function.update_of_ne here] at now
      have member := whole.complete u now
      simp [other, here] at member
  · intro u member
    rw [List.mem_singleton] at member
    subst member
    left
    simp [switchTo, setStatus, ready, Function.update_of_ne different.symm]
  · simp [switchTo, setStatus, pointer]
  · intro u other
    have elsewhere : u ≠ idle := by
      rintro rfl
      simp [switchTo, setStatus] at other
    simp only [switchTo, setStatus, Function.update_of_ne elsewhere, ready] at other
    by_cases here : u = main
    · subst here
      exact kept u (by rw [executing]; decide)
    · rw [Function.update_of_ne here] at other
      exact kept u other
  · simp [switchTo, setStatus]
  · exact .inl pointer
  · apply kept idle
    intro running
    exact whole.not_linked running List.mem_cons_self

theorem Booting.step {idle main : τ} {s : SchedState τ} {rest : List τ} {op : Op τ}
    (booting : Booting idle main s rest) (heals : Heals s op) :
    ∃ s', apply s op = some s' ∧ (Settled s' ∨ ∃ more, Booting idle main s' more) := by
  obtain ⟨fresh, kept⟩ := heals
  have idleStarted := booting.idleStarted
  have started : Started s s.current := by
    rw [booting.current]
    exact booting.started
  have whole := booting.complete
  cases op with
  | run task => exact ⟨_, rfl, .inr ⟨_, booting.run fresh⟩⟩
  | yield =>
    have linked : Linked s s.current := ⟨_, whole.linked, by simp [booting.current]⟩
    have last := kept linked
    rw [booting.current] at last
    obtain ⟨s', ran, settled⟩ := booting.yield last
    exact ⟨s', ran, .inl settled⟩
  | block stat =>
    by_cases sleeping : stat.sleeping
    · obtain ⟨s', ran, settled⟩ :=
        schedule_settled (whole.sleep sleeping started) (sleep_idleStarted idleStarted) started
      refine ⟨s', ?_, .inl settled⟩
      rw [apply, kthreadBlock, if_pos sleeping, ran]
    · exact ⟨s, if_neg sleeping, .inr ⟨rest, booting⟩⟩
  | unblock task =>
    refine ⟨s, ?_, .inr ⟨rest, booting⟩⟩
    rw [apply, kthreadUnblock, if_neg (booting.awake task)]
  | tick =>
    simp only [apply, timerHandler]
    by_cases expired : s.timeSlice s.current = 0
    · rw [if_pos expired]
      obtain ⟨s', ran, settled⟩ := schedule_settled
        (s := { s with jiffies := (s.jiffies + 1) % 2 ^ 32 })
        ⟨whole.linked, whole.complete, whole.sound, whole.alive, whole.registered⟩ idleStarted started
      exact ⟨s', ran, .inl settled⟩
    · rw [if_neg expired]
      refine ⟨_, rfl, .inr ⟨rest, ⟨whole.linked, whole.complete, whole.sound, whole.alive,
        whole.registered⟩, booting.current, booting.idle, booting.awake, booting.executing,
        booting.started⟩⟩

theorem boot_status {idle main : τ} (different : idle ≠ main) (t : τ) :
    (boot idle main).status t = if t = idle ∨ t = main then .ready else .running := by
  simp only [boot, kthreadInit, kthreadRun, clearTask, blank, appendReady, resetSlice, setStatus,
    Function.update_apply]
  split_ifs <;> simp_all

theorem boot_ready {idle main : τ} (different : idle ≠ main) :
    Ready (boot idle main) [idle, main] := by
  refine ⟨?_, ?_, fun _ _ => trivial⟩
  · simp only [taskList, List.map_cons, List.map_nil, List.cons_append, List.nil_append,
      List.isChain_cons_cons, Edge, List.isChain_singleton, and_true]
    simp [boot, kthreadInit, kthreadRun, clearTask, blank, appendReady, resetSlice, setStatus,
      listInit, listAppend, listInsert, taskList, different]
  · simp [taskList, apart_iff, different]

theorem boot_started {idle main t : τ} (different : idle ≠ main) (member : t = idle ∨ t = main) :
    Started (boot idle main) t := by
  unfold Started
  rcases member with first | second
  · simp [boot, kthreadInit, kthreadRun, clearTask, blank, appendReady, resetSlice, setStatus,
      listInit, listAppend, listInsert, taskList, different, first]
  · simp [boot, kthreadInit, kthreadRun, clearTask, blank, appendReady, resetSlice, setStatus,
      listInit, listAppend, listInsert, taskList, second]

theorem boot_booting {idle main : τ} (different : idle ≠ main) :
    Booting idle main (boot idle main) [] := by
  have status := boot_status different
  refine ⟨⟨boot_ready different, ?_, ?_, ?_, ?_⟩, rfl, rfl, ?_, ?_, boot_started different (.inr rfl)⟩
  · intro t ready
    rw [status] at ready
    by_contra absent
    rw [if_neg (by simpa using absent)] at ready
    cases ready
  · intro t member
    left
    rw [status, if_pos (by simpa using member)]
  · rw [status, if_pos (.inl rfl)]
    decide
  · intro t other
    apply boot_started different
    by_contra absent
    rw [status, if_neg absent] at other
    exact other rfl
  · intro t
    rw [status]
    split_ifs <;> decide
  · rw [status, if_pos (.inr rfl)]

/-- The invariant of runs from the boot state. -/
def Whole (idle main : τ) (s : SchedState τ) : Prop := Settled s ∨ ∃ rest, Booting idle main s rest

theorem Whole.step {idle main : τ} {s : SchedState τ} {op : Op τ} (whole : Whole idle main s)
    (heals : Heals s op) : ∃ s', apply s op = some s' ∧ Whole idle main s' := by
  rcases whole with settled | ⟨rest, booting⟩
  · obtain ⟨s', ran, after⟩ := settled.step heals
    exact ⟨s', ran, .inl after⟩
  · exact booting.step heals

theorem Whole.noneLost {idle main : τ} {s : SchedState τ} (whole : Whole idle main s) : NoneLost s := by
  rcases whole with ⟨⟨queue, complete⟩, -, -, -⟩ | ⟨rest, booting⟩
  · exact noneLost_of_ready complete.linked complete.complete
  · exact noneLost_of_ready booting.complete.linked booting.complete.complete

/-- Whatever was reached by steps that keep the list whole has not lost a thread, and its
next such step finds one to pick. -/
theorem reach_noneLost {idle main : τ} (different : idle ≠ main) {s : SchedState τ}
    (run : Reach apply Heals (boot idle main) s) :
    NoneLost s ∧ ∀ op, Heals s op → ∃ s', apply s op = some s' := by
  have invariant : Whole idle main s := by
    refine Reach.invariant ?_ (.inr ⟨[], boot_booting different⟩) run
    intro s op t before heals moved
    obtain ⟨s', ran, after⟩ := before.step heals
    rw [ran] at moved
    cases moved
    exact after
  refine ⟨invariant.noneLost, ?_⟩
  intro op heals
  obtain ⟨s', ran, -⟩ := invariant.step heals
  exact ⟨s', ran⟩

/-- Steps that heal whatever is linked. -/
def StartsOrBlocks (s : SchedState τ) (op : Op τ) : Prop :=
  StartsFresh s op ∧
    match op with
    | .yield => False
    | .unblock _ => False
    | _ => True

instance (s : SchedState τ) : DecidablePred (StartsOrBlocks s) := fun op => by
  cases op <;> unfold StartsOrBlocks <;> infer_instance

theorem StartsOrBlocks.heals (s : SchedState τ) (op : Op τ) (calm : StartsOrBlocks s op) : Heals s op := by
  obtain ⟨fresh, other⟩ := calm
  cases op with
  | yield => exact other.elim
  | unblock _ => exact other.elim
  | run _ => exact ⟨fresh, trivial⟩
  | block _ => exact ⟨fresh, trivial⟩
  | tick => exact ⟨fresh, trivial⟩

/-- Main starts thread 2 and blocks while it is linked; the idle thread runs and blocks, and main, which comes next on the
list, starts thread 3 and blocks for good. -/
theorem reach_noneLost_blocks :
    ∃ s, Reach apply Heals (boot 1 0) s ∧ NoneLost s ∧ s.current = 2 ∧ s.status 3 = .ready := by
  have played : ∃ s, play apply StartsOrBlocks (boot 1 0)
      [.run 2, .tick, .block .blocked, .block .blocked, .run 3, .tick, .block .blocked] = some s ∧
        s.current = 2 ∧ s.status 3 = .ready := by
    refine ⟨_, rfl, ?_⟩
    decide
  obtain ⟨s, ran, current, ready⟩ := played
  have run := (reach_of_play ran).mono StartsOrBlocks.heals
  exact ⟨s, run, (reach_noneLost (by decide) run).1, current, ready⟩

/-- Main starts thread 2 and yields: the list then holds main alone. -/
theorem yield_loses_started :
    ∃ s, Reach apply StartsFresh (boot 1 0) s ∧ ¬ NoneLost s := by
  have played : ∃ s, play apply StartsFresh (boot 1 0) [.run 2, .yield] = some s ∧
      s.ready.next .head = .tag 0 ∧ s.ready.next (.tag 0) = .tail ∧ s.current = 1 ∧
      s.status 2 = .ready := by
    refine ⟨_, rfl, ?_⟩
    decide
  obtain ⟨s, ran, first, last, current, lost⟩ := played
  refine ⟨s, reach_of_play ran, ?_⟩
  rintro ⟨queue, -, chain, complete⟩
  have member := (complete 2 lost).resolve_left (by rw [current]; decide)
  cases queue with
  | nil => cases member
  | cons t rest =>
    obtain ⟨front, later⟩ := List.isChain_cons_cons.mp chain
    have head : t = 0 := Node.tag.inj (front.symm.trans first)
    subst head
    cases rest with
    | nil => simp at member
    | cons u more =>
      have second := (List.isChain_cons_cons.mp later).1
      rw [last] at second
      cases second

end KOS.Boot
