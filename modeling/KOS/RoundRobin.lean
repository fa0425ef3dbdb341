import KOS.SchedInvariant

/-! Runs of timer ticks and `kthread_yield` calls. An expired thread is requeued by `schedule` with a fresh time
slice, one that yields requeues itself and keeps its slice; either way the threads take turns in the order of the
queue. -/

namespace KOS.RoundRobin
open KOS.DoublyLinked KOS.KernelList KOS.Sched KOS.SchedInvariant

inductive Event where
  | tick
  | yield
  deriving DecidableEq

variable {τ : Type*} [DecidableEq τ]

def step (s : SchedState τ) : Event → Option (SchedState τ)
  | .tick => timerHandler s
  | .yield => kthreadYield s

/-- The event calls `schedule`. -/
def switches (s : SchedState τ) : Event → Bool
  | .tick => s.timeSlice s.current = 0
  | .yield => true

/-- The number of switches, and the state at the end. -/
def run : SchedState τ → List Event → Option (Nat × SchedState τ)
  | s, [] => some (0, s)
  | s, e :: rest => (step s e).bind fun next => (run next rest).map fun r => ((switches s e).toNat + r.1, r.2)

/-- `queue` is ready behind the current thread. -/
structure Start (s : SchedState τ) (queue : List τ) : Prop where
  linked : Ready s queue
  absent : s.current ∉ queue
  running : s.status s.current = .running
  slices : ∀ t ∈ s.current :: queue, s.timeSlice t ≤ SCHED_RR_TIME_SLICE

/-- After `k` switches the threads of `turns` have moved up by `k` places. -/
structure Turn (turns : List τ) (k : Nat) (s : SchedState τ) (rest : List τ) : Prop where
  order : turns.rotate k = s.current :: rest
  linked : Ready s rest
  running : s.status s.current = .running
  slices : ∀ t ∈ turns, s.timeSlice t ≤ SCHED_RR_TIME_SLICE

variable {s s' : SchedState τ} {turns rest : List τ} {k : Nat}

/-! One switch. -/

theorem kthreadUnblock_timeSlice (s : SchedState τ) (t : τ) : (kthreadUnblock s t).timeSlice = s.timeSlice := by
  unfold kthreadUnblock
  split_ifs
  · rfl
  · rfl

theorem wakeIdle_timeSlice (s : SchedState τ) : (wakeIdle s).timeSlice = s.timeSlice := by
  unfold wakeIdle
  split_ifs
  · exact kthreadUnblock_timeSlice s s.idle
  · rfl

theorem pick_timeSlice (picked : pick s = some s') : s'.timeSlice = s.timeSlice := by
  unfold pick at picked
  split at picked
  · rw [← Option.some.inj picked]
    rfl
  · cases picked

/-- Only an expired slice is refilled. -/
theorem schedule_timeSlice (ran : schedule s = some s') : s'.timeSlice = (requeue s).timeSlice := by
  calc
    s'.timeSlice = (wakeIdle (requeue s)).timeSlice := pick_timeSlice ran
    _ = (requeue s).timeSlice := wakeIdle_timeSlice _

theorem requeue_slices {t : τ} (slice : s.timeSlice t ≤ SCHED_RR_TIME_SLICE) :
    (requeue s).timeSlice t ≤ SCHED_RR_TIME_SLICE := by
  unfold requeue
  split_ifs with running
  · show Function.update s.timeSlice s.current SCHED_RR_TIME_SLICE t ≤ _
    by_cases own : t = s.current
    · rw [own, Function.update_self]
    · rw [Function.update_of_ne own]
      exact slice
  · exact slice

omit [DecidableEq τ] in
theorem rotate_next (order : turns.rotate k = s.current :: rest) : turns.rotate (k + 1) = rest ++ [s.current] := by
  rw [← List.rotate_rotate, order, List.rotate_cons_succ, List.rotate_zero]

/-- `schedule`, once the current thread is at the end of the queue or about to get there. -/
theorem Turn.switch {before : SchedState τ} {queue : List τ} (linked : Ready before queue)
    (absent : before.status before.current = .running → before.current ∉ queue)
    (shape : requeued before queue = turns.rotate (k + 1)) (turn : turns ≠ [])
    (slices : ∀ t ∈ turns, before.timeSlice t ≤ SCHED_RR_TIME_SLICE) :
    ∃ s' rest', schedule before = some s' ∧ Turn turns (k + 1) s' rest' := by
  cases order : turns.rotate (k + 1) with
  | nil => exact absurd (List.rotate_eq_nil_iff.mp order) turn
  | cons t rest' =>
    rw [order] at shape
    obtain ⟨s', ran, switched⟩ := schedule_switches linked absent shape
    refine ⟨s', rest', ran, ?_, switched.linked, ?_, ?_⟩
    · rw [order, switched.current]
    · rw [switched.status, switched.current, Function.update_self]
    · intro u member
      rw [schedule_timeSlice ran]
      exact requeue_slices (slices u member)

theorem Turn.nonempty (turn : Turn turns k s rest) : turns ≠ [] := by
  intro none
  have order := turn.order
  rw [none, List.rotate_nil] at order
  exact absurd order.symm (List.cons_ne_nil _ _)

theorem Turn.current_absent (turn : Turn turns k s rest) (distinct : turns.Nodup) : s.current ∉ rest := by
  have moved : (turns.rotate k).Nodup := List.nodup_rotate.mpr distinct
  rw [turn.order] at moved
  exact (List.nodup_cons.mp moved).1

/-- A thread that expires goes to the end of the queue inside `schedule`. -/
theorem Turn.expire (turn : Turn turns k s rest) (distinct : turns.Nodup) (expired : s.timeSlice s.current = 0) :
    ∃ s' rest', timerHandler s = some s' ∧ Turn turns (k + 1) s' rest' := by
  have shape : requeued s rest = turns.rotate (k + 1) := by
    rw [requeued, if_pos turn.running, rotate_next turn.order]
  unfold timerHandler
  dsimp only
  rw [if_pos expired]
  exact Turn.switch turn.linked (fun _ => turn.current_absent distinct) shape turn.nonempty turn.slices

/-- A thread that yields goes to the end of the queue before `schedule`. -/
theorem Turn.yield (turn : Turn turns k s rest) (distinct : turns.Nodup) :
    ∃ s' rest', kthreadYield s = some s' ∧ Turn turns (k + 1) s' rest' := by
  have ready : (setStatus s s.current .ready).status s.current ≠ .running := by
    show Function.update s.status s.current .ready s.current ≠ .running
    rw [Function.update_self]
    exact TaskStatus.noConfusion
  have unchanged : Ready (setStatus s s.current .ready) rest := turn.linked
  have appended := unchanged.append (turn.current_absent distinct)
  have shape : requeued (appendReady (setStatus s s.current .ready) s.current) (rest ++ [s.current]) =
      turns.rotate (k + 1) := by
    rw [rotate_next turn.order]
    exact if_neg ready
  exact Turn.switch appended (fun running => absurd running ready) shape turn.nonempty turn.slices

/-- Any other tick takes one from the slice. -/
theorem Turn.tick (turn : Turn turns k s rest) (left : s.timeSlice s.current ≠ 0) :
    ∃ s', timerHandler s = some s' ∧ Turn turns k s' rest ∧ s'.current = s.current ∧
      s'.timeSlice s.current + 1 = s.timeSlice s.current := by
  unfold timerHandler
  dsimp only
  rw [if_neg left]
  refine ⟨_, rfl, ⟨turn.order, turn.linked, turn.running, ?_⟩, rfl, ?_⟩
  · intro t member
    have slice := turn.slices t member
    show Function.update s.timeSlice s.current (s.timeSlice s.current - 1) t ≤ _
    by_cases own : t = s.current
    · rw [own, Function.update_self]
      rw [own] at slice
      omega
    · rw [Function.update_of_ne own]
      exact slice
  · show Function.update s.timeSlice s.current (s.timeSlice s.current - 1) s.current + 1 = _
    rw [Function.update_self]
    omega

theorem Turn.step (turn : Turn turns k s rest) (distinct : turns.Nodup) (e : Event) :
    ∃ s' rest', RoundRobin.step s e = some s' ∧ Turn turns ((switches s e).toNat + k) s' rest' := by
  cases e with
  | yield =>
    rw [Nat.add_comm]
    exact turn.yield distinct
  | tick =>
    by_cases expired : s.timeSlice s.current = 0
    · rw [switches, decide_eq_true expired, Nat.add_comm]
      exact turn.expire distinct expired
    · obtain ⟨s', ran, same, -, -⟩ := turn.tick expired
      rw [switches, decide_eq_false expired, Bool.toNat_false, Nat.zero_add]
      exact ⟨s', rest, ran, same⟩

/-! Whole runs. -/

theorem Turn.run (turn : Turn turns k s rest) (distinct : turns.Nodup) (events : List Event) :
    ∃ n s' rest', RoundRobin.run s events = some (n, s') ∧ Turn turns (n + k) s' rest' := by
  induction events generalizing k s rest with
  | nil => exact ⟨0, s, rest, rfl, by rw [Nat.zero_add]; exact turn⟩
  | cons e events ih =>
    obtain ⟨s', rest', stepped, turn'⟩ := turn.step distinct e
    obtain ⟨n, s'', rest'', ran, turn''⟩ := ih turn'
    refine ⟨(switches s e).toNat + n, s'', rest'', ?_, ?_⟩
    · rw [RoundRobin.run, stepped, Option.bind_some, ran]
      rfl
    · rw [Nat.add_comm _ n, Nat.add_assoc]
      exact turn''

/-- Without a switch, every event is a tick that takes one from the slice. -/
theorem Turn.ticks (turn : Turn turns k s rest) {events : List Event} (ran : RoundRobin.run s events = some (0, s')) :
    events.count .tick ≤ s.timeSlice s.current := by
  induction events generalizing s with
  | nil => exact Nat.zero_le _
  | cons e events ih =>
    obtain ⟨next, stepped, later⟩ := Option.bind_eq_some_iff.mp ran
    obtain ⟨⟨n, final⟩, ran', same⟩ := Option.map_eq_some_iff.mp later
    have none : (switches s e).toNat + n = 0 := congrArg Prod.fst same
    have last : final = s' := congrArg Prod.snd same
    cases e with
    | yield => exact absurd none (by rw [switches, Bool.toNat_true]; omega)
    | tick =>
      have left : s.timeSlice s.current ≠ 0 := by
        intro expired
        rw [switches, decide_eq_true expired, Bool.toNat_true] at none
        omega
      obtain ⟨s'', ticked, turn', current, slice⟩ := turn.tick left
      have same' : next = s'' := Option.some.inj (stepped.symm.trans ticked)
      subst same'
      have rest_run : RoundRobin.run next events = some (0, s') := by
        rw [ran', last, show n = 0 by omega]
      have fewer := ih turn' rest_run
      rw [current] at fewer
      rw [List.count_cons_self]
      omega

theorem Start.turn {queue : List τ} (start : Start s queue) : Turn (s.current :: queue) 0 s queue :=
  ⟨List.rotate_zero _, start.linked, start.running, start.slices⟩

theorem Start.distinct {queue : List τ} (start : Start s queue) : (s.current :: queue).Nodup :=
  List.nodup_cons.mpr ⟨start.absent, start.linked.nodup⟩

theorem Turn.current (turn : Turn turns k s rest) : turns[k % turns.length]? = some s.current := by
  have positive : 0 < turns.length := List.length_pos_of_ne_nil turn.nonempty
  have first : (turns.rotate k)[0]? = some s.current := by rw [turn.order]; rfl
  rw [List.getElem?_rotate positive, Nat.zero_add] at first
  exact first

/-- After `k` switches the thread at place `k` of the cycle runs, and no thread gets more than its slice and one
tick between two switches. -/
theorem turns_taken {queue : List τ} (start : Start s queue) (events : List Event) :
    ∃ k s', run s events = some (k, s') ∧ (s.current :: queue)[k % (queue.length + 1)]? = some s'.current ∧
      ∀ quantum last s'', run s' quantum = some (0, s'') →
        (quantum ++ [last]).count Event.tick ≤ SCHED_RR_TIME_SLICE + 1 := by
  obtain ⟨k, s', rest', ran, turn⟩ := start.turn.run start.distinct events
  refine ⟨k, s', ran, turn.current, ?_⟩
  intro quantum last s'' unswitched
  have ticks := turn.ticks unswitched
  have slice : s'.timeSlice s'.current ≤ SCHED_RR_TIME_SLICE := by
    apply turn.slices
    have member : s'.current ∈ (s.current :: queue).rotate (k + 0) := by
      rw [turn.order]
      exact List.mem_cons_self
    exact List.mem_rotate.mp member
  have one : [last].count Event.tick ≤ 1 := List.count_le_length
  rw [List.count_append]
  omega

/-- Thread 0 runs, 2 and 3 wait behind it. -/
def three : SchedState Nat :=
  appendReady (appendReady (setStatus (setStatus (quiet .blocked) 2 .ready) 3 .ready) 2) 3

theorem three_start : Start three [2, 3] := by
  have empty : Ready (setStatus (setStatus (quiet .blocked) 2 .ready) 3 .ready) [] :=
    listInit_holds Node.null _ (apart_iff.mpr (by decide)) trivial trivial
  have one := empty.append (t := 2) List.not_mem_nil
  constructor
  · exact one.append (t := 3) (by decide)
  · decide
  · rfl
  · decide

theorem turns_taken_three : ∃ k s', run three [.yield, .tick, .yield, .yield, .tick] = some (k, s') ∧
    [0, 2, 3][k % 3]? = some s'.current ∧
      ∀ quantum last s'', run s' quantum = some (0, s'') → (quantum ++ [last]).count Event.tick ≤ SCHED_RR_TIME_SLICE + 1 :=
  turns_taken three_start [.yield, .tick, .yield, .yield, .tick]

end KOS.RoundRobin
