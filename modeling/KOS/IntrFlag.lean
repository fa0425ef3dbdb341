import KOS.Boot

/-! The interrupt flag: one register of the CPU, while every call that clears it keeps its own copy on the stack of
its thread. Threads run the statements of `kthread_run`, `kthread_block`, `kthread_unblock` and `kthread_yield` one
at a time, and the timer or the disk interrupts between any two of them while the flag is set. -/

namespace KOS.IntrFlag
open KOS.DoublyLinked KOS.KernelList KOS.Sched KOS.Machine KOS.Boot

inductive Call (τ : Type*) where
  | run (task : τ)
  | block (stat : TaskStatus)
  | unblock (task : τ)
  | yield

/-- A statement; `access` touches `task_ready_list` or `task_all_list`. -/
inductive Instr (τ : Type*) where
  | getStatus
  | disable
  | restore
  | update (f : SchedState τ → SchedState τ)
  | access (f : SchedState τ → SchedState τ)
  | wakeIdle
  | pick

inductive Frame (τ : Type*) where
  /-- A call with the flag it was made with, `intr_stat`, and the rest of its statements. -/
  | func (entry intrStat : Bool) (code : List (Instr τ))
  /-- The handler of an interrupt, and the flag that the CPU has pushed. -/
  | handler (eflags : Bool)
  /-- `kernel_thread`, before and behind its `intr_set_status(true)`. -/
  | kernelThread (enabled : Bool)

/-- A stack is empty when the payload of its thread runs. -/
structure System (τ : Type*) where
  sched : SchedState τ
  flag : Bool
  frames : τ → List (Frame τ)

inductive Event (τ : Type*) where
  | call (c : Call τ)
  | instr
  | setFlag (b : Bool)
  | timer
  | disk
  | iretd

variable {τ : Type*} [DecidableEq τ]

def appendAll (s : SchedState τ) (t : τ) : SchedState τ := { s with all := listAppend s.all taskList (.tag t) }

/-- `schedule`; `pick` ends with `switch_to`. -/
def scheduleBody : List (Instr τ) := [.access requeue, .wakeIdle, .pick]

def kthreadRunBody (task : τ) : List (Instr τ) :=
  [.getStatus, .disable, .update (fun s => resetSlice (setStatus s task .ready) task),
    .access (fun s => appendReady s task), .access (fun s => appendAll s task), .restore]

def kthreadBlockBody (stat : TaskStatus) : List (Instr τ) :=
  [.getStatus, .disable] ++
    (if stat.sleeping then .update (fun s => setStatus s s.current stat) :: scheduleBody else []) ++ [.restore]

def kthreadUnblockBody (task : τ) : List (Instr τ) :=
  [.getStatus, .disable, .access (fun s => kthreadUnblock s task), .restore]

def kthreadYieldBody : List (Instr τ) :=
  [.getStatus, .disable, .update (fun s => setStatus s s.current .ready),
    .access (fun s => appendReady s s.current)] ++ scheduleBody ++ [.restore]

def body : Call τ → List (Instr τ)
  | .run task => kthreadRunBody task
  | .block stat => kthreadBlockBody stat
  | .unblock task => kthreadUnblockBody task
  | .yield => kthreadYieldBody

namespace System

def stack (k : System τ) : List (Frame τ) := k.frames k.sched.current

def setStack (k : System τ) (fs : List (Frame τ)) : System τ :=
  { k with frames := Function.update k.frames k.sched.current fs }

end System

/-- A statement of the call on top of the stack; `fs` are the frames under it. -/
def execInstr (k : System τ) (entry intrStat : Bool) (code : List (Instr τ)) (fs : List (Frame τ)) :
    Instr τ → Option (System τ)
  | .getStatus => some (k.setStack (.func entry k.flag code :: fs))
  | .disable => some { k.setStack (.func entry intrStat code :: fs) with flag := false }
  | .restore => some { k.setStack (.func entry intrStat code :: fs) with flag := intrStat }
  | .update f => some { k.setStack (.func entry intrStat code :: fs) with sched := f k.sched }
  | .access f => some { k.setStack (.func entry intrStat code :: fs) with sched := f k.sched }
  | .wakeIdle =>
      if listEmpty k.sched.ready taskList then
        some (k.setStack (.func k.flag false (body (.unblock k.sched.idle)) :: .func entry intrStat code :: fs))
      else some (k.setStack (.func entry intrStat code :: fs))
  | .pick => (pick k.sched).map fun next => { k.setStack (.func entry intrStat code :: fs) with sched := next }

/-- The next statement of the running thread, unless that is in its payload or in a handler. -/
def execTop (k : System τ) : Option (System τ) :=
  match k.stack with
  | .func _ _ [] :: fs => some (k.setStack fs)
  | .func entry intrStat (i :: code) :: fs => execInstr k entry intrStat code fs i
  | .kernelThread false :: fs => some { k.setStack (.kernelThread true :: fs) with flag := true }
  -- `fn(fn_arg)`
  | .kernelThread true :: fs => some (k.setStack fs)
  | _ => none

/-- An interrupt gate clears the flag. -/
def interrupt (k : System τ) (fs : List (Frame τ)) : System τ :=
  { k.setStack (fs ++ .handler k.flag :: k.stack) with flag := false }

/-- The payload and the handlers call; only the payload sets the flag itself. -/
def step (k : System τ) : Event τ → Option (System τ)
  | .call c =>
      match k.stack with
      | [] => some (k.setStack [.func k.flag false (body c)])
      | .handler eflags :: fs => some (k.setStack (.func k.flag false (body c) :: .handler eflags :: fs))
      | _ => none
  | .instr => execTop k
  | .setFlag b =>
      match k.stack with
      | [] => some { k with flag := b }
      | _ => none
  | .timer =>
      if k.flag then
        let s := { k.sched with jiffies := (k.sched.jiffies + 1) % 2 ^ 32 }
        if s.timeSlice s.current = 0 then some { interrupt k [.func false false scheduleBody] with sched := s }
        else some { interrupt k [] with
          sched := { s with timeSlice := Function.update s.timeSlice s.current (s.timeSlice s.current - 1) } }
      else none
  | .disk => if k.flag then some (interrupt k []) else none
  | .iretd =>
      match k.stack with
      | .handler eflags :: fs => some { k.setStack fs with flag := eflags }
      | _ => none

/-- The state after `kthread_init`, with interrupts disabled: `main` runs, the other threads start in
`kernel_thread`. -/
def start (s : SchedState τ) (idle main : τ) : System τ where
  sched := kthreadInit s idle main
  flag := false
  frames t := if t = main then [] else [.kernelThread false]

abbrev always (_ : System τ) (_ : Event τ) : Prop := True

/-! The statements of a call, taken together, are the call on the scheduler state. -/

def effect : List (Instr τ) → SchedState τ → Option (SchedState τ)
  | [], s => some s
  | .update f :: code, s => effect code (f s)
  | .access f :: code, s => effect code (f s)
  | .wakeIdle :: code, s => effect code (wakeIdle s)
  | .pick :: code, s => (pick s).bind (effect code)
  | _ :: code, s => effect code s

theorem effect_run (s : SchedState τ) (task : τ) : effect (kthreadRunBody task) s = some (kthreadRun s task) := rfl

theorem effect_unblock (s : SchedState τ) (task : τ) :
    effect (kthreadUnblockBody task) s = some (kthreadUnblock s task) := rfl

theorem effect_schedule (s : SchedState τ) (code : List (Instr τ)) :
    effect (scheduleBody ++ code) s = (schedule s).bind (effect code) := rfl

theorem effect_restore : effect ([.restore] : List (Instr τ)) = some := by
  funext s
  rfl

theorem effect_block (s : SchedState τ) (stat : TaskStatus) : effect (kthreadBlockBody stat) s = kthreadBlock s stat := by
  unfold kthreadBlockBody kthreadBlock
  by_cases sleeping : stat.sleeping
  · rw [if_pos sleeping, if_pos sleeping]
    calc
      _ = effect (scheduleBody ++ [.restore]) (setStatus s s.current stat) := rfl
      _ = _ := by rw [effect_schedule, effect_restore, Option.bind_fun_some]
  · rw [if_neg sleeping, if_neg sleeping]
    rfl

theorem effect_yield (s : SchedState τ) : effect kthreadYieldBody s = kthreadYield s := by
  calc
    _ = effect (scheduleBody ++ [.restore]) (appendReady (setStatus s s.current .ready) s.current) := rfl
    _ = _ := by rw [effect_schedule, effect_restore, Option.bind_fun_some, kthreadYield]

/-! What holds of a stack. -/

def SameCurrent (f : SchedState τ → SchedState τ) : Prop := ∀ s, (f s).current = s.current

/-- From this flag and this `intr_stat`, the statements reach the lists and `switch_to` with interrupts disabled only,
and end with the flag `entry`. Whatever runs at a `switch_to`, it comes back with the flag clear. -/
def Keeps : List (Instr τ) → Bool → Bool → Bool → Prop
  | [], flag, _, entry => flag = entry
  | .getStatus :: code, flag, _, entry => Keeps code flag flag entry
  | .disable :: code, _, intrStat, entry => Keeps code false intrStat entry
  | .restore :: code, _, intrStat, entry => Keeps code intrStat intrStat entry
  | .update f :: code, flag, intrStat, entry => SameCurrent f ∧ Keeps code flag intrStat entry
  | .access f :: code, flag, intrStat, entry => flag = false ∧ SameCurrent f ∧ Keeps code flag intrStat entry
  | .wakeIdle :: code, flag, intrStat, entry => flag = false ∧ Keeps code flag intrStat entry
  | .pick :: code, flag, intrStat, entry => flag = false ∧ Keeps code false intrStat entry

/-- A thread may go on with this flag on this stack. -/
def Valid : Bool → List (Frame τ) → Prop
  | _, [] => True
  | flag, .func entry intrStat code :: fs => Keeps code flag intrStat entry ∧ Valid entry fs
  | flag, .handler eflags :: fs => flag = false ∧ Valid eflags fs
  | flag, .kernelThread enabled :: fs => (enabled = true → flag = true) ∧ Valid true fs

structure Inv (k : System τ) : Prop where
  running : Valid k.flag k.stack
  waiting : ∀ t, t ≠ k.sched.current → Valid false (k.frames t)

variable {k k' : System τ} {fs : List (Frame τ)} {entry intrStat : Bool} {code : List (Instr τ)}

theorem requeue_current : SameCurrent (requeue : SchedState τ → SchedState τ) := by
  intro s
  unfold requeue
  split_ifs
  · rfl
  · rfl

theorem kthreadUnblock_current (task : τ) : SameCurrent fun s => kthreadUnblock s task := by
  intro s
  dsimp only [kthreadUnblock]
  split_ifs
  · rfl
  · rfl

theorem schedule_keeps (code : List (Instr τ)) (rest : Keeps code false intrStat entry) :
    Keeps (scheduleBody ++ code) false intrStat entry :=
  ⟨rfl, requeue_current, rfl, rfl, rest⟩

/-- Each call gives its flag back. -/
theorem body_keeps (c : Call τ) (flag intrStat : Bool) : Keeps (body c) flag intrStat flag := by
  cases c with
  | run task => exact ⟨fun _ => rfl, rfl, fun _ => rfl, rfl, fun _ => rfl, rfl⟩
  | unblock task => exact ⟨rfl, kthreadUnblock_current task, rfl⟩
  | yield => exact ⟨fun _ => rfl, rfl, fun _ => rfl, schedule_keeps [.restore] rfl⟩
  | block stat =>
    show Keeps (kthreadBlockBody stat) flag intrStat flag
    unfold kthreadBlockBody
    by_cases sleeping : stat.sleeping
    · rw [if_pos sleeping]
      exact ⟨fun _ => rfl, schedule_keeps [.restore] rfl⟩
    · rw [if_neg sleeping]
      rfl

theorem Valid.call (valid : Valid k.flag fs) (c : Call τ) : Valid k.flag (.func k.flag false (body c) :: fs) :=
  ⟨body_keeps c k.flag false, valid⟩

/-! One step. -/

/-- The running thread goes on, with another stack. -/
theorem Inv.same (inv : Inv k) (current : k'.sched.current = k.sched.current)
    (frames : k'.frames = Function.update k.frames k.sched.current fs) (valid : Valid k'.flag fs) : Inv k' := by
  constructor
  · rw [System.stack, current, frames, Function.update_self]
    exact valid
  · intro t other
    rw [current] at other
    rw [frames, Function.update_of_ne other]
    exact inv.waiting t other

/-- Another thread, or the same, goes on where it has stopped. -/
theorem Inv.switch {next : SchedState τ} (inv : Inv k) (off : k.flag = false) (valid : Valid false fs) :
    Inv { k.setStack fs with sched := next } := by
  have stopped : ∀ t, Valid false (Function.update k.frames k.sched.current fs t) := by
    intro t
    by_cases mine : t = k.sched.current
    · rw [mine, Function.update_self]
      exact valid
    · rw [Function.update_of_ne mine]
      exact inv.waiting t mine
  constructor
  · show Valid k.flag (Function.update k.frames k.sched.current fs next.current)
    rw [off]
    exact stopped next.current
  · intro t _
    exact stopped t

theorem Inv.execInstr {i : Instr τ} (inv : Inv k) (top : k.stack = .func entry intrStat (i :: code) :: fs)
    (ran : execInstr k entry intrStat code fs i = some k') : Inv k' := by
  have valid := inv.running
  rw [top] at valid
  obtain ⟨keeps, outer⟩ := valid
  cases i with
  | getStatus =>
    cases ran
    exact inv.same rfl rfl ⟨keeps, outer⟩
  | disable =>
    cases ran
    exact inv.same rfl rfl ⟨keeps, outer⟩
  | restore =>
    cases ran
    exact inv.same rfl rfl ⟨keeps, outer⟩
  | update f =>
    cases ran
    exact inv.same (keeps.1 k.sched) rfl ⟨keeps.2, outer⟩
  | access f =>
    cases ran
    exact inv.same (keeps.2.1 k.sched) rfl ⟨keeps.2.2, outer⟩
  | wakeIdle =>
    have rest : Valid k.flag (.func entry intrStat code :: fs) := ⟨keeps.2, outer⟩
    simp only [IntrFlag.execInstr] at ran
    split_ifs at ran with empty
    · cases ran
      exact inv.same rfl rfl (rest.call _)
    · cases ran
      exact inv.same rfl rfl rest
  | pick =>
    obtain ⟨next, -, same⟩ := Option.map_eq_some_iff.mp ran
    subst same
    exact inv.switch keeps.1 ⟨keeps.2, outer⟩

theorem Inv.execTop (inv : Inv k) (ran : execTop k = some k') : Inv k' := by
  have valid := inv.running
  unfold IntrFlag.execTop at ran
  split at ran
  · next entry intrStat fs top =>
    cases ran
    rw [top] at valid
    have back : k.flag = entry := valid.1
    exact inv.same rfl rfl (show Valid k.flag fs from back ▸ valid.2)
  · next entry intrStat i code fs top => exact inv.execInstr top ran
  · next fs top =>
    cases ran
    rw [top] at valid
    exact inv.same rfl rfl ⟨fun _ => rfl, valid.2⟩
  · next fs top =>
    cases ran
    rw [top] at valid
    have on : k.flag = true := valid.1 rfl
    exact inv.same rfl rfl (show Valid k.flag fs from on ▸ valid.2)
  · cases ran

theorem Inv.interrupt (inv : Inv k) (current : k'.sched.current = k.sched.current)
    (frames : k'.frames = (interrupt k fs).frames) (off : k'.flag = false)
    (handler : ∀ rest, Valid false rest → Valid false (fs ++ rest)) : Inv k' := by
  apply inv.same current frames
  rw [off]
  exact handler _ ⟨rfl, inv.running⟩

theorem Inv.step {e : Event τ} (inv : Inv k) (ran : IntrFlag.step k e = some k') : Inv k' := by
  have valid := inv.running
  cases e with
  | instr => exact inv.execTop ran
  | call c =>
    simp only [IntrFlag.step] at ran
    split at ran
    · next top =>
      cases ran
      have bare : Valid k.flag ([] : List (Frame τ)) := trivial
      exact inv.same rfl rfl (bare.call c)
    · next eflags fs top =>
      cases ran
      rw [top] at valid
      exact inv.same rfl rfl (Valid.call valid c)
    · cases ran
  | setFlag b =>
    simp only [IntrFlag.step] at ran
    split at ran
    · next top =>
      cases ran
      constructor
      · show Valid b k.stack
        rw [top]
        trivial
      · exact inv.waiting
    · cases ran
  | timer =>
    simp only [IntrFlag.step] at ran
    split_ifs at ran with on expired
    · cases ran
      refine inv.interrupt rfl rfl rfl ?_
      intro rest valid
      exact ⟨schedule_keeps [] rfl, valid⟩
    · cases ran
      refine inv.interrupt rfl rfl rfl ?_
      intro rest valid
      exact valid
  | disk =>
    simp only [IntrFlag.step] at ran
    split_ifs at ran with on
    cases ran
    refine inv.interrupt rfl rfl rfl ?_
    intro rest valid
    exact valid
  | iretd =>
    simp only [IntrFlag.step] at ran
    split at ran
    · next eflags fs top =>
      cases ran
      rw [top] at valid
      exact inv.same rfl rfl valid.2
    · cases ran

/-! Every run. -/

theorem inv_of_reach {s : SchedState τ} {idle main : τ} (reached : Reach step always (start s idle main) k) : Inv k := by
  apply Reach.invariant _ _ reached
  · intro before e after inv _ ran
    exact inv.step ran
  · have current : (kthreadInit s idle main).current = main := rfl
    constructor
    · show Valid false ((start s idle main).frames (kthreadInit s idle main).current)
      rw [current]
      show Valid false (if main = main then [] else [.kernelThread false])
      rw [if_pos rfl]
      trivial
    · intro t _
      show Valid false (if t = main then [] else [.kernelThread false])
      split_ifs
      · trivial
      · exact ⟨fun no => absurd no Bool.false_ne_true, trivial⟩

/-- The next statement touches a list or is `switch_to`. -/
def touches : List (Frame τ) → Bool
  | .func _ _ (.access _ :: _) :: _ => true
  | .func _ _ (.wakeIdle :: _) :: _ => true
  | .func _ _ (.pick :: _) :: _ => true
  | _ => false

omit [DecidableEq τ] in
theorem touches_disabled (inv : Inv k) (next : touches k.stack) : k.flag = false := by
  have valid := inv.running
  unfold touches at next
  split at next
  · next top =>
    rw [top] at valid
    exact valid.1.1
  · next top =>
    rw [top] at valid
    exact valid.1.1
  · next top =>
    rw [top] at valid
    exact valid.1.1
  · exact absurd next Bool.false_ne_true

/-- In every run from `kthread_init`, with interrupts disabled there: the lists and `switch_to` are reached with
interrupts disabled only, a call that returns leaves the flag that it was made with, and a payload starts with
interrupts enabled. -/
theorem flag_discipline {s : SchedState τ} {idle main : τ} (reached : Reach step always (start s idle main) k) :
    (touches k.stack → k.flag = false) ∧
      (∀ entry intrStat fs, k.stack = .func entry intrStat [] :: fs → k.flag = entry) ∧
      ∀ fs, k.stack = .kernelThread true :: fs → k.flag = true := by
  have inv := inv_of_reach reached
  have valid := inv.running
  refine ⟨touches_disabled inv, ?_, ?_⟩
  · intro entry intrStat fs top
    rw [top] at valid
    exact valid.1
  · intro fs top
    rw [top] at valid
    exact valid.1 rfl

/-- `main` yields to the idle thread, which starts and is interrupted by the disk before its payload; the handler
wakes `main`. -/
def wakes : List (Event Bool) :=
  .call .yield :: List.replicate 8 .instr ++ [.disk, .call (.unblock true), .instr, .instr]

theorem wakes_plays : (play step always (start (blank true) false true) wakes).isSome := by
  decide +kernel

def waking : System Bool := (play step always (start (blank true) false true) wakes).get wakes_plays

theorem waking_touches : touches waking.stack := by
  decide +kernel

theorem flag_discipline_sample : touches waking.stack ∧ waking.flag = false :=
  have reached := reach_of_play (Option.some_get wakes_plays).symm
  ⟨waking_touches, (flag_discipline reached).1 waking_touches⟩

end KOS.IntrFlag
