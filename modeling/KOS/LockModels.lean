import KOS.Wakeup
import KOS.SyncInvariant

/-! The two machines of `lock.c` are one where both apply. `Locks` keeps the waiting threads of a
mutex and the lock calls a function still has to make; `Sync` links the waiters and knows
semaphores and interrupts as well. While threads only lock and unlock mutexes, each machine
follows the other. -/

namespace KOS.LockModels
open KOS.Sched KOS.SchedInvariant KOS.SyncInvariant KOS.Machine

variable {κ ι τ : Type*} [DecidableEq κ] [DecidableEq ι] [DecidableEq τ]

def call : Locks.Call κ → Sync.Call κ ι
  | .lock m => Sync.mutexLock m
  | .unlock m => Sync.mutexUnlock m

/-- The same place of the source, in the frame of a thread's own code. -/
def framePc : Locks.Pc κ τ → Sync.Pc κ ι τ
  | .client => .client
  | .xchg c => .xchg (call c)
  | .watch c => .watch (call c)
  | .yield c => .yield (call c)
  | .testOwner m => .test (.mutex m)
  | .takeOwner m => .take (.mutex m)
  | .park m => .park (.mutex m)
  | .drop m => .drop (.mutex m)
  | .block m => .block (.mutex m)
  | .parked m => .parked (.mutex m)
  | .giveOwner m => .give (.mutex m)
  | .testWaiters m => .testWaiters (.mutex m)
  | .popWaiter m => .popWaiter (.mutex m)
  | .wake m t => .wake (.mutex m) t
  | .release m => .release (.mutex m)

/-- One kernel in both machines, but for the wait lists: nobody exits and no handler runs. -/
structure Matches (k : Locks.Kernel κ τ) (s : Sync.Kernel κ ι τ) : Prop where
  sched : s.sched = k.sched
  slock : ∀ m, s.slock (.mutex m) = k.slock m
  owner : s.owner = k.owner
  pc : ∀ t, s.pc (.base t) = framePc (k.pc t)
  calm : ∀ t, s.pc (.handler t) = .client
  alive : ∀ t, k.life t = .alive
  unused : k.todo k.sched.idle = []

/-- The list of each mutex links the waiters of the threads that wait for it. -/
structure Agrees (k : Locks.Kernel κ τ) (s : Sync.Kernel κ ι τ) (queue : Sync.Lock κ ι → List τ) : Prop
    extends Matches k s where
  inv : Inv s queue
  waiters : ∀ m, queue (.mutex m) = k.waitList m

variable {k k' : Locks.Kernel κ τ} {s s' : Sync.Kernel κ ι τ} {queue : Sync.Lock κ ι → List τ}

omit [DecidableEq κ] [DecidableEq ι] in
theorem Matches.goto (same : Matches k s) (t : τ) (pc : Locks.Pc κ τ) :
    Matches (Locks.goto k t pc) (Sync.goto s (.base t) (framePc pc)) := by
  refine { same with pc := ?_, calm := ?_ }
  · intro u
    by_cases here : u = t
    · subst here
      rw [Locks.goto_pc_self, Sync.goto_pc_self]
    · have other : Sync.Frame.base u ≠ .base t := by simpa using here
      rw [Locks.goto_pc_other k pc here, Sync.goto_pc_other s _ other]
      exact same.pc u
  · intro u
    rw [Sync.goto_pc_other s _ (by simp)]
    exact same.calm u

omit [DecidableEq τ] in
theorem Matches.setSlock (same : Matches k s) (m : κ) (value : Bool) :
    Matches (Locks.setSlock k m value) (Sync.setSlock s (.mutex m) value) := by
  refine { same with slock := ?_ }
  intro m'
  simp only [Locks.setSlock, Sync.setSlock, Function.update_apply, Sync.Lock.mutex.injEq, same.slock]

omit [DecidableEq ι] [DecidableEq τ] in
theorem Matches.setOwner (same : Matches k s) (m : κ) (owner : Option τ) :
    Matches (Locks.setOwner k m owner) (Sync.setOwner s m owner) := by
  refine { same with owner := ?_ }
  rw [Sync.setOwner, Locks.setOwner, same.owner]

omit [DecidableEq κ] [DecidableEq ι] [DecidableEq τ] in
theorem Matches.setSched {next : SchedState τ} (same : Matches k s) (idle : next.idle = k.sched.idle) :
    Matches (Locks.setSched k next) (Sync.setSched s next) := by
  refine { same with sched := rfl, unused := ?_ }
  rw [Locks.setSched, idle]
  exact same.unused

theorem Matches.top (same : Matches k s) : Sync.top s = .base k.sched.current := by
  rw [Sync.top_base (same.calm _), same.sched]

omit [DecidableEq κ] [DecidableEq ι] in
theorem call_lock (c : Locks.Call κ) : (call c : Sync.Call κ ι).lock = .mutex c.mutex := by
  cases c <;> rfl

omit [DecidableEq κ] [DecidableEq ι] [DecidableEq τ] in
theorem call_body (c : Locks.Call κ) : ((call c).body : Sync.Pc κ ι τ) = framePc c.body := by
  cases c <;> rfl

theorem Agrees.good (agrees : Agrees k s queue) : Good k.sched := agrees.sched ▸ agrees.inv.good

theorem Agrees.started (agrees : Agrees k s queue) : IdleStarted k.sched := agrees.sched ▸ agrees.inv.started

theorem Agrees.empty_iff (agrees : Agrees k s queue) (m : κ) :
    KernelList.listEmpty s.links (Sync.waitList (.mutex m)) = true ↔ k.waitList m = [] := by
  rw [Linked.empty_iff agrees.inv.linked, agrees.waiters]

/-- The lists change at two steps only. -/
theorem Matches.still (same : Matches k s) (unparked : ∀ m, k.pc k.sched.current ≠ .park m)
    (unpopped : ∀ m, k.pc k.sched.current ≠ .popWaiter m) : queueAfter s queue = queue := by
  rw [queueAfter, same.top, same.pc]
  cases pc : k.pc k.sched.current with
  | park m => exact absurd pc (unparked m)
  | popWaiter m => exact absurd pc (unpopped m)
  | _ => rfl

/-- What both machines do when the running thread makes a step. -/
def Lockstep (k : Locks.Kernel κ τ) (s : Sync.Kernel κ ι τ) (queue : Sync.Lock κ ι → List τ) : Prop :=
  Option.Rel (fun k' s' => k'.todo = k.todo ∧ Agrees k' s' (queueAfter s queue)) (Locks.exec k) (Sync.exec s)

theorem Agrees.lockstep (agrees : Agrees k s queue) (left : Locks.exec k = some k')
    (right : Sync.exec s = some s') (todo : k'.todo = k.todo) (same : Matches k' s')
    (waiters : ∀ m, queueAfter s queue (.mutex m) = k'.waitList m) : Lockstep k s queue := by
  rw [Lockstep, left, right]
  exact .some ⟨todo, { same with inv := agrees.inv.exec (Sync.exec_cases right), waiters }⟩

/-- The running thread goes on after a step that leaves the lists alone. -/
theorem Agrees.follow (agrees : Agrees k s queue) (pc : Locks.Pc κ τ)
    (left : Locks.exec k = some (Locks.goto k' k.sched.current pc))
    (right : Sync.exec s = some (Sync.goto s' (.base k.sched.current) (framePc pc))) (same : Matches k' s')
    (kept : k'.todo = k.todo ∧ k'.waitList = k.waitList) (still : queueAfter s queue = queue) :
    Lockstep k s queue := by
  refine agrees.lockstep left right kept.1 (same.goto _ _) ?_
  intro m
  rw [still, agrees.waiters, ← kept.2]
  rfl

/-- The loop of `idle_thread`; any other thread stays in its own code. -/
theorem Agrees.client (agrees : Agrees k s queue) (pc : k.pc k.sched.current = .client)
    (settled : k.todo k.sched.current = []) : Lockstep k s queue := by
  have here := agrees.pc k.sched.current
  rw [pc, framePc] at here
  have left : Locks.exec k =
      if k.sched.current = k.sched.idle then (kthreadBlock k.sched .blocked).map (Locks.setSched k)
      else some k := by
    simp only [Locks.exec, pc, Locks.clientStep, settled, agrees.alive]
  have right : Sync.exec s =
      if k.sched.current = k.sched.idle then (kthreadBlock k.sched .blocked).map (Sync.setSched s)
      else some s := by
    simp only [Sync.exec, agrees.top, here, Sync.clientStep, agrees.sched]
  have waiters : ∀ m, queueAfter s queue (.mutex m) = k.waitList m := by
    rw [agrees.still (by simp [pc]) (by simp [pc])]
    exact agrees.waiters
  by_cases idle : k.sched.current = k.sched.idle
  · rw [if_pos idle] at left right
    cases ran : kthreadBlock k.sched .blocked with
    | none =>
      rw [ran] at left right
      rw [Lockstep, left, right]
      exact .none
    | some next =>
      rw [ran] at left right
      obtain ⟨-, -, same, -⟩ := kthreadBlock_result agrees.good agrees.started (.inl rfl) ran
      exact agrees.lockstep left right rfl (agrees.setSched same) waiters
  · rw [if_neg idle] at left right
    exact agrees.lockstep left right rfl agrees.toMatches waiters

/-- A call that reschedules. -/
theorem Agrees.reschedule {ran : Option (SchedState τ)} (agrees : Agrees k s queue) (pc : Locks.Pc κ τ)
    (left : Locks.exec k = ran.map fun next => Locks.goto (Locks.setSched k next) k.sched.current pc)
    (right : Sync.exec s =
      ran.map fun next => Sync.goto (Sync.setSched s next) (.base k.sched.current) (framePc pc))
    (idle : ∀ next, ran = some next → next.idle = k.sched.idle) (still : queueAfter s queue = queue) :
    Lockstep k s queue := by
  cases ran with
  | none =>
    rw [Lockstep, left, right]
    exact .none
  | some next => exact agrees.follow pc left right (agrees.setSched (idle next rfl)) ⟨rfl, rfl⟩ still

theorem Agrees.park {m : κ} (agrees : Agrees k s queue) (pc : k.pc k.sched.current = .park m) :
    Lockstep k s queue := by
  have here := agrees.pc k.sched.current
  rw [pc, framePc] at here
  have left : Locks.exec k = some (Locks.goto (Locks.setWaiters k m (k.waitList m ++ [k.sched.current]))
      k.sched.current (.drop m)) := by
    simp only [Locks.exec, pc]
  have right : Sync.exec s = some (Sync.goto (Sync.setLinks s (KernelList.listAppend s.links
      (Sync.waitList (.mutex m)) (Sync.waiterOf s.calls k.sched.current))) (.base k.sched.current)
      (framePc (.drop m))) := by
    simp only [Sync.exec, agrees.top, here, agrees.sched, framePc]
  have same : Matches (Locks.setWaiters k m (k.waitList m ++ [k.sched.current]))
      (Sync.setLinks s (KernelList.listAppend s.links (Sync.waitList (.mutex m))
        (Sync.waiterOf s.calls k.sched.current))) := { agrees.toMatches with }
  refine agrees.lockstep left right rfl (same.goto _ _) ?_
  intro m'
  simp only [queueAfter, agrees.top, here, Locks.goto, Locks.setWaiters, Function.update_apply,
    Sync.Lock.mutex.injEq, agrees.waiters, agrees.sched]

/-- Both find the same front waiter, or none and are stuck. -/
theorem Agrees.pop {m : κ} (agrees : Agrees k s queue) (pc : k.pc k.sched.current = .popWaiter m) :
    Lockstep k s queue := by
  have here := agrees.pc k.sched.current
  rw [pc, framePc] at here
  cases front : k.waitList m with
  | nil =>
    have empty := (agrees.empty_iff m).mpr front
    have left : Locks.exec k = none := by simp only [Locks.exec, pc, front]
    have right : Sync.exec s = none := by
      simp only [Sync.exec, agrees.top, here, KernelList.listPop, empty, if_true]
    rw [Lockstep, left, right]
    exact .none
  | cons u rest =>
    have first : queue (.mutex m) = u :: rest := by rw [agrees.waiters, front]
    obtain ⟨popped, -⟩ := Linked.pop agrees.inv.linked first (fun l l' u => agrees.inv.alone)
    have left : Locks.exec k =
        some (Locks.goto (Locks.setWaiters k m rest) k.sched.current (.wake m u)) := by
      simp only [Locks.exec, pc, front]
    have right : Sync.exec s = some (Sync.goto (Sync.setLinks s (KernelList.listRemove s.links
        (Sync.waiterOf s.calls u))) (.base k.sched.current) (framePc (.wake m u))) := by
      simp only [Sync.exec, agrees.top, here, popped, framePc]
      rfl
    have same : Matches (Locks.setWaiters k m rest)
        (Sync.setLinks s (KernelList.listRemove s.links (Sync.waiterOf s.calls u))) :=
      { agrees.toMatches with }
    refine agrees.lockstep left right rfl (same.goto _ _) ?_
    intro m'
    by_cases mine : m' = m
    · subst mine
      simp only [queueAfter, agrees.top, here, first, List.tail_cons, Locks.goto, Locks.setWaiters,
        Function.update_self]
    · have other : Sync.Lock.mutex m' ≠ (.mutex m : Sync.Lock κ ι) := by simpa using mine
      simp only [queueAfter, agrees.top, here, Locks.goto, Locks.setWaiters, Function.update_of_ne mine,
        Function.update_of_ne other, agrees.waiters]

/-- Both machines make the same step of the running thread, or both are stuck, once the lock
calls of the thread are made. -/
theorem Agrees.exec (agrees : Agrees k s queue)
    (settled : k.pc k.sched.current = .client → k.todo k.sched.current = []) : Lockstep k s queue := by
  have top := agrees.top
  have here := agrees.pc k.sched.current
  have sched := agrees.sched
  have still : (∀ m, k.pc k.sched.current ≠ .park m) → (∀ m, k.pc k.sched.current ≠ .popWaiter m) →
      queueAfter s queue = queue := agrees.still
  cases pc : k.pc k.sched.current with
  | client => exact agrees.client pc (settled pc)
  | park m => exact agrees.park pc
  | popWaiter m => exact agrees.pop pc
  | xchg c =>
    rw [pc, framePc] at here
    specialize still (by simp [pc]) (by simp [pc])
    cases taken : k.slock c.mutex with
    | true =>
      apply agrees.follow (.watch c) _ _ agrees.toMatches ⟨rfl, rfl⟩ still
      · simp [Locks.exec, pc, taken]
      · simp [Sync.exec, top, here, call_lock, agrees.slock, taken, framePc]
    | false =>
      apply agrees.follow c.body _ _ (agrees.setSlock c.mutex true) ⟨rfl, rfl⟩ still
      · simp [Locks.exec, pc, taken]
      · simp [Sync.exec, top, here, call_lock, call_body, agrees.slock, taken]
  | watch c =>
    rw [pc, framePc] at here
    specialize still (by simp [pc]) (by simp [pc])
    apply agrees.follow (if k.slock c.mutex then .yield c else .xchg c) _ _ agrees.toMatches ⟨rfl, rfl⟩ still
    · simp only [Locks.exec, pc]
    · simp only [Sync.exec, top, here, call_lock, agrees.slock]
      split_ifs <;> rfl
  | yield c =>
    rw [pc, framePc] at here
    specialize still (by simp [pc]) (by simp [pc])
    have left : Locks.exec k = (kthreadYield k.sched).map fun next =>
        Locks.goto (Locks.setSched k next) k.sched.current (.watch c) := by
      simp only [Locks.exec, pc]
    have right : Sync.exec s = (kthreadYield k.sched).map fun next =>
        Sync.goto (Sync.setSched s next) (.base k.sched.current) (framePc (.watch c)) := by
      simp only [Sync.exec, top, here, sched, framePc]
    exact agrees.reschedule (.watch c) left right
      (fun next ran => (kthreadYield_result agrees.good agrees.started ran).2.2.1) still
  | testOwner m =>
    rw [pc, framePc] at here
    specialize still (by simp [pc]) (by simp [pc])
    apply agrees.follow (if k.owner m = none then .takeOwner m else .park m) _ _ agrees.toMatches ⟨rfl, rfl⟩ still
    · simp only [Locks.exec, pc]
    · simp only [Sync.exec, top, here, Sync.available, agrees.owner, decide_eq_true_eq]
      split_ifs <;> rfl
  | takeOwner m =>
    rw [pc, framePc] at here
    specialize still (by simp [pc]) (by simp [pc])
    have same := agrees.setOwner m (some k.sched.current)
    have taken : Matches (Locks.setOwner k m (some k.sched.current))
        (Sync.took (Sync.setOwner s m (some k.sched.current)) (.mutex m) k.sched.current) := { same with }
    apply agrees.follow (.release m) _ _ taken ⟨rfl, rfl⟩ still
    · simp only [Locks.exec, pc]
    · simp only [Sync.exec, top, here, sched, framePc]
  | drop m =>
    rw [pc, framePc] at here
    specialize still (by simp [pc]) (by simp [pc])
    apply agrees.follow (.block m) _ _ (agrees.setSlock m false) ⟨rfl, rfl⟩ still
    · simp only [Locks.exec, pc]
    · simp only [Sync.exec, top, here, framePc]
  | block m =>
    rw [pc, framePc] at here
    specialize still (by simp [pc]) (by simp [pc])
    have left : Locks.exec k = (kthreadBlock k.sched .blocked).map fun next =>
        Locks.goto (Locks.setSched k next) k.sched.current (.parked m) := by
      simp only [Locks.exec, pc]
    have right : Sync.exec s = (kthreadBlock k.sched .blocked).map fun next =>
        Sync.goto (Sync.setSched s next) (.base k.sched.current) (framePc (.parked m)) := by
      simp only [Sync.exec, top, here, sched, framePc]
    exact agrees.reschedule (.parked m) left right
      (fun next ran => (kthreadBlock_result agrees.good agrees.started (.inl rfl) ran).2.2.1) still
  | parked m =>
    rw [pc, framePc] at here
    specialize still (by simp [pc]) (by simp [pc])
    apply agrees.follow (.xchg (.lock m)) _ _ agrees.toMatches ⟨rfl, rfl⟩ still
    · simp only [Locks.exec, pc]
    · simp only [Sync.exec, top, here, framePc, call, Sync.mutexLock]
  | giveOwner m =>
    rw [pc, framePc] at here
    specialize still (by simp [pc]) (by simp [pc])
    have same := agrees.setOwner m none
    have given : Matches (Locks.setOwner k m none)
        (Sync.gave (Sync.setOwner s m none) (.mutex m) k.sched.current) := { same with }
    apply agrees.follow (.testWaiters m) _ _ given ⟨rfl, rfl⟩ still
    · simp only [Locks.exec, pc]
    · simp only [Sync.exec, top, here, sched, framePc]
  | testWaiters m =>
    rw [pc, framePc] at here
    specialize still (by simp [pc]) (by simp [pc])
    apply agrees.follow (if k.waitList m = [] then .release m else .popWaiter m) _ _ agrees.toMatches
      ⟨rfl, rfl⟩ still
    · simp only [Locks.exec, pc]
    · simp only [Sync.exec, top, here, agrees.empty_iff]
      split_ifs <;> rfl
  | wake m u =>
    rw [pc, framePc] at here
    specialize still (by simp [pc]) (by simp [pc])
    have idle : (kthreadUnblock k.sched u).idle = k.sched.idle := by
      rw [kthreadUnblock]
      split_ifs <;> rfl
    apply agrees.follow (.release m) _ _ (agrees.setSched idle) ⟨rfl, rfl⟩ still
    · simp only [Locks.exec, pc]
    · simp only [Sync.exec, top, here, sched, framePc]
  | release m =>
    rw [pc, framePc] at here
    specialize still (by simp [pc]) (by simp [pc])
    apply agrees.follow .client _ _ (agrees.setSlock m false) ⟨rfl, rfl⟩ still
    · simp only [Locks.exec, pc]
    · simp only [Sync.exec, top, here, framePc]

/-- A thread whose function has a lock call left makes it. -/
theorem Agrees.enter (agrees : Agrees k s queue) (c : Locks.Call κ) (rest : List (Locks.Call κ))
    (pc : k.pc k.sched.current = .client) (busy : k.sched.current ≠ k.sched.idle) :
    ∃ s', Sync.step s (.enter (call c)) = some s' ∧
      Agrees (Locks.goto (Locks.setTodo k k.sched.current rest) k.sched.current (.xchg c)) s' queue := by
  have here := agrees.pc k.sched.current
  rw [pc, framePc] at here
  have taken : Matches (Locks.setTodo k k.sched.current rest) s := by
    refine { agrees.toMatches with unused := ?_ }
    exact (Function.update_of_ne busy.symm ..).trans agrees.unused
  rw [← agrees.sched] at here busy taken ⊢
  have made : Matches (Locks.setTodo k s.sched.current rest)
      { s with calls := Function.update s.calls s.sched.current (s.calls s.sched.current + 1) } :=
    { taken with }
  have entered := agrees.inv.enter (c := call c) here busy
  refine ⟨_, if_pos ⟨here, agrees.calm _, busy⟩, ?_⟩
  exact { made.goto s.sched.current (.xchg c) with inv := entered, waiters := agrees.waiters }

theorem Agrees.tick (agrees : Agrees k s queue) :
    Option.Rel (fun k' s' => k'.todo = k.todo ∧ Agrees k' s' queue) (Locks.step k .tick) (Sync.step s .tick) := by
  have left : Locks.step k .tick = (timerHandler k.sched).map (Locks.setSched k) := by
    simp [Locks.step, agrees.alive]
  have right : Sync.step s .tick = (timerHandler k.sched).map (Sync.setSched s) := by
    simp [Sync.step, Sync.Interruptible, agrees.calm, agrees.sched]
  rw [left, right]
  cases ran : timerHandler k.sched with
  | none => exact .none
  | some next =>
    have idle := (timerHandler_result agrees.good agrees.started ran).2.2.1
    have inv := agrees.inv.tick (s := next) (by rw [agrees.sched, ran])
    exact .some ⟨rfl, { agrees.setSched idle with inv, waiters := agrees.waiters }⟩

/-! Runs. -/

/-- Nobody calls `kthread_exit`. -/
def Stays (_ : Locks.Kernel κ τ) : Locks.Event κ → Prop
  | .exit _ => False
  | _ => True

/-- Threads call `mutex_lock` and `mutex_unlock` only, and the disks are silent. -/
def Mutexes (_ : Sync.Kernel κ ι τ) (e : Sync.Event κ ι) : Prop :=
  e = .exec ∨ e = .tick ∨ ∃ c, e = .enter (call c)

/-- What `Locks` does for an event of `Sync`, step by step permitted by `ok`. -/
def Permits (ok : Locks.Kernel κ τ → Locks.Event κ → Prop) (k : Locks.Kernel κ τ) (e : Sync.Event κ ι) :
    Prop :=
  e = .exec ∧ ok k .exec ∨ e = .tick ∧ ok k .tick ∨
    ∃ c, e = .enter (call c) ∧ (k.pc k.sched.current = .client →
      ok k (.enter [c]) ∧ ok (Locks.setTodo k k.sched.current [c]) .exec)

theorem rel_some {α β : Type*} {r : α → β → Prop} {a : α} {o : Option β} (related : Option.Rel r (some a) o) :
    ∃ b, o = some b ∧ r a b := by
  cases related with
  | some same => exact ⟨_, rfl, same⟩

theorem rel_some_right {α β : Type*} {r : α → β → Prop} {b : β} {o : Option α}
    (related : Option.Rel r o (some b)) : ∃ a, o = some a ∧ r a b := by
  cases related with
  | some same => exact ⟨_, rfl, same⟩

/-- `Sync` enters a lock function when the page function makes the call, and stands still when
the thread enters the page function. -/
theorem Agrees.sync_answers {e : Locks.Event κ} (agrees : Agrees k s queue) (stays : Stays k e)
    (moved : Locks.step k e = some k') : ∃ s', Reach Sync.step Mutexes s s' ∧ ∃ queue', Agrees k' s' queue' := by
  cases e with
  | exec =>
    by_cases settled : k.pc k.sched.current = .client → k.todo k.sched.current = []
    · have both := agrees.exec settled
      rw [Lockstep, show Locks.exec k = some k' from moved] at both
      obtain ⟨s', ran, -, later⟩ := rel_some both
      exact ⟨s', Reach.cons (.inl rfl) ran (Reach.refl s'), _, later⟩
    · obtain ⟨pc, waiting⟩ := Classical.not_imp.mp settled
      obtain ⟨c, rest, calls⟩ := List.exists_cons_of_ne_nil waiting
      have busy : k.sched.current ≠ k.sched.idle := by
        intro same
        rw [same, agrees.unused] at calls
        cases calls
      have made : k' = Locks.goto (Locks.setTodo k k.sched.current rest) k.sched.current (.xchg c) := by
        simpa [Locks.step, Locks.exec, pc, Locks.clientStep, calls] using moved.symm
      obtain ⟨s', entered, later⟩ := agrees.enter c rest pc busy
      exact ⟨s', Reach.cons (.inr (.inr ⟨c, rfl⟩)) entered (Reach.refl s'), queue, made ▸ later⟩
  | tick =>
    have both := agrees.tick
    rw [moved] at both
    obtain ⟨s', ran, -, later⟩ := rel_some both
    exact ⟨s', Reach.cons (.inr (.inl rfl)) ran (Reach.refl s'), queue, later⟩
  | enter calls =>
    simp only [Locks.step] at moved
    split_ifs at moved with ready
    cases moved
    have unused : (Locks.setTodo k k.sched.current calls).todo k.sched.idle = [] :=
      (Function.update_of_ne ready.2.2.2.symm ..).trans agrees.unused
    exact ⟨s, Reach.refl s, queue, { agrees with unused }⟩
  | exit calls => exact stays.elim

/-- `Locks` enters a function with one lock call and makes it at once. -/
theorem Agrees.locks_answers {ok : Locks.Kernel κ τ → Locks.Event κ → Prop} {e : Sync.Event κ ι}
    (agrees : Agrees k s queue) (settled : ∀ t, k.todo t = []) (permits : Permits ok k e)
    (moved : Sync.step s e = some s') :
    ∃ k', Reach Locks.step ok k k' ∧ (∀ t, k'.todo t = []) ∧ ∃ queue', Agrees k' s' queue' := by
  rcases permits with ⟨rfl, permitted⟩ | ⟨rfl, permitted⟩ | ⟨c, rfl, permitted⟩
  · have both := agrees.exec (fun _ => settled _)
    rw [Lockstep, show Sync.exec s = some s' from moved] at both
    obtain ⟨k', ran, todo, later⟩ := rel_some_right both
    exact ⟨k', Reach.cons permitted ran (Reach.refl k'), todo ▸ settled, _, later⟩
  · have both := agrees.tick
    rw [moved] at both
    obtain ⟨k', ran, todo, later⟩ := rel_some_right both
    exact ⟨k', Reach.cons permitted ran (Reach.refl k'), todo ▸ settled, queue, later⟩
  · obtain ⟨here, -, busy⟩ : s.pc (.base s.sched.current) = .client ∧ Sync.Interruptible s ∧
        s.sched.current ≠ s.sched.idle := by
      simp only [Sync.step] at moved
      split_ifs at moved with ready
      exact ready
    rw [agrees.sched] at here busy
    have pc : k.pc k.sched.current = .client := by
      rw [agrees.pc] at here
      cases pc : k.pc k.sched.current <;> simp [pc, framePc] at here ⊢
    obtain ⟨entering, calling⟩ := permitted pc
    have enters : Locks.step k (.enter [c]) = some (Locks.setTodo k k.sched.current [c]) :=
      if_pos ⟨pc, settled _, agrees.alive _, busy⟩
    have calls : Locks.step (Locks.setTodo k k.sched.current [c]) .exec =
        some (Locks.goto (Locks.setTodo k k.sched.current []) k.sched.current (.xchg c)) := by
      simp [Locks.step, Locks.exec, Locks.clientStep, Locks.setTodo, pc]
    obtain ⟨s₁, entered, later⟩ := agrees.enter c [] pc busy
    cases entered.symm.trans moved
    refine ⟨_, Reach.cons entering enters (Reach.cons calling calls (Reach.refl _)), ?_, queue, later⟩
    intro t
    by_cases same : t = k.sched.current
    · subst same
      exact Function.update_self ..
    · exact (Function.update_of_ne same ..).trans (settled t)

/-- Every run of `Locks` without exits is one of `Sync`. -/
theorem reach_sync (agrees : Agrees k s queue) (run : Reach Locks.step Stays k k') :
    ∃ s', Reach Sync.step Mutexes s s' ∧ ∃ queue', Agrees k' s' queue' := by
  refine Reach.simulates (R := fun k s => ∃ queue, Agrees k s queue) ?_ ⟨queue, agrees⟩ run
  rintro before other e after ⟨queue', agrees'⟩ stays moved
  exact agrees'.sync_answers stays moved

/-- Every run of `Sync` with mutexes alone is one of `Locks`, permitted by `ok` where each of its
steps is. -/
theorem reach_locks {ok : Locks.Kernel κ τ → Locks.Event κ → Prop}
    {ok' : Sync.Kernel κ ι τ → Sync.Event κ ι → Prop}
    (permits : ∀ {k s queue e}, Agrees k s queue → ok' s e → Permits ok k e) (agrees : Agrees k s queue)
    (settled : ∀ t, k.todo t = []) (run : Reach Sync.step ok' s s') :
    ∃ k', Reach Locks.step ok k k' ∧ ∃ queue', Agrees k' s' queue' := by
  have answered : ∃ k', Reach Locks.step ok k k' ∧ (∀ t, k'.todo t = []) ∧ ∃ queue', Agrees k' s' queue' := by
    refine Reach.simulates (R := fun s k => (∀ t, k.todo t = []) ∧ ∃ queue, Agrees k s queue) ?_
      ⟨settled, queue, agrees⟩ run
    rintro before other e after ⟨settled', queue', agrees'⟩ permitted moved
    exact agrees'.locks_answers settled' (permits agrees' permitted) moved
  obtain ⟨k', reached, -, later⟩ := answered
  exact ⟨k', reached, later⟩

/-- The kernel of `Locks` with nobody inside a lock function. -/
def outside (s : Sync.Kernel κ ι τ) (main : τ) : Locks.Kernel κ τ where
  sched := s.sched
  main := main
  slock m := s.slock (.mutex m)
  owner := s.owner
  waitList _ := []
  pc _ := .client
  todo _ := []
  life _ := .alive

theorem start_agrees (start : SyncInvariant.Start s) (main : τ) :
    Wakeup.Start (outside s main) ∧ Agrees (outside s main) s (fun _ => []) := by
  constructor
  · exact ⟨start.good, start.started, fun _ => ⟨rfl, rfl, rfl⟩,
      fun m => ⟨start.free (.mutex m), start.unowned m, rfl⟩⟩
  · exact { sched := rfl, slock := fun _ => rfl, owner := rfl, pc := fun t => start.outside (.base t),
            calm := fun t => start.outside (.handler t), alive := fun _ => rfl, unused := rfl,
            inv := start.inv, waiters := fun _ => rfl }

/-! The wakeups of `Wakeup`, on linked lists. -/

/-- Threads unlock only what they own, and `mutex_unlock` pops no waiter that is not blocked yet. -/
structure Careful (s : Sync.Kernel κ ι τ) (e : Sync.Event κ ι) : Prop where
  mutexes : Mutexes s e
  owned : ∀ m, e = .enter (Sync.mutexUnlock m) → s.owner m = some s.sched.current
  late : e = .exec → ∀ m u n links, s.pc (Sync.top s) = .popWaiter (.mutex m) →
    KernelList.listPop s.links (Sync.waitList (.mutex m)) = (some (.waiter u n), links) →
    s.sched.status u = .blocked

theorem Careful.permits {e : Sync.Event κ ι} (careful : Careful s e) (agrees : Agrees k s queue) :
    Permits (fun k e => Wakeup.Client k e ∧ Wakeup.PopsBlocked k e) k e := by
  rcases careful.mutexes with rfl | rfl | ⟨c, rfl⟩
  · refine .inl ⟨rfl, trivial, fun _ u popped => ?_⟩
    obtain ⟨m, pc, front⟩ : ∃ m, k.pc k.sched.current = .popWaiter m ∧ (k.waitList m).head? = some u := by
      unfold Wakeup.popped at popped
      split at popped
      next m pc => exact ⟨m, pc, popped⟩
      next => cases popped
    have here : s.pc (Sync.top s) = .popWaiter (.mutex m) := by rw [agrees.top, agrees.pc, pc, framePc]
    rw [← agrees.waiters] at front
    obtain ⟨rest, order⟩ := List.head?_eq_some_iff.mp front
    obtain ⟨popping, -⟩ := Linked.pop agrees.inv.linked order (fun l l' u => agrees.inv.alone)
    rw [← agrees.sched]
    exact careful.late rfl m u (s.calls u) _ here popping
  · exact .inr (.inl ⟨rfl, trivial, by simp [Wakeup.PopsBlocked]⟩)
  · refine .inr (.inr ⟨c, rfl, fun pc => ⟨⟨?_, by simp [Wakeup.PopsBlocked]⟩, trivial, ?_⟩⟩)
    · cases c with
      | lock m => trivial
      | unlock m =>
        have owner := careful.owned m rfl
        rw [agrees.owner, agrees.sched] at owner
        exact owner
    · intro _ u popped
      simp [Wakeup.popped, Locks.setTodo, pc] at popped

/-- In every such run a thread that sleeps in `mutex_lock` is linked in the list of that mutex
whenever its spinlock is free. -/
theorem reach_asleep (start : SyncInvariant.Start s) (run : Reach Sync.step Careful s s') {m : κ} {t : τ}
    (free : s'.slock (.mutex m) = false) (parked : s'.pc (.base t) = .parked (.mutex m))
    (blocked : s'.sched.status t = .blocked) :
    ∃ waiters, KernelList.Holds s'.links (Sync.waitList (.mutex m)) waiters ∧
      Sync.waiterOf s'.calls t ∈ waiters := by
  obtain ⟨outside, agrees⟩ := start_agrees start s.sched.idle
  obtain ⟨k', reached, queue, agrees'⟩ :=
    reach_locks (fun agrees careful => Careful.permits careful agrees) agrees (fun _ => rfl) run
  have inv := Wakeup.reach_inv outside reached
  rw [agrees'.sched] at blocked
  rw [agrees'.slock] at free
  have here : k'.pc t = .parked m := by
    rw [agrees'.pc] at parked
    cases pc : k'.pc t <;> simp_all [framePc]
  rcases inv.parked m t here blocked with member | ⟨u, waking⟩
  · rw [← agrees'.waiters] at member
    exact ⟨_, agrees'.inv.linked (.mutex m), List.mem_map_of_mem member⟩
  · exact absurd waking (inv.noneCarried free t u)

end KOS.LockModels
