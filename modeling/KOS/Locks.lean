import KOS.SchedInvariant
import KOS.Machine

/-! `lock.c` and the lock calls of `page_acquire` and `page_release` as a machine. One
processor executes the current thread; a step is one access to shared memory, or one of the
thread operations that run with interrupts disabled. A timer tick may fall between any two
steps unless the thread is inside `kthread_exit`. -/

namespace KOS.Locks
open KOS.Sched KOS.SchedInvariant

variable {κ τ : Type*} [DecidableEq κ] [DecidableEq τ]

/-- A call to `mutex_lock` or `mutex_unlock`. -/
inductive Call (κ : Type*) where
  | lock (m : κ)
  | unlock (m : κ)
  deriving DecidableEq

def Call.mutex : Call κ → κ
  | .lock m => m
  | .unlock m => m

/-- What a thread executes next. -/
inductive Pc (κ τ : Type*) where
  /-- Outside the lock functions. -/
  | client
  /- `spin_lock`: the `xchg`, the read of `lock->value`, the call of `kthread_yield`. -/
  | xchg (c : Call κ)
  | watch (c : Call κ)
  | yield (c : Call κ)
  /- `mutex_lock`, with the spinlock held up to `drop`. -/
  | testOwner (m : κ)
  | takeOwner (m : κ)
  | park (m : κ)
  | drop (m : κ)
  | block (m : κ)
  /-- Inside `kthread_block`, back in the loop once `schedule` returns. -/
  | parked (m : κ)
  /- `mutex_unlock`. -/
  | giveOwner (m : κ)
  | testWaiters (m : κ)
  | popWaiter (m : κ)
  | wake (m : κ) (t : τ)
  /-- The last `spin_unlock` of either function. -/
  | release (m : κ)
  deriving DecidableEq

/-- Where a thread is in its life: `exiting` from its call of `kthread_exit` on, `gone` once
it has called the final `schedule`, `returned` if that call ever comes back. -/
inductive Life where
  | alive
  | exiting
  | gone
  | returned
  deriving DecidableEq

structure Kernel (κ τ : Type*) where
  sched : SchedState τ
  /-- `g_main_task`. -/
  main : τ
  slock : κ → Bool
  owner : κ → Option τ
  /-- The waiting thread of every `lock_waiter` on the list, front first. -/
  waitList : κ → List τ
  pc : τ → Pc κ τ
  /-- The lock calls left of the page function a thread executes. -/
  todo : τ → List (Call κ)
  life : τ → Life

def goto (k : Kernel κ τ) (t : τ) (pc : Pc κ τ) : Kernel κ τ :=
  { k with pc := Function.update k.pc t pc }

def setSlock (k : Kernel κ τ) (m : κ) (value : Bool) : Kernel κ τ :=
  { k with slock := Function.update k.slock m value }

def setOwner (k : Kernel κ τ) (m : κ) (owner : Option τ) : Kernel κ τ :=
  { k with owner := Function.update k.owner m owner }

def setWaiters (k : Kernel κ τ) (m : κ) (waiters : List τ) : Kernel κ τ :=
  { k with waitList := Function.update k.waitList m waiters }

def setTodo (k : Kernel κ τ) (t : τ) (calls : List (Call κ)) : Kernel κ τ :=
  { k with todo := Function.update k.todo t calls }

def setLife (k : Kernel κ τ) (t : τ) (life : Life) : Kernel κ τ :=
  { k with life := Function.update k.life t life }

def setSched (k : Kernel κ τ) (s : SchedState τ) : Kernel κ τ := { k with sched := s }

omit [DecidableEq κ] in
@[simp] theorem goto_pc_self (k : Kernel κ τ) (t : τ) (pc : Pc κ τ) : (goto k t pc).pc t = pc :=
  Function.update_self ..

omit [DecidableEq κ] in
theorem goto_pc_other (k : Kernel κ τ) {t u : τ} (pc : Pc κ τ) (other : u ≠ t) :
    (goto k t pc).pc u = k.pc u := Function.update_of_ne other ..

/-- The first step after `spin_lock` has returned. -/
def Call.body : Call κ → Pc κ τ
  | .lock m => .testOwner m
  | .unlock m => .giveOwner m

/-- A step outside the lock functions: the next lock call, the end of `kthread_exit`, or the
loop of `idle_thread`. -/
def clientStep (k : Kernel κ τ) (t : τ) : Option (Kernel κ τ) :=
  match k.todo t, k.life t with
  | c :: rest, _ => some (goto (setTodo k t rest) t (.xchg c))
  | [], .exiting => (schedule k.sched).map fun s => setLife (setSched k s) t .gone
  | [], .gone => some (setLife k t .returned)
  | [], _ =>
      if t = k.sched.idle then (kthreadBlock k.sched .blocked).map (setSched k) else some k

/-- The next step of the current thread. -/
def exec (k : Kernel κ τ) : Option (Kernel κ τ) :=
  let t := k.sched.current
  match k.pc t with
  | .client => clientStep k t
  | .xchg c => some (if k.slock c.mutex then goto k t (.watch c)
      else goto (setSlock k c.mutex true) t c.body)
  | .watch c => some (goto k t (if k.slock c.mutex then .yield c else .xchg c))
  | .yield c => (kthreadYield k.sched).map fun s => goto (setSched k s) t (.watch c)
  | .testOwner m => some (goto k t (if k.owner m = none then .takeOwner m else .park m))
  | .takeOwner m => some (goto (setOwner k m (some t)) t (.release m))
  | .park m => some (goto (setWaiters k m (k.waitList m ++ [t])) t (.drop m))
  | .drop m => some (goto (setSlock k m false) t (.block m))
  | .block m => (kthreadBlock k.sched .blocked).map fun s => goto (setSched k s) t (.parked m)
  | .parked m => some (goto k t (.xchg (.lock m)))
  | .giveOwner m => some (goto (setOwner k m none) t (.testWaiters m))
  | .testWaiters m => some (goto k t (if k.waitList m = [] then .release m else .popWaiter m))
  | .popWaiter m =>
      match k.waitList m with
      | [] => none
      | u :: rest => some (goto (setWaiters k m rest) t (.wake m u))
  | .wake m u => some (goto (setSched k (kthreadUnblock k.sched u)) t (.release m))
  | .release m => some (goto (setSlock k m false) t .client)

/-- The current thread may leave its own code: it executes no lock function, no page
function, and not the idle loop. -/
def AtClient (k : Kernel κ τ) : Prop :=
  k.pc k.sched.current = .client ∧ k.todo k.sched.current = [] ∧
    k.life k.sched.current = .alive ∧ k.sched.current ≠ k.sched.idle

instance (k : Kernel κ τ) : Decidable (AtClient k) := inferInstanceAs (Decidable (_ ∧ _))

inductive Event (κ : Type*) where
  /-- The current thread makes one step. -/
  | exec
  | tick
  /-- The current thread enters a function that makes these lock calls. -/
  | enter (calls : List (Call κ))
  /-- The current thread calls `kthread_exit`; its `page_free` makes these lock calls. -/
  | exit (calls : List (Call κ))
  deriving DecidableEq

def step (k : Kernel κ τ) : Event κ → Option (Kernel κ τ)
  | .exec => exec k
  | .tick =>
      if k.life k.sched.current = .exiting ∨ k.life k.sched.current = .gone then none
      else (timerHandler k.sched).map (setSched k)
  | .enter calls => if AtClient k then some (setTodo k k.sched.current calls) else none
  | .exit calls =>
      if AtClient k then
        let t := k.sched.current
        some (setLife (setTodo (setSched k (leave k.sched)) t (if t = k.main then [] else calls)) t .exiting)
      else none

/-! The lock calls of the page functions. -/

/-- The mutexes of `page_acquire` and `page_release`. -/
inductive PageLock where
  /-- `vp->mlock`. -/
  | virtual
  /-- `pp->mlock`. -/
  | physical
  /-- `mlock_pgtable`. -/
  | pgtable
  deriving DecidableEq

def critical (m : κ) : List (Call κ) := [.lock m, .unlock m]

/-- `page_release` of `cnt` pages. -/
def pageRelease (cnt : Nat) : List (Call PageLock) :=
  (List.replicate cnt (critical .physical ++ critical .pgtable)).flatten ++ critical .virtual

/-- `page_acquire` that maps `cnt` pages; when the virtual range or a frame runs out it
returns after the critical section that failed. -/
inductive PageAcquire : Nat → List (Call PageLock) → Prop where
  | done (cnt : Nat) : PageAcquire cnt
      (critical .virtual ++ (List.replicate cnt (critical .physical ++ critical .pgtable)).flatten)
  | noRange (cnt : Nat) : PageAcquire cnt (critical .virtual)
  | noFrame (cnt mapped : Nat) (short : mapped < cnt) : PageAcquire cnt
      (critical .virtual ++ (List.replicate mapped (critical .physical ++ critical .pgtable)).flatten ++
        critical .physical)

end KOS.Locks
