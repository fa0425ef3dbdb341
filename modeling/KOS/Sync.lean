import KOS.SchedInvariant
import KOS.Machine

/-! All of `lock.c` as one machine: mutexes and semaphores, threads that call their functions,
and the disk interrupt, whose handler calls `sema_up` on the stack of the thread it
interrupts. A step is one access to shared memory or one thread operation that runs with
interrupts disabled; the list operations count as one access, under their spinlock. -/

namespace KOS.Sync
open KOS.DoublyLinked KOS.KernelList KOS.Sched KOS.SchedInvariant

variable {κ ι τ : Type*} [DecidableEq κ] [DecidableEq ι] [DecidableEq τ]

/-- Both kinds of lock have a spinlock and a list of waiters. -/
inductive Lock (κ ι : Type*) where
  | mutex (m : κ)
  | sema (s : ι)
  deriving DecidableEq

/-- The functions of one kind differ from those of the other only in what they do between
taking the spinlock and looking at the list. -/
inductive Call (κ ι : Type*) where
  | down (l : Lock κ ι)
  | up (l : Lock κ ι)
  deriving DecidableEq

def mutexLock (m : κ) : Call κ ι := .down (.mutex m)
def mutexUnlock (m : κ) : Call κ ι := .up (.mutex m)
def semaDown (s : ι) : Call κ ι := .down (.sema s)
def semaUp (s : ι) : Call κ ι := .up (.sema s)

def Call.lock : Call κ ι → Lock κ ι
  | .down l => l
  | .up l => l

/-- What a stack frame executes next. -/
inductive Pc (κ ι τ : Type*) where
  /-- Outside the lock functions. -/
  | client
  /- `spin_lock`: the `xchg`, the read of `lock->value`, the call of `kthread_yield`. -/
  | xchg (c : Call κ ι)
  | watch (c : Call κ ι)
  | yield (c : Call κ ι)
  /- `mutex_lock` and `sema_down`, with the spinlock held up to `drop`. -/
  | test (l : Lock κ ι)
  | take (l : Lock κ ι)
  /-- `count--`, the old value in a register. -/
  | lower (s : ι) (value : Nat)
  | park (l : Lock κ ι)
  | drop (l : Lock κ ι)
  | block (l : Lock κ ι)
  /-- Inside `kthread_block`, back in the loop once `schedule` returns. -/
  | parked (l : Lock κ ι)
  /- `mutex_unlock` and `sema_up`. -/
  | give (l : Lock κ ι)
  /-- `count++`, the old value in a register. -/
  | raise (s : ι) (value : Nat)
  | testWaiters (l : Lock κ ι)
  | popWaiter (l : Lock κ ι)
  | wake (l : Lock κ ι) (t : τ)
  /-- The last `spin_unlock` of any of the four. -/
  | release (l : Lock κ ι)
  deriving DecidableEq

/-- The frames of a thread: its own code, and a disk interrupt handler on top of it. -/
inductive Frame (τ : Type*) where
  | base (t : τ)
  | handler (t : τ)
  deriving DecidableEq

def Frame.thread : Frame τ → τ
  | .base t => t
  | .handler t => t

/-- A wait list links sentinels and the `lock_waiter`s of calls, one for each call of a thread. -/
inductive WaitNode (κ ι τ : Type*) where
  | null
  | head (l : Lock κ ι)
  | tail (l : Lock κ ι)
  | waiter (t : τ) (call : Nat)
  deriving DecidableEq

def waitList (l : Lock κ ι) : KList (WaitNode κ ι τ) := ⟨.head l, .tail l⟩

structure Kernel (κ ι τ : Type*) where
  sched : SchedState τ
  slock : Lock κ ι → Bool
  owner : κ → Option τ
  count : ι → Nat
  links : Fields (WaitNode κ ι τ)
  pc : Frame τ → Pc κ ι τ
  /-- The number of lock calls a thread has made. -/
  calls : τ → Nat
  /- History: the decrements and increments of a count, and who is between taking a lock and
  giving it back. -/
  lowered : ι → Nat
  raised : ι → Nat
  holders : Lock κ ι → List τ

def goto (k : Kernel κ ι τ) (f : Frame τ) (pc : Pc κ ι τ) : Kernel κ ι τ :=
  { k with pc := Function.update k.pc f pc }

def setSlock (k : Kernel κ ι τ) (l : Lock κ ι) (value : Bool) : Kernel κ ι τ :=
  { k with slock := Function.update k.slock l value }

def setOwner (k : Kernel κ ι τ) (m : κ) (owner : Option τ) : Kernel κ ι τ :=
  { k with owner := Function.update k.owner m owner }

def setCount (k : Kernel κ ι τ) (s : ι) (value : Nat) : Kernel κ ι τ :=
  { k with count := Function.update k.count s value }

def setLinks (k : Kernel κ ι τ) (links : Fields (WaitNode κ ι τ)) : Kernel κ ι τ :=
  { k with links := links }

def setSched (k : Kernel κ ι τ) (s : SchedState τ) : Kernel κ ι τ := { k with sched := s }

/-- History: `t` has taken `l`. -/
def took (k : Kernel κ ι τ) (l : Lock κ ι) (t : τ) : Kernel κ ι τ :=
  { k with holders := Function.update k.holders l (t :: k.holders l) }

/-- History: `t` has given `l` back. -/
def gave (k : Kernel κ ι τ) (l : Lock κ ι) (t : τ) : Kernel κ ι τ :=
  { k with holders := Function.update k.holders l ((k.holders l).erase t) }

def countLowered (k : Kernel κ ι τ) (s : ι) : Kernel κ ι τ :=
  { k with lowered := Function.update k.lowered s (k.lowered s + 1) }

def countRaised (k : Kernel κ ι τ) (s : ι) : Kernel κ ι τ :=
  { k with raised := Function.update k.raised s (k.raised s + 1) }

/-- `NULL == mlock->owner`, or `sema->count > 0`. -/
def available (k : Kernel κ ι τ) : Lock κ ι → Bool
  | .mutex m => k.owner m = none
  | .sema s => 0 < k.count s

/-- The first step after `spin_lock` has returned. -/
def Call.body : Call κ ι → Pc κ ι τ
  | .down l => .test l
  | .up l => .give l

/-- The waiter of the call that `t` is in. -/
def waiterOf (calls : τ → Nat) (t : τ) : WaitNode κ ι τ := .waiter t (calls t)

/-- The frame on top of the current thread's stack. -/
def top (k : Kernel κ ι τ) : Frame τ :=
  if k.pc (.handler k.sched.current) = .client then .base k.sched.current else .handler k.sched.current

/-- Outside the lock functions only the loop of `idle_thread` matters. -/
def clientStep (k : Kernel κ ι τ) : Option (Kernel κ ι τ) :=
  if k.sched.current = k.sched.idle then (kthreadBlock k.sched .blocked).map (setSched k) else some k

/-- The next step of the current thread. -/
def exec (k : Kernel κ ι τ) : Option (Kernel κ ι τ) :=
  let f := top k
  let t := k.sched.current
  match k.pc f with
  | .client => clientStep k
  | .xchg c => some (if k.slock c.lock then goto k f (.watch c)
      else goto (setSlock k c.lock true) f c.body)
  | .watch c => some (goto k f (if k.slock c.lock then .yield c else .xchg c))
  | .yield c => (kthreadYield k.sched).map fun s => goto (setSched k s) f (.watch c)
  | .test l => some (goto k f (if available k l then .take l else .park l))
  | .take (.mutex m) => some (goto (took (setOwner k m (some t)) (.mutex m) t) f (.release (.mutex m)))
  | .take (.sema s) => some (goto k f (.lower s (k.count s)))
  | .lower s value =>
      let k := countLowered (setCount k s ((value + (2 ^ 32 - 1)) % 2 ^ 32)) s
      some (goto (took k (.sema s) t) f (.release (.sema s)))
  | .park l => some (goto (setLinks k (listAppend k.links (waitList l) (waiterOf k.calls t))) f (.drop l))
  | .drop l => some (goto (setSlock k l false) f (.block l))
  | .block l => (kthreadBlock k.sched .blocked).map fun s => goto (setSched k s) f (.parked l)
  | .parked l => some (goto k f (.xchg (.down l)))
  | .give (.mutex m) => some (goto (gave (setOwner k m none) (.mutex m) t) f (.testWaiters (.mutex m)))
  | .give (.sema s) => some (goto k f (.raise s (k.count s)))
  | .raise s value =>
      let k := countRaised (setCount k s ((value + 1) % 2 ^ 32)) s
      some (goto (gave k (.sema s) t) f (.testWaiters (.sema s)))
  | .testWaiters l =>
      some (goto k f (if listEmpty k.links (waitList l) then .release l else .popWaiter l))
  | .popWaiter l =>
      match listPop k.links (waitList l) with
      | (some (.waiter u _), links) => some (goto (setLinks k links) f (.wake l u))
      | _ => none
  | .wake l u => some (goto (setSched k (kthreadUnblock k.sched u)) f (.release l))
  | .release l => some (goto (setSlock k l false) f .client)

inductive Event (κ ι : Type*) where
  /-- The current thread makes one step. -/
  | exec
  | tick
  /-- The current thread calls a lock function. -/
  | enter (c : Call κ ι)
  /-- The interrupt of the channel with this semaphore. -/
  | irq (s : ι)
  deriving DecidableEq

/-- An interrupt gate clears the interrupt flag until the handler returns; threads outside
the operations that are one step here run with it set. -/
def Interruptible (k : Kernel κ ι τ) : Prop := k.pc (.handler k.sched.current) = .client

instance (k : Kernel κ ι τ) : Decidable (Interruptible k) :=
  inferInstanceAs (Decidable (k.pc (.handler k.sched.current) = .client))

def step (k : Kernel κ ι τ) : Event κ ι → Option (Kernel κ ι τ)
  | .exec => exec k
  | .tick => if Interruptible k then (timerHandler k.sched).map (setSched k) else none
  | .enter c =>
      let t := k.sched.current
      if k.pc (.base t) = .client ∧ Interruptible k ∧ t ≠ k.sched.idle then
        some (goto { k with calls := Function.update k.calls t (k.calls t + 1) } (.base t) (.xchg c))
      else none
  | .irq s => if Interruptible k then some (goto k (.handler k.sched.current) (.xchg (semaUp s))) else none

omit [DecidableEq κ] [DecidableEq ι] in
@[simp] theorem goto_pc_self (k : Kernel κ ι τ) (f : Frame τ) (pc : Pc κ ι τ) : (goto k f pc).pc f = pc :=
  Function.update_self ..

omit [DecidableEq κ] [DecidableEq ι] in
theorem goto_pc_other (k : Kernel κ ι τ) {f g : Frame τ} (pc : Pc κ ι τ) (other : g ≠ f) :
    (goto k f pc).pc g = k.pc g := Function.update_of_ne other ..

/-- The moves of the running frame, one for each branch of `exec`. -/
inductive Exec (k : Kernel κ ι τ) : Kernel κ ι τ → Prop where
  | rest {k'} (pc : k.pc (top k) = .client) (ran : clientStep k = some k') : Exec k k'
  | spin (c) (pc : k.pc (top k) = .xchg c) (taken : k.slock c.lock = true) : Exec k (goto k (top k) (.watch c))
  | acquire (c) (pc : k.pc (top k) = .xchg c) (free : k.slock c.lock = false) :
      Exec k (goto (setSlock k c.lock true) (top k) c.body)
  | watch (c) (pc : k.pc (top k) = .watch c) :
      Exec k (goto k (top k) (if k.slock c.lock then .yield c else .xchg c))
  | yield (c) (s) (pc : k.pc (top k) = .yield c) (ran : kthreadYield k.sched = some s) :
      Exec k (goto (setSched k s) (top k) (.watch c))
  | test (l) (pc : k.pc (top k) = .test l) :
      Exec k (goto k (top k) (if available k l then .take l else .park l))
  | own (m) (pc : k.pc (top k) = .take (.mutex m)) :
      Exec k (goto (took (setOwner k m (some k.sched.current)) (.mutex m) k.sched.current) (top k)
        (.release (.mutex m)))
  | take (s) (pc : k.pc (top k) = .take (.sema s)) : Exec k (goto k (top k) (.lower s (k.count s)))
  | lower (s) (value) (pc : k.pc (top k) = .lower s value) :
      Exec k (goto (took (countLowered (setCount k s ((value + (2 ^ 32 - 1)) % 2 ^ 32)) s) (.sema s)
        k.sched.current) (top k) (.release (.sema s)))
  | park (l) (pc : k.pc (top k) = .park l) :
      Exec k (goto (setLinks k (listAppend k.links (waitList l) (waiterOf k.calls k.sched.current))) (top k)
        (.drop l))
  | drop (l) (pc : k.pc (top k) = .drop l) : Exec k (goto (setSlock k l false) (top k) (.block l))
  | block (l) (s) (pc : k.pc (top k) = .block l) (ran : kthreadBlock k.sched .blocked = some s) :
      Exec k (goto (setSched k s) (top k) (.parked l))
  | retry (l) (pc : k.pc (top k) = .parked l) : Exec k (goto k (top k) (.xchg (.down l)))
  | disown (m) (pc : k.pc (top k) = .give (.mutex m)) :
      Exec k (goto (gave (setOwner k m none) (.mutex m) k.sched.current) (top k) (.testWaiters (.mutex m)))
  | give (s) (pc : k.pc (top k) = .give (.sema s)) : Exec k (goto k (top k) (.raise s (k.count s)))
  | raise (s) (value) (pc : k.pc (top k) = .raise s value) :
      Exec k (goto (gave (countRaised (setCount k s ((value + 1) % 2 ^ 32)) s) (.sema s) k.sched.current) (top k)
        (.testWaiters (.sema s)))
  | testWaiters (l) (pc : k.pc (top k) = .testWaiters l) :
      Exec k (goto k (top k) (if listEmpty k.links (waitList l) then .release l else .popWaiter l))
  | popWaiter (l) (u) (n) (links) (pc : k.pc (top k) = .popWaiter l)
      (popped : listPop k.links (waitList l) = (some (.waiter u n), links)) :
      Exec k (goto (setLinks k links) (top k) (.wake l u))
  | wake (l) (u) (pc : k.pc (top k) = .wake l u) :
      Exec k (goto (setSched k (kthreadUnblock k.sched u)) (top k) (.release l))
  | release (l) (pc : k.pc (top k) = .release l) : Exec k (goto (setSlock k l false) (top k) .client)

theorem exec_cases {k k' : Kernel κ ι τ} (ran : exec k = some k') : Exec k k' := by
  unfold exec at ran
  cases pc : k.pc (top k) with
  | client =>
    simp only [pc] at ran
    exact .rest pc ran
  | xchg c =>
    simp only [pc, Option.some.injEq] at ran
    subst ran
    by_cases taken : k.slock c.lock
    · rw [if_pos taken]
      exact .spin c pc taken
    · rw [if_neg taken]
      exact .acquire c pc (by simpa using taken)
  | yield c =>
    simp only [pc] at ran
    obtain ⟨s, yielded, rfl⟩ := Option.map_eq_some_iff.mp ran
    exact .yield c s pc yielded
  | block l =>
    simp only [pc] at ran
    obtain ⟨s, blocks, rfl⟩ := Option.map_eq_some_iff.mp ran
    exact .block l s pc blocks
  | take l =>
    cases l with
    | mutex m =>
      simp only [pc] at ran
      cases ran
      exact .own m pc
    | sema s =>
      simp only [pc] at ran
      cases ran
      exact .take s pc
  | give l =>
    cases l with
    | mutex m =>
      simp only [pc] at ran
      cases ran
      exact .disown m pc
    | sema s =>
      simp only [pc] at ran
      cases ran
      exact .give s pc
  | popWaiter l =>
    simp only [pc] at ran
    split at ran
    next u n links popped =>
      cases ran
      exact .popWaiter l u n links pc popped
    next => cases ran
  | watch c =>
    simp only [pc] at ran
    cases ran
    exact .watch c pc
  | test l =>
    simp only [pc] at ran
    cases ran
    exact .test l pc
  | lower s value =>
    simp only [pc] at ran
    cases ran
    exact .lower s value pc
  | park l =>
    simp only [pc] at ran
    cases ran
    exact .park l pc
  | drop l =>
    simp only [pc] at ran
    cases ran
    exact .drop l pc
  | parked l =>
    simp only [pc] at ran
    cases ran
    exact .retry l pc
  | raise s value =>
    simp only [pc] at ran
    cases ran
    exact .raise s value pc
  | testWaiters l =>
    simp only [pc] at ran
    cases ran
    exact .testWaiters l pc
  | wake l u =>
    simp only [pc] at ran
    cases ran
    exact .wake l u pc
  | release l =>
    simp only [pc] at ran
    cases ran
    exact .release l pc

theorem top_thread (k : Kernel κ ι τ) : (top k).thread = k.sched.current := by
  unfold top
  split_ifs <;> rfl

theorem top_base {k : Kernel κ ι τ} (calm : Interruptible k) : top k = .base k.sched.current :=
  if_pos calm

theorem top_handler {k : Kernel κ ι τ} (nested : ¬ Interruptible k) : top k = .handler k.sched.current :=
  if_neg nested

end KOS.Sync
