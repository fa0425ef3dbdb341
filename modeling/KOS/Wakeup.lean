import KOS.Locks

/-! No mutex wakeup is lost as long as `mutex_unlock` pops only waiters that are blocked
already. A waiter is on the list from before it drops the spinlock, and leaves it blocked. -/

namespace KOS.Wakeup
open KOS.Sched KOS.SchedInvariant KOS.Locks KOS.Machine

variable {κ τ : Type*} [DecidableEq κ] [DecidableEq τ]

/-- The steps at which a thread holds the spinlock of `m`. -/
def Holds (m : κ) (pc : Pc κ τ) : Prop :=
  pc = .testOwner m ∨ pc = .takeOwner m ∨ pc = .park m ∨ pc = .drop m ∨ pc = .giveOwner m ∨
    pc = .testWaiters m ∨ pc = .popWaiter m ∨ (∃ t, pc = .wake m t) ∨ pc = .release m

/-- A step at which a thread neither waits on a list nor carries a popped waiter. -/
def Detached (pc : Pc κ τ) : Prop := ∀ m, pc ≠ .drop m ∧ pc ≠ .block m ∧ ∀ t, pc ≠ .wake m t

/-- A move between such steps that takes no spinlock. -/
structure Plain (pc pc' : Pc κ τ) : Prop where
  before : Detached pc
  after : Detached pc'
  unparked : ∀ m, pc' ≠ .parked m
  holds : ∀ m, Holds m pc' → Holds m pc

structure Inv (k : Kernel κ τ) : Prop where
  good : Good k.sched
  started : IdleStarted k.sched
  idle : k.pc k.sched.idle = .client
  unused : k.todo k.sched.idle = []
  alive : ∀ t, k.life t = .alive
  exclusive : ∀ m t u, Holds m (k.pc t) → Holds m (k.pc u) → t = u
  held : ∀ m t, Holds m (k.pc t) → k.slock m = true
  nodup : ∀ m, (k.waitList m).Nodup
  waiting : ∀ m t, t ∈ k.waitList m → k.pc t = .drop m ∨ k.pc t = .block m ∨ k.pc t = .parked m
  listed : ∀ m t, k.pc t = .drop m ∨ k.pc t = .block m → t ∈ k.waitList m
  active : ∀ t, k.pc t ≠ .client → (∀ m, k.pc t ≠ .parked m) → Active (k.sched.status t)
  asleep : ∀ m t, t ∈ k.waitList m → k.pc t = .parked m → k.sched.status t = .blocked
  parked : ∀ m t, k.pc t = .parked m → k.sched.status t = .blocked →
    t ∈ k.waitList m ∨ ∃ u, k.pc u = .wake m t
  waking : ∀ m t u, k.pc u = .wake m t →
    k.sched.status t = .blocked ∧ k.pc t = .parked m ∧ t ∉ k.waitList m

omit [DecidableEq κ] in
/-- A running thread that is past its wakeup, or never waited, is on no list. -/
theorem Inv.unlisted {k : Kernel κ τ} {t : τ} (inv : Inv k) (active : Active (k.sched.status t))
    (detached : Detached (k.pc t)) (m : κ) : t ∉ k.waitList m := by
  intro member
  rcases inv.waiting m t member with dropping | blocking | parked
  · exact (detached m).1 dropping
  · exact (detached m).2.1 blocking
  · have blocked := inv.asleep m t member parked
    rw [blocked] at active
    exact not_active_blocked active

omit [DecidableEq κ] in
theorem Inv.unwoken {k : Kernel κ τ} {t : τ} (inv : Inv k) (active : Active (k.sched.status t))
    (m : κ) (u : τ) : k.pc u ≠ .wake m t := by
  intro waking
  rw [(inv.waking m t u waking).1] at active
  exact not_active_blocked active

/-! One thread moves, and takes the spinlock, the waiter list or the status of another thread
along. The scheduler may have switched away from it already. -/

omit [DecidableEq κ] in
theorem Inv.move {k : Kernel κ τ} {t : τ} {pc : Pc κ τ} (inv : Inv k) (busy : t ≠ k.sched.idle)
    (active : Active (k.sched.status t)) (plain : Plain (k.pc t) pc) : Inv (goto k t pc) := by
  obtain ⟨before, after, unparked, holds⟩ := plain
  have unlisted := inv.unlisted active before
  have unwoken := inv.unwoken active
  have entered : ∀ m u, Holds m ((goto k t pc).pc u) → Holds m (k.pc u) := by
    intro m u
    by_cases same : u = t
    · subst same
      simpa using holds m
    · simp [goto_pc_other k pc same]
  refine ⟨inv.good, inv.started, ?_, inv.unused, inv.alive, ?_, ?_, inv.nodup, ?_, ?_, ?_, ?_, ?_, ?_⟩
  · exact (goto_pc_other k pc busy.symm).trans inv.idle
  · intro m u v first second
    exact inv.exclusive m u v (entered m u first) (entered m v second)
  · intro m u holding
    exact inv.held m u (entered m u holding)
  · intro m u member
    have other : u ≠ t := fun same => unlisted m (same ▸ member)
    rw [goto_pc_other k pc other]
    exact inv.waiting m u member
  · intro m u queued
    have other : u ≠ t := by
      rintro rfl
      rw [goto_pc_self] at queued
      exact queued.elim (after m).1 (after m).2.1
    rw [goto_pc_other k pc other] at queued
    exact inv.listed m u queued
  · intro u inside unparked'
    by_cases same : u = t
    · exact same ▸ active
    · rw [goto_pc_other k pc same] at inside unparked'
      exact inv.active u inside unparked'
  · intro m u member parked
    have other : u ≠ t := fun same => unlisted m (same ▸ member)
    rw [goto_pc_other k pc other] at parked
    exact inv.asleep m u member parked
  · intro m u parked blocked
    have other : u ≠ t := by
      rintro rfl
      exact unparked m (by simpa using parked)
    rw [goto_pc_other k pc other] at parked
    rcases inv.parked m u parked blocked with member | ⟨v, waking⟩
    · exact .inl member
    · right
      have elsewhere : v ≠ t := fun same => (before m).2.2 u (same ▸ waking)
      exact ⟨v, (goto_pc_other k pc elsewhere).trans waking⟩
  · intro m u v waking
    have elsewhere : v ≠ t := by
      rintro rfl
      exact (after m).2.2 u (by simpa using waking)
    rw [goto_pc_other k pc elsewhere] at waking
    obtain ⟨blocked, parked, absent⟩ := inv.waking m u v waking
    have other : u ≠ t := fun same => unwoken m v (same ▸ waking)
    exact ⟨blocked, (goto_pc_other k pc other).trans parked, absent⟩

theorem Inv.acquire {k : Kernel κ τ} {c : Call κ} {t : τ} (inv : Inv k) (pc : k.pc t = .xchg c)
    (free : k.slock c.mutex = false) : Inv (goto (setSlock k c.mutex true) t c.body) := by
  obtain ⟨good, started, idle, unused, alive, exclusive, held, nodup, waiting, listed, active, asleep, parked,
    waking⟩ := inv
  constructor <;> simp only [goto, setSlock, Function.update_apply] <;> cases c <;>
    grind [Holds, Call.body, Call.mutex]

theorem Inv.park {k : Kernel κ τ} {m : κ} {t : τ} (inv : Inv k) (pc : k.pc t = .park m) :
    Inv (goto (setWaiters k m (k.waitList m ++ [t])) t (.drop m)) := by
  obtain ⟨good, started, idle, unused, alive, exclusive, held, nodup, waiting, listed, active, asleep, parked,
    waking⟩ := inv
  constructor <;> simp only [goto, setWaiters, Function.update_apply] <;> grind [Holds]

theorem Inv.drop {k : Kernel κ τ} {m : κ} {t : τ} (inv : Inv k) (pc : k.pc t = .drop m) :
    Inv (goto (setSlock k m false) t (.block m)) := by
  obtain ⟨good, started, idle, unused, alive, exclusive, held, nodup, waiting, listed, active, asleep, parked,
    waking⟩ := inv
  constructor <;> simp only [goto, setSlock, Function.update_apply] <;> grind [Holds]

theorem Inv.release {k : Kernel κ τ} {m : κ} {t : τ} (inv : Inv k) (pc : k.pc t = .release m) :
    Inv (goto (setSlock k m false) t .client) := by
  obtain ⟨good, started, idle, unused, alive, exclusive, held, nodup, waiting, listed, active, asleep, parked,
    waking⟩ := inv
  constructor <;> simp only [goto, setSlock, Function.update_apply] <;> grind [Holds]

theorem Inv.pop {k : Kernel κ τ} {m : κ} {t u : τ} {rest : List τ} (inv : Inv k)
    (pc : k.pc t = .popWaiter m) (front : k.waitList m = u :: rest)
    (blocked : k.sched.status u = .blocked) : Inv (goto (setWaiters k m rest) t (.wake m u)) := by
  obtain ⟨good, started, idle, unused, alive, exclusive, held, nodup, waiting, listed, active, asleep, parked,
    waking⟩ := inv
  constructor <;> simp only [goto, setWaiters, Function.update_apply] <;> grind [Holds, Active]

omit [DecidableEq κ] in
/-- The popped waiter is blocked, so `kthread_unblock` makes it ready. -/
theorem Inv.wake {k : Kernel κ τ} {m : κ} {t u : τ} (inv : Inv k) (pc : k.pc t = .wake m u) :
    Inv (goto (setSched k (kthreadUnblock k.sched u)) t (.release m)) := by
  have blocked := (inv.waking m u t pc).1
  have woken : kthreadUnblock k.sched u = pushReady (setStatus k.sched u .ready) u :=
    if_pos (.inl blocked)
  obtain ⟨good', started'⟩ := kthreadUnblock_good u inv.good inv.started
  have idle' : (kthreadUnblock k.sched u).idle = k.sched.idle := by rw [woken]; rfl
  have status : (kthreadUnblock k.sched u).status = Function.update k.sched.status u .ready := by
    rw [woken]
    rfl
  have sole : ∀ m' v, k.pc v = .wake m' u → v = t := by
    intro m' v waking
    have same : m' = m := by
      have parked := (inv.waking m' u v waking).2.1
      rw [(inv.waking m u t pc).2.1] at parked
      exact (Pc.parked.inj parked).symm
    subst same
    exact inv.exclusive m' v t (by simp [Holds, waking]) (by simp [Holds, pc])
  clear woken
  generalize kthreadUnblock k.sched u = s' at *
  obtain ⟨good, started, idle, unused, alive, exclusive, held, nodup, waiting, listed, active, asleep, parked,
    waking⟩ := inv
  constructor <;> simp only [goto, setSched, idle', status, Function.update_apply] <;> grind [Holds, Active]

omit [DecidableEq κ] in
/-- The scheduler runs, and changes no status but the idle thread's beyond running and ready. -/
theorem Inv.reschedule {k : Kernel κ τ} {s : SchedState τ} (inv : Inv k) (good : Good s)
    (started : IdleStarted s) (idle : s.idle = k.sched.idle)
    (effect : ∀ u, u ≠ k.sched.idle → SameActivity k.sched s u) : Inv (setSched k s) := by
  have inside : ∀ u, k.pc u ≠ .client → SameActivity k.sched s u := by
    intro u inside
    refine effect u ?_
    rintro rfl
    exact inside inv.idle
  have sleeper : ∀ m u, k.pc u = .parked m → (s.status u = .blocked ↔ k.sched.status u = .blocked) := by
    intro m u parked
    exact (inside u (by simp [parked])).blocked
  refine ⟨good, started, ?_, ?_, inv.alive, inv.exclusive, inv.held, inv.nodup, inv.waiting, inv.listed,
    ?_, ?_, ?_, ?_⟩
  · rw [setSched, idle]
    exact inv.idle
  · rw [setSched, idle]
    exact inv.unused
  · intro u busy unparked
    exact (inside u busy).active (inv.active u busy unparked)
  · intro m u member parked
    exact (sleeper m u parked).mpr (inv.asleep m u member parked)
  · intro m u parked blocked
    exact inv.parked m u parked ((sleeper m u parked).mp blocked)
  · intro m u v waking
    obtain ⟨blocked, parked, absent⟩ := inv.waking m u v waking
    exact ⟨(sleeper m u parked).mpr blocked, parked, absent⟩

omit [DecidableEq κ] in
/-- The waiter blocks while it is still on the list. -/
theorem Inv.block {k : Kernel κ τ} {s : SchedState τ} {m : κ} {t : τ} (inv : Inv k)
    (pc : k.pc t = .block m) (good : Good s) (started : IdleStarted s) (idle : s.idle = k.sched.idle)
    (effect : ∀ u, u ≠ k.sched.idle → u ≠ t → SameActivity k.sched s u)
    (blocked : s.status t = .blocked) : Inv (goto (setSched k s) t (.parked m)) := by
  have inside : ∀ u, u ≠ t → k.pc u ≠ .client → SameActivity k.sched s u := by
    intro u other inside
    refine effect u ?_ other
    rintro rfl
    exact inside inv.idle
  have sleeper : ∀ u, u ≠ t → k.pc u ≠ .client →
      (s.status u = .blocked ↔ k.sched.status u = .blocked) := by
    intro u other busy
    exact (inside u other busy).blocked
  have runner : ∀ u, u ≠ t → k.pc u ≠ .client → Active (k.sched.status u) → Active (s.status u) := by
    intro u other busy active
    exact (inside u other busy).active active
  clear effect inside
  obtain ⟨-, -, idlePc, unused, alive, exclusive, held, nodup, waiting, listed, active, asleep, parked,
    waking⟩ := inv
  constructor <;> simp only [goto, setSched, idle, Function.update_apply] <;> grind [Holds]

/-! Runs. -/

/-- Threads that lock and unlock mutexes, and unlock only what they own. -/
def Client (k : Kernel κ τ) : Event κ → Prop
  | .exec => True
  | .tick => True
  | .enter [.lock _] => True
  | .enter [.unlock m] => k.owner m = some k.sched.current
  | _ => False

instance (k : Kernel κ τ) : DecidablePred (Client k)
  | .exec => isTrue trivial
  | .tick => isTrue trivial
  | .enter [.lock _] => isTrue trivial
  | .enter [.unlock m] => inferInstanceAs (Decidable (k.owner m = some k.sched.current))
  | .enter [] => isFalse id
  | .enter (.lock _ :: _ :: _) => isFalse id
  | .enter (.unlock _ :: _ :: _) => isFalse id
  | .exit _ => isFalse id

/-- The waiter that the next step of the current thread takes off a list. -/
def popped (k : Kernel κ τ) : Option τ :=
  match k.pc k.sched.current with
  | .popWaiter m => (k.waitList m).head?
  | _ => none

/-- `mutex_unlock` pops no waiter that is not blocked yet. -/
def PopsBlocked (k : Kernel κ τ) (e : Event κ) : Prop :=
  e = .exec → ∀ u ∈ popped k, k.sched.status u = .blocked

instance (k : Kernel κ τ) : DecidablePred (PopsBlocked k) :=
  fun e => inferInstanceAs (Decidable (e = .exec → ∀ u ∈ popped k, k.sched.status u = .blocked))

structure Start (k : Kernel κ τ) : Prop where
  good : Good k.sched
  started : IdleStarted k.sched
  outside : ∀ t, k.pc t = .client ∧ k.todo t = [] ∧ k.life t = .alive
  free : ∀ m, k.slock m = false ∧ k.owner m = none ∧ k.waitList m = []

omit [DecidableEq κ] in
theorem Start.inv {k : Kernel κ τ} (start : Start k) : Inv k := by
  have outside := fun t => (start.outside t).1
  have empty := fun m => (start.free m).2.2
  refine ⟨start.good, start.started, outside _, (start.outside _).2.1, fun t => (start.outside t).2.2, ?_, ?_,
    ?_, ?_, ?_, ?_, ?_, ?_, ?_⟩ <;> intros <;> simp_all [Holds]

omit [DecidableEq κ] in
theorem Inv.busy {k : Kernel κ τ} {t : τ} (inv : Inv k) (inside : k.pc t ≠ .client) :
    t ≠ k.sched.idle := by
  rintro rfl
  exact inside inv.idle

omit [DecidableEq κ] in
/-- The current thread makes a plain move. -/
theorem Inv.proceed {k : Kernel κ τ} {pc : Pc κ τ} (inv : Inv k) (inside : k.pc k.sched.current ≠ .client)
    (plain : Plain (k.pc k.sched.current) pc) : Inv (goto k k.sched.current pc) :=
  inv.move (inv.busy inside) (.inl inv.good.running) plain

omit [DecidableEq κ] in
theorem Inv.clientStep {k k' : Kernel κ τ} (inv : Inv k) (pc : k.pc k.sched.current = .client)
    (ran : clientStep k k.sched.current = some k') : Inv k' := by
  have alive := inv.alive k.sched.current
  unfold Locks.clientStep at ran
  cases calls : k.todo k.sched.current with
  | cons c rest =>
    simp only [calls, Option.some.injEq] at ran
    subst ran
    have busy : k.sched.current ≠ k.sched.idle := by
      intro same
      rw [same, inv.unused] at calls
      cases calls
    have taken : Inv (setTodo k k.sched.current rest) :=
      { inv with unused := (Function.update_of_ne busy.symm ..).trans inv.unused }
    have plain : Plain (k.pc k.sched.current) (.xchg c) := by
      rw [pc]
      constructor <;> simp [Detached, Holds]
    exact taken.move busy (.inl inv.good.running) plain
  | nil =>
    simp only [calls, alive] at ran
    split_ifs at ran with idle
    · obtain ⟨s, blocked, rfl⟩ := Option.map_eq_some_iff.mp ran
      obtain ⟨good, started, same, effect, -⟩ := kthreadBlock_result inv.good inv.started (.inl rfl) blocked
      exact inv.reschedule good started same (fun u other => effect u other (idle ▸ other))
    · cases ran
      exact inv

theorem Inv.exec {k k' : Kernel κ τ} (inv : Inv k) (late : PopsBlocked k .exec) (ran : exec k = some k') :
    Inv k' := by
  unfold Locks.exec at ran
  cases pc : k.pc k.sched.current with
  | client =>
    simp only [pc] at ran
    exact inv.clientStep pc ran
  | xchg c =>
    simp only [pc, Option.some.injEq] at ran
    subst ran
    split_ifs with taken
    · apply inv.proceed <;> rw [pc]
      · simp
      · constructor <;> simp [Detached, Holds]
    · exact inv.acquire pc (by simpa using taken)
  | watch c =>
    simp only [pc, Option.some.injEq] at ran
    subst ran
    apply inv.proceed <;> rw [pc]
    · simp
    · split_ifs <;> constructor <;> simp [Detached, Holds]
  | yield c =>
    have busy := inv.busy (t := k.sched.current) (by simp [pc])
    simp only [pc] at ran
    obtain ⟨s, yielded, rfl⟩ := Option.map_eq_some_iff.mp ran
    obtain ⟨good, started, same, effect⟩ := kthreadYield_result inv.good inv.started yielded
    have later := inv.reschedule good started same effect
    apply later.move (same ▸ busy) ((effect _ busy).active (.inl inv.good.running))
    rw [setSched, pc]
    constructor <;> simp [Detached, Holds]
  | testOwner m =>
    simp only [pc, Option.some.injEq] at ran
    subst ran
    apply inv.proceed <;> rw [pc]
    · simp
    · split_ifs <;> constructor <;> simp [Detached, Holds]
  | takeOwner m =>
    simp only [pc, Option.some.injEq] at ran
    subst ran
    have owned : Inv (setOwner k m (some k.sched.current)) := { inv with }
    apply owned.proceed <;> rw [setOwner, pc]
    · simp
    · constructor <;> simp [Detached, Holds]
  | park m =>
    simp only [pc, Option.some.injEq] at ran
    subst ran
    exact inv.park pc
  | drop m =>
    simp only [pc, Option.some.injEq] at ran
    subst ran
    exact inv.drop pc
  | block m =>
    have busy := inv.busy (t := k.sched.current) (by simp [pc])
    simp only [pc] at ran
    obtain ⟨s, blocks, rfl⟩ := Option.map_eq_some_iff.mp ran
    obtain ⟨good, started, same, effect, blocked⟩ :=
      kthreadBlock_result inv.good inv.started (.inl rfl) blocks
    exact inv.block pc good started same effect (blocked busy)
  | parked m =>
    simp only [pc, Option.some.injEq] at ran
    subst ran
    apply inv.proceed <;> rw [pc]
    · simp
    · constructor <;> simp [Detached, Holds]
  | giveOwner m =>
    simp only [pc, Option.some.injEq] at ran
    subst ran
    have given : Inv (setOwner k m none) := { inv with }
    apply given.proceed <;> rw [setOwner, pc]
    · simp
    · constructor <;> simp [Detached, Holds]
  | testWaiters m =>
    simp only [pc, Option.some.injEq] at ran
    subst ran
    apply inv.proceed <;> rw [pc]
    · simp
    · split_ifs <;> constructor <;> simp [Detached, Holds]
  | popWaiter m =>
    simp only [pc] at ran
    cases front : k.waitList m with
    | nil => simp [front] at ran
    | cons u rest =>
      simp only [front, Option.some.injEq] at ran
      subst ran
      exact inv.pop pc front (late rfl u (by simp [popped, pc, front]))
  | wake m u =>
    simp only [pc, Option.some.injEq] at ran
    subst ran
    exact inv.wake pc
  | release m =>
    simp only [pc, Option.some.injEq] at ran
    subst ran
    exact inv.release pc

theorem Inv.step {k k' : Kernel κ τ} {e : Event κ} (inv : Inv k) (client : Client k e) (late : PopsBlocked k e)
    (moved : step k e = some k') : Inv k' := by
  cases e with
  | exec => exact inv.exec late moved
  | tick =>
    simp only [Locks.step, inv.alive] at moved
    obtain ⟨s, ran, rfl⟩ := Option.map_eq_some_iff.mp (by simpa using moved)
    obtain ⟨good, started, same, effect⟩ := timerHandler_result inv.good inv.started ran
    exact inv.reschedule good started same effect
  | enter calls =>
    simp only [Locks.step] at moved
    split_ifs at moved with ready
    cases moved
    exact { inv with unused := (Function.update_of_ne ready.2.2.2.symm ..).trans inv.unused }
  | exit calls => exact client.elim

/-- The steps inside `mutex_lock`; the last one belongs to `mutex_unlock` as well. -/
def InMutexLock (m : κ) (pc : Pc κ τ) : Prop :=
  pc = .xchg (.lock m) ∨ pc = .watch (.lock m) ∨ pc = .yield (.lock m) ∨ pc = .testOwner m ∨
    pc = .takeOwner m ∨ pc = .park m ∨ pc = .drop m ∨ pc = .block m ∨ pc = .parked m ∨ pc = .release m

/-- Every thread that is TASK_BLOCKED inside `mutex_lock` is on the list of that mutex. -/
def Listed (m : κ) (k : Kernel κ τ) : Prop :=
  ∀ t, InMutexLock m (k.pc t) → k.sched.status t = .blocked → t ∈ k.waitList m

/-- If the mutex is free and nobody waits for it, no thread is TASK_BLOCKED inside `mutex_lock`. -/
def NobodyStranded (m : κ) (k : Kernel κ τ) : Prop :=
  k.owner m = none → k.waitList m = [] → ∀ t, InMutexLock m (k.pc t) → k.sched.status t ≠ .blocked

/-- No `mutex_unlock` is between its `list_pop` and its `kthread_unblock`. -/
def NoneCarried (m : κ) (k : Kernel κ τ) : Prop := ∀ t u, k.pc u ≠ .wake m t

omit [DecidableEq κ] [DecidableEq τ] in
theorem Listed.nobodyStranded {m : κ} {k : Kernel κ τ} (listed : Listed m k) : NobodyStranded m k := by
  intro _ empty t inside blocked
  have member := listed t inside blocked
  rw [empty] at member
  exact List.not_mem_nil member

theorem Inv.blocked_parked {k : Kernel κ τ} {m : κ} {t : τ} (inv : Inv k) (inside : InMutexLock m (k.pc t))
    (blocked : k.sched.status t = .blocked) : k.pc t = .parked m := by
  by_contra unparked
  have active : Active (k.sched.status t) := by
    apply inv.active t
    · intro outside
      simp [outside, InMutexLock] at inside
    · intro m' parked
      simp only [parked, InMutexLock] at inside unparked
      simp_all
  rw [blocked] at active
  exact not_active_blocked active

theorem Inv.listed_iff {k : Kernel κ τ} (inv : Inv k) (m : κ) : Listed m k ↔ NoneCarried m k := by
  constructor
  · intro listed t u waking
    obtain ⟨blocked, parked, absent⟩ := inv.waking m t u waking
    exact absent (listed t (by simp [InMutexLock, parked]) blocked)
  · intro settled t inside blocked
    rcases inv.parked m t (inv.blocked_parked inside blocked) blocked with member | ⟨u, waking⟩
    · exact member
    · exact absurd waking (settled t u)

omit [DecidableEq κ] in
theorem Inv.noneCarried {k : Kernel κ τ} {m : κ} (inv : Inv k) (free : k.slock m = false) :
    NoneCarried m k := by
  intro t u waking
  have taken := inv.held m u (by simp [Holds, waking])
  rw [free] at taken
  cases taken

theorem reach_inv {k k' : Kernel κ τ} (start : Start k)
    (run : Reach step (fun k e => Client k e ∧ PopsBlocked k e) k k') : Inv k' := by
  refine Reach.invariant ?_ start.inv run
  intro before e after inv permitted moved
  exact inv.step permitted.1 permitted.2 moved

/-- In every run that pops blocked waiters only, the blocked threads are the listed ones, but
for the waiter a `mutex_unlock` has popped and is about to unblock. -/
theorem reach_listed {k k' : Kernel κ τ} (start : Start k)
    (run : Reach step (fun k e => Client k e ∧ PopsBlocked k e) k k') (m : κ) :
    (Listed m k' ↔ NoneCarried m k') ∧ (NoneCarried m k' → NobodyStranded m k') ∧
      (k'.slock m = false → Listed m k' ∧ NobodyStranded m k') := by
  have inv := reach_inv start run
  have listed := inv.listed_iff m
  refine ⟨listed, fun settled => (listed.mpr settled).nobodyStranded, ?_⟩
  intro free
  have here := listed.mpr (inv.noneCarried free)
  exact ⟨here, here.nobodyStranded⟩

/-! A thread that keeps the processor until its slice is used up. -/

def later (k : Kernel κ τ) (n : Nat) : Kernel κ τ :=
  setSched k { k.sched with
    timeSlice := Function.update k.sched.timeSlice k.sched.current (k.sched.timeSlice k.sched.current - n)
    jiffies := (k.sched.jiffies + n) % 2 ^ 32 }

theorem reach_later {k : Kernel κ τ} {n : Nat} (alive : k.life k.sched.current = .alive)
    (counted : k.sched.jiffies < 2 ^ 32) (enough : n ≤ k.sched.timeSlice k.sched.current) :
    Reach step Client k (later k n) := by
  induction n with
  | zero =>
    have same : later k 0 = k := by
      rw [later, Nat.add_zero, Nat.mod_eq_of_lt counted, Nat.sub_zero, Function.update_eq_self]
      rfl
    rw [same]
    exact Reach.refl k
  | succ n ih =>
    refine Relation.ReflTransGen.tail (ih (by omega)) ⟨.tick, trivial, ?_⟩
    have left : k.sched.timeSlice k.sched.current - n ≠ 0 := by omega
    simp [step, later, setSched, alive, timerHandler, left, Nat.sub_sub, Nat.add_assoc]

/-! Threads 0 and 2 contend for one mutex, thread 1 is idle. -/

def contenders : Kernel Unit Nat where
  sched := appendReady (setStatus (quiet .blocked) 2 .ready) 2
  main := 0
  slock _ := false
  owner _ := none
  waitList _ := []
  pc _ := .client
  todo _ := []
  life _ := .alive

theorem contenders_start : Start contenders := by
  obtain ⟨queue, queued⟩ := (quiet_good .blocked (by decide) (by decide)).queued
  refine ⟨⟨⟨_, queued.append (t := 2) (by decide)⟩, by decide, by decide⟩, .inr (by decide), ?_, ?_⟩
  · exact fun _ => ⟨rfl, rfl, rfl⟩
  · exact fun _ => ⟨rfl, rfl, rfl⟩

/-- Thread 0 takes the mutex, and thread 2 is preempted at its call of `kthread_block`. -/
def waits : List (Event Unit) :=
  .enter [.lock ()] :: List.replicate 5 .exec ++ .tick :: .enter [.lock ()] :: List.replicate 5 .exec

def unlocks : List (Event Unit) := .enter [.unlock ()] :: List.replicate 7 .exec

/-- Thread 2 blocks before thread 0 unlocks. -/
theorem blocks_first : (play step (fun k e => Client k e ∧ PopsBlocked k e) contenders
    (waits ++ .exec :: unlocks)).isSome := by
  decide +kernel

theorem contenders_listed :
    let woken := (play step (fun k e => Client k e ∧ PopsBlocked k e) contenders
      (waits ++ .exec :: unlocks)).get blocks_first
    (Listed () woken ↔ NoneCarried () woken) ∧ (NoneCarried () woken → NobodyStranded () woken) ∧
      (woken.slock () = false → Listed () woken ∧ NobodyStranded () woken) :=
  reach_listed contenders_start (reach_of_play (Option.some_get blocks_first).symm) ()

/-- Thread 0 unlocks first: the waiter is ready, and `kthread_unblock` does nothing. -/
theorem unlocks_first : (play step Client contenders (waits ++ .tick :: unlocks)).isSome := by
  decide +kernel

def missed : Kernel Unit Nat := (play step Client contenders (waits ++ .tick :: unlocks)).get unlocks_first

/-- Thread 2 then blocks, off the list of a mutex that nobody owns. -/
theorem blocks_late : (play step Client (later missed SCHED_RR_TIME_SLICE) [.tick, .exec]).isSome := by
  decide +kernel

def stranded : Kernel Unit Nat :=
  (play step Client (later missed SCHED_RR_TIME_SLICE) [.tick, .exec]).get blocks_late

theorem stranded_reached : Reach step Client contenders stranded := by
  have first : Reach step Client contenders missed := reach_of_play (Option.some_get unlocks_first).symm
  have wait : Reach step Client missed (later missed SCHED_RR_TIME_SLICE) := by
    apply reach_later
    · decide +kernel
    · decide +kernel
    · decide +kernel
  have last : Reach step Client (later missed SCHED_RR_TIME_SLICE) stranded :=
    reach_of_play (Option.some_get blocks_late).symm
  exact (first.trans wait).trans last

theorem stranded_state :
    (stranded.slock () = false ∧ stranded.owner () = none ∧ stranded.waitList () = []) ∧
      stranded.pc 2 = .parked () ∧ stranded.sched.status 2 = .blocked := by
  decide +kernel

theorem contenders_stranded :
    Start contenders ∧ Reach step Client contenders stranded ∧ ¬ Listed () stranded ∧
      ¬ NobodyStranded () stranded ∧ stranded.slock () = false := by
  obtain ⟨⟨unlocked, free, empty⟩, parked, blocked⟩ := stranded_state
  have inside : InMutexLock () (stranded.pc 2) := by simp [InMutexLock, parked]
  refine ⟨contenders_start, stranded_reached, ?_, ?_, unlocked⟩
  · intro listed
    have member := listed 2 inside blocked
    rw [empty] at member
    exact List.not_mem_nil member
  · intro nobody
    exact nobody free empty 2 inside blocked

end KOS.Wakeup
