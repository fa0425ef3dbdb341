import KOS.SyncInvariant

/-! `sema_down` and the disk interrupt, whose handler calls `sema_up` on the stack of the
thread it interrupts. -/

namespace KOS.DiskIrq
open KOS.KernelList KOS.Sched KOS.SchedInvariant KOS.Sync KOS.SyncInvariant KOS.Machine

variable {κ ι τ : Type*} [DecidableEq κ] [DecidableEq ι] [DecidableEq τ]

/-! A completion and the thread that waits for it. -/

/-- The waiter in front of the list of `s`. -/
def front (k : Kernel κ ι τ) (s : ι) : Option τ :=
  match listPop k.links (waitList (.sema s)) with
  | (some (.waiter u _), _) => some u
  | _ => none

/-- `sema_up` pops no waiter that is not blocked yet. -/
def PopsBlocked (s : ι) (k : Kernel κ ι τ) (e : Event κ ι) : Prop :=
  e = .exec → k.pc (top k) = .popWaiter (.sema s) → ∀ u ∈ front k s, k.sched.status u = .blocked

instance (s : ι) (k : Kernel κ ι τ) : DecidablePred (PopsBlocked s k) := fun e =>
  inferInstanceAs (Decidable (e = .exec → k.pc (top k) = .popWaiter (.sema s) →
    ∀ u ∈ front k s, k.sched.status u = .blocked))

/-- Who blocks on `l` is queued, and who is blocked is queued or about to be unblocked. -/
structure Waits (l : Lock κ ι) (k : Kernel κ ι τ) (queue : Lock κ ι → List τ) : Prop where
  blocking : ∀ t, k.pc (.base t) = .block l → t ∈ queue l
  parked : ∀ t, k.pc (.base t) = .parked l → k.sched.status t = .blocked →
    t ∈ queue l ∨ ∃ f, k.pc f = .wake l t

variable {k k' : Kernel κ ι τ} {queue queue' : Lock κ ι → List τ} {l : Lock κ ι}

omit [DecidableEq κ] [DecidableEq ι] in
theorem Waits.move {f : Frame τ} {pc : Pc κ ι τ} (waits : Waits l k queue)
    (moved : k'.pc = Function.update k.pc f pc)
    (kept : ∀ t ∈ queue l, t ∈ queue' l ∨ pc = .wake l t ∧ k.pc (.base t) ≠ .block l)
    (entered : ∀ t, f = .base t → pc = .block l ∨ pc = .parked l → t ∈ queue' l)
    (loaded : ∀ t, k.pc f = .wake l t → k'.sched.status t ≠ .blocked)
    (asleep : ∀ t, k.pc (.base t) = .parked l → k'.sched.status t = .blocked → k.sched.status t = .blocked) :
    Waits l k' queue' := by
  constructor
  · intro t
    rw [moved]
    intro blocks
    by_cases same : .base t = f
    · rw [same, Function.update_self] at blocks
      exact entered t same.symm (.inl blocks)
    · rw [Function.update_of_ne same] at blocks
      rcases kept t (waits.blocking t blocks) with member | ⟨-, unblocking⟩
      · exact member
      · exact absurd blocks unblocking
  · intro t
    rw [moved]
    intro parks blocked
    by_cases same : .base t = f
    · rw [same, Function.update_self] at parks
      exact .inl (entered t same.symm (.inr parks))
    · rw [Function.update_of_ne same] at parks
      rcases waits.parked t parks (asleep t parks blocked) with member | ⟨g, waking⟩
      · rcases kept t member with still | ⟨carried, -⟩
        · exact .inl still
        · exact .inr ⟨f, by rw [Function.update_self]; exact carried⟩
      · have other : g ≠ f := by
          rintro rfl
          exact loaded t waking blocked
        exact .inr ⟨g, by rw [Function.update_of_ne other]; exact waking⟩

/-- The scheduler runs, and blocks or wakes none of the parked threads. -/
theorem asleep_of_effect {s : SchedState τ} (inv : Inv k queue)
    (effect : ∀ u, u ≠ k.sched.idle → SameActivity k.sched s u) (t : τ) (parks : k.pc (.base t) = .parked l)
    (blocked : s.status t = .blocked) : k.sched.status t = .blocked := by
  have busy : t ≠ k.sched.idle := by
    rintro rfl
    rw [inv.idle] at parks
    cases parks
  exact (effect t busy).blocked.mp blocked

/-- The popped thread is past its call of `kthread_block`. -/
theorem popped_front {s : ι} {u : τ} (inv : Inv k queue) (late : PopsBlocked s k .exec)
    (pc : k.pc (top k) = .popWaiter (.sema s)) (first : (queue (.sema s)).head? = some u) :
    k.sched.status u = .blocked := by
  obtain ⟨rest, order⟩ := List.head?_eq_some_iff.mp first
  have popped := (Linked.pop inv.linked order (fun l l' u => inv.alone)).1
  exact late rfl pc u (by simp [front, popped, waiterOf])

theorem Waits.exec {s : ι} (waits : Waits (.sema s) k queue) (inv : Inv k queue) (late : PopsBlocked s k .exec)
    (keeps : Keeps k .exec queue queue') (moved : Exec k k') : Waits (.sema s) k' queue' := by
  have kept : k.pc (top k) ≠ .popWaiter (.sema s) → ∀ t ∈ queue (.sema s), t ∈ queue' (.sema s) := by
    intro other t member
    rcases keeps _ t member with still | ⟨-, popping, -⟩
    · exact still
    · exact absurd popping other
  -- A move that neither carries a waiter nor lets the thread block.
  have plain : ∀ {after : Kernel κ ι τ} {pc : Pc κ ι τ}, after.pc = Function.update k.pc (top k) pc →
      after.sched = k.sched → k.pc (top k) ≠ .popWaiter (.sema s) → pc ≠ .block (.sema s) →
      pc ≠ .parked (.sema s) → (∀ t, k.pc (top k) ≠ .wake (.sema s) t) → Waits (.sema s) after queue' := by
    intro after pc moved sched unpopped unblocking unparked unloaded
    apply waits.move moved
    · intro t member
      exact .inl (kept unpopped t member)
    · rintro t - (blocks | parks)
      · exact absurd blocks unblocking
      · exact absurd parks unparked
    · intro t waking
      exact absurd waking (unloaded t)
    · intro t _ blocked
      rwa [sched] at blocked
  cases moved with
  | rest pc ran =>
    unfold clientStep at ran
    split_ifs at ran with idle
    · obtain ⟨next, blocks, rfl⟩ := Option.map_eq_some_iff.mp ran
      obtain ⟨-, -, -, effect, -⟩ := kthreadBlock_result inv.good inv.started (.inl rfl) blocks
      have same : (Sync.setSched k next).pc = Function.update k.pc (top k) (k.pc (top k)) :=
        (Function.update_eq_self ..).symm
      refine waits.move same ?_ ?_ ?_ ?_
      · intro t member
        exact .inl (kept (by simp [pc]) t member)
      · simp [pc]
      · simp [pc]
      · intro t
        exact asleep_of_effect inv (fun u other => effect u other (idle ▸ other)) t
    · cases ran
      have same : k.pc = Function.update k.pc (top k) (k.pc (top k)) := (Function.update_eq_self ..).symm
      exact plain same rfl (by simp [pc]) (by simp [pc]) (by simp [pc]) (by simp [pc])
  | drop l pc =>
    apply waits.move rfl
    · intro t member
      exact .inl (kept (by simp [pc]) t member)
    · intro t frame blocks
      rw [frame] at pc
      have same : l = .sema s := by simpa using blocks
      subst same
      exact kept (by rw [frame, pc]; simp) t (inv.listed _ t pc)
    · simp [pc]
    · exact fun _ _ blocked => blocked
  | block l next pc ran =>
    obtain ⟨frame, here, -⟩ := inv.own pc (by simp [Upward])
    obtain ⟨-, -, -, effect, -⟩ := kthreadBlock_result inv.good inv.started (.inl rfl) ran
    apply waits.move rfl
    · intro t member
      exact .inl (kept (by simp [pc]) t member)
    · intro t mine parks
      have same : l = .sema s := by simpa using parks
      subst same
      rw [mine] at pc
      exact kept (by rw [mine, pc]; simp) t (waits.blocking t pc)
    · simp [pc]
    · intro t parks blocked
      have other : t ≠ k.sched.current := by
        rintro rfl
        rw [here] at parks
        cases parks
      have busy : t ≠ k.sched.idle := by
        rintro rfl
        rw [inv.idle] at parks
        cases parks
      exact (effect t busy other).blocked.mp blocked
  | yield c next pc ran =>
    obtain ⟨-, -, -, effect⟩ := kthreadYield_result inv.good inv.started ran
    refine waits.move (f := top k) rfl ?_ (by simp) (by simp [pc]) ?_
    · intro t member
      exact .inl (kept (by simp [pc]) t member)
    · intro t
      exact asleep_of_effect inv effect t
  | popWaiter l u n links pc popped =>
    obtain ⟨rest, order, -⟩ := inv.popped popped
    refine waits.move (f := top k) rfl ?_ (by simp) (by simp [pc]) (fun _ _ blocked => blocked)
    intro t member
    rcases keeps _ t member with still | ⟨-, popping, first⟩
    · exact .inl still
    · right
      rw [popping] at pc
      cases pc
      have blocked := popped_front inv late popping first
      rw [order, List.head?_cons, Option.some.injEq] at first
      subst first
      refine ⟨rfl, ?_⟩
      intro blocks
      have active := inv.active (.base u) (by simp [blocks]) (by simp [blocks])
      exact not_active_blocked (blocked ▸ active)
  | wake l u pc =>
    refine waits.move (f := top k) rfl ?_ (by simp) ?_ ?_
    · intro t member
      exact .inl (kept (by simp [pc]) t member)
    · intro t waking
      rw [pc] at waking
      cases waking
      simp only [goto, Sync.setSched, kthreadUnblock]
      split_ifs with sleeping
      · simp [pushReady, Sched.setStatus]
      · intro blocked
        simp [blocked, TaskStatus.sleeping] at sleeping
    · intro t _ blocked
      simp only [goto, Sync.setSched, kthreadUnblock] at blocked
      split_ifs at blocked
      · by_cases same : t = u
        · simp [same, pushReady, Sched.setStatus] at blocked
        · simpa [pushReady, Sched.setStatus, same] using blocked
      · exact blocked
  | spin c pc taken => exact plain rfl rfl (by simp [pc]) (by simp) (by simp) (by simp [pc])
  | acquire c pc free => cases c <;> exact plain rfl rfl (by simp [pc]) (by simp [Call.body]) (by simp [Call.body]) (by simp [pc])
  | watch c pc => split_ifs <;> exact plain rfl rfl (by simp [pc]) (by simp) (by simp) (by simp [pc])
  | test l pc => split_ifs <;> exact plain rfl rfl (by simp [pc]) (by simp) (by simp) (by simp [pc])
  | own m pc => exact plain rfl rfl (by simp [pc]) (by simp) (by simp) (by simp [pc])
  | take u pc => exact plain rfl rfl (by simp [pc]) (by simp) (by simp) (by simp [pc])
  | lower u value pc => exact plain rfl rfl (by simp [pc]) (by simp) (by simp) (by simp [pc])
  | park l pc => exact plain rfl rfl (by simp [pc]) (by simp) (by simp) (by simp [pc])
  | retry l pc => exact plain rfl rfl (by simp [pc]) (by simp) (by simp) (by simp [pc])
  | disown m pc => exact plain rfl rfl (by simp [pc]) (by simp) (by simp) (by simp [pc])
  | give u pc => exact plain rfl rfl (by simp [pc]) (by simp) (by simp) (by simp [pc])
  | raise u value pc => exact plain rfl rfl (by simp [pc]) (by simp) (by simp) (by simp [pc])
  | testWaiters l pc => split_ifs <;> exact plain rfl rfl (by simp [pc]) (by simp) (by simp) (by simp [pc])
  | release l pc => exact plain rfl rfl (by simp [pc]) (by simp) (by simp) (by simp [pc])

theorem Waits.step {s : ι} {e : Event κ ι} (waits : Waits (.sema s) k queue) (inv : Inv k queue)
    (late : PopsBlocked s k e) (keeps : Keeps k e queue queue') (moved : step k e = some k') :
    Waits (.sema s) k' queue' := by
  have kept : e ≠ .exec → ∀ t ∈ queue (.sema s), t ∈ queue' (.sema s) ∨ False := by
    intro other t member
    rcases keeps _ t member with still | ⟨exec, -⟩
    · exact .inl still
    · exact absurd exec other
  cases e with
  | exec => exact waits.exec inv late keeps (exec_cases moved)
  | tick =>
    simp only [Sync.step] at moved
    split_ifs at moved with calm
    obtain ⟨next, ran, rfl⟩ := Option.map_eq_some_iff.mp moved
    obtain ⟨-, -, -, effect⟩ := timerHandler_result inv.good inv.started ran
    have same : (Sync.setSched k next).pc = Function.update k.pc (.handler k.sched.current) .client := by
      rw [← show k.pc (.handler k.sched.current) = .client from calm, Function.update_eq_self]
      rfl
    refine waits.move same ?_ (by simp) ?_ ?_
    · intro t member
      exact (kept (by simp) t member).imp_right False.elim
    · intro t waking
      rw [show k.pc (.handler k.sched.current) = .client from calm] at waking
      cases waking
    · intro t
      exact asleep_of_effect inv effect t
  | enter c =>
    simp only [Sync.step] at moved
    split_ifs at moved with ready
    cases moved
    refine waits.move (f := .base k.sched.current) rfl ?_ (by simp) (by simp [ready.1]) (fun _ _ blocked => blocked)
    intro t member
    exact (kept (by simp) t member).imp_right False.elim
  | irq u =>
    simp only [Sync.step] at moved
    split_ifs at moved with calm
    cases moved
    refine waits.move (f := .handler k.sched.current) rfl ?_ (by simp) ?_ (fun _ _ blocked => blocked)
    · intro t member
      exact (kept (by simp) t member).imp_right False.elim
    · intro t waking
      rw [show k.pc (.handler k.sched.current) = .client from calm] at waking
      cases waking

theorem reach_waits {s : ι} (start : Start k) (run : Reach step (PopsBlocked s) k k') :
    ∃ queue, Inv k' queue ∧ Waits (.sema s) k' queue := by
  have kept : ∀ (before : Kernel κ ι τ) e after, (∃ queue, Inv before queue ∧ Waits (.sema s) before queue) →
      PopsBlocked s before e → step before e = some after →
      ∃ queue, Inv after queue ∧ Waits (.sema s) after queue := by
    rintro before e after ⟨queue, inv, waits⟩ late moved
    obtain ⟨queue', inv', keeps⟩ := inv.advance moved
    exact ⟨queue', inv', waits.step inv late keeps moved⟩
  have none : Waits (.sema s) k (fun _ => []) := by
    constructor
    · intro t blocks
      simp [start.outside] at blocks
    · intro t parks
      simp [start.outside] at parks
  exact Reach.invariant kept ⟨_, start.inv, none⟩ run

/-- The steps inside `sema_down`; the last one belongs to `sema_up` as well. -/
def InSemaDown (s : ι) (pc : Pc κ ι τ) : Prop :=
  pc = .xchg (semaDown s) ∨ pc = .watch (semaDown s) ∨ pc = .yield (semaDown s) ∨ pc = .test (.sema s) ∨
    pc = .take (.sema s) ∨ (∃ value, pc = .lower s value) ∨ pc = .park (.sema s) ∨ pc = .drop (.sema s) ∨
    pc = .block (.sema s) ∨ pc = .parked (.sema s) ∨ pc = .release (.sema s)

/-- Every thread that is TASK_BLOCKED inside `sema_down` has its waiter on the list. -/
def Listed (s : ι) (k : Kernel κ ι τ) : Prop :=
  ∀ t, InSemaDown s (k.pc (.base t)) → k.sched.status t = .blocked →
    ∃ waiters, Holds k.links (waitList (.sema s)) waiters ∧ waiterOf k.calls t ∈ waiters

/-- With a permit free and an empty list no thread is TASK_BLOCKED inside `sema_down`. -/
def NobodyStranded (s : ι) (k : Kernel κ ι τ) : Prop :=
  0 < k.count s → listEmpty k.links (waitList (.sema s)) = true →
    ∀ t, InSemaDown s (k.pc (.base t)) → k.sched.status t ≠ .blocked

/-- No `sema_up` is between its `list_pop` and its `kthread_unblock`. -/
def NoneCarried (s : ι) (k : Kernel κ ι τ) : Prop := ∀ t f, k.pc f ≠ .wake (.sema s) t

theorem blocked_parked {s : ι} {t : τ} (inv : Inv k queue) (inside : InSemaDown s (k.pc (.base t)))
    (blocked : k.sched.status t = .blocked) : k.pc (.base t) = .parked (.sema s) := by
  by_contra unparked
  have active : Active (k.sched.status t) := by
    apply inv.active (.base t)
    · intro outside
      simp [outside, InSemaDown] at inside
    · intro l parked
      rw [parked] at inside unparked
      simp only [InSemaDown, reduceCtorEq, Pc.parked.injEq, exists_false, false_or, or_false] at inside
      exact unparked (congrArg Pc.parked inside)
  rw [blocked] at active
  exact not_active_blocked active

/-- A waiter on the list is that of a queued thread. -/
theorem listed_iff_queued {t : τ} (inv : Inv k queue) (l : Lock κ ι) :
    (∃ waiters, Holds k.links (waitList l) waiters ∧ waiterOf k.calls t ∈ waiters) ↔ t ∈ queue l := by
  constructor
  · rintro ⟨waiters, holds, member⟩
    rw [Holds.unique DoublyLinked.Fields.not_apart_self holds (inv.linked l)] at member
    obtain ⟨u, queued, same⟩ := List.mem_map.mp member
    cases same
    exact queued
  · intro queued
    exact ⟨_, inv.linked l, List.mem_map_of_mem queued⟩

theorem Waits.listed_iff {s : ι} (waits : Waits (.sema s) k queue) (inv : Inv k queue) :
    Listed s k ↔ NoneCarried s k := by
  constructor
  · intro listed t f waking
    obtain ⟨absent, state⟩ := inv.waking _ t f waking
    rcases state with blocks | ⟨parks, blocked⟩
    · exact absent (waits.blocking t blocks)
    · have inside : InSemaDown s (k.pc (.base t)) := by simp [InSemaDown, parks]
      exact absent ((listed_iff_queued inv _).mp (listed t inside blocked))
  · intro settled t inside blocked
    rcases waits.parked t (blocked_parked inv inside blocked) blocked with member | ⟨f, waking⟩
    · exact (listed_iff_queued inv _).mpr member
    · exact absurd waking (settled t f)

theorem Listed.nobodyStranded {s : ι} (listed : Listed s k) (inv : Inv k queue) : NobodyStranded s k := by
  intro _ empty t inside blocked
  have member := (listed_iff_queued inv _).mp (listed t inside blocked)
  rw [(Linked.empty_iff inv.linked _).mp empty] at member
  exact List.not_mem_nil member

/-- In every run that pops blocked waiters only, the blocked threads are the listed ones, but
for the waiter a `sema_up` has popped and is about to unblock. -/
theorem reach_completions {s : ι} (start : Start k) (run : Reach step (PopsBlocked s) k k') :
    (Listed s k' ↔ NoneCarried s k') ∧ (NoneCarried s k' → NobodyStranded s k') ∧
      (k'.slock (.sema s) = false → Listed s k' ∧ NobodyStranded s k') := by
  obtain ⟨queue, inv, waits⟩ := reach_waits start run
  have listed := waits.listed_iff inv
  refine ⟨listed, fun settled => (listed.mpr settled).nobodyStranded inv, ?_⟩
  intro free
  have settled : NoneCarried s k' := by
    intro t f waking
    have taken := inv.held (.sema s) f (by rw [waking]; rfl)
    rw [free] at taken
    cases taken
  exact ⟨listed.mpr settled, (listed.mpr settled).nobodyStranded inv⟩

/-- Thread 0 waits for the disk, and is blocked when the interrupt comes. -/
def completes : List (Event Unit Unit) :=
  .enter (semaDown ()) :: List.replicate 5 .exec ++ .irq () :: List.replicate 7 .exec

theorem completes_plays : (play step (PopsBlocked ()) (pair 0) completes).isSome := by
  decide +kernel

theorem completes_completions :
    let woken := (play step (PopsBlocked ()) (pair 0) completes).get completes_plays
    (Listed () woken ↔ NoneCarried () woken) ∧ (NoneCarried () woken → NobodyStranded () woken) ∧
      (woken.slock (.sema ()) = false → Listed () woken ∧ NobodyStranded () woken) :=
  reach_completions (pair_start 0) (reach_of_play (Option.some_get completes_plays).symm)

/-- The interrupt comes after the spinlock is dropped and before `kthread_block`. -/
def early : List (Event Unit Unit) :=
  .enter (semaDown ()) :: List.replicate 4 .exec ++ .irq () :: List.replicate 8 .exec

theorem early_plays : (play step (fun _ _ => True) (pair 0) early).isSome := by
  decide +kernel

def lost : Kernel Unit Unit Nat := (play step (fun _ _ => True) (pair 0) early).get early_plays

theorem lost_state :
    (lost.count () = 1 ∧ lost.slock (.sema ()) = false ∧ listEmpty lost.links (waitList (.sema ())) = true) ∧
      lost.pc (.base 0) = .parked (.sema ()) ∧ lost.sched.status 0 = .blocked := by
  decide +kernel

theorem early_lost :
    Start (pair 0) ∧ Reach step (fun _ _ => True) (pair 0) lost ∧ ¬ Listed () lost ∧ ¬ NobodyStranded () lost ∧
      lost.slock (.sema ()) = false := by
  obtain ⟨⟨count, free, empty⟩, parked, blocked⟩ := lost_state
  have run : Reach step (fun _ _ => True) (pair 0) lost := reach_of_play (Option.some_get early_plays).symm
  obtain ⟨queue, inv⟩ := reach_inv (pair_start 0) run
  have inside : InSemaDown () (lost.pc (.base 0)) := by simp [InSemaDown, parked]
  have stranded : ¬ NobodyStranded () lost := by
    intro nobody
    exact nobody (by rw [count]; decide) empty 0 inside blocked
  exact ⟨pair_start 0, run, fun listed => stranded (listed.nobodyStranded inv), stranded, free⟩

/-! The handler and the spinlock of the thread below it. -/

/-- The steps of `spin_lock` in the handler's `sema_up`. -/
def Spinning (s : ι) (pc : Pc κ ι τ) : Prop :=
  pc = .xchg (semaUp s) ∨ pc = .watch (semaUp s) ∨ pc = .yield (semaUp s)

/-- The handler on the stack of `t` waits for a spinlock that `t` holds. -/
def SelfDeadlock (k : Kernel κ ι τ) (s : ι) (t : τ) : Prop :=
  holding (k.pc (.base t)) = some (.sema s) ∧ Spinning s (k.pc (.handler t))

/-- No interrupt is taken while the current thread holds the spinlock that the handler takes. -/
def TakenOutside (k : Kernel κ ι τ) : Event κ ι → Prop
  | .irq s => holding (k.pc (.base k.sched.current)) ≠ some (.sema s)
  | _ => True

instance (k : Kernel κ ι τ) : DecidablePred (TakenOutside k)
  | .irq s => inferInstanceAs (Decidable (holding (k.pc (.base k.sched.current)) ≠ some (.sema s)))
  | .exec => isTrue trivial
  | .tick => isTrue trivial
  | .enter _ => isTrue trivial

omit [DecidableEq κ] [DecidableEq ι] [DecidableEq τ] in
theorem SelfDeadlock.nested {s : ι} {t : τ} (stuck : SelfDeadlock k s t) : k.pc (.handler t) ≠ .client := by
  intro calm
  have spinning := stuck.2
  rw [calm] at spinning
  simp [Spinning] at spinning

/-- While a handler waits, the thread below it does not move. -/
theorem SelfDeadlock.below {s : ι} {t : τ} (stuck : SelfDeadlock k s t) : Frame.base t ≠ top k := by
  intro frame
  have current : k.sched.current = t := by rw [← top_thread, ← frame]; rfl
  have nested : ¬ Interruptible k := by
    rw [Interruptible, current]
    exact stuck.nested
  rw [top_handler nested] at frame
  cases frame

/-- A frame that waits after a step waited before it. -/
theorem exec_spinning (moved : Exec k k') :
    ∃ pc, k'.pc = Function.update k.pc (top k) pc ∧ ∀ s, Spinning s pc → Spinning s (k.pc (top k)) := by
  cases moved with
  | rest pc ran =>
    refine ⟨k.pc (top k), ?_, fun _ => id⟩
    rw [Function.update_eq_self]
    unfold clientStep at ran
    split_ifs at ran
    · obtain ⟨next, -, rfl⟩ := Option.map_eq_some_iff.mp ran
      rfl
    · cases ran
      rfl
  | spin c pc taken =>
    refine ⟨_, rfl, ?_⟩
    rw [pc]
    simp [Spinning]
  | watch c pc =>
    refine ⟨_, rfl, ?_⟩
    rw [pc]
    split_ifs <;> simp [Spinning]
  | yield c next pc ran =>
    refine ⟨_, rfl, ?_⟩
    rw [pc]
    simp [Spinning]
  | acquire c pc free => exact ⟨_, rfl, by cases c <;> simp [Spinning, Call.body]⟩
  | test l pc => exact ⟨_, rfl, by split_ifs <;> simp [Spinning]⟩
  | testWaiters l pc => exact ⟨_, rfl, by split_ifs <;> simp [Spinning]⟩
  | retry l pc => exact ⟨_, rfl, by simp [Spinning, semaUp]⟩
  | own m pc => exact ⟨_, rfl, by simp [Spinning]⟩
  | take u pc => exact ⟨_, rfl, by simp [Spinning]⟩
  | lower u value pc => exact ⟨_, rfl, by simp [Spinning]⟩
  | park l pc => exact ⟨_, rfl, by simp [Spinning]⟩
  | drop l pc => exact ⟨_, rfl, by simp [Spinning]⟩
  | block l next pc ran => exact ⟨_, rfl, by simp [Spinning]⟩
  | disown m pc => exact ⟨_, rfl, by simp [Spinning]⟩
  | give u pc => exact ⟨_, rfl, by simp [Spinning]⟩
  | raise u value pc => exact ⟨_, rfl, by simp [Spinning]⟩
  | popWaiter l u n links pc popped => exact ⟨_, rfl, by simp [Spinning]⟩
  | wake l u pc => exact ⟨_, rfl, by simp [Spinning]⟩
  | release l pc => exact ⟨_, rfl, by simp [Spinning]⟩

/-- Only an interrupt at the wrong moment makes a handler wait for the thread below it. -/
theorem SelfDeadlock.before {s : ι} {t : τ} {e : Event κ ι} (stuck : SelfDeadlock k' s t)
    (outside : TakenOutside k e) (moved : step k e = some k') : SelfDeadlock k s t := by
  obtain ⟨holds, spins⟩ := stuck
  cases e with
  | exec =>
    obtain ⟨pc, goes, spinning⟩ := exec_spinning (exec_cases moved)
    rw [goes] at holds spins
    by_cases handler : .handler t = top k
    · have below : Frame.base t ≠ top k := by
        rw [← handler]
        simp
      rw [Function.update_of_ne below] at holds
      rw [handler, Function.update_self] at spins
      exact ⟨holds, handler ▸ spinning s spins⟩
    · rw [Function.update_of_ne handler] at spins
      by_cases base : .base t = top k
      · have current : k.sched.current = t := by rw [← top_thread, ← base]; rfl
        have calm : Interruptible k := by
          by_contra nested
          rw [top_handler nested] at base
          cases base
        rw [← current, show k.pc (.handler k.sched.current) = .client from calm] at spins
        simp [Spinning] at spins
      · rw [Function.update_of_ne base] at holds
        exact ⟨holds, spins⟩
  | tick =>
    simp only [Sync.step] at moved
    split_ifs at moved
    obtain ⟨next, -, rfl⟩ := Option.map_eq_some_iff.mp moved
    exact ⟨holds, spins⟩
  | enter c =>
    simp only [Sync.step] at moved
    split_ifs at moved
    cases moved
    rw [goto_pc_other _ _ (by simp)] at spins
    by_cases same : t = k.sched.current
    · rw [same, goto_pc_self] at holds
      cases holds
    · rw [goto_pc_other _ _ (by simpa using same)] at holds
      exact ⟨holds, spins⟩
  | irq u =>
    simp only [Sync.step] at moved
    split_ifs at moved
    cases moved
    rw [goto_pc_other _ _ (by simp)] at holds
    by_cases same : t = k.sched.current
    · rw [same, goto_pc_self] at spins
      have lock : u = s := by simpa [Spinning, semaUp] using spins
      subst lock
      rw [same] at holds
      exact absurd holds outside
    · rw [goto_pc_other _ _ (by simpa using same)] at spins
      exact ⟨holds, spins⟩

/-- In every run that takes disk interrupts outside the spinlock of their semaphore only, no
handler waits for the thread it interrupted. -/
theorem reach_noSelfDeadlock (start : Start k) (run : Reach step TakenOutside k k') (s : ι) (t : τ) :
    ¬ SelfDeadlock k' s t := by
  have kept : ∀ (before : Kernel κ ι τ) e after, ¬ SelfDeadlock before s t → TakenOutside before e →
      step before e = some after → ¬ SelfDeadlock after s t := by
    intro before e after apart outside moved stuck
    exact apart (stuck.before outside moved)
  have fresh : ¬ SelfDeadlock k s t := by
    intro stuck
    exact stuck.nested (start.outside _)
  exact Reach.invariant kept fresh run

/-- No step of any thread gets out again. -/
theorem SelfDeadlock.step {s : ι} {t : τ} {e : Event κ ι} (stuck : SelfDeadlock k s t) (inv : Inv k queue)
    (moved : step k e = some k') : SelfDeadlock k' s t := by
  have taken : k.slock (.sema s) = true := inv.held _ _ stuck.1
  have below := stuck.below
  have nested := stuck.nested
  obtain ⟨holds, spins⟩ := stuck
  cases e with
  | exec =>
    by_cases handler : .handler t = top k
    · have turns : ∃ pc, k'.pc = Function.update k.pc (top k) pc ∧ Spinning s pc := by
        rw [handler] at spins
        cases exec_cases moved with
        | spin c pc busy => exact ⟨_, rfl, by simpa [Spinning, pc] using spins⟩
        | watch c pc =>
          have call : c = semaUp s := by simpa [Spinning, pc] using spins
          subst call
          refine ⟨_, rfl, ?_⟩
          rw [show (semaUp s : Call κ ι).lock = .sema s from rfl, if_pos taken]
          simp [Spinning]
        | yield c next pc ran => exact ⟨_, rfl, by simpa [Spinning, pc] using spins⟩
        | acquire c pc free =>
          have call : c = semaUp s := by simpa [Spinning, pc] using spins
          subst call
          exact absurd taken (by rw [← show (semaUp s : Call κ ι).lock = .sema s from rfl, free]; simp)
        | _ => simp_all [Spinning]
      obtain ⟨pc, goes, spinning⟩ := turns
      constructor
      · rw [goes, Function.update_of_ne below]
        exact holds
      · rw [goes, handler, Function.update_self]
        exact spinning
    · obtain ⟨pc, goes, -⟩ := exec_spinning (exec_cases moved)
      rw [SelfDeadlock, goes, Function.update_of_ne below, Function.update_of_ne handler]
      exact ⟨holds, spins⟩
  | tick =>
    simp only [Sync.step] at moved
    split_ifs at moved
    obtain ⟨next, -, rfl⟩ := Option.map_eq_some_iff.mp moved
    exact ⟨holds, spins⟩
  | enter c =>
    simp only [Sync.step] at moved
    split_ifs at moved with ready
    cases moved
    have other : t ≠ k.sched.current := by
      rintro rfl
      exact nested ready.2.1
    rw [SelfDeadlock, goto_pc_other _ _ (by simpa using other), goto_pc_other _ _ (by simp)]
    exact ⟨holds, spins⟩
  | irq u =>
    simp only [Sync.step] at moved
    split_ifs at moved with calm
    cases moved
    have other : t ≠ k.sched.current := by
      rintro rfl
      exact nested calm
    rw [SelfDeadlock, goto_pc_other _ _ (by simp), goto_pc_other _ _ (by simpa using other)]
    exact ⟨holds, spins⟩

theorem SelfDeadlock.forever {s : ι} {t : τ} {ok : Kernel κ ι τ → Event κ ι → Prop} (stuck : SelfDeadlock k s t)
    (inv : ∃ queue, Inv k queue) (run : Reach Sync.step ok k k') : SelfDeadlock k' s t := by
  have kept : ∀ (before : Kernel κ ι τ) e after, ((∃ queue, Inv before queue) ∧ SelfDeadlock before s t) →
      ok before e → Sync.step before e = some after → (∃ queue, Inv after queue) ∧ SelfDeadlock after s t := by
    rintro before e after ⟨⟨queue, inv⟩, stuck⟩ - moved
    exact ⟨inv.step moved, stuck.step inv moved⟩
  exact (Reach.invariant kept ⟨inv, stuck⟩ run).2

theorem completes_outside : (play step TakenOutside (pair 0) completes).isSome := by
  decide +kernel

theorem completes_noSelfDeadlock :
    ¬ SelfDeadlock ((play step TakenOutside (pair 0) completes).get completes_outside) () 2 :=
  reach_noSelfDeadlock (pair_start 0) (reach_of_play (Option.some_get completes_outside).symm) () 2

/-- The interrupt comes while thread 0 holds the spinlock in `sema_down`. -/
def inside : List (Event Unit Unit) := [.enter (semaDown ()), .exec, .irq (), .exec]

theorem inside_plays : (play step (fun _ _ => True) (pair 0) inside).isSome := by
  decide +kernel

def deadlocked : Kernel Unit Unit Nat := (play step (fun _ _ => True) (pair 0) inside).get inside_plays

theorem deadlocked_state :
    deadlocked.pc (.base 0) = .test (.sema ()) ∧ deadlocked.pc (.handler 0) = .watch (semaUp ()) := by
  decide +kernel

theorem inside_deadlocked :
    Start (pair 0) ∧ Reach step (fun _ _ => True) (pair 0) deadlocked ∧
      ∀ k, Reach step (fun _ _ => True) deadlocked k → SelfDeadlock k () 0 := by
  have run : Reach step (fun _ _ => True) (pair 0) deadlocked := reach_of_play (Option.some_get inside_plays).symm
  have stuck : SelfDeadlock deadlocked () 0 := by
    rw [SelfDeadlock, deadlocked_state.1, deadlocked_state.2]
    exact ⟨rfl, .inr (.inl rfl)⟩
  refine ⟨pair_start 0, run, ?_⟩
  intro k later
  exact stuck.forever (reach_inv (pair_start 0) run) later

end KOS.DiskIrq
