import KOS.SyncInvariant

/-! Mutual exclusion: a mutex is owned by the one thread that is between taking it and
giving it back. -/

namespace KOS.Mutex
open KOS.Sched KOS.SchedInvariant KOS.Sync KOS.SyncInvariant KOS.Machine

variable {κ ι τ : Type*} [DecidableEq κ] [DecidableEq ι] [DecidableEq τ]

/-- Threads unlock only a mutex that they hold, and lock none that they hold. -/
def Locking (k : Kernel κ ι τ) : Event κ ι → Prop
  | .enter (.down (.mutex m)) => k.sched.current ∉ k.holders (.mutex m)
  | .enter (.up (.mutex m)) => k.sched.current ∈ k.holders (.mutex m)
  | _ => True

instance (k : Kernel κ ι τ) : DecidablePred (Locking k)
  | .enter (.down (.mutex m)) => inferInstanceAs (Decidable (k.sched.current ∉ k.holders (.mutex m)))
  | .enter (.up (.mutex m)) => inferInstanceAs (Decidable (k.sched.current ∈ k.holders (.mutex m)))
  | .enter (.down (.sema _)) => isTrue trivial
  | .enter (.up (.sema _)) => isTrue trivial
  | .exec => isTrue trivial
  | .tick => isTrue trivial
  | .irq _ => isTrue trivial

/-- The steps of `mutex_unlock` before the owner is reset. -/
def Giving (m : κ) (pc : Pc κ ι τ) : Prop :=
  pc = .xchg (.up (.mutex m)) ∨ pc = .watch (.up (.mutex m)) ∨ pc = .yield (.up (.mutex m)) ∨
    pc = .give (.mutex m)

structure Owned (k : Kernel κ ι τ) : Prop where
  holder : ∀ m, k.holders (.mutex m) = (k.owner m).toList
  taking : ∀ m f, k.pc f = .take (.mutex m) → k.owner m = none
  giving : ∀ m f, Giving m (k.pc f) → ∃ t ∈ k.holders (.mutex m), f = .base t

variable {k : Kernel κ ι τ} {queue : Lock κ ι → List τ}

omit [DecidableEq κ] [DecidableEq ι] in
/-- A frame moves and leaves the owners alone. -/
theorem Owned.move {k' : Kernel κ ι τ} {f : Frame τ} {pc : Pc κ ι τ} (owned : Owned k)
    (holders : ∀ m, k'.holders (.mutex m) = k.holders (.mutex m)) (owner : k'.owner = k.owner)
    (moved : k'.pc = Function.update k.pc f pc) (taking : ∀ m, pc = .take (.mutex m) → k.owner m = none)
    (giving : ∀ m, Giving m pc → ∃ t ∈ k.holders (.mutex m), f = .base t) : Owned k' := by
  refine ⟨?_, ?_, ?_⟩
  · intro m
    rw [holders, owner]
    exact owned.holder m
  · intro m g
    rw [moved, owner]
    by_cases same : g = f
    · rw [same, Function.update_self]
      exact taking m
    · rw [Function.update_of_ne same]
      exact owned.taking m g
  · intro m g
    rw [moved, holders]
    by_cases same : g = f
    · rw [same, Function.update_self]
      exact giving m
    · rw [Function.update_of_ne same]
      exact owned.giving m g

omit [DecidableEq κ] [DecidableEq ι] [DecidableEq τ] in
theorem Owned.setSched (s : SchedState τ) (owned : Owned k) : Owned (setSched k s) :=
  ⟨owned.holder, owned.taking, owned.giving⟩

/-- The frame that takes the mutex found it free, and holds its spinlock since. -/
theorem Owned.own {m : κ} (owned : Owned k) (inv : Inv k queue) (pc : k.pc (top k) = .take (.mutex m)) :
    Owned (goto (took (setOwner k m (some k.sched.current)) (.mutex m) k.sched.current) (top k)
      (.release (.mutex m))) := by
  have free := owned.taking m _ pc
  have none := owned.holder m
  rw [free] at none
  have mine : holding (k.pc (top k)) = some (.mutex m) := by rw [pc]; rfl
  have alone : ∀ f, k.pc f = .take (.mutex m) → f = top k := by
    intro f taking
    exact inv.exclusive (.mutex m) f (top k) (by rw [taking]; rfl) mine
  obtain ⟨holder, taking, giving⟩ := owned
  constructor <;> simp only [goto, took, setOwner, Function.update_apply] <;> grind [Giving]

/-- The frame that resets the owner is the owner's. -/
theorem Owned.disown {m : κ} (owned : Owned k) (pc : k.pc (top k) = .give (.mutex m)) :
    Owned (goto (gave (setOwner k m none) (.mutex m) k.sched.current) (top k) (.testWaiters (.mutex m))) := by
  obtain ⟨t, mine, frame⟩ := owned.giving m (top k) (by simp [Giving, pc])
  have thread : k.sched.current = t := by rw [← top_thread, frame]; rfl
  subst thread
  have self : k.holders (.mutex m) = [k.sched.current] := by
    rw [owned.holder] at mine ⊢
    cases owner : k.owner m with
    | none => simp [owner] at mine
    | some u =>
      rw [owner] at mine
      rw [Option.toList_some, List.mem_singleton] at mine
      rw [mine, Option.toList_some]
  have held : holding (k.pc (top k)) = some (.mutex m) := by rw [pc]; rfl
  obtain ⟨holder, taking, giving⟩ := owned
  constructor <;> simp only [goto, gave, setOwner, Function.update_apply] <;> grind [Giving]

/-- One step of the running frame. -/
theorem Owned.exec {k' : Kernel κ ι τ} (owned : Owned k) (inv : Inv k queue) (moved : Exec k k') :
    Owned k' := by
  cases moved with
  | rest pc ran =>
    unfold clientStep at ran
    split_ifs at ran
    · obtain ⟨s, -, rfl⟩ := Option.map_eq_some_iff.mp ran
      exact owned.setSched s
    · cases ran
      exact owned
  | own m pc => exact owned.own inv pc
  | disown m pc => exact owned.disown pc
  | spin c pc taken =>
    refine owned.move (fun _ => rfl) rfl rfl (by simp) ?_
    intro m giving
    exact owned.giving m _ (by rw [pc]; simpa [Giving] using giving)
  | acquire c pc free =>
    refine owned.move (fun _ => rfl) rfl rfl ?_ ?_
    · cases c <;> simp [Call.body]
    · intro m giving
      apply owned.giving m
      rw [pc]
      cases c with
      | down l => simp [Giving, Call.body] at giving
      | up l => simpa [Giving, Call.body] using giving
  | watch c pc =>
    refine owned.move (fun _ => rfl) rfl rfl ?_ ?_
    · split_ifs <;> simp
    · intro m giving
      apply owned.giving m
      rw [pc]
      split_ifs at giving <;> simpa [Giving] using giving
  | yield c s pc ran =>
    refine (owned.setSched s).move (fun _ => rfl) rfl rfl (by simp) ?_
    intro m giving
    exact owned.giving m _ (by rw [pc]; simpa [Giving] using giving)
  | test l pc =>
    refine owned.move (fun _ => rfl) rfl rfl ?_ ?_
    · intro m taking
      split_ifs at taking with free
      cases taking
      simpa [available] using free
    · intro m giving
      split_ifs at giving <;> simp [Giving] at giving
  | take s pc => exact owned.move (fun _ => rfl) rfl rfl (by simp) (by simp [Giving])
  | lower s value pc =>
    refine owned.move ?_ rfl rfl (by simp) (by simp [Giving])
    intro m
    simp [goto, took, countLowered, setCount]
  | park l pc => exact owned.move (fun _ => rfl) rfl rfl (by simp) (by simp [Giving])
  | drop l pc => exact owned.move (fun _ => rfl) rfl rfl (by simp) (by simp [Giving])
  | block l s pc ran =>
    exact (owned.setSched s).move (fun _ => rfl) rfl rfl (by simp) (by simp [Giving])
  | retry l pc => exact owned.move (fun _ => rfl) rfl rfl (by simp) (by simp [Giving])
  | give s pc => exact owned.move (fun _ => rfl) rfl rfl (by simp) (by simp [Giving])
  | raise s value pc =>
    refine owned.move ?_ rfl rfl (by simp) (by simp [Giving])
    intro m
    simp [goto, gave, countRaised, setCount]
  | testWaiters l pc =>
    refine owned.move (fun _ => rfl) rfl rfl ?_ ?_
    · split_ifs <;> simp
    · intro m giving
      split_ifs at giving <;> simp [Giving] at giving
  | popWaiter l u n links pc popped =>
    exact owned.move (fun _ => rfl) rfl rfl (by simp) (by simp [Giving])
  | wake l u pc =>
    exact (owned.setSched _).move (fun _ => rfl) rfl rfl (by simp) (by simp [Giving])
  | release l pc => exact owned.move (fun _ => rfl) rfl rfl (by simp) (by simp [Giving])

theorem Owned.step {k' : Kernel κ ι τ} {e : Event κ ι} (owned : Owned k) (inv : Inv k queue)
    (locking : Locking k e) (moved : step k e = some k') : Owned k' := by
  cases e with
  | exec => exact owned.exec inv (exec_cases moved)
  | tick =>
    simp only [Sync.step] at moved
    split_ifs at moved
    obtain ⟨s, -, rfl⟩ := Option.map_eq_some_iff.mp moved
    exact owned.setSched s
  | enter c =>
    simp only [Sync.step] at moved
    split_ifs at moved
    cases moved
    refine owned.move (fun _ => rfl) rfl rfl (by simp) ?_
    intro m giving
    have call : c = .up (.mutex m) := by simpa [Giving] using giving
    subst call
    exact ⟨_, locking, rfl⟩
  | irq s =>
    simp only [Sync.step] at moved
    split_ifs at moved
    cases moved
    exact owned.move (fun _ => rfl) rfl rfl (by simp) (by simp [Giving, semaUp])

/-- `t` is past the return of its `mutex_lock` and before the owner reset of its `mutex_unlock`. -/
def Between (k : Kernel κ ι τ) (m : κ) (t : τ) : Prop :=
  t ∈ k.holders (.mutex m) ∧ k.pc (.base t) ≠ .release (.mutex m)

omit [DecidableEq κ] [DecidableEq ι] [DecidableEq τ] in
theorem Owned.owner {m : κ} {t : τ} (owned : Owned k) (inside : t ∈ k.holders (.mutex m)) :
    k.owner m = some t := by
  rw [owned.holder, Option.mem_toList] at inside
  exact inside

theorem Start.owned (start : Start k) : Owned k := by
  refine ⟨?_, ?_, ?_⟩
  · intro m
    rw [start.fresh.2, start.unowned]
    rfl
  · intro m f taking
    simp [start.outside] at taking
  · intro m f giving
    simp [start.outside, Giving] at giving

/-- At most one thread is between taking a mutex and giving it back, and it is the owner. -/
theorem reach_exclusive {k k' : Kernel κ ι τ} (start : Start k) (run : Reach step Locking k k') (m : κ) :
    (∀ t u, Between k' m t → Between k' m u → t = u) ∧ ∀ t, Between k' m t → k'.owner m = some t := by
  have kept : ∀ (before : Kernel κ ι τ) e after, ((∃ queue, Inv before queue) ∧ Owned before) → Locking before e →
      step before e = some after → (∃ queue, Inv after queue) ∧ Owned after := by
    rintro before e after ⟨⟨queue, inv⟩, owned⟩ locking moved
    exact ⟨inv.step moved, owned.step inv locking moved⟩
  obtain ⟨-, owned⟩ := Reach.invariant kept ⟨⟨_, start.inv⟩, Start.owned start⟩ run
  refine ⟨?_, fun t inside => owned.owner inside.1⟩
  intro t u first second
  have same := (owned.owner first.1).symm.trans (owned.owner second.1)
  exact Option.some.inj same

/-- Thread 0 takes the mutex, thread 2 blocks on it, thread 0 gives it back. -/
def contend : List (Event Unit Unit) :=
  .enter (mutexLock ()) :: List.replicate 4 .exec ++ .tick :: .enter (mutexLock ()) :: List.replicate 5 .exec ++
    .enter (mutexUnlock ()) :: List.replicate 6 .exec

theorem contend_plays : (play step Locking (pair 0) contend).isSome := by
  decide +kernel

theorem contend_exclusive :
    let after := (play step Locking (pair 0) contend).get contend_plays
    (∀ t u, Between after () t → Between after () u → t = u) ∧
      ∀ t, Between after () t → after.owner () = some t :=
  reach_exclusive (pair_start 0) (reach_of_play (Option.some_get contend_plays).symm) ()

end KOS.Mutex
