import KOS.SyncInvariant

/-! Permits of a semaphore are neither lost nor made up: the count and the threads that hold
a permit account for the initial value and every `sema_up`. -/

namespace KOS.Semaphore
open KOS.Sched KOS.SchedInvariant KOS.Sync KOS.SyncInvariant KOS.Machine

variable {κ ι τ : Type*} [DecidableEq κ] [DecidableEq ι] [DecidableEq τ]

/-- The count of every semaphore, from `initial` on, as long as the increments fit in 32 bits. -/
structure Counted (initial : ι → Nat) (k : Kernel κ ι τ) : Prop where
  sum : ∀ s, initial s + k.raised s < 2 ^ 32 → k.count s + k.lowered s = initial s + k.raised s
  taking : ∀ s f, k.pc f = .take (.sema s) → 0 < k.count s
  lowering : ∀ s f value, k.pc f = .lower s value → value = k.count s ∧ 0 < k.count s
  raising : ∀ s f value, k.pc f = .raise s value → value = k.count s

/-- A step that relies on nothing read from a count. -/
def Bare : Pc κ ι τ → Prop
  | .take _ | .lower _ _ | .raise _ _ => False
  | _ => True

variable {k : Kernel κ ι τ} {queue : Lock κ ι → List τ} {initial : ι → Nat}

omit [DecidableEq κ] [DecidableEq ι] in
/-- A frame moves and leaves the counts alone. -/
theorem Counted.move {k' : Kernel κ ι τ} {f : Frame τ} {pc : Pc κ ι τ} (counted : Counted initial k)
    (count : k'.count = k.count) (lowered : k'.lowered = k.lowered) (raised : k'.raised = k.raised)
    (moved : k'.pc = Function.update k.pc f pc) (taking : ∀ s, pc = .take (.sema s) → 0 < k.count s)
    (lowering : ∀ s value, pc = .lower s value → value = k.count s ∧ 0 < k.count s)
    (raising : ∀ s value, pc = .raise s value → value = k.count s) : Counted initial k' := by
  refine ⟨?_, ?_, ?_, ?_⟩
  · rw [count, lowered, raised]
    exact counted.sum
  · intro s g
    rw [moved, count]
    by_cases same : g = f
    · rw [same, Function.update_self]
      exact taking s
    · rw [Function.update_of_ne same]
      exact counted.taking s g
  · intro s g value
    rw [moved, count]
    by_cases same : g = f
    · rw [same, Function.update_self]
      exact lowering s value
    · rw [Function.update_of_ne same]
      exact counted.lowering s g value
  · intro s g value
    rw [moved, count]
    by_cases same : g = f
    · rw [same, Function.update_self]
      exact raising s value
    · rw [Function.update_of_ne same]
      exact counted.raising s g value

omit [DecidableEq κ] [DecidableEq ι] in
theorem Counted.pass {k' : Kernel κ ι τ} {f : Frame τ} {pc : Pc κ ι τ} (counted : Counted initial k)
    (bare : Bare pc) (count : k'.count = k.count) (lowered : k'.lowered = k.lowered)
    (raised : k'.raised = k.raised) (moved : k'.pc = Function.update k.pc f pc) : Counted initial k' := by
  apply counted.move count lowered raised moved
  · rintro s rfl
    exact bare.elim
  · rintro s value rfl
    exact bare.elim
  · rintro s value rfl
    exact bare.elim

omit [DecidableEq κ] [DecidableEq ι] [DecidableEq τ] in
theorem Counted.setSched (s : SchedState τ) (counted : Counted initial k) : Counted initial (setSched k s) :=
  ⟨counted.sum, counted.taking, counted.lowering, counted.raising⟩

/-- The frame that stores a count holds the spinlock, so no other frame has read it. -/
theorem Counted.store {k' : Kernel κ ι τ} {s : ι} {value : Nat} (pc : Pc κ ι τ) (counted : Counted initial k)
    (inv : Inv k queue) (mine : holding (k.pc (top k)) = some (.sema s))
    (count : k'.count = Function.update k.count s value) (moved : k'.pc = Function.update k.pc (top k) pc)
    (bare : Bare pc) (sum : ∀ u, initial u + k'.raised u < 2 ^ 32 → k'.count u + k'.lowered u = initial u + k'.raised u) :
    Counted initial k' := by
  have sole : ∀ f, holding (k.pc f) = some (.sema s) → f = top k := by
    intro f inside
    exact inv.exclusive (.sema s) f (top k) inside mine
  refine ⟨sum, ?_, ?_, ?_⟩
  · intro u f
    rw [moved, count]
    intro taking
    by_cases same : f = top k
    · rw [same, Function.update_self] at taking
      subst taking
      exact bare.elim
    · rw [Function.update_of_ne same] at taking
      have other : u ≠ s := by
        rintro rfl
        exact same (sole f (by rw [taking]; rfl))
      rw [Function.update_of_ne other]
      exact counted.taking u f taking
  · intro u f v
    rw [moved, count]
    intro lowering
    by_cases same : f = top k
    · rw [same, Function.update_self] at lowering
      subst lowering
      exact bare.elim
    · rw [Function.update_of_ne same] at lowering
      have other : u ≠ s := by
        rintro rfl
        exact same (sole f (by rw [lowering]; rfl))
      rw [Function.update_of_ne other]
      exact counted.lowering u f v lowering
  · intro u f v
    rw [moved, count]
    intro raising
    by_cases same : f = top k
    · rw [same, Function.update_self] at raising
      subst raising
      exact bare.elim
    · rw [Function.update_of_ne same] at raising
      have other : u ≠ s := by
        rintro rfl
        exact same (sole f (by rw [raising]; rfl))
      rw [Function.update_of_ne other]
      exact counted.raising u f v raising

theorem Counted.lower {s : ι} {value : Nat} (counted : Counted initial k) (inv : Inv k queue)
    (pc : k.pc (top k) = .lower s value) :
    Counted initial (goto (took (countLowered (setCount k s ((value + (2 ^ 32 - 1)) % 2 ^ 32)) s) (.sema s)
      k.sched.current) (top k) (.release (.sema s))) := by
  obtain ⟨same, positive⟩ := counted.lowering s (top k) value pc
  apply counted.store (.release (.sema s)) inv (by rw [pc]; rfl) rfl rfl trivial
  intro u fits
  have before := counted.sum u fits
  by_cases here : u = s
  · subst here
    have fits' : initial u + k.raised u < 2 ^ 32 := fits
    have exact : (value + (2 ^ 32 - 1)) % 2 ^ 32 = k.count u - 1 := by omega
    have count : (Function.update k.count u ((value + (2 ^ 32 - 1)) % 2 ^ 32)) u = k.count u - 1 := by
      rw [Function.update_self, exact]
    have lowered : (Function.update k.lowered u (k.lowered u + 1)) u = k.lowered u + 1 :=
      Function.update_self ..
    calc (Function.update k.count u ((value + (2 ^ 32 - 1)) % 2 ^ 32)) u +
          (Function.update k.lowered u (k.lowered u + 1)) u
        = k.count u - 1 + (k.lowered u + 1) := by rw [count, lowered]
      _ = initial u + k.raised u := by omega
  · simpa [goto, took, countLowered, setCount, here] using before

theorem Counted.raise {s : ι} {value : Nat} (counted : Counted initial k) (inv : Inv k queue)
    (pc : k.pc (top k) = .raise s value) :
    Counted initial (goto (gave (countRaised (setCount k s ((value + 1) % 2 ^ 32)) s) (.sema s)
      k.sched.current) (top k) (.testWaiters (.sema s))) := by
  have same := counted.raising s (top k) value pc
  apply counted.store (.testWaiters (.sema s)) inv (by rw [pc]; rfl) rfl rfl trivial
  intro u fits
  by_cases here : u = s
  · subst here
    have raised : (Function.update k.raised u (k.raised u + 1)) u = k.raised u + 1 :=
      Function.update_self ..
    have fits' : initial u + (k.raised u + 1) < 2 ^ 32 := by
      rw [← raised]
      exact fits
    have before := counted.sum u (by omega)
    have exact : (value + 1) % 2 ^ 32 = k.count u + 1 := by omega
    have count : (Function.update k.count u ((value + 1) % 2 ^ 32)) u = k.count u + 1 := by
      rw [Function.update_self, exact]
    calc (Function.update k.count u ((value + 1) % 2 ^ 32)) u + k.lowered u
        = k.count u + 1 + k.lowered u := by rw [count]
      _ = initial u + (k.raised u + 1) := by omega
      _ = initial u + (Function.update k.raised u (k.raised u + 1)) u := by rw [raised]
  · have before := counted.sum u (by simpa [goto, gave, countRaised, setCount, here] using fits)
    simpa [goto, gave, countRaised, setCount, here] using before

/-- One step of the running frame. -/
theorem Counted.exec {k' : Kernel κ ι τ} (counted : Counted initial k) (inv : Inv k queue)
    (moved : Exec k k') : Counted initial k' := by
  cases moved with
  | rest pc ran =>
    unfold clientStep at ran
    split_ifs at ran
    · obtain ⟨s, -, rfl⟩ := Option.map_eq_some_iff.mp ran
      exact counted.setSched s
    · cases ran
      exact counted
  | lower s value pc => exact counted.lower inv pc
  | raise s value pc => exact counted.raise inv pc
  | test l pc =>
    refine counted.move rfl rfl rfl rfl ?_ ?_ ?_
    · intro s taking
      split_ifs at taking with free
      cases taking
      simpa [available] using free
    · intro s value lowering
      split_ifs at lowering
    · intro s value raising
      split_ifs at raising
  | take s pc =>
    refine counted.move rfl rfl rfl rfl (by simp) ?_ (by simp)
    intro u value lowering
    cases lowering
    exact ⟨rfl, counted.taking s (top k) pc⟩
  | give s pc =>
    refine counted.move rfl rfl rfl rfl (by simp) (by simp) ?_
    intro u value raising
    cases raising
    rfl
  | watch c pc =>
    split_ifs
    · exact counted.pass (show Bare (.yield c : Pc κ ι τ) from trivial) rfl rfl rfl rfl
    · exact counted.pass (show Bare (.xchg c : Pc κ ι τ) from trivial) rfl rfl rfl rfl
  | testWaiters l pc =>
    split_ifs
    · exact counted.pass (show Bare (.release l : Pc κ ι τ) from trivial) rfl rfl rfl rfl
    · exact counted.pass (show Bare (.popWaiter l : Pc κ ι τ) from trivial) rfl rfl rfl rfl
  | acquire c pc free =>
    have bare : Bare (c.body : Pc κ ι τ) := by cases c <;> trivial
    exact counted.pass bare rfl rfl rfl rfl
  | yield c s pc ran =>
    have bare : Bare (.watch c : Pc κ ι τ) := trivial
    exact (counted.setSched s).pass bare rfl rfl rfl rfl
  | block l s pc ran =>
    have bare : Bare (.parked l : Pc κ ι τ) := trivial
    exact (counted.setSched s).pass bare rfl rfl rfl rfl
  | wake l u pc =>
    have bare : Bare (.release l : Pc κ ι τ) := trivial
    exact (counted.setSched _).pass bare rfl rfl rfl rfl
  | spin c pc taken =>
    have bare : Bare (.watch c : Pc κ ι τ) := trivial
    exact counted.pass bare rfl rfl rfl rfl
  | own m pc =>
    have bare : Bare (.release (.mutex m) : Pc κ ι τ) := trivial
    exact counted.pass bare rfl rfl rfl rfl
  | park l pc =>
    have bare : Bare (.drop l : Pc κ ι τ) := trivial
    exact counted.pass bare rfl rfl rfl rfl
  | drop l pc =>
    have bare : Bare (.block l : Pc κ ι τ) := trivial
    exact counted.pass bare rfl rfl rfl rfl
  | retry l pc =>
    have bare : Bare (.xchg (.down l) : Pc κ ι τ) := trivial
    exact counted.pass bare rfl rfl rfl rfl
  | disown m pc =>
    have bare : Bare (.testWaiters (.mutex m) : Pc κ ι τ) := trivial
    exact counted.pass bare rfl rfl rfl rfl
  | popWaiter l u n links pc popped =>
    have bare : Bare (.wake l u : Pc κ ι τ) := trivial
    exact counted.pass bare rfl rfl rfl rfl
  | release l pc =>
    have bare : Bare (.client : Pc κ ι τ) := trivial
    exact counted.pass bare rfl rfl rfl rfl

theorem Counted.step {k' : Kernel κ ι τ} {e : Event κ ι} (counted : Counted initial k) (inv : Inv k queue)
    (moved : step k e = some k') : Counted initial k' := by
  cases e with
  | exec => exact counted.exec inv (exec_cases moved)
  | tick =>
    simp only [Sync.step] at moved
    split_ifs at moved
    obtain ⟨s, -, rfl⟩ := Option.map_eq_some_iff.mp moved
    exact counted.setSched s
  | enter c =>
    simp only [Sync.step] at moved
    split_ifs at moved
    cases moved
    have bare : Bare (.xchg c : Pc κ ι τ) := trivial
    exact counted.pass bare rfl rfl rfl rfl
  | irq s =>
    simp only [Sync.step] at moved
    split_ifs at moved
    cases moved
    have bare : Bare (.xchg (semaUp s) : Pc κ ι τ) := trivial
    exact counted.pass bare rfl rfl rfl rfl

theorem Start.counted (start : Start k) : Counted k.count k := by
  obtain ⟨zero, -⟩ := start.fresh
  refine ⟨?_, ?_, ?_, ?_⟩
  · intro s _
    rw [(zero s).1, (zero s).2]
  all_goals
    intros
    simp_all [start.outside]

theorem reach_counted {ok : Kernel κ ι τ → Event κ ι → Prop} {k k' : Kernel κ ι τ} (start : Start k)
    (run : Reach step ok k k') : (∃ queue, Inv k' queue) ∧ Counted k.count k' := by
  have kept : ∀ (before : Kernel κ ι τ) e after, ((∃ queue, Inv before queue) ∧ Counted k.count before) →
      ok before e → step before e = some after → (∃ queue, Inv after queue) ∧ Counted k.count after := by
    rintro before e after ⟨⟨queue, inv⟩, counted⟩ - moved
    exact ⟨inv.step moved, counted.step inv moved⟩
  exact Reach.invariant kept ⟨⟨_, start.inv⟩, Start.counted start⟩ run

/-! Threads that give back only permits they took. -/

def Permits (s : ι) (k : Kernel κ ι τ) : Event κ ι → Prop
  | .enter (.up (.sema u)) => u = s → k.sched.current ∈ k.holders (.sema s)
  | .irq u => u ≠ s
  | _ => True

instance (s : ι) (k : Kernel κ ι τ) : DecidablePred (Permits s k)
  | .enter (.up (.sema u)) => inferInstanceAs (Decidable (u = s → k.sched.current ∈ k.holders (.sema s)))
  | .enter (.up (.mutex _)) => isTrue trivial
  | .enter (.down _) => isTrue trivial
  | .irq u => inferInstanceAs (Decidable (u ≠ s))
  | .exec => isTrue trivial
  | .tick => isTrue trivial

/-- The steps of `sema_up` before the count is raised. -/
def Giving (s : ι) (pc : Pc κ ι τ) : Prop :=
  pc = .xchg (.up (.sema s)) ∨ pc = .watch (.up (.sema s)) ∨ pc = .yield (.up (.sema s)) ∨
    pc = .give (.sema s) ∨ ∃ value, pc = .raise s value

/-- Every permit is in the count or with a thread. -/
structure Permitted (s : ι) (initial : Nat) (k : Kernel κ ι τ) : Prop where
  giving : ∀ f, Giving s (k.pc f) → ∃ t ∈ k.holders (.sema s), f = .base t
  sum : k.count s + (k.holders (.sema s)).length = initial

variable {s : ι} {permits : Nat}

omit [DecidableEq κ] [DecidableEq ι] in
theorem Permitted.move {k' : Kernel κ ι τ} {f : Frame τ} {pc : Pc κ ι τ} (permitted : Permitted s permits k)
    (moved : k'.pc = Function.update k.pc f pc) (holders : k'.holders (.sema s) = k.holders (.sema s))
    (count : k'.count s = k.count s) (giving : Giving s pc → ∃ t ∈ k.holders (.sema s), f = .base t) :
    Permitted s permits k' := by
  constructor
  · intro g
    rw [moved, holders]
    by_cases same : g = f
    · rw [same, Function.update_self]
      exact giving
    · rw [Function.update_of_ne same]
      exact permitted.giving g
  · rw [holders, count]
    exact permitted.sum

omit [DecidableEq κ] [DecidableEq ι] [DecidableEq τ] in
theorem Permitted.setSched (sched : SchedState τ) (permitted : Permitted s permits k) :
    Permitted s permits (setSched k sched) := ⟨permitted.giving, permitted.sum⟩

/-- Nothing in the rest of a call gives a permit back that the call did not give back before. -/
theorem Permitted.follow {k' : Kernel κ ι τ} {pc : Pc κ ι τ} (permitted : Permitted s permits k)
    (moved : k'.pc = Function.update k.pc (top k) pc) (holders : k'.holders (.sema s) = k.holders (.sema s))
    (count : k'.count s = k.count s) (giving : Giving s pc → Giving s (k.pc (top k))) :
    Permitted s permits k' := by
  apply permitted.move moved holders count
  intro gives
  exact permitted.giving _ (giving gives)

theorem Permitted.lower {value : Nat} (permitted : Permitted s permits k) (counted : Counted initial k)
    (bounded : permits < 2 ^ 32) (pc : k.pc (top k) = .lower s value) :
    Permitted s permits (goto (took (countLowered (setCount k s ((value + (2 ^ 32 - 1)) % 2 ^ 32)) s) (.sema s)
      k.sched.current) (top k) (.release (.sema s))) := by
  obtain ⟨same, positive⟩ := counted.lowering s (top k) value pc
  have before := permitted.sum
  have exact : (value + (2 ^ 32 - 1)) % 2 ^ 32 = k.count s - 1 := by omega
  constructor
  · intro f gives
    have other : f ≠ top k := by
      rintro rfl
      rw [goto_pc_self] at gives
      simp [Giving] at gives
    rw [goto_pc_other _ _ other] at gives
    obtain ⟨t, inside, frame⟩ := permitted.giving f gives
    exact ⟨t, by simp [goto, took, countLowered, setCount, inside], frame⟩
  · simp only [goto, took, countLowered, setCount, Function.update_self, List.length_cons, exact]
    omega

theorem Permitted.raise {value : Nat} (permitted : Permitted s permits k) (counted : Counted initial k)
    (bounded : permits < 2 ^ 32) (pc : k.pc (top k) = .raise s value) :
    Permitted s permits (goto (gave (countRaised (setCount k s ((value + 1) % 2 ^ 32)) s) (.sema s)
      k.sched.current) (top k) (.testWaiters (.sema s))) := by
  have same := counted.raising s (top k) value pc
  obtain ⟨t, mine, frame⟩ := permitted.giving (top k) (by simp [Giving, pc])
  have thread : k.sched.current = t := by rw [← top_thread, frame]; rfl
  subst thread
  have before := permitted.sum
  have one := List.length_pos_of_mem mine
  have exact : (value + 1) % 2 ^ 32 = k.count s + 1 := by omega
  constructor
  · intro f gives
    have other : f ≠ top k := by
      rintro rfl
      rw [goto_pc_self] at gives
      simp [Giving] at gives
    rw [goto_pc_other _ _ other] at gives
    obtain ⟨u, inside, rfl⟩ := permitted.giving f gives
    have different : u ≠ k.sched.current := by
      rintro rfl
      exact other frame.symm
    have kept := (List.mem_erase_of_ne different).mpr inside
    exact ⟨u, by simpa [goto, gave, countRaised, setCount] using kept, rfl⟩
  · simp only [goto, gave, countRaised, setCount, Function.update_self, List.length_erase_of_mem mine, exact]
    omega

theorem Permitted.exec {k' : Kernel κ ι τ} (permitted : Permitted s permits k) (counted : Counted initial k)
    (bounded : permits < 2 ^ 32) (moved : Exec k k') :
    Permitted s permits k' := by
  cases moved with
  | rest pc ran =>
    unfold clientStep at ran
    split_ifs at ran
    · obtain ⟨sched, -, rfl⟩ := Option.map_eq_some_iff.mp ran
      exact permitted.setSched sched
    · cases ran
      exact permitted
  | lower u value pc =>
    by_cases same : u = s
    · subst same
      exact permitted.lower counted bounded pc
    · have holders : k.holders (.sema s) = Function.update k.holders (.sema u) (k.sched.current :: k.holders (.sema u)) (.sema s) :=
        (Function.update_of_ne (by simpa using Ne.symm same) ..).symm
      refine permitted.follow rfl holders.symm ?_ (by simp [Giving])
      exact Function.update_of_ne (Ne.symm same) ..
  | raise u value pc =>
    by_cases same : u = s
    · subst same
      exact permitted.raise counted bounded pc
    · have holders : k.holders (.sema s) = Function.update k.holders (.sema u) ((k.holders (.sema u)).erase k.sched.current) (.sema s) :=
        (Function.update_of_ne (by simpa using Ne.symm same) ..).symm
      refine permitted.follow rfl holders.symm ?_ (by simp [Giving])
      exact Function.update_of_ne (Ne.symm same) ..
  | spin c pc taken =>
    refine permitted.follow rfl rfl rfl ?_
    rw [pc]
    simp [Giving]
  | acquire c pc free =>
    refine permitted.follow rfl rfl rfl ?_
    rw [pc]
    cases c <;> simp [Giving, Call.body]
  | watch c pc =>
    refine permitted.follow rfl rfl rfl ?_
    rw [pc]
    split_ifs <;> simp [Giving]
  | yield c sched pc ran =>
    refine (permitted.setSched sched).move (f := top k) rfl rfl rfl ?_
    intro gives
    apply permitted.giving
    rw [pc]
    simpa [Giving] using gives
  | test l pc =>
    refine permitted.follow rfl rfl rfl ?_
    split_ifs <;> simp [Giving]
  | own m pc => exact permitted.follow rfl (by simp [goto, took, setOwner]) rfl (by simp [Giving])
  | take u pc => exact permitted.follow rfl rfl rfl (by simp [Giving])
  | park l pc => exact permitted.follow rfl rfl rfl (by simp [Giving])
  | drop l pc => exact permitted.follow rfl rfl rfl (by simp [Giving])
  | block l sched pc ran =>
    exact (permitted.setSched sched).move (f := top k) rfl rfl rfl (by simp [Giving])
  | retry l pc => exact permitted.follow rfl rfl rfl (by simp [Giving])
  | disown m pc => exact permitted.follow rfl (by simp [goto, gave, setOwner]) rfl (by simp [Giving])
  | give u pc =>
    refine permitted.follow rfl rfl rfl ?_
    rw [pc]
    simp [Giving]
  | testWaiters l pc =>
    refine permitted.follow rfl rfl rfl ?_
    split_ifs <;> simp [Giving]
  | popWaiter l u n links pc popped => exact permitted.follow rfl rfl rfl (by simp [Giving])
  | wake l u pc =>
    exact (permitted.setSched (kthreadUnblock k.sched u)).move (f := top k) rfl rfl rfl (by simp [Giving])
  | release l pc => exact permitted.follow rfl rfl rfl (by simp [Giving])

theorem Permitted.step {k' : Kernel κ ι τ} {e : Event κ ι} (permitted : Permitted s permits k) (counted : Counted initial k)
    (bounded : permits < 2 ^ 32) (allowed : Permits s k e)
    (moved : step k e = some k') : Permitted s permits k' := by
  cases e with
  | exec => exact permitted.exec counted bounded (exec_cases moved)
  | tick =>
    simp only [Sync.step] at moved
    split_ifs at moved
    obtain ⟨sched, -, rfl⟩ := Option.map_eq_some_iff.mp moved
    exact permitted.setSched sched
  | enter c =>
    simp only [Sync.step] at moved
    split_ifs at moved
    cases moved
    refine permitted.move rfl rfl rfl ?_
    intro giving
    have call : c = .up (.sema s) := by simpa [Giving] using giving
    subst call
    exact ⟨_, allowed rfl, rfl⟩
  | irq u =>
    simp only [Sync.step] at moved
    split_ifs at moved
    cases moved
    refine permitted.move rfl rfl rfl ?_
    intro giving
    have call : u = s := by simpa [Giving, semaUp] using giving
    exact absurd call allowed

theorem Start.permitted (start : Start k) : Permitted s (k.count s) k := by
  constructor
  · intro f giving
    simp [start.outside, Giving] at giving
  · rw [start.fresh.2]
    rfl

theorem reach_permitted {k k' : Kernel κ ι τ} (start : Start k) (bounded : k.count s < 2 ^ 32)
    (run : Reach step (Permits s) k k') : Permitted s (k.count s) k' := by
  have kept : ∀ (before : Kernel κ ι τ) e after,
      ((∃ queue, Inv before queue) ∧ Counted k.count before ∧ Permitted s (k.count s) before) →
      Permits s before e → step before e = some after →
      (∃ queue, Inv after queue) ∧ Counted k.count after ∧ Permitted s (k.count s) after := by
    rintro before e after ⟨⟨queue, inv⟩, counted, permitted⟩ allowed moved
    exact ⟨inv.step moved, counted.step inv moved, permitted.step counted bounded allowed moved⟩
  exact (Reach.invariant kept ⟨⟨_, start.inv⟩, Start.counted start, Start.permitted start⟩ run).2.2

/-- Decrements and increments account for the count, and threads that only give back what
they took are never more than the initial value. -/
theorem reach_conserved {k k' : Kernel κ ι τ} {s : ι} (start : Start k) (bounded : k.count s < 2 ^ 32) :
    (Reach step (fun _ _ => True) k k' → k.count s + k'.raised s < 2 ^ 32 →
      k'.count s + k'.lowered s = k.count s + k'.raised s ∧ k'.count s < 2 ^ 32) ∧
    (Reach step (Permits s) k k' → ∀ between : Finset τ, (∀ t ∈ between, t ∈ k'.holders (.sema s)) →
      between.card ≤ k.count s) := by
  constructor
  · intro run fits
    have sum := (reach_counted start run).2.sum s fits
    exact ⟨sum, by omega⟩
  · intro run between held
    have sum := (reach_permitted start bounded run).sum
    have sub : between ⊆ (k'.holders (.sema s)).toFinset := by
      intro t inside
      exact List.mem_toFinset.mpr (held t inside)
    calc between.card ≤ (k'.holders (.sema s)).toFinset.card := Finset.card_le_card sub
      _ ≤ (k'.holders (.sema s)).length := List.toFinset_card_le _
      _ ≤ k.count s := by omega

/-- Two threads run for one permit: the second blocks until the first gives it back. -/
def share : List (Event Unit Unit) :=
  .enter (semaDown ()) :: List.replicate 5 .exec ++ .tick :: .enter (semaDown ()) :: List.replicate 5 .exec ++
    .enter (semaUp ()) :: List.replicate 7 .exec ++ [.tick]

theorem share_plays : (play step (Permits ()) (pair 1) share).isSome := by
  decide +kernel

def shared : Kernel Unit Unit Nat := (play step (Permits ()) (pair 1) share).get share_plays

theorem shared_fits : (pair 1).count () + shared.raised () < 2 ^ 32 := by decide +kernel

theorem share_conserved :
    (shared.count () + shared.lowered () = (pair 1).count () + shared.raised () ∧ shared.count () < 2 ^ 32) ∧
      ∀ between : Finset Nat, (∀ t ∈ between, t ∈ shared.holders (.sema ())) →
        between.card ≤ (pair 1).count () := by
  have initial : (pair 1).count () < 2 ^ 32 := by decide
  have run : Reach step (Permits ()) (pair 1) shared := reach_of_play (Option.some_get share_plays).symm
  have free : Reach step (fun _ _ => True) (pair 1) shared := run.mono fun _ _ _ => trivial
  exact ⟨(reach_conserved (pair_start 1) initial).1 free shared_fits,
    (reach_conserved (pair_start 1) initial).2 run⟩

end KOS.Semaphore
