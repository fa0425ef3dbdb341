import KOS.Mutex
import KOS.Serial

/-! An object that threads work on only between `mutex_lock` and `mutex_unlock` of one mutex: however their accesses
interleave, the object goes through a serial history. -/

namespace KOS.Guarded
open KOS.Sync KOS.SyncInvariant KOS.Mutex KOS.Machine KOS.Serial

variable {κ ι τ α ρ : Type*} [DecidableEq κ] [DecidableEq ι] [DecidableEq τ]

structure Shared (κ ι τ α ρ : Type*) where
  kernel : Kernel κ ι τ
  object : α
  /-- The code that a thread runs under the mutex, from its call of `mutex_lock` to its call of `mutex_unlock`: as it
  began, and as it goes on. -/
  doing : τ → Option (ρ × ρ)
  /- History: the pieces of code that were called for, and those that are done. -/
  called : List (τ × ρ)
  log : List (τ × ρ)

inductive Event (κ ι ρ : Type*) where
  /-- A step of the lock functions, a tick, an interrupt, or the use of another lock. -/
  | lock (e : Sync.Event κ ι)
  /-- The current thread calls `mutex_lock` to run this code. -/
  | call (r : ρ)
  /-- One access to the object. -/
  | act
  /-- The code is done, and the current thread calls `mutex_unlock`. -/
  | finish

/-- The current thread runs its own code, outside the lock functions. -/
def Outside (k : Kernel κ ι τ) : Prop := k.pc (.base k.sched.current) = .client ∧ Interruptible k

instance (k : Kernel κ ι τ) : Decidable (Outside k) := inferInstanceAs (Decidable (_ = Pc.client ∧ Interruptible k))

def step (code : Code α ρ) (m : κ) (g : Shared κ ι τ α ρ) : Event κ ι ρ → Option (Shared κ ι τ α ρ)
  | .lock e => (Sync.step g.kernel e).map fun k => { g with kernel := k }
  | .call r =>
      let t := g.kernel.sched.current
      if (g.doing t).isNone then
        (Sync.step g.kernel (.enter (mutexLock m))).map fun k =>
          { g with kernel := k, doing := Function.update g.doing t (some (r, r)), called := g.called ++ [(t, r)] }
      else none
  | .act =>
      let t := g.kernel.sched.current
      if Outside g.kernel then
        (g.doing t).bind fun (first, now) =>
          if code.done now then none
          else (code.act now g.object).map fun (next, a) =>
            { g with object := a, doing := Function.update g.doing t (some (first, next)) }
      else none
  | .finish =>
      let t := g.kernel.sched.current
      (g.doing t).bind fun (first, now) =>
        if code.done now then
          (Sync.step g.kernel (.enter (mutexUnlock m))).map fun k =>
            { g with kernel := k, doing := Function.update g.doing t none, log := g.log ++ [(t, first)] }
        else none

/-- This mutex is used in no other way. -/
def Other (m : κ) : Sync.Event κ ι → Prop
  | .enter c => c.lock ≠ .mutex m
  | _ => True

instance (m : κ) : DecidablePred (Other m : Sync.Event κ ι → Prop)
  | .enter c => inferInstanceAs (Decidable (c.lock ≠ .mutex m))
  | .exec => isTrue trivial
  | .tick => isTrue trivial
  | .irq _ => isTrue trivial

def Permitted (m : κ) (g : Shared κ ι τ α ρ) : Event κ ι ρ → Prop
  | .lock e => Locking g.kernel e ∧ Other m e
  | _ => True

instance (m : κ) (g : Shared κ ι τ α ρ) : DecidablePred (Permitted m g)
  | .lock e => inferInstanceAs (Decidable (Locking g.kernel e ∧ Other m e))
  | .call _ => isTrue trivial
  | .act => isTrue trivial
  | .finish => isTrue trivial

/-! How far a thread is with its call of one of the two functions. -/

inductive Stage where
  | away
  /-- Before the mutex is taken. -/
  | entering
  /-- Before it is given back. -/
  | giving
  /-- On the way out of either function. -/
  | leaving

def stage (m : κ) : Pc κ ι τ → Stage
  | .client | .lower _ _ | .raise _ _ => .away
  | .xchg (.down l) | .watch (.down l) | .yield (.down l) | .test l | .take l | .park l | .drop l | .block l | .parked l =>
      if l = .mutex m then .entering else .away
  | .xchg (.up l) | .watch (.up l) | .yield (.up l) | .give l => if l = .mutex m then .giving else .away
  | .testWaiters l | .popWaiter l | .wake l _ | .release l => if l = .mutex m then .leaving else .away

/-- What one step does to a thread's place. -/
inductive Turn (m : κ) (k k' : Kernel κ ι τ) (t : τ) : Prop where
  | still (stages : stage m (k'.pc (.base t)) = stage m (k.pc (.base t)))
      (holds : t ∈ k'.holders (.mutex m) ↔ t ∈ k.holders (.mutex m))
  | takes (before : stage m (k.pc (.base t)) = .entering) (after : stage m (k'.pc (.base t)) = .leaving)
      (free : k.holders (.mutex m) = []) (holds : t ∈ k'.holders (.mutex m))
  | gives (before : stage m (k.pc (.base t)) = .giving) (after : stage m (k'.pc (.base t)) = .leaving)
      (free : t ∉ k'.holders (.mutex m))
  | leaves (before : stage m (k.pc (.base t)) = .leaving) (after : stage m (k'.pc (.base t)) = .away)
      (holds : t ∈ k'.holders (.mutex m) ↔ t ∈ k.holders (.mutex m))

variable {m : κ} {k k' : Kernel κ ι τ} {queue : Lock κ ι → List τ} {t : τ}

/-- A frame moves and leaves the holders alone. -/
theorem Turn.move {f : Frame τ} {pc : Pc κ ι τ} (holders : k'.holders (.mutex m) = k.holders (.mutex m))
    (moved : k'.pc = Function.update k.pc f pc)
    (stages : stage m pc = stage m (k.pc f) ∨ stage m (k.pc f) = .leaving ∧ stage m pc = .away) : Turn m k k' t := by
  have holds : t ∈ k'.holders (.mutex m) ↔ t ∈ k.holders (.mutex m) := by rw [holders]
  by_cases mine : f = .base t
  · subst mine
    have here : k'.pc (.base t) = pc := by rw [moved, Function.update_self]
    rcases stages with same | left
    · exact .still (by rw [here, same]) holds
    · exact .leaves left.1 (by rw [here]; exact left.2) holds
  · have here : k'.pc (.base t) = k.pc (.base t) := by rw [moved, Function.update_of_ne (Ne.symm mine)]
    exact .still (by rw [here]) holds

theorem Turn.own {m' : κ} (owned : Owned k) (inv : Inv k queue) (pc : k.pc (top k) = .take (.mutex m')) :
    Turn m k (goto (took (setOwner k m' (some k.sched.current)) (.mutex m') k.sched.current) (top k)
      (.release (.mutex m'))) t := by
  obtain ⟨frame, here, -⟩ := inv.own pc (by simp [Upward])
  by_cases same : m' = m
  · subst same
    have free : k.holders (.mutex m') = [] := by
      rw [owned.holder, owned.taking m' _ pc]
      rfl
    by_cases mine : t = k.sched.current
    · subst mine
      apply Turn.takes
      · rw [here]
        exact if_pos rfl
      · rw [frame]
        simp [goto, stage]
      · exact free
      · simp [goto, took]
    · apply Turn.still
      · rw [frame, goto_pc_other _ _ (fun same => mine (Frame.base.inj same))]
        rfl
      · simp [goto, took, setOwner, free, mine]
  · refine Turn.move ?_ rfl ?_
    · simp [goto, took, setOwner, Ne.symm same]
    · left
      rw [pc]
      simp [stage, same]

theorem Turn.disown {m' : κ} (owned : Owned k) (pc : k.pc (top k) = .give (.mutex m')) :
    Turn m k (goto (gave (setOwner k m' none) (.mutex m') k.sched.current) (top k) (.testWaiters (.mutex m'))) t := by
  by_cases same : m' = m
  · subst same
    obtain ⟨u, mine, frame⟩ := owned.giving m' (top k) (by simp [Giving, pc])
    have thread : k.sched.current = u := by rw [← top_thread, frame]; rfl
    subst thread
    have alone : k.holders (.mutex m') = [k.sched.current] := by
      rw [owned.holder, owned.owner mine]
      rfl
    by_cases own : t = k.sched.current
    · subst own
      apply Turn.gives
      · rw [← frame, pc]
        exact if_pos rfl
      · rw [frame]
        simp [goto, stage]
      · simp [goto, gave, setOwner, alone]
    · apply Turn.still
      · rw [frame, goto_pc_other _ _ (fun same => own (Frame.base.inj same))]
        rfl
      · simp [goto, gave, setOwner, alone, own]
  · refine Turn.move ?_ rfl ?_
    · simp [goto, gave, setOwner, Ne.symm same]
    · left
      rw [pc]
      simp [stage, same]

/-- One step of the running frame. -/
theorem Turn.exec (owned : Owned k) (inv : Inv k queue) (moved : Exec k k') : Turn m k k' t := by
  cases moved with
  | rest pc ran =>
    have kept : k'.pc = k.pc ∧ k'.holders = k.holders := by
      unfold clientStep at ran
      split_ifs at ran
      · obtain ⟨s, -, rfl⟩ := Option.map_eq_some_iff.mp ran
        exact ⟨rfl, rfl⟩
      · cases ran
        exact ⟨rfl, rfl⟩
    apply Turn.still
    · rw [kept.1]
    · rw [kept.2]
  | own m pc => exact Turn.own owned inv pc
  | disown m pc => exact Turn.disown owned pc
  | spin c pc taken =>
    refine Turn.move rfl rfl ?_
    left
    rw [pc]
    cases c <;> rfl
  | acquire c pc free =>
    refine Turn.move rfl rfl ?_
    left
    rw [pc]
    cases c <;> rfl
  | watch c pc =>
    refine Turn.move rfl rfl ?_
    left
    rw [pc]
    split_ifs <;> cases c <;> rfl
  | yield c s pc ran =>
    refine Turn.move rfl rfl ?_
    left
    rw [pc]
    cases c <;> rfl
  | test l pc =>
    refine Turn.move rfl rfl ?_
    left
    rw [pc]
    split_ifs <;> rfl
  | take s pc =>
    refine Turn.move rfl rfl ?_
    left
    rw [pc]
    simp [stage]
  | lower s value pc =>
    refine Turn.move ?_ rfl ?_
    · simp [goto, took, countLowered, setCount]
    · left
      rw [pc]
      simp [stage]
  | park l pc =>
    refine Turn.move rfl rfl ?_
    left
    rw [pc]
    rfl
  | drop l pc =>
    refine Turn.move rfl rfl ?_
    left
    rw [pc]
    rfl
  | block l s pc ran =>
    refine Turn.move rfl rfl ?_
    left
    rw [pc]
    rfl
  | retry l pc =>
    refine Turn.move rfl rfl ?_
    left
    rw [pc]
    rfl
  | give s pc =>
    refine Turn.move rfl rfl ?_
    left
    rw [pc]
    simp [stage]
  | raise s value pc =>
    refine Turn.move ?_ rfl ?_
    · simp [goto, gave, countRaised, setCount]
    · left
      rw [pc]
      simp [stage]
  | testWaiters l pc =>
    refine Turn.move rfl rfl ?_
    left
    rw [pc]
    split_ifs <;> rfl
  | popWaiter l u n links pc popped =>
    refine Turn.move rfl rfl ?_
    left
    rw [pc]
    rfl
  | wake l u pc =>
    refine Turn.move rfl rfl ?_
    left
    rw [pc]
    rfl
  | release l pc =>
    refine Turn.move rfl rfl ?_
    rw [pc]
    by_cases here : l = .mutex m
    · exact .inr ⟨if_pos here, rfl⟩
    · exact .inl (if_neg here).symm

/-- One event, when the mutex is not called. -/
theorem Turn.step {e : Sync.Event κ ι} (owned : Owned k) (inv : Inv k queue) (other : Other m e)
    (moved : Sync.step k e = some k') : Turn m k k' t := by
  cases e with
  | exec => exact Turn.exec owned inv (exec_cases moved)
  | tick =>
    simp only [Sync.step] at moved
    split_ifs at moved
    obtain ⟨s, -, rfl⟩ := Option.map_eq_some_iff.mp moved
    exact .still rfl Iff.rfl
  | enter c =>
    simp only [Sync.step] at moved
    split_ifs at moved with ready
    cases moved
    refine Turn.move rfl rfl ?_
    left
    rw [ready.1]
    have away : stage m (.xchg c : Pc κ ι τ) = .away := by
      cases c with
      | down l => exact if_neg other
      | up l => exact if_neg other
    exact away
  | irq s =>
    simp only [Sync.step] at moved
    split_ifs at moved
    cases moved
    apply Turn.still
    · rw [goto_pc_other _ _ (by simp)]
    · exact Iff.rfl

/-- Where a thread is with its code, its hold on the mutex and its call of a lock function. -/
inductive Placed (m : κ) (k : Kernel κ ι τ) (t : τ) : Option (ρ × ρ) → Prop where
  | waiting (r : ρ) (absent : t ∉ k.holders (.mutex m)) (at_ : stage m (k.pc (.base t)) = .entering) :
      Placed m k t (some (r, r))
  | arriving (r : ρ) (mine : t ∈ k.holders (.mutex m)) (at_ : stage m (k.pc (.base t)) = .leaving) :
      Placed m k t (some (r, r))
  | working (r r' : ρ) (mine : t ∈ k.holders (.mutex m)) (at_ : stage m (k.pc (.base t)) = .away) :
      Placed m k t (some (r, r'))
  | giving (mine : t ∈ k.holders (.mutex m)) (at_ : stage m (k.pc (.base t)) = .giving) : Placed m k t none
  | leaving (absent : t ∉ k.holders (.mutex m)) (at_ : stage m (k.pc (.base t)) = .leaving) : Placed m k t none
  | away (absent : t ∉ k.holders (.mutex m)) (at_ : stage m (k.pc (.base t)) = .away) : Placed m k t none

variable {doing : Option (ρ × ρ)}

omit [DecidableEq τ] in
theorem Placed.congr (placed : Placed m k t doing) (stages : stage m (k'.pc (.base t)) = stage m (k.pc (.base t)))
    (holds : t ∈ k'.holders (.mutex m) ↔ t ∈ k.holders (.mutex m)) : Placed m k' t doing := by
  cases placed with
  | waiting r absent at_ => exact .waiting r (fun mine => absent (holds.mp mine)) (stages.trans at_)
  | arriving r mine at_ => exact .arriving r (holds.mpr mine) (stages.trans at_)
  | working r r' mine at_ => exact .working r r' (holds.mpr mine) (stages.trans at_)
  | giving mine at_ => exact .giving (holds.mpr mine) (stages.trans at_)
  | leaving absent at_ => exact .leaving (fun mine => absent (holds.mp mine)) (stages.trans at_)
  | away absent at_ => exact .away (fun mine => absent (holds.mp mine)) (stages.trans at_)

omit [DecidableEq τ] in
theorem Placed.turn (placed : Placed m k t doing) (turn : Turn m k k' t) : Placed m k' t doing := by
  cases turn with
  | still stages holds => exact placed.congr stages holds
  | takes before after free holds =>
    cases placed with
    | waiting r absent at_ => exact .arriving r holds after
    | arriving r mine at_ => cases at_.symm.trans before
    | working r r' mine at_ => cases at_.symm.trans before
    | giving mine at_ => cases at_.symm.trans before
    | leaving absent at_ => cases at_.symm.trans before
    | away absent at_ => cases at_.symm.trans before
  | gives before after free =>
    cases placed with
    | waiting r absent at_ => cases at_.symm.trans before
    | arriving r mine at_ => cases at_.symm.trans before
    | working r r' mine at_ => cases at_.symm.trans before
    | giving mine at_ => exact .leaving free after
    | leaving absent at_ => cases at_.symm.trans before
    | away absent at_ => cases at_.symm.trans before
  | leaves before after holds =>
    cases placed with
    | waiting r absent at_ => cases at_.symm.trans before
    | arriving r mine at_ => exact .working r r (holds.mpr mine) after
    | working r r' mine at_ => cases at_.symm.trans before
    | giving mine at_ => cases at_.symm.trans before
    | leaving absent at_ => exact .away (fun mine => absent (holds.mp mine)) after
    | away absent at_ => cases at_.symm.trans before

omit [DecidableEq τ] in
/-- A thread that runs its own code has the mutex if and only if it has code to run under it. -/
theorem Placed.client (placed : Placed m k t doing) (client : k.pc (.base t) = .client) :
    t ∈ k.holders (.mutex m) ↔ doing ≠ none := by
  have away : stage m (k.pc (.base t)) = .away := by rw [client]; rfl
  cases placed with
  | waiting r absent at_ => cases at_.symm.trans away
  | arriving r mine at_ => cases at_.symm.trans away
  | working r r' mine at_ => exact iff_of_true mine (Option.some_ne_none _)
  | giving mine at_ => cases at_.symm.trans away
  | leaving absent at_ => cases at_.symm.trans away
  | away absent at_ => exact iff_of_false absent (fun some_ => some_ rfl)

/-! The object's history. -/

/-- The calls of one thread. -/
def ofThread (t : τ) (history : List (τ × ρ)) : List ρ := (history.filter fun p => p.1 = t).map Prod.snd

theorem ofThread_self (t : τ) (history : List (τ × ρ)) (r : ρ) : ofThread t (history ++ [(t, r)]) = ofThread t history ++ [r] := by
  simp [ofThread]

theorem ofThread_other {t u : τ} (other : u ≠ t) (history : List (τ × ρ)) (r : ρ) :
    ofThread t (history ++ [(u, r)]) = ofThread t history := by
  simp [ofThread, other]

/-- `before` is what the finished pieces of code have made of the object. -/
structure Sound (code : Code α ρ) (m : κ) (start before : α) (g : Shared κ ι τ α ρ) : Prop where
  history : History code start g.log before
  apart : (∀ t, g.doing t ≠ none → t ∉ g.kernel.holders (.mutex m)) → g.object = before
  part : ∀ t r r', g.doing t = some (r, r') → t ∈ g.kernel.holders (.mutex m) → Part code r before r' g.object
  placed : ∀ t, Placed m g.kernel t (g.doing t)
  order : ∀ t, ofThread t g.called = ofThread t g.log ++ ((g.doing t).map Prod.fst).toList

variable {code : Code α ρ} {start before : α} {g g' : Shared κ ι τ α ρ}

omit [DecidableEq κ] [DecidableEq ι] [DecidableEq τ] in
/-- The mutex is held by one thread at most. -/
theorem alone {u : τ} (owned : Owned k) (mine : t ∈ k.holders (.mutex m)) (other : u ∈ k.holders (.mutex m)) : u = t :=
  Option.some.inj ((owned.owner other).symm.trans (owned.owner mine))

/-- The threads move, the object does not. -/
theorem Sound.turn (sound : Sound code m start before g) (turns : ∀ t, Turn m g.kernel k' t) :
    Sound code m start before { g with kernel := k' } := by
  refine ⟨sound.history, ?_, ?_, fun t => (sound.placed t).turn (turns t), sound.order⟩
  · intro nobody
    apply sound.apart
    intro t doing mine
    have kept : t ∉ k'.holders (.mutex m) := nobody t doing
    cases turns t with
    | still stages holds => exact kept (holds.mpr mine)
    | takes entering taken free holds => exact kept holds
    | gives giving given free =>
      have placed := sound.placed t
      generalize g.doing t = code' at doing placed
      cases placed with
      | waiting r absent at_ => exact absent mine
      | arriving r mine at_ => cases at_.symm.trans giving
      | working r r' mine at_ => cases at_.symm.trans giving
      | giving mine at_ => exact doing rfl
      | leaving absent at_ => exact doing rfl
      | away absent at_ => exact doing rfl
    | leaves leaving left holds => exact kept (holds.mpr mine)
  · intro t r r' doing mine
    have mine : t ∈ k'.holders (.mutex m) := mine
    cases turns t with
    | still stages holds => exact sound.part t r r' doing (holds.mp mine)
    | takes entering taken free holds =>
      have absent : ∀ u, u ∉ g.kernel.holders (.mutex m) := by
        intro u member
        rw [free] at member
        exact List.not_mem_nil member
      have object : g.object = before := sound.apart fun u _ => absent u
      have placed := sound.placed t
      rw [doing] at placed
      cases placed with
      | waiting r absent at_ =>
        rw [← object]
        exact .start
      | arriving r mine at_ => exact absurd mine (absent t)
      | working r r' mine at_ => exact absurd mine (absent t)
    | gives giving given free => exact absurd mine free
    | leaves leaving left holds => exact sound.part t r r' doing (holds.mp mine)

/-- What a call of a lock function does before it returns for the first time. -/
theorem enter_effect {c : Call κ ι} (moved : Sync.step k (.enter c) = some k') :
    k.pc (.base k.sched.current) = .client ∧ k'.holders = k.holders ∧
      k'.pc = Function.update k.pc (.base k.sched.current) (.xchg c) := by
  simp only [Sync.step] at moved
  split_ifs at moved with ready
  cases moved
  exact ⟨ready.1, rfl, rfl⟩

/-- The threads that do not make the call stay where they are. -/
theorem Placed.bystander {c : Call κ ι} (placed : Placed m k t doing) (other : t ≠ k.sched.current)
    (moved : Sync.step k (.enter c) = some k') : Placed m k' t doing := by
  obtain ⟨-, holders, pc⟩ := enter_effect moved
  apply placed.congr
  · rw [pc, Function.update_of_ne (fun same => other (Frame.base.inj same))]
  · rw [holders]

theorem Sound.call {r : ρ} (sound : Sound code m start before g) (idle : g.doing g.kernel.sched.current = none)
    (moved : Sync.step g.kernel (.enter (mutexLock m)) = some k') :
    Sound code m start before { g with
      kernel := k', doing := Function.update g.doing g.kernel.sched.current (some (r, r)),
      called := g.called ++ [(g.kernel.sched.current, r)] } := by
  obtain ⟨client, holders, pc⟩ := enter_effect moved
  have absent : g.kernel.sched.current ∉ k'.holders (.mutex m) := by
    rw [holders]
    exact fun mine => (sound.placed _).client client |>.mp mine idle
  refine ⟨sound.history, ?_, ?_, ?_, ?_⟩
  · intro nobody
    apply sound.apart
    intro t doing mine
    have other : t ≠ g.kernel.sched.current := by
      intro same
      rw [same] at doing
      exact doing idle
    apply nobody t
    · show Function.update g.doing _ _ t ≠ none
      rwa [Function.update_of_ne other]
    · show t ∈ k'.holders (.mutex m)
      rwa [holders]
  · intro t r r' doing mine
    have other : t ≠ g.kernel.sched.current := fun same => absent (same ▸ mine)
    have doing : Function.update g.doing _ _ t = some (r, r') := doing
    rw [Function.update_of_ne other] at doing
    have mine : t ∈ k'.holders (.mutex m) := mine
    rw [holders] at mine
    exact sound.part t r r' doing mine
  · intro t
    show Placed m k' t (Function.update g.doing _ _ t)
    by_cases same : t = g.kernel.sched.current
    · subst same
      rw [Function.update_self]
      apply Placed.waiting r absent
      rw [pc, Function.update_self]
      exact if_pos rfl
    · rw [Function.update_of_ne same]
      exact (sound.placed t).bystander same moved
  · intro t
    show ofThread t (g.called ++ _) = ofThread t g.log ++ ((Function.update g.doing _ _ t).map Prod.fst).toList
    by_cases same : t = g.kernel.sched.current
    · subst same
      have order := sound.order g.kernel.sched.current
      rw [idle, Option.map_none, Option.toList_none, List.append_nil] at order
      rw [Function.update_self, ofThread_self, order]
      rfl
    · rw [Function.update_of_ne same, ofThread_other (Ne.symm same), sound.order t]

theorem Sound.act {first now next : ρ} {a : α} (sound : Sound code m start before g) (owned : Owned g.kernel)
    (client : g.kernel.pc (.base g.kernel.sched.current) = .client)
    (doing : g.doing g.kernel.sched.current = some (first, now)) (unfinished : code.done now = false)
    (acted : code.act now g.object = some (next, a)) :
    Sound code m start before { g with
      object := a, doing := Function.update g.doing g.kernel.sched.current (some (first, next)) } := by
  have mine : g.kernel.sched.current ∈ g.kernel.holders (.mutex m) := by
    apply (sound.placed _).client client |>.mpr
    rw [doing]
    exact Option.some_ne_none _
  refine ⟨sound.history, ?_, ?_, ?_, ?_⟩
  · intro nobody
    apply absurd mine
    apply nobody
    show Function.update g.doing _ _ _ ≠ none
    rw [Function.update_self]
    exact Option.some_ne_none _
  · intro t r r' running other
    have same := alone owned mine other
    subst same
    have running : Function.update g.doing _ _ _ = some (r, r') := running
    rw [Function.update_self] at running
    cases running
    exact .more (sound.part _ _ _ doing mine) unfinished acted
  · intro t
    show Placed m g.kernel t (Function.update g.doing _ _ t)
    by_cases same : t = g.kernel.sched.current
    · subst same
      rw [Function.update_self]
      apply Placed.working first next mine
      rw [client]
      rfl
    · rw [Function.update_of_ne same]
      exact sound.placed t
  · intro t
    show ofThread t g.called = ofThread t g.log ++ ((Function.update g.doing _ _ t).map Prod.fst).toList
    rw [sound.order t]
    by_cases same : t = g.kernel.sched.current
    · subst same
      rw [Function.update_self, doing]
      rfl
    · rw [Function.update_of_ne same]

theorem Sound.finish {first now : ρ} (sound : Sound code m start before g) (owned : Owned g.kernel)
    (doing : g.doing g.kernel.sched.current = some (first, now)) (finished : code.done now = true)
    (moved : Sync.step g.kernel (.enter (mutexUnlock m)) = some k') :
    Sound code m start g.object { g with
      kernel := k', doing := Function.update g.doing g.kernel.sched.current none,
      log := g.log ++ [(g.kernel.sched.current, first)] } := by
  obtain ⟨client, holders, pc⟩ := enter_effect moved
  have mine : g.kernel.sched.current ∈ g.kernel.holders (.mutex m) := by
    apply (sound.placed _).client client |>.mpr
    rw [doing]
    exact Option.some_ne_none _
  refine ⟨.snoc sound.history ⟨now, finished, sound.part _ _ _ doing mine⟩, fun _ => rfl, ?_, ?_, ?_⟩
  · intro t r r' running other
    have other : t ∈ k'.holders (.mutex m) := other
    rw [holders] at other
    have same := alone owned mine other
    subst same
    have running : Function.update g.doing _ _ _ = some (r, r') := running
    rw [Function.update_self] at running
    cases running
  · intro t
    show Placed m k' t (Function.update g.doing _ _ t)
    by_cases same : t = g.kernel.sched.current
    · subst same
      rw [Function.update_self]
      apply Placed.giving
      · rwa [holders]
      · rw [pc, Function.update_self]
        exact if_pos rfl
    · rw [Function.update_of_ne same]
      exact (sound.placed t).bystander same moved
  · intro t
    show ofThread t g.called = ofThread t (g.log ++ _) ++ ((Function.update g.doing _ _ t).map Prod.fst).toList
    by_cases same : t = g.kernel.sched.current
    · subst same
      rw [Function.update_self, ofThread_self, sound.order, doing]
      exact (List.append_nil _).symm
    · rw [Function.update_of_ne same, ofThread_other (Ne.symm same), sound.order t]

/-- Nobody has called for the mutex yet. -/
structure Begun (g : Shared κ ι τ α ρ) : Prop where
  kernel : Start g.kernel
  idle : ∀ t, g.doing t = none
  fresh : g.called = [] ∧ g.log = []

theorem Begun.sound (begun : Begun g) : Sound code m g.object g.object g := by
  have free : g.kernel.holders (.mutex m) = [] := begun.kernel.fresh.2 _
  have absent : ∀ t, t ∉ g.kernel.holders (.mutex m) := by
    intro t member
    rw [free] at member
    exact List.not_mem_nil member
  refine ⟨?_, fun _ => rfl, ?_, ?_, ?_⟩
  · rw [begun.fresh.2]
    exact .nil
  · intro t r r' doing
    rw [begun.idle] at doing
    cases doing
  · intro t
    rw [begun.idle]
    apply Placed.away (absent t)
    rw [begun.kernel.outside]
    rfl
  · intro t
    rw [begun.fresh.1, begun.fresh.2, begun.idle]
    rfl

/-- One step, of the threads, the timer, a disk or the code under the mutex. -/
theorem Sound.step {e : Event κ ι ρ} (sound : Sound code m start before g) (inv : SyncInvariant.Inv g.kernel queue)
    (owned : Owned g.kernel) (permitted : Permitted m g e) (moved : step code m g e = some g') :
    (∃ queue, SyncInvariant.Inv g'.kernel queue) ∧ Owned g'.kernel ∧ ∃ after, Sound code m start after g' := by
  cases e with
  | lock e =>
    obtain ⟨k', stepped, rfl⟩ := Option.map_eq_some_iff.mp moved
    exact ⟨inv.step stepped, owned.step inv permitted.1 stepped, before,
      sound.turn fun t => Turn.step owned inv permitted.2 stepped⟩
  | call r =>
    simp only [Guarded.step] at moved
    split_ifs at moved with idle
    obtain ⟨k', entered, rfl⟩ := Option.map_eq_some_iff.mp moved
    have idle := Option.isNone_iff_eq_none.mp idle
    obtain ⟨client, -, -⟩ := enter_effect entered
    have locking : Locking g.kernel (.enter (mutexLock m)) := fun mine => (sound.placed _).client client |>.mp mine idle
    exact ⟨inv.step entered, owned.step inv locking entered, before, sound.call idle entered⟩
  | act =>
    simp only [Guarded.step] at moved
    split_ifs at moved with outside
    obtain ⟨⟨first, now⟩, doing, moved⟩ := Option.bind_eq_some_iff.mp moved
    cases finished : code.done now with
    | true => simp [finished] at moved
    | false =>
      simp only [finished] at moved
      obtain ⟨⟨next, a⟩, acted, rfl⟩ := Option.map_eq_some_iff.mp moved
      exact ⟨⟨queue, inv⟩, owned, before, sound.act owned outside.1 doing finished acted⟩
  | finish =>
    simp only [Guarded.step] at moved
    obtain ⟨⟨first, now⟩, doing, moved⟩ := Option.bind_eq_some_iff.mp moved
    split_ifs at moved with finished
    obtain ⟨k', entered, rfl⟩ := Option.map_eq_some_iff.mp moved
    obtain ⟨client, -, -⟩ := enter_effect entered
    have locking : Locking g.kernel (.enter (mutexUnlock m)) := by
      apply (sound.placed _).client client |>.mpr
      rw [doing]
      exact Option.some_ne_none _
    exact ⟨inv.step entered, owned.step inv locking entered, g.object, sound.finish owned doing finished entered⟩

/-- A run keeps the object's history serial. -/
theorem reach_sound (begun : Begun g) (run : Reach (step code m) (Permitted m) g g') :
    (∃ queue, SyncInvariant.Inv g'.kernel queue) ∧ Owned g'.kernel ∧ ∃ before, Sound code m g.object before g' := by
  have kept : ∀ (h : Shared κ ι τ α ρ) e h',
      ((∃ queue, SyncInvariant.Inv h.kernel queue) ∧ Owned h.kernel ∧ ∃ before, Sound code m g.object before h) →
      Permitted m h e → step code m h e = some h' →
      (∃ queue, SyncInvariant.Inv h'.kernel queue) ∧ Owned h'.kernel ∧ ∃ before, Sound code m g.object before h' := by
    intro h e h' good permitted moved
    obtain ⟨⟨queue, inv⟩, owned, before, sound⟩ := good
    exact sound.step inv owned permitted moved
  exact Reach.invariant kept ⟨⟨_, begun.kernel.inv⟩, Mutex.Start.owned begun.kernel, g.object, begun.sound⟩ run

/-- The object is where the finished pieces of code have brought it, one whole piece after the other, or a part of
the piece further that the mutex's owner is in; and what a thread has called for is done once, in its order. -/
theorem Sound.serial (sound : Sound code m start before g) (owned : Owned g.kernel) :
    History code start g.log before ∧
      (g.object = before ∨ ∃ t r r', g.doing t = some (r, r') ∧ g.kernel.owner m = some t ∧ Part code r before r' g.object) ∧
      ∀ t, ofThread t g.called = ofThread t g.log ++ ((g.doing t).map Prod.fst).toList := by
  refine ⟨sound.history, ?_, sound.order⟩
  by_cases nobody : ∀ t, g.doing t ≠ none → t ∉ g.kernel.holders (.mutex m)
  · exact .inl (sound.apart nobody)
  · right
    obtain ⟨t, somebody⟩ := not_forall.mp nobody
    obtain ⟨doing, mine⟩ := Classical.not_imp.mp somebody
    have mine := not_not.mp mine
    obtain ⟨p, running⟩ := Option.ne_none_iff_exists'.mp doing
    exact ⟨t, p.1, p.2, running, owned.owner mine, sound.part t p.1 p.2 running mine⟩

/-- In every run, whatever the code: one history of whole pieces of code, at most one piece under way, and that of the
owner, and no call lost, repeated or out of its thread's order. -/
theorem reach_serial (begun : Begun g) (run : Reach (step code m) (Permitted m) g g') :
    ∃ before, History code g.object g'.log before ∧
      (g'.object = before ∨
        ∃ t r r', g'.doing t = some (r, r') ∧ g'.kernel.owner m = some t ∧ Part code r before r' g'.object) ∧
      ∀ t, ofThread t g'.called = ofThread t g'.log ++ ((g'.doing t).map Prod.fst).toList := by
  obtain ⟨-, owned, before, sound⟩ := reach_sound begun run
  exact ⟨before, sound.serial owned⟩

/-! Threads 0 and 2 and a list that each of them appends to. -/

def pairList : Shared Unit Unit Nat (List Nat) (List Nat) :=
  { kernel := pair 0, object := [], doing := fun _ => none, called := [], log := [] }

def append : Code (List Nat) (List Nat) := writer fun list x => some (list ++ [x])

/-- Thread 0 is preempted between its two accesses, and thread 2 waits. -/
def exchange : List (Event Unit Unit (List Nat)) :=
  .call [1, 2] :: List.replicate 4 (.lock .exec) ++ .act :: .lock .tick :: .call [3] ::
    List.replicate 5 (.lock .exec) ++ [.act, .finish]

theorem exchange_plays : (play (step append ()) (Permitted ()) pairList exchange).isSome := by
  decide +kernel

theorem exchange_serial :
    let after := (play (step append ()) (Permitted ()) pairList exchange).get exchange_plays
    ∃ before, History append [] after.log before ∧
      (after.object = before ∨
        ∃ t r r', after.doing t = some (r, r') ∧ after.kernel.owner () = some t ∧ Part append r before r' after.object) ∧
      ∀ t, ofThread t after.called = ofThread t after.log ++ ((after.doing t).map Prod.fst).toList :=
  reach_serial ⟨pair_start 0, fun _ => rfl, rfl, rfl⟩ (reach_of_play (Option.some_get exchange_plays).symm)

end KOS.Guarded
