import KOS.Sync

/-! What holds in every run of `lock.c`: one frame inside each spinlock, well formed wait
lists, and on each list only threads between parking and being woken. -/

namespace KOS.SyncInvariant
open KOS.DoublyLinked KOS.KernelList KOS.Sched KOS.SchedInvariant KOS.Sync KOS.Machine

variable {κ ι τ : Type*} [DecidableEq κ] [DecidableEq ι] [DecidableEq τ]

/-- The spinlock a frame holds. -/
def holding : Pc κ ι τ → Option (Lock κ ι)
  | .test l | .take l | .park l | .drop l | .give l | .testWaiters l | .popWaiter l | .wake l _
  | .release l => some l
  | .lower s _ | .raise s _ => some (.sema s)
  | _ => none

/-- The steps of `sema_up`, the only function a handler calls. -/
def Upward : Pc κ ι τ → Prop
  | .client | .xchg (.up _) | .watch (.up _) | .yield (.up _) | .give _ | .raise _ _ | .testWaiters _
  | .popWaiter _ | .wake _ _ | .release _ => True
  | _ => False

/-- A step at which a frame is not about to block. -/
def Detached : Pc κ ι τ → Prop
  | .drop _ | .block _ => False
  | _ => True

/-- A move between such steps that takes no spinlock and no waiter. -/
structure Plain (pc pc' : Pc κ ι τ) : Prop where
  before : Detached pc
  after : Detached pc'
  unparked : ∀ l, pc' ≠ .parked l
  empty : ∀ l t, pc' ≠ .wake l t
  holds : ∀ l, holding pc' = some l → holding pc = some l
  upward : Upward pc → Upward pc'

/-- `queue l` are the threads whose waiters are linked in the list of `l`, front first. -/
structure Inv (k : Kernel κ ι τ) (queue : Lock κ ι → List τ) : Prop where
  good : Good k.sched
  started : IdleStarted k.sched
  idle : k.pc (.base k.sched.idle) = .client
  upward : ∀ t, Upward (k.pc (.handler t))
  exclusive : ∀ l f g, holding (k.pc f) = some l → holding (k.pc g) = some l → f = g
  held : ∀ l f, holding (k.pc f) = some l → k.slock l = true
  linked : ∀ l, Holds k.links (waitList l) ((queue l).map (waiterOf k.calls))
  waiting : ∀ l t, t ∈ queue l →
    k.pc (.base t) = .drop l ∨ k.pc (.base t) = .block l ∨ k.pc (.base t) = .parked l
  listed : ∀ l t, k.pc (.base t) = .drop l → t ∈ queue l
  active : ∀ f, k.pc f ≠ .client → (∀ l, k.pc f ≠ .parked l) → Active (k.sched.status f.thread)
  asleep : ∀ l t, t ∈ queue l → k.pc (.base t) = .parked l → k.sched.status t = .blocked
  waking : ∀ l t f, k.pc f = .wake l t → t ∉ queue l ∧
    (k.pc (.base t) = .block l ∨ k.pc (.base t) = .parked l ∧ k.sched.status t = .blocked)

variable {k : Kernel κ ι τ} {queue : Lock κ ι → List τ}

/-- A running thread that is past its wakeup, or never waited, is on no list. -/
theorem Inv.unlisted {t : τ} (inv : Inv k queue) (active : Active (k.sched.status t))
    (detached : Detached (k.pc (.base t))) (l : Lock κ ι) : t ∉ queue l := by
  intro member
  rcases inv.waiting l t member with dropping | blocking | parked
  · simp [dropping, Detached] at detached
  · simp [blocking, Detached] at detached
  · have blocked := inv.asleep l t member parked
    rw [blocked] at active
    exact not_active_blocked active

theorem Inv.unwoken {t : τ} (inv : Inv k queue) (active : Active (k.sched.status t))
    (detached : Detached (k.pc (.base t))) (l : Lock κ ι) (f : Frame τ) : k.pc f ≠ .wake l t := by
  intro waking
  rcases (inv.waking l t f waking).2 with blocking | ⟨-, blocked⟩
  · simp [blocking, Detached] at detached
  · rw [blocked] at active
    exact not_active_blocked active

/-- A thread waits on one list only. -/
theorem Inv.alone {t : τ} {l l' : Lock κ ι} (inv : Inv k queue) (here : t ∈ queue l)
    (there : t ∈ queue l') : l = l' := by
  have first := inv.waiting l t here
  have second := inv.waiting l' t there
  rcases first with pc | pc | pc <;> rw [pc] at second <;> simpa using second

/-! One frame moves. -/

theorem Inv.move {f : Frame τ} {pc : Pc κ ι τ} (inv : Inv k queue) (busy : f ≠ .base k.sched.idle)
    (active : Active (k.sched.status f.thread)) (plain : Plain (k.pc f) pc) : Inv (goto k f pc) queue := by
  obtain ⟨before, after, unparked, empty, holds, upward⟩ := plain
  have entered : ∀ l g, holding ((goto k f pc).pc g) = some l → holding (k.pc g) = some l := by
    intro l g
    by_cases same : g = f
    · subst same
      simpa using holds l
    · simp [goto_pc_other k pc same]
  have unlisted : ∀ t, f = .base t → ∀ l, t ∉ queue l := by
    rintro t rfl
    exact inv.unlisted active before
  have unwoken : ∀ t, f = .base t → ∀ l g, k.pc g ≠ .wake l t := by
    rintro t rfl
    exact inv.unwoken active before
  refine ⟨inv.good, inv.started, ?_, ?_, ?_, ?_, inv.linked, ?_, ?_, ?_, ?_, ?_⟩
  · exact (goto_pc_other k pc busy.symm).trans inv.idle
  · intro t
    by_cases same : .handler t = f
    · subst same
      simpa using upward (inv.upward t)
    · rw [goto_pc_other k pc same]
      exact inv.upward t
  · intro l g h first second
    exact inv.exclusive l g h (entered l g first) (entered l h second)
  · intro l g inside
    exact inv.held l g (entered l g inside)
  · intro l t member
    have other : Frame.base t ≠ f := fun same => unlisted t same.symm l member
    rw [goto_pc_other k pc other]
    exact inv.waiting l t member
  · intro l t dropping
    have other : Frame.base t ≠ f := by
      rintro rfl
      rw [goto_pc_self] at dropping
      simp [dropping, Detached] at after
    rw [goto_pc_other k pc other] at dropping
    exact inv.listed l t dropping
  · intro g inside notParked
    by_cases same : g = f
    · exact same ▸ active
    · rw [goto_pc_other k pc same] at inside notParked
      exact inv.active g inside notParked
  · intro l t member parked
    have other : Frame.base t ≠ f := fun same => unlisted t same.symm l member
    rw [goto_pc_other k pc other] at parked
    exact inv.asleep l t member parked
  · intro l t g waking
    have elsewhere : g ≠ f := by
      rintro rfl
      rw [goto_pc_self] at waking
      exact empty l t waking
    rw [goto_pc_other k pc elsewhere] at waking
    have other : Frame.base t ≠ f := fun same => unwoken t same.symm l g waking
    rw [goto_pc_other k pc other]
    exact inv.waking l t g waking

/-- The spinlock is free, so no frame holds it. -/
theorem Inv.acquire {f : Frame τ} {c : Call κ ι} (inv : Inv k queue) (pc : k.pc f = .xchg c)
    (free : k.slock c.lock = false) : Inv (goto (setSlock k c.lock true) f c.body) queue := by
  have nobody : ∀ g, holding (k.pc g) ≠ some c.lock := by
    intro g inside
    rw [inv.held _ g inside] at free
    cases free
  have body : holding (c.body : Pc κ ι τ) = some c.lock := by cases c <;> rfl
  have kind : (∃ l, c.body = (.test l : Pc κ ι τ)) ∨ ∃ l, c.body = (.give l : Pc κ ι τ) := by
    cases c with
    | down l => exact .inl ⟨l, rfl⟩
    | up l => exact .inr ⟨l, rfl⟩
  have upward : Upward (.xchg c : Pc κ ι τ) → Upward (c.body : Pc κ ι τ) := by
    cases c <;> exact id
  obtain ⟨good, started, idle, up, exclusive, held, linked, waiting, listed, active, asleep, waking⟩ := inv
  generalize (c.body : Pc κ ι τ) = pc' at *
  generalize c.lock = l at *
  constructor <;> simp only [goto, setSlock, Function.update_apply] at * <;> grind

theorem Inv.drop {l : Lock κ ι} {t : τ} (inv : Inv k queue) (pc : k.pc (.base t) = .drop l) :
    Inv (goto (setSlock k l false) (.base t) (.block l)) queue := by
  have mine : holding (k.pc (.base t)) = some l := by rw [pc]; rfl
  have free : holding (.block l : Pc κ ι τ) = none := rfl
  obtain ⟨good, started, idle, up, exclusive, held, linked, waiting, listed, active, asleep, waking⟩ := inv
  constructor <;> simp only [goto, setSlock, Function.update_apply] at * <;> grind

theorem Inv.release {f : Frame τ} {l : Lock κ ι} (inv : Inv k queue) (pc : k.pc f = .release l) :
    Inv (goto (setSlock k l false) f .client) queue := by
  have mine : holding (k.pc f) = some l := by rw [pc]; rfl
  have free : holding (.client : Pc κ ι τ) = none := rfl
  have upward : Upward (.client : Pc κ ι τ) := trivial
  obtain ⟨good, started, idle, up, exclusive, held, linked, waiting, listed, active, asleep, waking⟩ := inv
  constructor <;> simp only [goto, setSlock, Function.update_apply] at * <;> grind

/-! The wait lists share one store of links. -/

/-- Every list is well formed and holds the waiters of its queue. -/
def Linked (links : Fields (WaitNode κ ι τ)) (calls : τ → Nat) (queue : Lock κ ι → List τ) : Prop :=
  ∀ l, Holds links (waitList l) ((queue l).map (waiterOf calls))

omit [DecidableEq κ] [DecidableEq ι] [DecidableEq τ] in
theorem mem_nodes {calls : τ → Nat} {l : Lock κ ι} {threads : List τ} {z : WaitNode κ ι τ} :
    z ∈ (waitList l).head :: threads.map (waiterOf calls) ++ [(waitList l).tail] ↔
      z = .head l ∨ z = .tail l ∨ ∃ u ∈ threads, z = .waiter u (calls u) := by
  simp only [waitList, waiterOf, List.mem_append, List.mem_cons, List.mem_map, List.not_mem_nil, or_false]
  constructor
  · rintro ((head | ⟨u, member, rfl⟩) | tail)
    · exact .inl head
    · exact .inr (.inr ⟨u, member, rfl⟩)
    · exact .inr (.inl tail)
  · rintro (head | tail | ⟨u, member, rfl⟩)
    · exact .inl (.inl head)
    · exact .inr tail
    · exact .inl (.inr ⟨u, member, rfl⟩)

omit [DecidableEq κ] [DecidableEq ι] [DecidableEq τ] in
/-- The nodes of two lists are apart. -/
theorem nodes_apart {calls : τ → Nat} {l l' : Lock κ ι} {here there : List τ} (different : l ≠ l')
    (disjoint : ∀ u ∈ here, u ∉ there) {x z : WaitNode κ ι τ}
    (inside : x ∈ (waitList l).head :: here.map (waiterOf calls) ++ [(waitList l).tail])
    (outside : z ∈ (waitList l').head :: there.map (waiterOf calls) ++ [(waitList l').tail]) : x ≠ z := by
  rw [mem_nodes] at inside outside
  rintro rfl
  rcases inside with rfl | rfl | ⟨u, member, rfl⟩
  · simp [different] at outside
  · simp [different] at outside
  · obtain ⟨v, member', same⟩ : ∃ v ∈ there, (.waiter u (calls u) : WaitNode κ ι τ) = .waiter v (calls v) := by
      simpa using outside
    cases same
    exact disjoint u member member'

omit [DecidableEq κ] [DecidableEq ι] [DecidableEq τ] in
theorem fresh_node {calls : τ → Nat} {l : Lock κ ι} {threads : List τ} {t : τ} (fresh : t ∉ threads)
    {z : WaitNode κ ι τ}
    (inside : z ∈ (waitList l).head :: threads.map (waiterOf calls) ++ [(waitList l).tail]) :
    waiterOf calls t ≠ z := by
  rw [mem_nodes] at inside
  rintro rfl
  rcases inside with same | same | ⟨u, member, same⟩
  · cases same
  · cases same
  · cases same
    exact fresh member

theorem Linked.append {links : Fields (WaitNode κ ι τ)} {calls : τ → Nat} {queue : Lock κ ι → List τ}
    {l : Lock κ ι} {t : τ} (linked : Linked links calls queue) (fresh : ∀ l, t ∉ queue l)
    (alone : ∀ l l' u, u ∈ queue l → u ∈ queue l' → l = l') :
    Linked (listAppend links (waitList l) (waiterOf calls t)) calls
      (Function.update queue l (queue l ++ [t])) := by
  intro l'
  by_cases same : l' = l
  · subst same
    rw [Function.update_self, List.map_append]
    exact listAppend_holds (linked l') trivial (fun z inside => fresh_node (fresh l') inside)
  · rw [Function.update_of_ne same]
    apply Threaded.transport (linked l')
    intro z outside
    apply listAppend_away (linked l) (fresh_node (fresh l') outside)
    intro x inside
    refine nodes_apart (Ne.symm same) ?_ inside outside
    intro u here there
    exact same (alone l' l u there here)

theorem Linked.pop {links : Fields (WaitNode κ ι τ)} {calls : τ → Nat} {queue : Lock κ ι → List τ}
    {l : Lock κ ι} {u : τ} {rest : List τ} (linked : Linked links calls queue) (front : queue l = u :: rest)
    (alone : ∀ l l' u, u ∈ queue l → u ∈ queue l' → l = l') :
    listPop links (waitList l) = (some (waiterOf calls u), listRemove links (waiterOf calls u)) ∧
      Linked (listRemove links (waiterOf calls u)) calls (Function.update queue l rest) := by
  have holds := linked l
  rw [front, List.map_cons] at holds
  obtain ⟨popped, left⟩ := listPop_holds holds Fields.not_apart_self
  refine ⟨popped, ?_⟩
  intro l'
  by_cases same : l' = l
  · subst same
    rw [Function.update_self]
    exact left
  · rw [Function.update_of_ne same]
    apply Threaded.transport (linked l')
    intro z outside
    have front' : Holds links (waitList l) ([] ++ waiterOf calls u :: rest.map (waiterOf calls)) := holds
    apply listRemove_away front'
    intro x inside
    rw [List.nil_append, ← List.map_cons, ← front] at inside
    refine nodes_apart (Ne.symm same) ?_ inside outside
    intro v here there
    exact same (alone l' l v there here)

theorem Linked.empty_iff {links : Fields (WaitNode κ ι τ)} {calls : τ → Nat} {queue : Lock κ ι → List τ}
    (linked : Linked links calls queue) (l : Lock κ ι) :
    listEmpty links (waitList l) = true ↔ queue l = [] := by
  rw [listEmpty_iff (linked l) Fields.not_apart_self, List.map_eq_nil_iff]

theorem Linked.nodup {links : Fields (WaitNode κ ι τ)} {calls : τ → Nat} {queue : Lock κ ι → List τ}
    (linked : Linked links calls queue) (l : Lock κ ι) : (queue l).Nodup := by
  have apart := (linked l).apart.sublist (List.sublist_append_left _ _)
  have nodes : ((queue l).map (waiterOf calls)).Nodup := (List.pairwise_cons.mp apart).2
  exact List.Nodup.of_map _ nodes

/-! The steps that change a list or a status. -/

theorem Inv.park {l : Lock κ ι} {t : τ} (inv : Inv k queue) (pc : k.pc (.base t) = .park l) :
    Inv (goto (setLinks k (listAppend k.links (waitList l) (waiterOf k.calls t))) (.base t) (.drop l))
      (Function.update queue l (queue l ++ [t])) := by
  have active : Active (k.sched.status t) := inv.active (.base t) (by simp [pc]) (by simp [pc])
  have detached : Detached (k.pc (.base t)) := by simp [pc, Detached]
  have fresh := inv.unlisted active detached
  have unwoken := inv.unwoken active detached
  have linked' : Linked (listAppend k.links (waitList l) (waiterOf k.calls t)) k.calls
      (Function.update queue l (queue l ++ [t])) :=
    Linked.append inv.linked fresh (fun l l' u => inv.alone)
  have mine : holding (k.pc (.base t)) = some l := by rw [pc]; rfl
  have still : holding (.drop l : Pc κ ι τ) = some l := rfl
  generalize listAppend k.links (waitList l) (waiterOf k.calls t) = links at *
  obtain ⟨good, started, idle, up, exclusive, held, -, waiting, listed, active, asleep, waking⟩ := inv
  refine ⟨good, started, ?_, ?_, ?_, ?_, linked', ?_, ?_, ?_, ?_, ?_⟩ <;>
    simp only [goto, setLinks, Function.update_apply] <;> grind

theorem Inv.popped {l : Lock κ ι} {u : τ} {n : Nat} {links : Fields (WaitNode κ ι τ)} (inv : Inv k queue)
    (popped : listPop k.links (waitList l) = (some (.waiter u n), links)) :
    ∃ rest, queue l = u :: rest ∧ links = listRemove k.links (waiterOf k.calls u) := by
  cases front : queue l with
  | nil =>
    have empty := (Linked.empty_iff inv.linked l).mpr front
    simp [listPop, empty] at popped
  | cons v rest =>
    rw [(Linked.pop inv.linked front (fun l l' u => inv.alone)).1, Prod.mk.injEq, Option.some.injEq] at popped
    obtain ⟨same, rfl⟩ := popped
    cases same
    exact ⟨rest, rfl, rfl⟩

theorem Inv.pop {f : Frame τ} {l : Lock κ ι} {u : τ} {rest : List τ} (inv : Inv k queue)
    (pc : k.pc f = .popWaiter l) (front : queue l = u :: rest) :
    Inv (goto (setLinks k (listRemove k.links (waiterOf k.calls u))) f (.wake l u))
      (Function.update queue l rest) := by
  obtain ⟨-, linked'⟩ := Linked.pop inv.linked front (fun l l' u => inv.alone)
  have once := List.nodup_cons.mp (front ▸ Linked.nodup inv.linked l)
  have alone : ∀ l', u ∈ queue l' → l' = l := fun l' there => inv.alone there (by simp [front])
  have mine : holding (k.pc f) = some l := by rw [pc]; rfl
  have still : holding (.wake l u : Pc κ ι τ) = some l := rfl
  have upward : Upward (.wake l u : Pc κ ι τ) := trivial
  have self := inv.waiting l u (by simp [front])
  have sleeping := inv.asleep l u (by simp [front])
  -- The popper holds the spinlock, so the waiter has dropped it.
  have dropped : k.pc (.base u) ≠ .drop l := by
    intro dropping
    have same := inv.exclusive l f (.base u) mine (by rw [dropping]; rfl)
    rw [same, dropping] at pc
    cases pc
  generalize listRemove k.links (waiterOf k.calls u) = links at *
  have shorter : ∀ l' t, t ∈ Function.update queue l rest l' → t ∈ queue l' := by
    intro l' t member
    by_cases same : l' = l
    · subst same
      rw [Function.update_self] at member
      rw [front]
      exact List.mem_cons_of_mem u member
    · rwa [Function.update_of_ne same] at member
  have gone : ∀ l', u ∉ Function.update queue l rest l' := by
    intro l' member
    have same := alone l' (shorter l' u member)
    subst same
    rw [Function.update_self] at member
    exact once.1 member
  have waking' : ∀ l' t g, Function.update k.pc f (.wake l u) g = .wake l' t → k.pc g = .wake l' t ∨
      g = f ∧ l' = l ∧ t = u := by
    intro l' t g waking
    by_cases same : g = f
    · subst same
      rw [Function.update_self] at waking
      cases waking
      exact .inr ⟨rfl, rfl, rfl⟩
    · rw [Function.update_of_ne same] at waking
      exact .inl waking
  obtain ⟨good, started, idle, up, exclusive, held, -, waiting, listed, active, asleep, waking⟩ := inv
  refine ⟨good, started, ?_, ?_, ?_, ?_, linked', ?_, ?_, ?_, ?_, ?_⟩
  case refine_9 =>
    intro l' t g carried
    rcases waking' l' t g carried with before | ⟨-, rfl, rfl⟩
    · obtain ⟨absent, where_⟩ := waking l' t g before
      refine ⟨fun member => absent (shorter l' t member), ?_⟩
      have other : Frame.base t ≠ f := by
        rintro rfl
        simp [pc] at where_
      rwa [goto_pc_other (setLinks k links) _ other]
    · refine ⟨gone l', ?_⟩
      have other : Frame.base t ≠ f := by
        rintro rfl
        simp [pc] at self
      rw [goto_pc_other (setLinks k links) _ other]
      rcases self with dropping | blocking | parked
      · exact absurd dropping dropped
      · exact .inl blocking
      · exact .inr ⟨parked, sleeping parked⟩
  all_goals
    simp only [goto, setLinks, Function.update_apply] at shorter ⊢
    clear waking' gone linked'
    grind

/-- The scheduler state changes under the frames. -/
theorem Inv.setSched {s : SchedState τ} (inv : Inv k queue) (good : Good s) (started : IdleStarted s)
    (idle : s.idle = k.sched.idle)
    (active : ∀ f, k.pc f ≠ .client → (∀ l, k.pc f ≠ .parked l) → Active (s.status f.thread))
    (asleep : ∀ l t, k.pc (.base t) = .parked l → k.sched.status t = .blocked →
      (t ∈ queue l ∨ ∃ f, k.pc f = .wake l t) → s.status t = .blocked) :
    Inv (setSched k s) queue := by
  refine ⟨good, started, ?_, inv.upward, inv.exclusive, inv.held, inv.linked, inv.waiting, inv.listed, active,
    ?_, ?_⟩
  · rw [Sync.setSched, idle]
    exact inv.idle
  · intro l t member parked
    exact asleep l t parked (inv.asleep l t member parked) (.inl member)
  · intro l t f waking
    obtain ⟨absent, where_⟩ := inv.waking l t f waking
    refine ⟨absent, where_.imp_right ?_⟩
    rintro ⟨parked, blocked⟩
    exact ⟨parked, asleep l t parked blocked (.inr ⟨f, waking⟩)⟩

/-- `kthread_unblock` of a popped waiter, once nobody carries it. -/
theorem Inv.unblock {u : τ} (inv : Inv k queue) (unlisted : ∀ l, k.pc (.base u) = .parked l → u ∉ queue l)
    (uncarried : ∀ l f, k.pc f ≠ .wake l u) : Inv (Sync.setSched k (kthreadUnblock k.sched u)) queue := by
  obtain ⟨good, started⟩ := kthreadUnblock_good u inv.good inv.started
  have others : ∀ t, t ≠ u → (kthreadUnblock k.sched u).status t = k.sched.status t := by
    intro t other
    unfold kthreadUnblock
    split_ifs
    · exact Function.update_of_ne other ..
    · rfl
  have self : Active (k.sched.status u) → Active ((kthreadUnblock k.sched u).status u) := by
    intro active
    unfold kthreadUnblock
    split_ifs
    · exact .inr (Function.update_self ..)
    · exact active
  apply inv.setSched good started
  · unfold kthreadUnblock
    split_ifs <;> rfl
  · intro f inside unparked
    have active := inv.active f inside unparked
    by_cases same : f.thread = u
    · rw [same] at active ⊢
      exact self active
    · rw [others _ same]
      exact active
  · intro l t parked blocked here
    have other : t ≠ u := by
      rintro rfl
      rcases here with member | ⟨f, waking⟩
      · exact unlisted l parked member
      · exact uncarried l f waking
    exact (others t other).trans blocked

/-- `kthread_unblock` makes the popped waiter ready if it is blocked already, and does
nothing if not. -/
theorem Inv.wake {f : Frame τ} {l : Lock κ ι} {u : τ} (inv : Inv k queue) (pc : k.pc f = .wake l u) :
    Inv (goto (Sync.setSched k (kthreadUnblock k.sched u)) f (.release l)) queue := by
  obtain ⟨absent, where_⟩ := inv.waking l u f pc
  have itself : ∀ l', k.pc (.base u) = .block l' ∨ k.pc (.base u) = .parked l' → l' = l := by
    intro l' there
    rcases where_ with here | ⟨here, -⟩ <;> simpa [here, eq_comm] using there
  have busy : f ≠ .base k.sched.idle := by
    rintro rfl
    rw [inv.idle] at pc
    cases pc
  have moved : Inv (goto k f (.release l)) queue := by
    apply inv.move busy (inv.active f (by simp [pc]) (by simp [pc]))
    rw [pc]
    constructor <;> simp [Detached, holding, Upward]
  have carrier : Frame.base u ≠ f := by
    rintro rfl
    simp [pc] at where_
  apply moved.unblock
  · intro l' parked
    rw [goto_pc_other k _ carrier] at parked
    rw [itself l' (.inr parked)]
    exact absent
  · intro l' g waking
    have other : g ≠ f := by
      rintro rfl
      simp at waking
    rw [goto_pc_other k _ other] at waking
    -- A second carrier would hold the same spinlock.
    have same := itself l' ((inv.waking l' u g waking).2.imp_right (·.1))
    subst same
    exact other (inv.exclusive l' g f (by rw [waking]; rfl) (by rw [pc]; rfl))

/-- The scheduler runs, and changes no status but the idle thread's beyond running and ready. -/
theorem Inv.reschedule {s : SchedState τ} (inv : Inv k queue) (good : Good s) (started : IdleStarted s)
    (idle : s.idle = k.sched.idle) (effect : ∀ u, u ≠ k.sched.idle → SameActivity k.sched s u)
    (kept : k.pc (.handler k.sched.idle) ≠ .client → Active (k.sched.status k.sched.idle) →
      Active (s.status k.sched.idle)) : Inv (Sync.setSched k s) queue := by
  apply inv.setSched good started idle
  · intro f inside unparked
    have active := inv.active f inside unparked
    by_cases same : f.thread = k.sched.idle
    · rw [same] at active ⊢
      apply kept _ active
      cases f with
      | base t =>
        rw [show t = k.sched.idle from same] at inside
        exact absurd inv.idle inside
      | handler t =>
        rw [show t = k.sched.idle from same] at inside
        exact inside
    · exact (effect _ same).active active
  · intro l t parked blocked _
    have busy : t ≠ k.sched.idle := by
      rintro rfl
      rw [inv.idle] at parked
      cases parked
    exact (effect t busy).blocked.mpr blocked

/-- The waiter blocks, whether it is still on the list or popped already. -/
theorem Inv.block {s : SchedState τ} {l : Lock κ ι} {t : τ} (inv : Inv k queue)
    (pc : k.pc (.base t) = .block l) (interruptible : k.pc (.handler t) = .client) (good : Good s)
    (started : IdleStarted s) (idle : s.idle = k.sched.idle)
    (effect : ∀ u, u ≠ k.sched.idle → u ≠ t → SameActivity k.sched s u)
    (kept : ∀ u, u ≠ t → Active (k.sched.status u) → Active (s.status u))
    (blocked : s.status t = .blocked) : Inv (goto (Sync.setSched k s) (.base t) (.parked l)) queue := by
  have runner : ∀ f, f ≠ .base t → k.pc f ≠ .client → Active (k.sched.status f.thread) →
      Active (s.status f.thread) := by
    intro f other inside active
    apply kept _ _ active
    intro same
    cases f with
    | base u => exact other (congrArg Frame.base same)
    | handler u =>
      rw [show u = t from same] at inside
      exact inside interruptible
  have sleeper : ∀ u l', u ≠ t → k.pc (.base u) = .parked l' → k.sched.status u = .blocked →
      s.status u = .blocked := by
    intro u l' other parked asleep
    have busy : u ≠ k.sched.idle := by
      rintro rfl
      rw [inv.idle] at parked
      cases parked
    exact (effect u busy other).blocked.mpr asleep
  have free : holding (.parked l : Pc κ ι τ) = none := rfl
  clear effect kept
  obtain ⟨-, -, idlePc, up, exclusive, held, linked, waiting, listed, active, asleep, waking⟩ := inv
  refine ⟨good, started, ?_, ?_, ?_, ?_, linked, ?_, ?_, ?_, ?_, ?_⟩
  case refine_9 =>
    intro l' u f carried
    have other : f ≠ .base t := by
      rintro rfl
      simp at carried
    rw [goto_pc_other _ _ other] at carried
    obtain ⟨absent, where_⟩ := waking l' u f carried
    refine ⟨absent, ?_⟩
    by_cases same : u = t
    · subst same
      rw [pc] at where_
      have lock : l = l' := by simpa using where_
      subst lock
      rw [goto_pc_self]
      exact .inr ⟨rfl, blocked⟩
    · rw [goto_pc_other _ _ (fun frames => same (Frame.base.inj frames))]
      exact where_.imp_right fun ⟨parked, asleep⟩ => ⟨parked, sleeper u l' same parked asleep⟩
  all_goals
    clear waking
    simp only [goto, Sync.setSched, idle, Function.update_apply]
    grind

/-! Runs. -/

/-- A step no handler takes is taken by the thread's own code, with interrupts enabled. -/
theorem Inv.own {pc : Pc κ ι τ} (inv : Inv k queue) (here : k.pc (top k) = pc) (own : ¬ Upward pc) :
    top k = .base k.sched.current ∧ k.pc (.base k.sched.current) = pc ∧ Interruptible k := by
  have calm : Interruptible k := by
    by_contra nested
    rw [top_handler nested] at here
    exact own (here ▸ inv.upward k.sched.current)
  rw [top_base calm] at here ⊢
  exact ⟨rfl, here, calm⟩

theorem Inv.busy {f : Frame τ} (inv : Inv k queue) (inside : k.pc f ≠ .client) :
    f ≠ .base k.sched.idle := by
  rintro rfl
  exact inside inv.idle

theorem Inv.running (inv : Inv k queue) : Active (k.sched.status (top k).thread) := by
  rw [top_thread]
  exact .inl inv.good.running

/-- The running frame makes a plain move. -/
theorem Inv.proceed {pc : Pc κ ι τ} (inv : Inv k queue) (inside : k.pc (top k) ≠ .client)
    (plain : Plain (k.pc (top k)) pc) : Inv (goto k (top k) pc) queue :=
  inv.move (inv.busy inside) inv.running plain

theorem Inv.clientStep {k' : Kernel κ ι τ} (inv : Inv k queue) (calm : Interruptible k)
    (ran : clientStep k = some k') : Inv k' queue := by
  unfold Sync.clientStep at ran
  split_ifs at ran with idle
  · obtain ⟨s, blocks, rfl⟩ := Option.map_eq_some_iff.mp ran
    obtain ⟨good, started, same, effect, -⟩ := kthreadBlock_result inv.good inv.started (.inl rfl) blocks
    apply inv.reschedule good started same
    · intro u other
      exact effect u other (idle ▸ other)
    · intro nested
      rw [← idle] at nested
      exact absurd calm nested
  · cases ran
    exact inv

theorem calm_of_client {k : Kernel κ ι τ} (pc : k.pc (top k) = .client) : Interruptible k := by
  by_contra nested
  rw [top_handler nested] at pc
  exact nested pc

theorem Inv.yield {s : SchedState τ} {c : Call κ ι} (inv : Inv k queue) (pc : k.pc (top k) = .yield c)
    (ran : kthreadYield k.sched = some s) : Inv (goto (Sync.setSched k s) (top k) (.watch c)) queue := by
  obtain ⟨good, started, same, effect⟩ := kthreadYield_result inv.good inv.started ran
  have later : Inv (Sync.setSched k s) queue :=
    inv.reschedule good started same effect (fun _ active => kthreadYield_active inv.good ran active)
  have plain : Plain (k.pc (top k)) (.watch c) := by
    rw [pc]
    cases c <;> constructor <;> simp [Detached, holding, Upward]
  apply later.move _ (kthreadYield_active inv.good ran inv.running) plain
  rw [Sync.setSched, same]
  exact inv.busy (by simp [pc])

/-- The queues after the next step of the running frame: it parks its thread, pops the front
waiter, or leaves them alone. -/
def queueAfter (k : Kernel κ ι τ) (queue : Lock κ ι → List τ) : Lock κ ι → List τ :=
  match k.pc (top k) with
  | .park l => Function.update queue l (queue l ++ [k.sched.current])
  | .popWaiter l => Function.update queue l (queue l).tail
  | _ => queue

/-- One step of the running frame. -/
theorem Inv.exec {k' : Kernel κ ι τ} (inv : Inv k queue) (moved : Exec k k') : Inv k' (queueAfter k queue) := by
  cases moved with
  | rest pc ran =>
    simp only [queueAfter, pc]
    exact inv.clientStep (calm_of_client pc) ran
  | spin c pc taken =>
    simp only [queueAfter, pc]
    apply inv.proceed <;> rw [pc]
    · simp
    · cases c <;> constructor <;> simp [Detached, holding, Upward]
  | acquire c pc free =>
    simp only [queueAfter, pc]
    exact inv.acquire pc free
  | watch c pc =>
    simp only [queueAfter, pc]
    apply inv.proceed <;> rw [pc]
    · simp
    · cases c <;> split_ifs <;> constructor <;> simp [Detached, holding, Upward]
  | yield c s pc ran =>
    simp only [queueAfter, pc]
    exact inv.yield pc ran
  | test l pc =>
    simp only [queueAfter, pc]
    apply inv.proceed <;> rw [pc]
    · simp
    · split_ifs <;> constructor <;> simp [Detached, holding, Upward]
  | own m pc =>
    simp only [queueAfter, pc]
    have owned : Inv (took (setOwner k m (some k.sched.current)) (.mutex m) k.sched.current) queue :=
      { inv with }
    have plain : Plain (k.pc (top k)) (.release (.mutex m)) := by
      rw [pc]
      constructor <;> simp [Detached, holding, Upward]
    exact owned.move (inv.busy (by simp [pc])) inv.running plain
  | take s pc =>
    simp only [queueAfter, pc]
    apply inv.proceed <;> rw [pc]
    · simp
    · constructor <;> simp [Detached, holding, Upward]
  | lower s value pc =>
    simp only [queueAfter, pc]
    have lowered : Inv (took (countLowered (setCount k s ((value + (2 ^ 32 - 1)) % 2 ^ 32)) s) (.sema s)
        k.sched.current) queue := { inv with }
    have plain : Plain (k.pc (top k)) (.release (.sema s)) := by
      rw [pc]
      constructor <;> simp [Detached, holding, Upward]
    exact lowered.move (inv.busy (by simp [pc])) inv.running plain
  | park l pc =>
    simp only [queueAfter, pc]
    obtain ⟨frame, here, -⟩ := inv.own pc (by simp [Upward])
    rw [frame]
    exact inv.park here
  | drop l pc =>
    simp only [queueAfter, pc]
    obtain ⟨frame, here, -⟩ := inv.own pc (by simp [Upward])
    rw [frame]
    exact inv.drop here
  | block l s pc ran =>
    simp only [queueAfter, pc]
    obtain ⟨frame, here, calm⟩ := inv.own pc (by simp [Upward])
    obtain ⟨good, started, same, effect, blocked⟩ := kthreadBlock_result inv.good inv.started (.inl rfl) ran
    have busy : k.sched.current ≠ k.sched.idle := by
      intro idle
      exact inv.busy (f := .base k.sched.current) (by simp [here]) (congrArg Frame.base idle)
    rw [frame]
    exact inv.block here calm good started same effect
      (fun u other active => kthreadBlock_active inv.good (.inl rfl) ran other active) (blocked busy)
  | retry l pc =>
    simp only [queueAfter, pc]
    obtain ⟨frame, here, -⟩ := inv.own pc (by simp [Upward])
    rw [frame]
    have plain : Plain (.parked l : Pc κ ι τ) (.xchg (.down l)) := by
      constructor <;> simp [Detached, holding, Upward]
    exact inv.move (inv.busy (by simp [here])) (.inl inv.good.running) (here ▸ plain)
  | disown m pc =>
    simp only [queueAfter, pc]
    have given : Inv (gave (setOwner k m none) (.mutex m) k.sched.current) queue := { inv with }
    have plain : Plain (k.pc (top k)) (.testWaiters (.mutex m)) := by
      rw [pc]
      constructor <;> simp [Detached, holding, Upward]
    exact given.move (inv.busy (by simp [pc])) inv.running plain
  | give s pc =>
    simp only [queueAfter, pc]
    apply inv.proceed <;> rw [pc]
    · simp
    · constructor <;> simp [Detached, holding, Upward]
  | raise s value pc =>
    simp only [queueAfter, pc]
    have raised : Inv (gave (countRaised (setCount k s ((value + 1) % 2 ^ 32)) s) (.sema s)
        k.sched.current) queue := { inv with }
    have plain : Plain (k.pc (top k)) (.testWaiters (.sema s)) := by
      rw [pc]
      constructor <;> simp [Detached, holding, Upward]
    exact raised.move (inv.busy (by simp [pc])) inv.running plain
  | testWaiters l pc =>
    simp only [queueAfter, pc]
    apply inv.proceed <;> rw [pc]
    · simp
    · split_ifs <;> constructor <;> simp [Detached, holding, Upward]
  | popWaiter l u n links pc popped =>
    simp only [queueAfter, pc]
    obtain ⟨rest, front, rfl⟩ := inv.popped popped
    rw [front, List.tail_cons]
    exact inv.pop pc front
  | wake l u pc =>
    simp only [queueAfter, pc]
    exact inv.wake pc
  | release l pc =>
    simp only [queueAfter, pc]
    exact inv.release pc

/-- A thread leaves a queue only when it is the front that is popped. -/
def Keeps (k : Kernel κ ι τ) (e : Event κ ι) (queue queue' : Lock κ ι → List τ) : Prop :=
  ∀ l t, t ∈ queue l →
    t ∈ queue' l ∨ e = .exec ∧ k.pc (top k) = .popWaiter l ∧ (queue l).head? = some t

theorem Keeps.refl (k : Kernel κ ι τ) (e : Event κ ι) (queue : Lock κ ι → List τ) : Keeps k e queue queue :=
  fun _ _ member => .inl member

theorem queueAfter_keeps (k : Kernel κ ι τ) (queue : Lock κ ι → List τ) :
    Keeps k .exec queue (queueAfter k queue) := by
  intro l t member
  cases pc : k.pc (top k) with
  | park l' =>
    have after : queueAfter k queue = Function.update queue l' (queue l' ++ [k.sched.current]) := by
      simp only [queueAfter, pc]
    rw [after]
    left
    by_cases same : l = l'
    · subst same
      rw [Function.update_self]
      exact List.mem_append_left _ member
    · rwa [Function.update_of_ne same]
  | popWaiter l' =>
    have after : queueAfter k queue = Function.update queue l' (queue l').tail := by
      simp only [queueAfter, pc]
    rw [after]
    by_cases same : l = l'
    · subst same
      rw [Function.update_self]
      cases front : queue l with
      | nil => simp [front] at member
      | cons u rest =>
        rw [front] at member
        rcases List.mem_cons.mp member with rfl | later
        · exact .inr ⟨rfl, rfl, rfl⟩
        · exact .inl later
    · rw [Function.update_of_ne same]
      exact .inl member
  | _ =>
    have after : queueAfter k queue = queue := by simp only [queueAfter, pc]
    rw [after]
    exact .inl member

/-- A thread calls a lock function. -/
theorem Inv.enter {c : Call κ ι} (inv : Inv k queue) (pc : k.pc (.base k.sched.current) = .client)
    (busy : k.sched.current ≠ k.sched.idle) :
    Inv (goto { k with calls := Function.update k.calls k.sched.current (k.calls k.sched.current + 1) }
      (.base k.sched.current) (.xchg c)) queue := by
  have active : Active (k.sched.status k.sched.current) := .inl inv.good.running
  have absent := inv.unlisted active (by rw [pc]; trivial)
  have linked : Linked k.links (Function.update k.calls k.sched.current (k.calls k.sched.current + 1)) queue := by
    intro l
    have same : (queue l).map (waiterOf (Function.update k.calls k.sched.current (k.calls k.sched.current + 1))) =
        ((queue l).map (waiterOf k.calls) : List (WaitNode κ ι τ)) := by
      apply List.map_congr_left
      intro u member
      have other : u ≠ k.sched.current := fun same => absent l (same ▸ member)
      rw [waiterOf, waiterOf, Function.update_of_ne other]
    rw [same]
    exact inv.linked l
  have called : Inv { k with calls := Function.update k.calls k.sched.current (k.calls k.sched.current + 1) }
      queue := { inv with linked := linked }
  have unwoken := inv.unwoken active (by rw [pc]; trivial)
  have free : holding (.xchg c : Pc κ ι τ) = none := rfl
  have thread : (Frame.base k.sched.current).thread = k.sched.current := rfl
  obtain ⟨good, started, idle, up, exclusive, held, -, waiting, listed, active, asleep, waking⟩ := called
  refine ⟨good, started, ?_, ?_, ?_, ?_, linked, ?_, ?_, ?_, ?_, ?_⟩ <;>
    simp only [goto, Function.update_apply] at * <;> grind

/-- A disk interrupt puts a handler on the stack of the current thread. -/
theorem Inv.irq {s : ι} (inv : Inv k queue) :
    Inv (goto k (.handler k.sched.current) (.xchg (semaUp s))) queue := by
  obtain ⟨good, started, idle, up, exclusive, held, linked, waiting, listed, active, asleep, waking⟩ := inv
  have running : Active (k.sched.status k.sched.current) := .inl good.running
  have upward : Upward (.xchg (semaUp s) : Pc κ ι τ) := trivial
  have free : holding (.xchg (semaUp s) : Pc κ ι τ) = none := rfl
  have thread : (Frame.handler k.sched.current).thread = k.sched.current := rfl
  refine ⟨good, started, ?_, ?_, ?_, ?_, linked, ?_, ?_, ?_, ?_, ?_⟩ <;>
    simp only [goto, Function.update_apply] <;> grind

theorem Inv.tick {s : SchedState τ} (inv : Inv k queue) (ran : timerHandler k.sched = some s) :
    Inv (Sync.setSched k s) queue := by
  obtain ⟨good, started, same, effect⟩ := timerHandler_result inv.good inv.started ran
  exact inv.reschedule good started same effect (fun _ active => timerHandler_active inv.good ran active)

/-- One event, with what it does to the queues. -/
theorem Inv.advance {k' : Kernel κ ι τ} {e : Event κ ι} (inv : Inv k queue) (moved : step k e = some k') :
    ∃ queue', Inv k' queue' ∧ Keeps k e queue queue' := by
  cases e with
  | exec => exact ⟨_, inv.exec (exec_cases moved), queueAfter_keeps k queue⟩
  | tick =>
    simp only [Sync.step] at moved
    split_ifs at moved
    obtain ⟨s, ran, rfl⟩ := Option.map_eq_some_iff.mp moved
    exact ⟨queue, inv.tick ran, .refl k .tick queue⟩
  | enter c =>
    simp only [Sync.step] at moved
    split_ifs at moved with ready
    cases moved
    exact ⟨queue, inv.enter ready.1 ready.2.2, .refl k (.enter c) queue⟩
  | irq s =>
    simp only [Sync.step] at moved
    split_ifs at moved with calm
    cases moved
    exact ⟨queue, inv.irq, .refl k (.irq s) queue⟩

theorem Inv.step {k' : Kernel κ ι τ} {e : Event κ ι} (inv : Inv k queue) (moved : step k e = some k') :
    ∃ queue', Inv k' queue' := by
  obtain ⟨queue', inv', -⟩ := inv.advance moved
  exact ⟨queue', inv'⟩

/-- Nobody is inside a lock function, and no handler runs. -/
structure Start (k : Kernel κ ι τ) : Prop where
  good : Good k.sched
  started : IdleStarted k.sched
  outside : ∀ f, k.pc f = .client
  free : ∀ l, k.slock l = false
  empty : ∀ l, Holds k.links (waitList l) []
  unowned : ∀ m, k.owner m = none
  fresh : (∀ s, k.lowered s = 0 ∧ k.raised s = 0) ∧ ∀ l, k.holders l = []

theorem Start.inv {k : Kernel κ ι τ} (start : Start k) : Inv k (fun _ => []) := by
  have outside := start.outside
  refine ⟨start.good, start.started, outside _, ?_, ?_, ?_, fun l => start.empty l, ?_, ?_, ?_, ?_, ?_⟩
  · intro t
    rw [outside]
    trivial
  all_goals
    intros
    simp_all [holding]

/-- Every state a run can reach satisfies the invariant. -/
theorem reach_inv {ok : Kernel κ ι τ → Event κ ι → Prop} {k k' : Kernel κ ι τ} (start : Start k)
    (run : Reach step ok k k') : ∃ queue, Inv k' queue := by
  have kept : ∀ before e after, (∃ queue, Inv before queue) → ok before e → step before e = some after →
      ∃ queue, Inv after queue := by
    rintro before e after ⟨queue, inv⟩ - moved
    exact inv.step moved
  exact Reach.invariant kept ⟨_, start.inv⟩ run

/-- Every wait list is a well formed list of waiters of threads that are inside the call that
enqueued them, and no waiter is linked twice. -/
theorem reach_waitLists {k k' : Kernel κ ι τ} (start : Start k) (run : Reach step (fun _ _ => True) k k') :
    ∃ queue : Lock κ ι → List τ,
      (∀ l, Holds k'.links (waitList l) ((queue l).map (waiterOf k'.calls))) ∧
      (∀ l, ∀ t ∈ queue l,
        k'.pc (.base t) = .drop l ∨ k'.pc (.base t) = .block l ∨ k'.pc (.base t) = .parked l) ∧
      (∀ l, (queue l).Nodup) ∧ ∀ l l' t, t ∈ queue l → t ∈ queue l' → l = l' := by
  obtain ⟨queue, inv⟩ := reach_inv start run
  refine ⟨queue, inv.linked, inv.waiting, Linked.nodup inv.linked, ?_⟩
  intro l l' t here there
  exact inv.alone here there

/-! Threads 0 and 2 with one mutex and one semaphore, thread 1 is idle. -/

def pairSched : SchedState Nat := appendReady (setStatus (quiet .blocked) 2 .ready) 2

def pair (count : Nat) : Kernel Unit Unit Nat where
  sched := pairSched
  slock _ := false
  owner _ := none
  count _ := count
  links := ⟨fun | .tail l => .head l | _ => .null, fun | .head l => .tail l | _ => .null⟩
  pc _ := .client
  calls _ := 0
  lowered _ := 0
  raised _ := 0
  holders _ := []

theorem pair_start (count : Nat) : Start (pair count) := by
  obtain ⟨queue, queued⟩ := (quiet_good .blocked (by decide) (by decide)).queued
  have good : Good pairSched := ⟨⟨_, queued.append (t := 2) (by decide)⟩, by decide, by decide⟩
  have started : IdleStarted pairSched := .inr (by decide)
  refine ⟨good, started, fun _ => rfl, fun _ => rfl, ?_, fun _ => rfl, fun _ => ⟨rfl, rfl⟩, fun _ => rfl⟩
  intro l
  refine ⟨.cons_cons ⟨rfl, rfl⟩ (.singleton _), ?_, fun _ _ => trivial⟩
  have apart : (.head l : WaitNode Unit Unit Nat) ≠ .tail l := by simp
  exact List.pairwise_pair.mpr apart

/-- Thread 0 parks on the semaphore and is preempted before it blocks. -/
def parks : List (Event Unit Unit) := .enter (semaDown ()) :: List.replicate 4 .exec ++ [.tick]

theorem parks_plays : (play step (fun _ _ => True) (pair 0) parks).isSome := by
  decide +kernel

theorem parks_waitLists :
    let after := (play step (fun _ _ => True) (pair 0) parks).get parks_plays
    ∃ queue : Lock Unit Unit → List Nat,
      (∀ l, Holds after.links (waitList l) ((queue l).map (waiterOf after.calls))) ∧
      (∀ l, ∀ t ∈ queue l,
        after.pc (.base t) = .drop l ∨ after.pc (.base t) = .block l ∨ after.pc (.base t) = .parked l) ∧
      (∀ l, (queue l).Nodup) ∧ ∀ l l' t, t ∈ queue l → t ∈ queue l' → l = l' :=
  reach_waitLists (pair_start 0) (reach_of_play (Option.some_get parks_plays).symm)

end KOS.SyncInvariant
