import KOS.PageAlloc
import KOS.Boot

/-! Threads on pages of the pool: `kthread_create` allocates the page of a PCB and its stack,
and `kthread_exit` frees it while the thread still executes on it. A thread is the virtual
page of its `task_struct`; page 0 is what `kthread_create` makes of a NULL. -/

namespace KOS.PcbPages
open KOS.DoublyLinked KOS.KernelList KOS.Sched KOS.PageBitmap KOS.Paging KOS.PageWiring KOS.PageAlloc KOS.Machine NodeStore

/-- The part of `kthread_create` or `kthread_exit` that a thread is in. -/
inductive Phase where
  | normal
  | creating
  | exiting
  deriving DecidableEq

structure Sys where
  sched : SchedState Nat
  kernel : PageAlloc.Kernel Nat
  /-- `g_main_task`. -/
  main : Nat
  phase : Nat → Phase
  /-- What `kthread_create` has returned. -/
  created : List Nat

inductive Event where
  /-- The current thread calls a function of the scheduler, also from inside a contended lock. -/
  | yield
  | block (stat : TaskStatus)
  | unblock (task : Nat)
  | tick
  | run (task : Nat)
  | create
  | exit
  | malloc (vaddr pgCnt : Nat)
  | free (vaddr pgCnt : Nat)
  /-- It executes the next critical section of its call, or goes on after it. -/
  | exec
  deriving DecidableEq

def setSched (k : Sys) (s : SchedState Nat) : Sys := { k with sched := s }

def setKernel (k : Sys) (kernel : PageAlloc.Kernel Nat) : Sys := { k with kernel := kernel }

def setPhase (k : Sys) (phase : Phase) : Sys :=
  { k with phase := Function.update k.phase k.sched.current phase }

/-- The page that `page_malloc` returns at this step, 0 for NULL. -/
def result : Pc → Nat
  | .frame start n i => if i = n then start / PG_SIZE else 0
  | _ => 0

/-- `kthread_create` after its `page_malloc`: it does not look whether that failed. -/
def initTask (k : Sys) (task : Nat) : Sys :=
  { k with sched := clearTask k.sched task, created := task :: k.created }

/-- `kthread_exit` up to its `page_free`, which is left out for the main thread. -/
def startExit (k : Sys) : Sys :=
  let t := k.sched.current
  let kernel :=
    if t = k.main then k.kernel
    else { goto k.kernel t (.resolve (t * PG_SIZE) 1 0) with owned := fun u => (k.kernel.owned u).filter (· ≠ t) }
  setPhase { k with sched := leave k.sched, kernel := kernel } .exiting

def exec (k : Sys) : Option Sys :=
  let t := k.sched.current
  if k.kernel.pc t = .client then
    if k.phase t = .exiting then (schedule k.sched).map fun s => setSched (setPhase k .normal) s else none
  else
    (PageAlloc.exec k.kernel t).map fun kernel =>
      let done := setKernel k kernel
      if kernel.pc t = .client ∧ k.phase t = .creating then initTask (setPhase done .normal) (result (k.kernel.pc t))
      else done

def step (k : Sys) : Event → Option Sys
  | .yield => (kthreadYield k.sched).map (setSched k)
  | .block stat => (kthreadBlock k.sched stat).map (setSched k)
  | .unblock task => some (setSched k (kthreadUnblock k.sched task))
  -- `kthread_exit` has disabled interrupts.
  | .tick => if k.phase k.sched.current = .exiting then none else (timerHandler k.sched).map (setSched k)
  | .run task => if task ∈ k.created then some (setSched k (kthreadRun k.sched task)) else none
  | .create =>
      if k.phase k.sched.current = .normal then
        (PageAlloc.step k.kernel (.malloc k.sched.current 0 1)).map fun kernel => setPhase (setKernel k kernel) .creating
      else none
  | .exit =>
      if k.phase k.sched.current = .normal ∧ k.kernel.pc k.sched.current = .client then some (startExit k) else none
  | .malloc vaddr pgCnt =>
      if k.phase k.sched.current = .normal then
        (PageAlloc.step k.kernel (.malloc k.sched.current vaddr pgCnt)).map (setKernel k)
      else none
  | .free vaddr pgCnt =>
      if k.phase k.sched.current = .normal then
        (PageAlloc.step k.kernel (.free k.sched.current vaddr pgCnt)).map (setKernel k)
      else none
  | .exec => exec k

/-- Threads free pages that they own and that hold no PCB, and stay in the heap. -/
def Calls (k : Sys) : Event → Prop
  | .free vaddr pgCnt =>
      Permitted k.kernel (.free k.sched.current vaddr pgCnt) ∧ ∀ page ∈ span vaddr pgCnt, page ∉ k.created
  | .exec => Permitted k.kernel (.exec k.sched.current)
  | _ => True

/-- No thread but main exits, and no thread is started whose `page_malloc` failed. -/
def KeepsPcbs (k : Sys) : Event → Prop
  | .exit => k.sched.current = k.main
  | .run task => task ≠ 0
  | _ => True

instance (k : Sys) : DecidablePred (Calls k)
  | .free vaddr pgCnt => inferInstanceAs (Decidable (Permitted k.kernel (.free k.sched.current vaddr pgCnt) ∧
      ∀ page ∈ span vaddr pgCnt, page ∉ k.created))
  | .exec => inferInstanceAs (Decidable (Permitted k.kernel (.exec k.sched.current)))
  | .yield | .block _ | .unblock _ | .tick | .run _ | .create | .exit | .malloc _ _ => isTrue trivial

instance (k : Sys) : DecidablePred (KeepsPcbs k)
  | .exit => inferInstanceAs (Decidable (k.sched.current = k.main))
  | .run task => inferInstanceAs (Decidable (task ≠ 0))
  | .yield | .block _ | .unblock _ | .tick | .create | .malloc _ _ | .free _ _ | .exec => isTrue trivial

/-! Whoever a link, a status or the processor names is a thread. -/

variable {P : Nat → Prop}

/-- The links lead to nodes of threads that satisfy `P`. -/
def Closed (P : Nat → Prop) (l : Links Nat) : Prop :=
  (∀ x t, l.next x = .tag t → P t) ∧ ∀ x t, l.prev x = .tag t → P t

theorem Closed.setNext {l : Links Nat} {x v : Node Nat} (closed : Closed P l) (known : ∀ t, v = .tag t → P t) :
    Closed P (setNext l x v) := by
  refine ⟨?_, closed.2⟩
  intro y t
  rw [Sched.next_setNext]
  by_cases same : y = x
  · rw [same, Function.update_self]
    exact known t
  · rw [Function.update_of_ne same]
    exact closed.1 y t

theorem Closed.setPrev {l : Links Nat} {x v : Node Nat} (closed : Closed P l) (known : ∀ t, v = .tag t → P t) :
    Closed P (setPrev l x v) := by
  refine ⟨closed.1, ?_⟩
  intro y t
  rw [Sched.prev_setPrev]
  by_cases same : y = x
  · rw [same, Function.update_self]
    exact known t
  · rw [Function.update_of_ne same]
    exact closed.2 y t

theorem Closed.insert {l : Links Nat} {p e : Node Nat} (closed : Closed P l) (before : ∀ t, p = .tag t → P t)
    (new : ∀ t, e = .tag t → P t) : Closed P (listInsert l p e) := by
  have first : Closed P (NodeStore.setNext l (prev l p) e) := closed.setNext new
  have second := first.setPrev (x := e) (v := prev (NodeStore.setNext l (prev l p) e) p) (fun t => first.2 p t)
  exact (second.setNext (x := e) before).setPrev (x := p) new

theorem Closed.append {l : Links Nat} {t : Nat} (closed : Closed P l) (known : P t) :
    Closed P (listAppend l taskList (.tag t)) := by
  apply closed.insert
  · intro u tail
    cases tail
  · intro u same
    cases same
    exact known

theorem Closed.push {l : Links Nat} {t : Nat} (closed : Closed P l) (known : P t) :
    Closed P (listPush l taskList (.tag t)) := by
  apply closed.insert
  · exact fun u first => closed.1 _ u first
  · intro u same
    cases same
    exact known

theorem Closed.remove {l : Links Nat} {e : Node Nat} (closed : Closed P l) : Closed P (listRemove l e) := by
  have first : Closed P (NodeStore.setNext l (prev l e) (next l e)) := closed.setNext (fun t => closed.1 e t)
  exact first.setPrev (fun t => first.2 e t)

structure Known (P : Nat → Prop) (s : SchedState Nat) : Prop where
  ready : Closed P s.ready
  current : P s.current
  idle : P s.idle
  asleep : ∀ t, (s.status t).sleeping → P t

variable {s s' : SchedState Nat}

theorem Known.mono {Q : Nat → Prop} (known : Known P s) (more : ∀ t, P t → Q t) : Known Q s :=
  ⟨⟨fun x t link => more t (known.ready.1 x t link), fun x t link => more t (known.ready.2 x t link)⟩,
    more _ known.current, more _ known.idle, fun t sleeps => more t (known.asleep t sleeps)⟩

theorem Known.setStatus {t : Nat} {stat : TaskStatus} (known : Known P s) (sleeper : stat.sleeping → P t) :
    Known P (setStatus s t stat) := by
  refine ⟨known.ready, known.current, known.idle, ?_⟩
  intro u
  simp only [Sched.setStatus]
  by_cases same : u = t
  · rw [same, Function.update_self]
    exact sleeper
  · rw [Function.update_of_ne same]
    exact known.asleep u

theorem Known.appendReady {t : Nat} (known : Known P s) (member : P t) : Known P (appendReady s t) :=
  ⟨known.ready.append member, known.current, known.idle, known.asleep⟩

theorem Known.kthreadUnblock (known : Known P s) (t : Nat) : Known P (kthreadUnblock s t) := by
  unfold Sched.kthreadUnblock
  split_ifs with sleeping
  · have awake : Known P (Sched.setStatus s t .ready) := known.setStatus (by simp [TaskStatus.sleeping])
    exact ⟨awake.ready.push (known.asleep t sleeping), awake.current, awake.idle, awake.asleep⟩
  · exact known

theorem Known.schedule (known : Known P s) (ran : schedule s = some s') : Known P s' := by
  have queued : Known P (requeue s) := by
    unfold requeue
    split_ifs
    · have awake : Known P (Sched.setStatus s s.current .ready) := known.setStatus (by simp [TaskStatus.sleeping])
      have sliced : Known P (resetSlice (Sched.setStatus s s.current .ready) s.current) :=
        ⟨awake.ready, awake.current, awake.idle, awake.asleep⟩
      exact sliced.appendReady known.current
    · exact known
  have woken : Known P (wakeIdle (requeue s)) := by
    unfold wakeIdle
    split_ifs
    · exact queued.kthreadUnblock _
    · exact queued
  unfold Sched.schedule pick at ran
  generalize wakeIdle (requeue s) = r at woken ran
  split at ran
  next t links popped =>
    cases ran
    have full : ¬ listEmpty r.ready taskList = true := by
      intro empty
      rw [listPop, if_pos empty] at popped
      cases popped
    rw [listPop, if_neg full] at popped
    obtain ⟨first, rfl⟩ := Prod.mk.inj popped
    have member : P t := woken.ready.1 _ t (Option.some.inj first)
    have moved : Known P { r with ready := listRemove r.ready (next r.ready taskList.head), current := t } :=
      ⟨woken.ready.remove, member, woken.idle, woken.asleep⟩
    exact moved.setStatus (by simp [TaskStatus.sleeping])
  next => cases ran

theorem Known.kthreadYield (known : Known P s) (ran : kthreadYield s = some s') : Known P s' := by
  have awake : Known P (Sched.setStatus s s.current .ready) := known.setStatus (by simp [TaskStatus.sleeping])
  exact (awake.appendReady known.current).schedule ran

theorem Known.kthreadBlock {stat : TaskStatus} (known : Known P s) (ran : kthreadBlock s stat = some s') :
    Known P s' := by
  unfold Sched.kthreadBlock at ran
  split_ifs at ran
  · exact (known.setStatus (fun _ => known.current)).schedule ran
  · cases ran
    exact known

theorem Known.timerHandler (known : Known P s) (ran : timerHandler s = some s') : Known P s' := by
  have ticked : Known P { s with jiffies := (s.jiffies + 1) % 2 ^ 32 } :=
    ⟨known.ready, known.current, known.idle, known.asleep⟩
  unfold Sched.timerHandler at ran
  simp only at ran
  split_ifs at ran
  · exact ticked.schedule ran
  · cases ran
    exact ⟨known.ready, known.current, known.idle, known.asleep⟩

theorem Known.kthreadRun {t : Nat} (known : Known P s) (member : P t) : Known P (kthreadRun s t) := by
  have awake : Known P (Sched.setStatus s t .ready) := known.setStatus (by simp [TaskStatus.sleeping])
  exact ⟨awake.ready.append member, awake.current, awake.idle, awake.asleep⟩

theorem Known.leave (known : Known P s) : Known P (leave s) := by
  have dead : Known P (Sched.setStatus s s.current .died) := known.setStatus (by simp [TaskStatus.sleeping])
  exact ⟨dead.ready.remove, dead.current, dead.idle, dead.asleep⟩

theorem Known.clearTask {t : Nat} (known : Known P s) : Known P (clearTask s t) := by
  have none : ∀ u, (.null : Node Nat) = .tag u → P u := fun u link => nomatch link
  refine ⟨(known.ready.setPrev none).setNext none, known.current, known.idle, ?_⟩
  intro u
  simp only [Sched.clearTask]
  by_cases same : u = t
  · rw [same, Function.update_self]
    intro sleeps
    simp [TaskStatus.sleeping] at sleeps
  · rw [Function.update_of_ne same]
    exact known.asleep u

theorem Known.boot (idle main : Nat) : Known (fun t => t = main ∨ t = idle) (Boot.boot idle main) := by
  have empty : Closed (fun t => t = main ∨ t = idle) (listInit Node.null (Boot.blank main).ready taskList) := by
    constructor <;> intro x t link <;>
      simp [listInit, taskList, Boot.blank, Function.update_apply] at link <;> split_ifs at link
  have awake : ∀ t, ¬ ((Boot.blank main).status t).sleeping := by simp [Boot.blank, TaskStatus.sleeping]
  unfold Boot.boot kthreadInit
  apply Known.kthreadRun _ (.inl rfl)
  apply Known.clearTask
  have first : Known (fun t => t = main ∨ t = idle)
      (Sched.kthreadRun (Sched.clearTask { Boot.blank main with
        ready := listInit Node.null (Boot.blank main).ready taskList
        all := listInit Node.null (Boot.blank main).all taskList
        idle := idle } idle) idle) := by
    apply Known.kthreadRun _ (.inr rfl)
    apply Known.clearTask
    exact ⟨empty, .inl rfl, .inr rfl, fun t sleeps => absurd sleeps (awake t)⟩
  exact ⟨first.ready, .inl rfl, first.idle, first.asleep⟩

/-! What a critical section does to the threads. -/

variable {k k' : PageAlloc.Kernel Nat} {t : Nat}

theorem exec_moves (ran : PageAlloc.exec k t = some k') :
    (∀ u, u ≠ t → k'.pc u = k.pc u) ∧ ∀ u, k.owned u ⊆ k'.owned u := by
  have others : ∀ pc u, u ≠ t → Function.update k.pc t pc u = k.pc u := fun _ _ different =>
    Function.update_of_ne different ..
  cases PageAlloc.exec_cases ran with
  | grant start n pc =>
    refine ⟨others _, ?_⟩
    intro u page member
    simp only [goto, setOwned, Function.update_apply]
    split_ifs with same
    · exact List.mem_append_left _ (same ▸ member)
    · exact member
  | _ => exact ⟨others _, fun _ _ member => member⟩

/-- In `page_malloc` of one page. -/
def Making : Pc → Prop
  | .reserve _ n | .frame _ n _ | .add _ n _ _ => n = 1
  | _ => False

/-- A page that `kthread_create` gets is owned. -/
theorem exec_making (making : Making (k.pc t)) (ran : PageAlloc.exec k t = some k') :
    (k'.pc t = .client ∧ (result (k.pc t) ≠ 0 → result (k.pc t) ∈ k'.owned t)) ∨ Making (k'.pc t) := by
  cases PageAlloc.exec_cases ran with
  | reserve vaddr n start vp pc got =>
    rw [pc] at making ⊢
    simp only [goto, Function.update_self]
    split_ifs
    · exact .inl ⟨rfl, fun none => absurd rfl none⟩
    · exact .inr making
  | grant start n pc =>
    rw [pc] at making ⊢
    refine .inl ⟨Function.update_self .., ?_⟩
    intro _
    rw [result, if_pos rfl, show n = 1 from making]
    simp [goto, setOwned, span]
  | frame start n i paddr pp pc more got =>
    rw [pc] at making ⊢
    simp only [goto, Function.update_self]
    rw [result, if_neg more]
    by_cases failed : paddr = 0
    · rw [if_pos failed]
      exact .inl ⟨rfl, fun none => absurd rfl none⟩
    · rw [if_neg failed]
      exact .inr making
  | add start n i paddr pc =>
    rw [pc] at making
    right
    simp only [goto, Function.update_self]
    exact making
  | unmapped start n pc => simp [pc, Making] at making
  | resolve start n i pc more => simp [pc, Making] at making
  | free start n i paddr pp pc freed => simp [pc, Making] at making
  | remove start n i pc => simp [pc, Making] at making
  | unreserve start n vp pc released => simp [pc, Making] at making

/-! Every step. -/

def Member (k : Sys) (t : Nat) : Prop := t = k.main ∨ t ∈ k.created ∧ t ≠ 0

structure Inv (k : Sys) : Prop where
  alloc : PageAlloc.Inv k.kernel
  pcbs : ∀ page ∈ k.created, page ≠ 0 → ∃ t, page ∈ k.kernel.owned t
  known : Known (Member k) k.sched
  making : ∀ t, k.phase t = .creating → Making (k.kernel.pc t)

variable {s : Sys} {sched : SchedState Nat} {kernel : PageAlloc.Kernel Nat}

theorem Inv.scheduled (inv : Inv s) (known : Known (Member s) sched) : Inv (setSched s sched) :=
  ⟨inv.alloc, inv.pcbs, known, inv.making⟩

theorem setPhase_creating {phase : Phase} {u : Nat} (creating : (setPhase s phase).phase u = .creating) :
    u = s.sched.current ∧ phase = .creating ∨ u ≠ s.sched.current ∧ s.phase u = .creating := by
  by_cases same : u = s.sched.current
  · simp only [setPhase, same, Function.update_self] at creating
    exact .inl ⟨same, creating⟩
  · simp only [setPhase, Function.update_of_ne same] at creating
    exact .inr ⟨same, creating⟩

/-- The page layer moves for the current thread, which owns no less. -/
theorem Inv.paged (inv : Inv s) (alloc : PageAlloc.Inv kernel) (owned : ∀ u, s.kernel.owned u ⊆ kernel.owned u)
    (others : ∀ u, u ≠ s.sched.current → kernel.pc u = s.kernel.pc u)
    (making : s.phase s.sched.current = .creating → Making (kernel.pc s.sched.current)) : Inv (setKernel s kernel) := by
  refine ⟨alloc, ?_, inv.known, ?_⟩
  · intro page member other
    obtain ⟨u, own⟩ := inv.pcbs page member other
    exact ⟨u, owned u own⟩
  · intro u creating
    by_cases same : u = s.sched.current
    · rw [same] at creating ⊢
      exact making creating
    · have before := inv.making u creating
      rw [← others u same] at before
      exact before

theorem Inv.exec {s' : Sys} (inv : Inv s) (permitted : Permitted s.kernel (.exec s.sched.current))
    (ran : exec s = some s') : Inv s' := by
  unfold PcbPages.exec at ran
  simp only at ran
  by_cases idle : s.kernel.pc s.sched.current = .client
  · rw [if_pos idle] at ran
    by_cases exiting : s.phase s.sched.current = .exiting
    · rw [if_pos exiting] at ran
      obtain ⟨sched, picked, rfl⟩ := Option.map_eq_some_iff.mp ran
      refine ⟨inv.alloc, inv.pcbs, inv.known.schedule picked, ?_⟩
      intro u creating
      rcases setPhase_creating creating with ⟨-, no⟩ | ⟨-, before⟩
      · cases no
      · exact inv.making u before
    · rw [if_neg exiting] at ran
      cases ran
  · rw [if_neg idle] at ran
    obtain ⟨kernel, moved, rfl⟩ := Option.map_eq_some_iff.mp ran
    obtain ⟨others, owned⟩ := exec_moves moved
    have alloc : PageAlloc.Inv kernel := inv.alloc.exec permitted moved
    by_cases done : kernel.pc s.sched.current = .client ∧ s.phase s.sched.current = .creating
    · rw [if_pos done]
      obtain ⟨client, creating⟩ := done
      have got := exec_making (inv.making _ creating) moved
      rw [client] at got
      have page := (got.resolve_right id).2
      refine ⟨alloc, ?_, ?_, ?_⟩
      · intro page' member other
        rcases List.mem_cons.mp member with rfl | old
        · exact ⟨_, page other⟩
        · obtain ⟨u, own⟩ := inv.pcbs page' old other
          exact ⟨u, owned u own⟩
      · apply (inv.known.mono _).clearTask
        intro u member
        rcases member with main | ⟨created, other⟩
        · exact .inl main
        · exact .inr ⟨List.mem_cons_of_mem _ created, other⟩
      · intro u making
        rcases setPhase_creating (s := setKernel s kernel) making with ⟨-, no⟩ | ⟨other, before⟩
        · cases no
        · have shape := inv.making u before
          rw [← others u other] at shape
          exact shape
    · rw [if_neg done]
      apply inv.paged alloc owned others
      intro creating
      have got := exec_making (inv.making _ creating) moved
      exact got.resolve_left fun finished => done ⟨finished.1, creating⟩

theorem malloc_moves {u vaddr n : Nat} (ran : PageAlloc.step s.kernel (.malloc u vaddr n) = some kernel) :
    kernel = goto s.kernel u (.reserve vaddr n) := by
  simp only [PageAlloc.step] at ran
  split_ifs at ran
  exact (Option.some.inj ran).symm

theorem Inv.step {s' : Sys} {e : Event} (inv : Inv s) (calls : Calls s e) (keeps : KeepsPcbs s e)
    (ran : step s e = some s') : Inv s' := by
  cases e with
  | yield =>
    obtain ⟨sched, yielded, rfl⟩ := Option.map_eq_some_iff.mp ran
    exact inv.scheduled (inv.known.kthreadYield yielded)
  | block stat =>
    obtain ⟨sched, blocked, rfl⟩ := Option.map_eq_some_iff.mp ran
    exact inv.scheduled (inv.known.kthreadBlock blocked)
  | unblock task =>
    cases ran
    exact inv.scheduled (inv.known.kthreadUnblock task)
  | tick =>
    simp only [PcbPages.step] at ran
    split_ifs at ran
    obtain ⟨sched, ticked, rfl⟩ := Option.map_eq_some_iff.mp ran
    exact inv.scheduled (inv.known.timerHandler ticked)
  | run task =>
    simp only [PcbPages.step] at ran
    split_ifs at ran with created
    cases ran
    exact inv.scheduled (inv.known.kthreadRun (.inr ⟨created, keeps⟩))
  | create =>
    simp only [PcbPages.step] at ran
    split_ifs at ran
    obtain ⟨kernel, asked, rfl⟩ := Option.map_eq_some_iff.mp ran
    have alloc := inv.alloc.step (e := .malloc s.sched.current 0 1) trivial asked
    rw [malloc_moves asked] at alloc ⊢
    refine ⟨alloc, inv.pcbs, inv.known, ?_⟩
    intro u creating
    rcases setPhase_creating creating with ⟨rfl, -⟩ | ⟨other, before⟩
    · show Making (Function.update s.kernel.pc s.sched.current (.reserve 0 1) s.sched.current)
      rw [Function.update_self]
      exact rfl
    · have apart : u ≠ s.sched.current := other
      show Making (Function.update s.kernel.pc s.sched.current (.reserve 0 1) u)
      rw [Function.update_of_ne apart]
      exact inv.making u before
  | exit =>
    simp only [PcbPages.step] at ran
    split_ifs at ran
    cases ran
    have main : s.sched.current = s.main := keeps
    simp only [startExit, if_pos main]
    refine ⟨inv.alloc, inv.pcbs, inv.known.leave, ?_⟩
    intro u creating
    rcases setPhase_creating creating with ⟨-, no⟩ | ⟨-, before⟩
    · cases no
    · exact inv.making u before
  | malloc vaddr n =>
    simp only [PcbPages.step] at ran
    split_ifs at ran with normal
    obtain ⟨kernel, asked, rfl⟩ := Option.map_eq_some_iff.mp ran
    have alloc := inv.alloc.step (e := .malloc s.sched.current vaddr n) trivial asked
    rw [malloc_moves asked] at alloc ⊢
    apply inv.paged alloc (fun _ _ member => member)
    · exact fun u other => Function.update_of_ne other ..
    · intro creating
      rw [normal] at creating
      cases creating
  | free vaddr n =>
    simp only [PcbPages.step] at ran
    split_ifs at ran with normal
    obtain ⟨kernel, asked, rfl⟩ := Option.map_eq_some_iff.mp ran
    have alloc := inv.alloc.step calls.1 asked
    simp only [PageAlloc.step] at asked
    split_ifs at asked
    cases asked
    refine ⟨alloc, ?_, inv.known, ?_⟩
    · intro page member other
      obtain ⟨u, own⟩ := inv.pcbs page member other
      refine ⟨u, ?_⟩
      simp only [setKernel, goto, setOwned, Function.update_apply]
      by_cases same : u = s.sched.current
      · rw [if_pos same, List.mem_filter, ← same]
        exact ⟨own, decide_eq_true fun freed => calls.2 page freed member⟩
      · rw [if_neg same]
        exact own
    · intro u creating
      have other : u ≠ s.sched.current := by
        rintro rfl
        exact absurd (normal.symm.trans creating) (by decide)
      show Making (Function.update s.kernel.pc s.sched.current (.resolve vaddr n 0) u)
      rw [Function.update_of_ne other]
      exact inv.making u creating
  | exec => exact inv.exec calls ran

/-- What `mem_init` and `kthread_init` leave: the idle thread has a page of the pool, and the
main thread executes. -/
structure Start (s : Sys) : Prop where
  alloc : ∃ k, PageAlloc.Start k ∧ Reach PageAlloc.step Permitted k s.kernel
  calls : ∀ t, s.phase t = .normal
  idle : ∃ idle, s.created = [idle] ∧ idle ∈ s.kernel.owned s.main ∧ s.sched = Boot.boot idle s.main

theorem Start.inv (start : Start s) : Inv s := by
  obtain ⟨k, begun, run⟩ := start.alloc
  have alloc := PageAlloc.reach_inv begun run
  obtain ⟨idle, created, own, sched⟩ := start.idle
  have heap : InHeap idle := alloc.wiring.heap idle ⟨s.main, List.mem_append_left _ own⟩
  refine ⟨alloc, ?_, ?_, ?_⟩
  · intro page member _
    rw [created, List.mem_singleton] at member
    exact ⟨s.main, member ▸ own⟩
  · rw [sched]
    apply (Known.boot idle s.main).mono
    rintro t (main | rfl)
    · exact .inl main
    · refine .inr ⟨created ▸ List.mem_singleton_self t, ?_⟩
      rintro rfl
      exact absurd heap.1 (by decide)
  · intro t creating
    rw [start.calls] at creating
    cases creating

/-- The page of the current thread is allocated. -/
def PcbAllocated (s : Sys) : Prop :=
  Reserved s.kernel.pages.vp s.sched.current ∧ ∃ paddr, Taken s.kernel.pages.pp paddr ∧
    Maps s.kernel.pages s.sched.current paddr

def Keeps (s : Sys) (e : Event) : Prop := Calls s e ∧ KeepsPcbs s e

instance (s : Sys) : DecidablePred (Keeps s) := fun e => inferInstanceAs (Decidable (Calls s e ∧ KeepsPcbs s e))

theorem reach_pcbAllocated {s' : Sys} (start : Start s) (run : Reach step Keeps s s')
    (notMain : s'.sched.current ≠ s'.main) : PcbAllocated s' := by
  have kept : ∀ (before : Sys) e after, Inv before → Keeps before e → step before e = some after → Inv after :=
    fun before e after inv keeps moved => inv.step keeps.1 keeps.2 moved
  have inv : Inv s' := Reach.invariant kept start.inv run
  obtain ⟨created, other⟩ := inv.known.current.resolve_left notMain
  obtain ⟨t, own⟩ := inv.pcbs _ created other
  have claim : s'.sched.current ∈ claims s'.kernel t := List.mem_append_left _ own
  refine ⟨inv.alloc.wiring.reserved _ ⟨t, claim⟩, ?_⟩
  obtain ⟨paddr, taken, -, pte⟩ := inv.alloc.wiring.entries _ ⟨t, .inl own⟩
  obtain ⟨aligned, small⟩ := taken.aligned inv.alloc.wiring.sized
  refine ⟨paddr, taken, ?_⟩
  rw [Maps, pte]
  exact ⟨entry_present aligned, entry_frame aligned small⟩

/-! The main thread boots with eight frames, and starts a second thread. -/

def bootPages : List (PageAlloc.Event Nat) := .malloc 0xC009E 0 1 :: List.replicate 4 (.exec 0xC009E)

theorem bootPages_plays : (play PageAlloc.step Permitted small bootPages).isSome := by
  decide +kernel

def booted : Sys where
  sched := Boot.boot 0xC0100 0xC009E
  kernel := (play PageAlloc.step Permitted small bootPages).get bootPages_plays
  main := 0xC009E
  phase _ := .normal
  created := [0xC0100]

theorem booted_start : Start booted := by
  refine ⟨⟨small, small_start, reach_of_play (Option.some_get bootPages_plays).symm⟩, fun _ => rfl, 0xC0100, rfl, ?_, rfl⟩
  decide +kernel

def spawn : List Event := .create :: List.replicate 4 .exec ++ [.run 0xC0101, .block .blocked, .block .blocked]

def allocates : List Event := spawn ++ [.unblock 0xC009E, .malloc 0 2, .exec, .exec, .yield]

theorem allocates_plays : (play step Keeps booted allocates).isSome := by
  decide +kernel

def allocating : Sys := (play step Keeps booted allocates).get allocates_plays

theorem allocating_pcbAllocated : PcbAllocated allocating :=
  reach_pcbAllocated booted_start (reach_of_play (Option.some_get allocates_plays).symm) (by decide +kernel)

/-- The second thread exits, and its frame goes back to the pool while it executes. -/
def exits : List Event := spawn ++ [.block .blocked, .exit, .exec, .exec]

theorem exits_plays : (play step Calls booted exits).isSome := by
  decide +kernel

def exiting : Sys := (play step Calls booted exits).get exits_plays

theorem exiting_state :
    exiting.sched.current = 0xC0101 ∧ exiting.main = 0xC009E ∧ exiting.kernel.pages.pte 0xC0101 &&& 0xfffff000 = 0x201000 ∧
      exiting.kernel.pages.pp.paddrStart = 0x200000 ∧ bitmapCheck exiting.kernel.pages.pp.paddrBitmap 1 = false := by
  decide +kernel

theorem exits_unallocated :
    ¬ ∀ s s', Start s → Reach step Calls s s' → s'.sched.current ≠ s'.main → PcbAllocated s' := by
  intro allocated
  obtain ⟨current, main, frame, base, free⟩ := exiting_state
  have run : Reach step Calls booted exiting := reach_of_play (Option.some_get exits_plays).symm
  have other : exiting.sched.current ≠ exiting.main := by
    rw [current, main]
    decide
  obtain ⟨-, paddr, ⟨f, -, at_, taken⟩, -, maps⟩ := allocated booted exiting booted_start run other
  rw [current, frame] at maps
  rw [base, ← maps] at at_
  have first : f = 1 := by
    unfold PG_SIZE at at_
    omega
  rw [first, free] at taken
  cases taken

end KOS.PcbPages
