import KOS.LockOrder
import KOS.HeapRun

/-! The mutexes of `memory.c`: the four calls of the memory subsystem as programs of any number of
threads, with every `mutex_lock` and `mutex_unlock` where the source has it. -/

namespace KOS.MemLocks
open KOS.ByteMemory KOS.LinkMemory KOS.DoublyLinked KOS.KernelList KOS.Paging KOS.PageCalls KOS.Heap KOS.LockOrder
  KOS.Machine NodeStore

/-- `mblock` is the mutex of the descriptor at an address, `vp` and `pp` those of the pools. -/
inductive Mutex where
  | mblock (desc : Nat)
  | vp
  | pp
  | pgtable
  deriving DecidableEq

abbrev Code := Prog HeapState Mutex

def setVp (h : HeapState) (vp : VPool) : HeapState := { h with pages := { h.pages with vp := vp } }

def setPp (h : HeapState) (pp : PPool) : HeapState := { h with pages := { h.pages with pp := pp } }

/-- `page_table_add` and `page_table_remove`; a new entry shows what its frame holds. -/
def mapPage (h : HeapState) (vaddr paddr : Nat) (fresh : Memory) : HeapState :=
  let pages := pageTableAdd h.pages vaddr paddr
  Heap.setPages h pages (remap h.pages pages h.mem fresh)

def unmapPage (h : HeapState) (vaddr : Nat) : HeapState := Heap.setPages h (pageTableRemove h.pages vaddr) h.mem

/-! `page_acquire` and `page_release`; `ret` is the rest of the caller. -/

def acquireLoop (fresh : Memory) (ret : Bool → Code) : (vaddrIdx pgCnt : Nat) → Code
  | _, 0 => ret true
  | vaddrIdx, n + 1 =>
      .lock .pp <|
      .act (fun h => setPp h (palloc h.pages.pp).2) fun h =>
      let paddr := (palloc h.pages.pp).1
      .unlock .pp <|
      if paddr = 0 then ret false
      else
        .lock .pgtable <|
        .act (fun h => mapPage h vaddrIdx paddr fresh) fun _ =>
        .unlock .pgtable <|
        acquireLoop fresh ret ((vaddrIdx + PG_SIZE) % 2 ^ 32) n

def pageAcquire (fresh : Memory) (vaddr pgCnt : Nat) (ret : Nat → Code) : Code :=
  .lock .vp <|
  .act (fun h => setVp h (vaddrAcquire h.pages.vp vaddr pgCnt).2) fun h =>
  let vaddrRet := (vaddrAcquire h.pages.vp vaddr pgCnt).1
  .unlock .vp <|
  if vaddrRet = 0 then ret 0
  else acquireLoop fresh (fun mapped => ret (if mapped then vaddrRet else 0)) vaddrRet pgCnt

/-- The frame is read out of the page table before any lock is taken. -/
def releaseLoop (ret : Code) : (vaddrIdx pgCnt : Nat) → Code
  | _, 0 => ret
  | vaddrIdx, n + 1 =>
      .act id fun h =>
      let paddr := addrV2p h.pages vaddrIdx
      .lock .pp <|
      .act (fun h => setPp h ((pfree h.pages.pp paddr).getD h.pages.pp)) fun h =>
      match pfree h.pages.pp paddr with
      | none => .halt
      | some _ =>
        .unlock .pp <|
        .lock .pgtable <|
        .act (fun h => unmapPage h vaddrIdx) fun _ =>
        .unlock .pgtable <|
        releaseLoop ret ((vaddrIdx + PG_SIZE) % 2 ^ 32) n

def pageRelease (vaddr pgCnt : Nat) (ret : Code) : Code :=
  releaseLoop
    (.lock .vp <|
      .act (fun h => setVp h ((vaddrRelease h.pages.vp vaddr pgCnt).getD h.pages.vp)) fun h =>
      match vaddrRelease h.pages.vp vaddr pgCnt with
      | none => .halt
      | some _ => .unlock .vp ret)
    vaddr pgCnt

/-! `mem_acquire` and `mem_release`. -/

def initArena (h : HeapState) (a desc mblockIdx : Nat) : HeapState :=
  let m := memset h.mem a 0 PG_SIZE
  let m := setHeader m a desc (blocksPerArena m desc) false
  let m := splitArena a (blocksPerArena m desc) 0 m
  addArena (setMem h m) (a / PG_SIZE) mblockIdx

def memAcquire (mblock mblockIdx : Nat) (fresh : Memory) (ret : Code) : Code :=
  let take : Code := .act (fun h => (takeBlock h mblock mblockIdx).2) fun _ => ret
  .act id fun h =>
  if listEmpty h.mem (freeList (descAt mblock mblockIdx)) then
    pageAcquire fresh 0 1 fun a =>
      if a = 0 then ret else .act (fun h => initArena h a (descAt mblock mblockIdx) mblockIdx) fun _ => take
  else take

/-- An arena with every block free is unlinked and released. -/
def memRelease (vaddr : Nat) (ret : Code) : Code :=
  let a := block2arena vaddr
  .act (fun h => giveBlock h vaddr) fun h =>
  let h := giveBlock h vaddr
  let n := blocksPerArena h.mem (pMemBlock h.mem a)
  if cnt h.mem a = n then
    .act (fun h => setMem h (unlinkArena a n 0 h.mem)) fun _ =>
    pageRelease a 1 (.act (fun h => removeArena h (a / PG_SIZE)) fun _ => ret)
  else ret

/-! The calls. -/

/-- `enum pool_flags`, and every other value that the argument can have. -/
inductive PoolFlags where
  | PF_KERNEL
  | PF_USER
  | invalid

def pageMalloc (pf : PoolFlags) (vaddr pgCnt : Nat) (fresh : Memory) : Code :=
  match pf with
  | .PF_KERNEL => pageAcquire fresh vaddr pgCnt fun _ => .done
  | .PF_USER | .invalid => .done

def pageFree (pf : PoolFlags) (vaddr pgCnt : Nat) : Code :=
  match pf with
  | .PF_KERNEL => pageRelease vaddr pgCnt .done
  | .PF_USER | .invalid => .done

def initPages (h : HeapState) (a pgCnt : Nat) : HeapState :=
  addLarge (setMem h (setHeader (memset h.mem a 0 (pgCnt * PG_SIZE)) a 0 pgCnt true)) (a / PG_SIZE) pgCnt

def sysMalloc (mblock size : Nat) (fresh : Memory) : Code :=
  if 1024 < size then
    pageAcquire fresh 0 (pageCnt size) fun a =>
      if a = 0 then .done else .act (fun h => initPages h a (pageCnt size)) fun _ => .done
  else
    .act id fun h =>
    let mblockIdx := findClass h.mem mblock size MEM_BLOCK_CNT 0
    let mlock := Mutex.mblock (descAt mblock mblockIdx)
    .lock mlock <|
    memAcquire mblock mblockIdx fresh <|
    .unlock mlock .done

/-- The mutex is read out of the arena once: what is locked is what is unlocked. -/
def sysFree (vaddr : Nat) : Code :=
  let a := block2arena vaddr
  .act id fun h =>
  if isPageCnt h.mem a then
    pageRelease a (cnt h.mem a) (.act (fun h => removeLarge h (a / PG_SIZE)) fun _ => .done)
  else
    let mlock := Mutex.mblock (pMemBlock h.mem a)
    .lock mlock <|
    memRelease vaddr <|
    .unlock mlock .done

inductive Call where
  | pageMalloc (pf : PoolFlags) (vaddr pgCnt : Nat) (fresh : Memory)
  | pageFree (pf : PoolFlags) (vaddr pgCnt : Nat)
  | sysMalloc (size : Nat) (fresh : Memory)
  | sysFree (vaddr : Nat)

def body (mblock : Nat) : Call → Code
  | .pageMalloc pf vaddr pgCnt fresh => pageMalloc pf vaddr pgCnt fresh
  | .pageFree pf vaddr pgCnt => pageFree pf vaddr pgCnt
  | .sysMalloc size fresh => sysMalloc mblock size fresh
  | .sysFree vaddr => sysFree vaddr

/-! A call that nothing interrupts does what its sequential model does. -/

section Alone

variable (h : HeapState) (fresh : Memory)

theorem acquireLoop_run (ret : Bool → Code) (vaddrIdx n : Nat) : ∃ m, (acquireLoop fresh ret vaddrIdx n).run h =
    (ret (PageCalls.acquireLoop h.pages vaddrIdx n).1).run
      (Heap.setPages h (PageCalls.acquireLoop h.pages vaddrIdx n).2 m) := by
  induction n generalizing h vaddrIdx with
  | zero => exact ⟨h.mem, rfl⟩
  | succ n ih =>
    rw [acquireLoop, PageCalls.acquireLoop]
    simp only [Prog.run]
    by_cases null : (palloc h.pages.pp).1 = 0
    · rw [if_pos null, if_pos null]
      exact ⟨h.mem, rfl⟩
    · rw [if_neg null, if_neg null]
      exact ih _ _

theorem pageAcquire_run (ret : Nat → Code) (vaddr n : Nat) : ∃ m, (pageAcquire fresh vaddr n ret).run h =
    (ret (PageCalls.pageAcquire h.pages vaddr n).1).run
      (Heap.setPages h (PageCalls.pageAcquire h.pages vaddr n).2 m) := by
  rw [pageAcquire, PageCalls.pageAcquire]
  simp only [Prog.run]
  by_cases null : (vaddrAcquire h.pages.vp vaddr n).1 = 0
  · rw [if_pos null, if_pos null]
    exact ⟨h.mem, rfl⟩
  · rw [if_neg null, if_neg null]
    obtain ⟨m, ran⟩ := acquireLoop_run (setVp h (vaddrAcquire h.pages.vp vaddr n).2) fresh
      (fun mapped => ret (if mapped then (vaddrAcquire h.pages.vp vaddr n).1 else 0))
      (vaddrAcquire h.pages.vp vaddr n).1 n
    have split : ∀ (a : Nat) (q : Bool × Pages), (ret (if q.1 then a else 0)).run (Heap.setPages h q.2 m) =
        (ret (if q.1 then (a, q.2) else (0, q.2)).1).run
          (Heap.setPages h (if q.1 then (a, q.2) else (0, q.2)).2 m) := by
      intro a q
      cases q with
      | mk mapped pages => cases mapped <;> rfl
    exact ⟨m, ran.trans (split _ _)⟩

theorem remap_same {before after : Pages} (m : Memory) (same : after.pte = before.pte) :
    remap before after m fresh = m := by
  funext x
  rw [remap, same, if_pos rfl]

/-- One page shows exactly what its frame holds. -/
theorem pageAcquire_one_run (ret : Nat → Code) : (pageAcquire fresh 0 1 ret).run h =
    (ret (PageCalls.pageAcquire h.pages 0 1).1).run (Heap.setPages h (PageCalls.pageAcquire h.pages 0 1).2
      (remap h.pages (PageCalls.pageAcquire h.pages 0 1).2 h.mem fresh)) := by
  have unmapped : ∀ pages : Pages, pages.pte = h.pages.pte →
      (ret 0).run (Heap.setPages h pages h.mem) =
        (ret 0).run (Heap.setPages h pages (remap h.pages pages h.mem fresh)) := by
    intro pages same
    rw [remap_same fresh h.mem same]
  rw [pageAcquire, PageCalls.pageAcquire]
  simp only [Prog.run]
  by_cases null : (vaddrAcquire h.pages.vp 0 1).1 = 0
  · rw [if_pos null, if_pos null]
    exact unmapped _ rfl
  · rw [if_neg null, if_neg null, acquireLoop, PageCalls.acquireLoop]
    by_cases none : (palloc h.pages.pp).1 = 0
    · simp only [Prog.run, setVp, none, if_true, Bool.false_eq_true, if_false]
      exact unmapped _ rfl
    · simp only [Prog.run, setVp, none, if_false]
      rfl

theorem releaseLoop_run (ret : Code) (vaddrIdx n : Nat) : (releaseLoop ret vaddrIdx n).run h =
    (PageCalls.releaseLoop h.pages vaddrIdx n).bind fun pages => ret.run (Heap.setPages h pages h.mem) := by
  induction n generalizing h vaddrIdx with
  | zero => rfl
  | succ n ih =>
    rw [releaseLoop, PageCalls.releaseLoop]
    simp only [Prog.run, id]
    cases pfree h.pages.pp (addrV2p h.pages vaddrIdx) with
    | none => rfl
    | some pp => exact ih _ _

theorem pageRelease_run (ret : Code) (vaddr n : Nat) : (pageRelease vaddr n ret).run h =
    (PageCalls.pageRelease h.pages vaddr n).bind fun pages => ret.run (Heap.setPages h pages h.mem) := by
  rw [pageRelease, releaseLoop_run, PageCalls.pageRelease]
  cases PageCalls.releaseLoop h.pages vaddr n with
  | none => rfl
  | some pages =>
    simp only [Option.bind_some, Prog.run, Heap.setPages]
    cases vaddrRelease pages.vp vaddr n <;> rfl

theorem sysFree_run (vaddr : Nat) : (sysFree vaddr).run h = Heap.sysFree h vaddr := by
  rw [sysFree, Heap.sysFree]
  simp only [Prog.run, id]
  by_cases large : isPageCnt h.mem (block2arena vaddr) = true
  · rw [if_pos large, if_pos large, pageRelease_run]
    cases PageCalls.pageRelease h.pages (block2arena vaddr) (cnt h.mem (block2arena vaddr)) <;> rfl
  · rw [if_neg large, if_neg large, Heap.memRelease, dropArena]
    simp only [Prog.run, memRelease]
    generalize giveBlock h vaddr = given
    split_ifs
    · simp only [Prog.run, pageRelease_run, setMem]
      cases PageCalls.pageRelease given.pages (block2arena vaddr) 1 <;> rfl
    · rfl

theorem sysMalloc_run (mblock : Nat) {size : Nat} (little : size ≤ 1024) :
    (sysMalloc mblock size fresh).run h = some (Heap.sysMalloc h mblock size fresh).2 := by
  rw [sysMalloc, Heap.sysMalloc, if_neg (Nat.not_lt.mpr little), if_neg (Nat.not_lt.mpr little), Heap.memAcquire,
    growArena]
  simp only [Prog.run, memAcquire, id]
  by_cases empty : listEmpty h.mem (freeList (descAt mblock (findClass h.mem mblock size MEM_BLOCK_CNT 0))) = true
  · rw [if_pos empty, if_pos empty, pageAcquire_one_run]
    by_cases null : (PageCalls.pageAcquire h.pages 0 1).1 = 0
    · simp only [null, if_true]
      rfl
    · simp only [null, if_false, Prog.run, if_true, initArena, setMem, Heap.setPages]
  · rw [if_neg empty, if_neg empty]
    rfl

theorem sysMalloc_large_run (mblock : Nat) {size : Nat} (large : 1024 < size) :
    ∃ m, (sysMalloc mblock size fresh).run h = some (setMem (Heap.sysMalloc h mblock size fresh).2 m) := by
  rw [sysMalloc, Heap.sysMalloc, if_pos large, if_pos large]
  obtain ⟨m, ran⟩ := pageAcquire_run h fresh (fun a => if a = 0 then .done else
    .act (fun h => initPages h a (pageCnt size)) fun _ => .done) 0 (pageCnt size)
  rw [ran]
  by_cases null : (PageCalls.pageAcquire h.pages 0 (pageCnt size)).1 = 0
  · rw [if_pos null]
    simp only [null, if_true]
    exact ⟨m, rfl⟩
  · rw [if_neg null]
    simp only [null, if_false]
    exact ⟨_, rfl⟩

end Alone

/-! The order of the locks. -/

/-- A descriptor's mutex comes before the three of the page layer. -/
def rank : Mutex → Nat
  | .mblock _ => 0
  | .vp | .pp | .pgtable => 1

/-- No mutex of the page layer is held. -/
def Outer (held : List Mutex) : Prop := ∀ x ∈ held, rank x < 1

section Discipline

variable {held : List Mutex}

/-- A critical section of the page layer. -/
theorem section_disciplined {m : Mutex} {run : HeapState → HeapState} {next : HeapState → Code}
    (outer : Outer held) (inner : rank m = 1) (after : ∀ d, Disciplined rank (m :: held) (next d)) :
    Disciplined rank held (.lock m (.act run next)) := by
  refine ⟨?_, after⟩
  intro x member
  rw [inner]
  exact outer x member

theorem unlock_disciplined {m : Mutex} {next : Code} (after : Disciplined rank held next) :
    Disciplined rank (m :: held) (.unlock m next) := ⟨held, rfl, after⟩

theorem act_disciplined {run : HeapState → HeapState} {next : HeapState → Code}
    (after : ∀ d, Disciplined rank held (next d)) : Disciplined rank held (.act run next) := after

theorem acquireLoop_disciplined {fresh : Memory} {ret : Bool → Code} (outer : Outer held)
    (returns : ∀ mapped, Disciplined rank held (ret mapped)) (vaddrIdx n : Nat) :
    Disciplined rank held (acquireLoop fresh ret vaddrIdx n) := by
  induction n generalizing vaddrIdx with
  | zero => exact returns true
  | succ n ih =>
    apply section_disciplined outer rfl
    intro h
    apply unlock_disciplined
    split_ifs
    · exact returns false
    · apply section_disciplined outer rfl
      intro _
      apply unlock_disciplined
      exact ih _

theorem pageAcquire_disciplined {fresh : Memory} {ret : Nat → Code} (outer : Outer held)
    (returns : ∀ a, Disciplined rank held (ret a)) (vaddr n : Nat) :
    Disciplined rank held (pageAcquire fresh vaddr n ret) := by
  apply section_disciplined outer rfl
  intro h
  apply unlock_disciplined
  split_ifs
  · exact returns 0
  · exact acquireLoop_disciplined outer (fun _ => returns _) _ n

theorem releaseLoop_disciplined {ret : Code} (outer : Outer held) (returns : Disciplined rank held ret)
    (vaddrIdx n : Nat) : Disciplined rank held (releaseLoop ret vaddrIdx n) := by
  induction n generalizing vaddrIdx with
  | zero => exact returns
  | succ n ih =>
    intro before
    apply section_disciplined outer rfl
    intro h
    cases pfree h.pages.pp (addrV2p before.pages vaddrIdx) with
    | none => trivial
    | some _ =>
      apply unlock_disciplined
      apply section_disciplined outer rfl
      intro _
      apply unlock_disciplined
      exact ih _

theorem pageRelease_disciplined {ret : Code} (outer : Outer held) (returns : Disciplined rank held ret)
    (vaddr n : Nat) : Disciplined rank held (pageRelease vaddr n ret) := by
  apply releaseLoop_disciplined outer
  apply section_disciplined outer rfl
  intro h
  cases vaddrRelease h.pages.vp vaddr n with
  | none => trivial
  | some _ => exact unlock_disciplined returns

theorem memAcquire_disciplined {fresh : Memory} {ret : Code} (outer : Outer held)
    (returns : Disciplined rank held ret) (mblock mblockIdx : Nat) :
    Disciplined rank held (memAcquire mblock mblockIdx fresh ret) := by
  apply act_disciplined
  intro h
  split_ifs
  · apply pageAcquire_disciplined outer
    intro a
    split_ifs
    · exact returns
    · exact fun _ _ => returns
  · exact fun _ => returns

theorem memRelease_disciplined {ret : Code} (outer : Outer held) (returns : Disciplined rank held ret) (vaddr : Nat) :
    Disciplined rank held (memRelease vaddr ret) := by
  apply act_disciplined
  intro h
  dsimp only
  split_ifs
  · intro _
    exact pageRelease_disciplined outer (act_disciplined fun _ => returns) _ 1
  · exact returns

theorem mblock_disciplined {desc : Nat} {next : Code → Code}
    (inner : ∀ ret, Disciplined rank [.mblock desc] ret → Disciplined rank [.mblock desc] (next ret)) :
    Disciplined rank [] (.lock (.mblock desc) (next (.unlock (.mblock desc) .done))) := by
  refine ⟨fun x none => absurd none List.not_mem_nil, ?_⟩
  exact inner _ (unlock_disciplined rfl)

theorem outer_mblock (desc : Nat) : Outer [.mblock desc] := by
  intro x member
  rw [List.mem_singleton.mp member]
  exact Nat.one_pos

theorem body_disciplined (mblock : Nat) (c : Call) : Disciplined rank [] (body mblock c) := by
  have outer : Outer [] := fun x none => absurd none List.not_mem_nil
  have done : Disciplined rank [] (.done : Code) := rfl
  cases c with
  | pageMalloc pf vaddr n fresh =>
    cases pf with
    | PF_KERNEL => exact pageAcquire_disciplined outer (fun _ => done) vaddr n
    | PF_USER => exact done
    | invalid => exact done
  | pageFree pf vaddr n =>
    cases pf with
    | PF_KERNEL => exact pageRelease_disciplined outer done vaddr n
    | PF_USER => exact done
    | invalid => exact done
  | sysMalloc size fresh =>
    rw [body, sysMalloc]
    split_ifs
    · apply pageAcquire_disciplined outer
      intro a
      split_ifs
      · exact done
      · exact fun _ => done
    · intro h
      exact mblock_disciplined fun ret returns => memAcquire_disciplined (outer_mblock _) returns mblock _
  | sysFree vaddr =>
    apply act_disciplined
    intro h
    split_ifs
    · exact pageRelease_disciplined outer (act_disciplined fun _ => done) _ _
    · exact mblock_disciplined fun ret returns => memRelease_disciplined (outer_mblock _) returns vaddr

end Discipline

/-! Runs. -/

section Run

variable {τ : Type*} [DecidableEq τ] {s s' : State HeapState Mutex τ}

/-- However the threads interleave: at most one mutex of a descriptor is owned by a thread, and at
most one of the page layer; the first is requested by nobody who owns a mutex; no threads wait in a circle. -/
theorem reach_ordered (mblock : Nat) (start : LockOrder.Start s)
    (run : Reach (step (body mblock)) (fun _ _ => True) s s') :
    (∀ t desc desc', s'.owner (.mblock desc) = some t → s'.owner (.mblock desc') = some t → desc = desc') ∧
      (∀ t m m', s'.owner m = some t → s'.owner m' = some t → rank m = 1 → rank m' = 1 → m = m') ∧
      (∀ t desc next, s'.prog t = .lock (.mblock desc) next → ∀ m, s'.owner m ≠ some t) ∧
      ∀ t, ¬Relation.TransGen (Waits s') t t := by
  obtain ⟨held, holds⟩ := reach_holds (body_disciplined mblock) start run
  refine ⟨?_, ?_, ?_, holds.no_cycle⟩
  · intro t desc desc' first second
    exact Mutex.mblock.inj (holds.one_of_rank first second rfl)
  · intro t m m' first second inner inner'
    exact holds.one_of_rank first second (inner.trans inner'.symm)
  · intro t desc next requests m owns
    exact absurd (holds.above requests owns) (Nat.not_lt_zero _)

/-- Thread 0 refills a class, under its mutex; thread 1 asks for a page and finds the pool locked. -/
def refills : List (Event Nat Call) :=
  [.call 0 (.sysMalloc 16 fun _ => 0), .exec 0, .exec 0, .exec 0, .exec 0, .call 1 (.pageMalloc .PF_KERNEL 0 1 fun _ => 0)]

def idle : State HeapState Mutex Nat := ⟨HeapRun.booted.heap, fun _ => none, fun _ => .done⟩

theorem refills_plays : (play (step (body HeapRun.kMemBlock)) (fun _ _ => True) idle refills).isSome := by
  decide +kernel

def contended : State HeapState Mutex Nat :=
  (play (step (body HeapRun.kMemBlock)) (fun _ _ => True) idle refills).get refills_plays

theorem contended_ordered :
    (contended.owner (.mblock HeapRun.kMemBlock) = some 0 ∧ contended.owner .vp = some 0) ∧
    (∀ t desc desc', contended.owner (.mblock desc) = some t → contended.owner (.mblock desc') = some t → desc = desc') ∧
      (∀ t m m', contended.owner m = some t → contended.owner m' = some t → rank m = 1 → rank m' = 1 → m = m') ∧
      (∀ t desc next, contended.prog t = .lock (.mblock desc) next → ∀ m, contended.owner m ≠ some t) ∧
      ∀ t, ¬Relation.TransGen (Waits contended) t t :=
  ⟨by decide +kernel,
    reach_ordered HeapRun.kMemBlock ⟨fun _ => rfl, fun _ => rfl⟩ (reach_of_play (Option.some_get refills_plays).symm)⟩

end Run

end KOS.MemLocks
