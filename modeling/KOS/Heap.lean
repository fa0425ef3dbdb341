import KOS.PageCalls
import KOS.LinkMemory

/-! `sys_malloc` and `sys_free`: blocks of seven sizes that are carved out of arena pages, and
whole pages above 1024 bytes. Arena headers, descriptors and the links of free blocks are words
in the memory that the clients write to. The lock calls are left aside. -/

namespace KOS.Heap
open KOS.ByteMemory KOS.LinkMemory KOS.DoublyLinked KOS.KernelList KOS.Paging KOS.PageCalls NodeStore

def MEM_BLOCK_CNT : Nat := 7

/-- `sizeof(struct arena)`. -/
def ARENA_SIZE : Nat := 12

/-- `&p_mem_block[idx]`: 48 bytes each, the last 24 of them its mutex. -/
def descAt (mblock idx : Nat) : Nat := mblock + 48 * idx

def blockSize (m : Memory) (desc : Nat) : Nat := load32 m desc
def blocksPerArena (m : Memory) (desc : Nat) : Nat := load32 m (desc + 4)
def freeList (desc : Nat) : KList Nat := ⟨desc + 8, desc + 16⟩

/-! `struct arena`. -/

def pMemBlock (m : Memory) (a : Nat) : Nat := load32 m a
def cnt (m : Memory) (a : Nat) : Nat := load32 m (a + 4)
def isPageCnt (m : Memory) (a : Nat) : Bool := load m (a + 8) ≠ 0

def setCnt (m : Memory) (a v : Nat) : Memory := store32 m (a + 4) (v % 2 ^ 32)

def setHeader (m : Memory) (a desc count : Nat) (pages : Bool) : Memory :=
  store (setCnt (store32 m a desc) a count) (a + 8) (if pages then 1 else 0)

def mutexInit (m : Memory) (mlock : Nat) : Memory :=
  listInit 0 (store32 (store32 m mlock 0) (mlock + 4) 0) ⟨mlock + 8, mlock + 16⟩

def memBlockInitLoop (mblock : Nat) : (left idx blockSize : Nat) → Memory → Memory
  | 0, _, _, m => m
  | left + 1, idx, blockSize, m =>
      let desc := descAt mblock idx
      let m := store32 m desc blockSize
      let m := store32 m (desc + 4) ((PG_SIZE - ARENA_SIZE) / blockSize)
      let m := mutexInit (listInit 0 m (freeList desc)) (desc + 24)
      memBlockInitLoop mblock left (idx + 1) (blockSize * 2) m

def memBlockInit (m : Memory) (mblock : Nat) : Memory := memBlockInitLoop mblock MEM_BLOCK_CNT 0 16 m

structure HeapState where
  pages : Pages
  mem : Memory
  /-- The pages that `mem_acquire` got and `mem_release` has not given back, with their class. -/
  arenas : List (Nat × Nat)
  /-- The first page and the count of what `sys_malloc` got for itself and `sys_free` has not given back. -/
  large : List (Nat × Nat)

def setMem (h : HeapState) (m : Memory) : HeapState := { h with mem := m }

def setPages (h : HeapState) (pages : Pages) (m : Memory) : HeapState := { h with pages := pages, mem := m }

def addArena (h : HeapState) (page mblockIdx : Nat) : HeapState := { h with arenas := (page, mblockIdx) :: h.arenas }

def removeArena (h : HeapState) (page : Nat) : HeapState := { h with arenas := h.arenas.filter (·.1 ≠ page) }

def addLarge (h : HeapState) (page pgCnt : Nat) : HeapState := { h with large := (page, pgCnt) :: h.large }

def removeLarge (h : HeapState) (page : Nat) : HeapState := { h with large := h.large.filter (·.1 ≠ page) }

def arena2block (m : Memory) (a idx : Nat) : Nat :=
  (a + ARENA_SIZE + idx * blockSize m (pMemBlock m a)) % 2 ^ 32

def block2arena (b : Nat) : Nat := b &&& 0xfffff000

/-- The memory after the page table changed: a page with a new entry shows another frame. -/
def remap (before after : Pages) (m fresh : Memory) : Memory := fun x =>
  if after.pte (x / PG_SIZE) = before.pte (x / PG_SIZE) then m x else fresh x

def splitArena (a : Nat) : (left idx : Nat) → Memory → Memory
  | 0, _, m => m
  | left + 1, idx, m =>
      splitArena a left (idx + 1) (listAppend m (freeList (pMemBlock m a)) (arena2block m a idx))

/-- The first half of `mem_acquire`: a new arena when the free list is empty; `fresh` is what the
frame holds that the page layer maps. -/
def growArena (h : HeapState) (mblock mblockIdx : Nat) (fresh : Memory) : Bool × HeapState :=
  let desc := descAt mblock mblockIdx
  if listEmpty h.mem (freeList desc) then
    let (a, pages) := pageAcquire h.pages 0 1
    let m := remap h.pages pages h.mem fresh
    if a = 0 then (false, setPages h pages m)
    else
      let m := memset m a 0 PG_SIZE
      let m := setHeader m a desc (blocksPerArena m desc) false
      let m := splitArena a (blocksPerArena m desc) 0 m
      (true, addArena (setPages h pages m) (a / PG_SIZE) mblockIdx)
  else (true, h)

/-- The second half: the first free block; a NULL from `list_pop` would be used as a block. -/
def takeBlock (h : HeapState) (mblock mblockIdx : Nat) : Nat × HeapState :=
  let desc := descAt mblock mblockIdx
  let (elem, m) := listPop h.mem (freeList desc)
  let b := elem.getD 0
  let m := memset m b 0 (blockSize m desc)
  let a := block2arena b
  (b, setMem h (setCnt m a (cnt m a + 2 ^ 32 - 1)))

def memAcquire (h : HeapState) (mblock mblockIdx : Nat) (fresh : Memory) : Nat × HeapState :=
  let (ready, h) := growArena h mblock mblockIdx fresh
  if ready then takeBlock h mblock mblockIdx else (0, h)

def unlinkArena (a : Nat) : (left idx : Nat) → Memory → Memory
  | 0, _, m => m
  | left + 1, idx, m => unlinkArena a left (idx + 1) (listRemove m (arena2block m a idx))

/-- The first half of `mem_release`: the block goes back to its list. -/
def giveBlock (h : HeapState) (b : Nat) : HeapState :=
  let a := block2arena b
  let m := listAppend h.mem (freeList (pMemBlock h.mem a)) b
  setMem h (setCnt m a (cnt m a + 1))

/-- The second half: an arena with every block free is unlinked and released. -/
def dropArena (h : HeapState) (a : Nat) : Option HeapState :=
  let n := blocksPerArena h.mem (pMemBlock h.mem a)
  if cnt h.mem a = n then
    (pageRelease h.pages a 1).map fun pages =>
      removeArena (setPages h pages (unlinkArena a n 0 h.mem)) (a / PG_SIZE)
  else some h

def memRelease (h : HeapState) (vaddr : Nat) : Option HeapState := dropArena (giveBlock h vaddr) (block2arena vaddr)

/-- `DIV_ROUND_UP(size + sizeof(struct arena), PG_SIZE)` on 32 bits. -/
def pageCnt (size : Nat) : Nat := (size + ARENA_SIZE + PG_SIZE - 1) % 2 ^ 32 / PG_SIZE

/-- The search for the class. -/
def findClass (m : Memory) (mblock size : Nat) : (left idx : Nat) → Nat
  | 0, idx => idx
  | left + 1, idx => if size ≤ blockSize m (descAt mblock idx) then idx else findClass m mblock size left (idx + 1)

def sysMalloc (h : HeapState) (mblock size : Nat) (fresh : Memory) : Nat × HeapState :=
  if 1024 < size then
    let (a, pages) := pageAcquire h.pages 0 (pageCnt size)
    let m := remap h.pages pages h.mem fresh
    if a = 0 then (0, setPages h pages m)
    else
      let m := memset m a 0 (pageCnt size * PG_SIZE)
      let m := setHeader m a 0 (pageCnt size) true
      ((a + ARENA_SIZE) % 2 ^ 32, addLarge (setPages h pages m) (a / PG_SIZE) (pageCnt size))
  else memAcquire h mblock (findClass h.mem mblock size MEM_BLOCK_CNT 0) fresh

/-- `none` if an assertion of the page layer fails. -/
def sysFree (h : HeapState) (vaddr : Nat) : Option HeapState :=
  let a := block2arena vaddr
  if isPageCnt h.mem a then
    (pageRelease h.pages a (cnt h.mem a)).map fun pages => removeLarge (setPages h pages h.mem) (a / PG_SIZE)
  else memRelease h vaddr

end KOS.Heap
