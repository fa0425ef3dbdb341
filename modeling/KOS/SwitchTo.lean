import KOS.Stack
import KOS.Stdio
import KOS.Machine

/-! `switch_to` of `switch.s` and the stack that `kthread_create` makes for a new thread. A thread is the address of
its page, which has the `task_struct` at its base and the stack at its top. -/

namespace KOS.SwitchTo
open KOS.ByteMemory KOS.LinkMemory KOS.Stack KOS.Machine KOS.Stdio

def PG_SIZE : Nat := 4096

/- `sizeof` and `offsetof` of `struct task_struct`; `kstack` is at offset 0. -/
def TASK_SIZE : Nat := 48
def NAME : Nat := 28
def STACK_MAGIC : Nat := 44

/-- `sizeof(struct kstack_switch)`. -/
def SWITCH_SIZE : Nat := 32

structure Cpu where
  mem : Memory
  eax : UInt32
  ebx : UInt32
  edi : UInt32
  esi : UInt32
  ebp : UInt32
  eip : UInt32
  esp : Nat

namespace Cpu

def push (c : Cpu) (v : UInt32) : Cpu := { c with mem := setWord c.mem (down c.esp) v, esp := down c.esp }

/-- What a `pop` reads, and where it leaves `esp`. -/
def top (c : Cpu) : UInt32 := word c.mem c.esp
def next (c : Cpu) : Nat := up c.esp 1

/-- The four pushes of `switch_to`. -/
def pushContext (c : Cpu) : Cpu :=
  let c := c.push c.esi
  let c := c.push c.edi
  let c := c.push c.ebx
  c.push c.ebp

/-- The four moves: `esp` goes to `cur->kstack` and comes from `next->kstack`. -/
def exchange (c : Cpu) : Cpu :=
  let c := { c with eax := word c.mem (c.esp + 20) }
  let c := { c with mem := setWord c.mem c.eax.toNat (UInt32.ofNat c.esp) }
  let c := { c with eax := word c.mem (c.esp + 24) }
  { c with esp := (word c.mem c.eax.toNat).toNat }

/-- From `pop ebp` to `ret`. -/
def popContext (c : Cpu) : Cpu :=
  let c := { c with ebp := c.top, esp := c.next }
  let c := { c with ebx := c.top, esp := c.next }
  let c := { c with edi := c.top, esp := c.next }
  let c := { c with esi := c.top, esp := c.next }
  { c with eip := c.top, esp := c.next }

end Cpu

/-- `switch_to`, from its first instruction: `esp` is where `call` has left the return address. -/
def switchTo (c : Cpu) : Cpu := c.pushContext.exchange.popContext

section Code

variable (kernelThread : UInt32)

/-- "Init task_struct"; `name` has the characters that `strcpy` copies before the NUL. -/
def initTask (m : Memory) (task : Nat) (name : List UInt8) : Memory :=
  let m := memset m task 0 TASK_SIZE
  let m := setWord m task (UInt32.ofNat (task + PG_SIZE))
  let m := writeAll m (task + NAME) (name ++ [0])
  setWord m (task + STACK_MAGIC) 0x19880802

/-- "Init kstack". -/
def initKstack (m : Memory) (task : Nat) (fn fnArg : UInt32) : Memory :=
  let m := setWord m task (word m task - UInt32.ofNat SWITCH_SIZE)
  let ksSw := (word m task).toNat
  let m := setWord m ksSw 0
  let m := setWord m (ksSw + 4) 0
  let m := setWord m (ksSw + 8) 0
  let m := setWord m (ksSw + 12) 0
  let m := setWord m (ksSw + 16) kernelThread
  let m := setWord m (ksSw + 24) fn
  setWord m (ksSw + 28) fnArg

/-- `kthread_create` on the page that `page_malloc` gave. -/
def kthreadCreate (m : Memory) (task : Nat) (fn fnArg : UInt32) (name : List UInt8) : Memory :=
  initKstack kernelThread (initTask m task name) task fn fnArg

/-- What a thread has when it calls `switch_to`. -/
structure Context where
  ebp : UInt32
  ebx : UInt32
  edi : UInt32
  esi : UInt32
  ret : UInt32
  esp : Nat

/-- What a thread that does not run is waiting to go on with. -/
inductive Saved where
  | call (c : Context)
  | forged (fn fnArg : UInt32)

/-- The context of a call, seen at the first instruction of `switch_to`. -/
def context (c : Cpu) : Context := ⟨c.ebp, c.ebx, c.edi, c.esi, word c.mem c.esp, up c.esp 1⟩

structure System where
  cpu : Cpu
  /-- The running thread. -/
  cur : Nat
  saved : Nat → Option Saved

inductive Event where
  | run (c : Cpu)
  | switchTo (next : Nat)
  | create (task : Nat) (fn fnArg : UInt32) (name : List UInt8)

/-- What `next` is due to go on with when the running thread calls `switch_to`. -/
def due (s : System) (next : Nat) : Option Saved := Function.update s.saved s.cur (some (.call (context s.cpu))) next

def step (s : System) : Event → Option System
  | .run c => some { s with cpu := c }
  | .switchTo next =>
      some ⟨SwitchTo.switchTo s.cpu, next,
        Function.update (Function.update s.saved s.cur (some (.call (context s.cpu)))) next none⟩
  | .create task fn fnArg name =>
      some { s with
        cpu := { s.cpu with mem := kthreadCreate kernelThread s.cpu.mem task fn fnArg name },
        saved := Function.update s.saved task (some (.forged fn fnArg)) }

/-- A page of its own. -/
def Page (q : Nat) : Prop := q % PG_SIZE = 0 ∧ q + PG_SIZE ≤ 2 ^ 32

instance (q : Nat) : Decidable (Page q) := inferInstanceAs (Decidable (_ ∧ _))

/-- The `kstack` field and the stack of a thread that does not run. -/
def owned (m : Memory) (q : Nat) : Set Nat := Set.Ico q (q + 4) ∪ Set.Ico (word m q).toNat (q + PG_SIZE)

/-- A call of `switch_to(cur, next)` by the running thread, on its own stack. -/
structure Called (s : System) (next : Nat) : Prop where
  first : word s.cpu.mem (s.cpu.esp + 4) = UInt32.ofNat s.cur
  second : word s.cpu.mem (s.cpu.esp + 8) = UInt32.ofNat next
  low : s.cur + 20 ≤ s.cpu.esp
  high : s.cpu.esp + 12 ≤ s.cur + PG_SIZE
  known : next = s.cur ∨ s.saved next ≠ none

/-- The running thread writes no other thread's stack or `kstack`; `kthread_create` gets a page of its own. -/
def ok (s : System) : Event → Prop
  | .run c => ∀ q, q ≠ s.cur → s.saved q ≠ none → ChangesOnly {x | x ∉ owned s.cpu.mem q} s.cpu.mem c.mem
  | .switchTo next => Called s next
  | .create task _ _ name => Page task ∧ task ≠ s.cur ∧ s.saved task = none ∧ NAME + name.length < PG_SIZE

/-- Before the first switch there is only the thread that runs. -/
def start (c : Cpu) (cur : Nat) : System := ⟨c, cur, fun _ => none⟩

/-- A thread goes on where it called `switch_to`, or enters `kernel_thread` with its two arguments behind the
return address. -/
def Resumes (c : Cpu) : Saved → Prop
  | .call x => c.ebp = x.ebp ∧ c.ebx = x.ebx ∧ c.edi = x.edi ∧ c.esi = x.esi ∧ c.esp = x.esp ∧ c.eip = x.ret
  | .forged fn fnArg => c.eip = kernelThread ∧ word c.mem (c.esp + 4) = fn ∧ word c.mem (c.esp + 8) = fnArg

/-! What lies on the stack of a thread that does not run. -/

def Saved.size : Saved → Nat
  | .call _ => 28
  | .forged _ _ => SWITCH_SIZE

/-- The frame at `k`: what `switch_to` has pushed, or the `kstack_switch`. -/
def Frame (m : Memory) (k : Nat) : Saved → Prop
  | .call x => Words m k [x.ebp, x.ebx, x.edi, x.esi, x.ret] ∧ x.esp = k + 20
  | .forged fn fnArg => Words m k [0, 0, 0, 0, kernelThread, word m (k + 20), fn, fnArg]

structure Suspended (m : Memory) (q : Nat) (what : Saved) : Prop where
  low : q + 4 ≤ (word m q).toNat
  high : (word m q).toNat + what.size ≤ q + PG_SIZE
  frame : Frame kernelThread m (word m q).toNat what

structure Inv (s : System) : Prop where
  page : Page s.cur
  running : s.saved s.cur = none
  suspended : ∀ q what, s.saved q = some what → Page q ∧ Suspended kernelThread s.cpu.mem q what

end Code

variable {kernelThread : UInt32} {s s' : System} {m m' : Memory} {q next task k : Nat} {what : Saved}

theorem Frame.congr {S : Set Nat} (frame : Frame kernelThread m k what) (changes : ChangesOnly S m m')
    (fits : k + what.size ≤ 2 ^ 32) (outside : ∀ x ∈ Set.Ico k (k + what.size), x ∉ S) :
    Frame kernelThread m' k what := by
  cases what with
  | call x =>
    dsimp only [Saved.size] at fits outside
    refine ⟨frame.1.congr changes (by dsimp only [List.length]; omega) ?_, frame.2⟩
    intro a inside
    have high := inside.2
    dsimp only [List.length] at high
    exact outside a ⟨inside.1, by omega⟩
  | forged fn fnArg =>
    dsimp only [Saved.size, SWITCH_SIZE] at fits outside
    have unused : word m' (k + 20) = word m (k + 20) := by
      apply word_congr changes (by omega)
      intro a inside
      exact outside a (Set.Ico_subset_Ico (by omega) (by omega) inside)
    rw [Frame, unused]
    exact Words.congr frame changes fits outside

/-- A frame survives writes outside what the thread owns. -/
theorem Suspended.congr {S : Set Nat} (suspended : Suspended kernelThread m q what) (page : Page q)
    (changes : ChangesOnly S m m') (outside : ∀ x ∈ owned m q, x ∉ S) : Suspended kernelThread m' q what := by
  have fits := page.2
  have low := suspended.low
  have high := suspended.high
  unfold PG_SIZE at fits high
  have kstack : word m' q = word m q := by
    apply word_congr changes (by omega)
    intro x inside
    exact outside x (.inl inside)
  constructor
  · rw [kstack]
    exact low
  · rw [kstack]
    exact high
  · rw [kstack]
    apply suspended.frame.congr changes (by omega)
    intro x inside
    exact outside x (.inr ⟨inside.1, by have := inside.2; unfold PG_SIZE; omega⟩)

/-- What a thread owns is in its page. -/
theorem Suspended.owned_page (suspended : Suspended kernelThread m q what) {x : Nat} (inside : x ∈ owned m q) :
    q ≤ x ∧ x < q + PG_SIZE := by
  have low := suspended.low
  rcases inside with field | stack
  · have start := field.1
    have stop := field.2
    unfold PG_SIZE
    omega
  · have start := stack.1
    exact ⟨by omega, stack.2⟩

theorem page_apart {p : Nat} (page : Page p) (page' : Page q) (different : p ≠ q) :
    p + PG_SIZE ≤ q ∨ q + PG_SIZE ≤ p := by
  have aligned := page.1
  have aligned' := page'.1
  unfold PG_SIZE at *
  omega

/-- A frame survives writes in another page. -/
theorem Suspended.other_page (suspended : Suspended kernelThread m q what) (page : Page q) {p : Nat} (page' : Page p)
    (different : p ≠ q) (changes : ChangesOnly (Set.Ico p (p + PG_SIZE)) m m') : Suspended kernelThread m' q what := by
  apply suspended.congr page changes
  intro x inside written
  have own := suspended.owned_page inside
  have low := written.1
  have high := written.2
  have apart := page_apart page' page different
  omega

/-! A new thread. -/

theorem setWord_inside {lo hi a : Nat} (m : Memory) (v : UInt32) (low : lo ≤ a) (high : a + 4 ≤ hi) (fits : hi ≤ 2 ^ 32) :
    ChangesOnly (Set.Ico lo hi) m (setWord m a v) := by
  apply (setWord_changes m v (by omega)).mono
  intro x inside
  exact ⟨low.trans inside.1, inside.2.trans_le high⟩

theorem initTask_changes (m : Memory) {name : List UInt8} (page : Page task) (short : NAME + name.length < PG_SIZE) :
    ChangesOnly (Set.Ico task (task + PG_SIZE)) m (initTask m task name) := by
  have fits := page.2
  unfold PG_SIZE at *
  unfold NAME at short
  have cleared : ChangesOnly (Set.Ico task (task + 4096)) m (memset m task 0 TASK_SIZE) := by
    apply (memset_changes m 0 (by unfold TASK_SIZE; omega)).mono
    intro x inside
    have high := inside.2
    unfold TASK_SIZE at high
    exact ⟨inside.1, by omega⟩
  have copied (m : Memory) : ChangesOnly (Set.Ico task (task + 4096)) m (writeAll m (task + NAME) (name ++ [0])) := by
    apply writeAll_inside
    intro k inside
    rw [List.length_append, List.length_singleton] at inside
    unfold NAME
    exact ⟨by omega, by omega⟩
  have based := cleared.trans (setWord_inside _ (UInt32.ofNat (task + PG_SIZE)) (Nat.le_refl task) (by omega) fits)
  have named := based.trans (copied _)
  exact named.trans (setWord_inside _ 0x19880802 (Nat.le_add_right _ _) (by unfold STACK_MAGIC; omega) fits)

/-- Neither the name nor the magic number reaches `kstack`. -/
theorem initTask_kstack (m : Memory) {name : List UInt8} (page : Page task) (short : NAME + name.length < PG_SIZE) :
    word (initTask m task name) task = UInt32.ofNat (task + PG_SIZE) := by
  have fits := page.2
  unfold PG_SIZE NAME at *
  have copied (m : Memory) : ChangesOnly (Set.Ico (task + 28) (task + 4096)) m (writeAll m (task + 28) (name ++ [0])) := by
    apply writeAll_inside
    intro k inside
    rw [List.length_append, List.length_singleton] at inside
    exact ⟨by omega, by omega⟩
  show word (setWord (writeAll (setWord (memset m task 0 TASK_SIZE) task _) (task + 28) (name ++ [0])) (task + 44) _) task = _
  rw [word_setWord_other _ _ (by omega) (by omega) (by omega), word_congr (copied _) (by omega)]
  · exact word_setWord _ _ _
  · intro x inside written
    have high := inside.2
    have low := written.1
    omega

theorem kstack_lowered (page : Page task) :
    (UInt32.ofNat (task + PG_SIZE) - UInt32.ofNat SWITCH_SIZE).toNat = task + 4064 := by
  have fits := page.2
  unfold PG_SIZE at *
  rw [UInt32.toNat_sub, UInt32.toNat_ofNat', UInt32.toNat_ofNat', SWITCH_SIZE]
  omega

/-- The seven words of a `kstack_switch` that are set, and what was in the other. -/
theorem initKstack_frame (m : Memory) (fn fnArg : UInt32) (page : Page task)
    (top : word m task = UInt32.ofNat (task + PG_SIZE)) :
    ChangesOnly (Set.Ico task (task + PG_SIZE)) m (initKstack kernelThread m task fn fnArg) ∧
      Suspended kernelThread (initKstack kernelThread m task fn fnArg) task (.forged fn fnArg) := by
  have fits := page.2
  have lowered := kstack_lowered page
  rw [← top] at lowered
  unfold PG_SIZE at fits
  have first : (word (setWord m task (word m task - UInt32.ofNat SWITCH_SIZE)) task).toNat = task + 4064 := by
    rw [word_setWord, lowered]
  unfold initKstack
  dsimp only
  rw [first]
  generalize lowest : setWord m task (word m task - UInt32.ofNat SWITCH_SIZE) = m1 at first
  have start : ChangesOnly (Set.Ico task (task + 4096)) m m1 := by
    rw [← lowest]
    exact setWord_inside m _ (Nat.le_refl _) (by omega) fits
  have slot (m : Memory) (k : Nat) (v : UInt32) (inside : k + 4 ≤ 32) :
      ChangesOnly (Set.Ico task (task + 4096)) m (setWord m (task + 4064 + k) v) :=
    setWord_inside m v (by omega) (by omega) fits
  have saved := (((start.trans (slot m1 0 0 (by decide))).trans (slot _ 4 0 (by decide))).trans (slot _ 8 0 (by decide))).trans
    (slot _ 12 0 (by decide))
  have all := ((saved.trans (slot _ 16 kernelThread (by decide))).trans (slot _ 24 fn (by decide))).trans
    (slot _ 28 fnArg (by decide))
  rw [Nat.add_zero] at all
  refine ⟨all, ?_⟩
  generalize final : setWord (setWord (setWord (setWord (setWord (setWord (setWord m1 (task + 4064) 0) (task + 4064 + 4) 0)
    (task + 4064 + 8) 0) (task + 4064 + 12) 0) (task + 4064 + 16) kernelThread) (task + 4064 + 24) fn)
    (task + 4064 + 28) fnArg = m2
  have kstack : (word m2 task).toNat = task + 4064 := by
    rw [← final]
    simp (disch := omega) only [word_setWord_other]
    exact first
  constructor
  · rw [kstack]
    omega
  · rw [kstack]
    exact Nat.le_refl _
  · rw [kstack]
    have slots : word m2 (task + 4064) = 0 ∧ word m2 (task + 4064 + 4) = 0 ∧ word m2 (task + 4064 + 8) = 0 ∧
        word m2 (task + 4064 + 12) = 0 ∧ word m2 (task + 4064 + 16) = kernelThread ∧
        word m2 (task + 4064 + 24) = fn ∧ word m2 (task + 4064 + 28) = fnArg := by
      rw [← final]
      simp (disch := omega) only [word_setWord_other, word_setWord, and_self]
    obtain ⟨ebp, ebx, edi, esi, kthread, first, second⟩ := slots
    exact ⟨ebp, ebx, edi, esi, kthread, rfl, first, second, trivial⟩

/-- `kthread_create` writes the page of the new thread only. -/
theorem kthreadCreate_suspended (m : Memory) (fn fnArg : UInt32) {name : List UInt8} (page : Page task)
    (short : NAME + name.length < PG_SIZE) :
    ChangesOnly (Set.Ico task (task + PG_SIZE)) m (kthreadCreate kernelThread m task fn fnArg name) ∧
      Suspended kernelThread (kthreadCreate kernelThread m task fn fnArg name) task (.forged fn fnArg) := by
  have made : ChangesOnly _ (initTask m task name) (kthreadCreate kernelThread m task fn fnArg name) ∧ _ :=
    initKstack_frame (initTask m task name) fn fnArg page (initTask_kstack m page short)
  exact ⟨(initTask_changes m page short).trans made.1, made.2⟩

/-! A switch. -/

theorem popContext_eq {c : Cpu} {b x d i r : UInt32} (words : Words c.mem c.esp [b, x, d, i, r])
    (fits : c.esp + 20 < 2 ^ 32) :
    c.popContext = { c with ebp := b, ebx := x, edi := d, esi := i, eip := r, esp := c.esp + 20 } := by
  obtain ⟨ebp, ebx, edi, esi, eip, -⟩ := words
  have up1 : up c.esp 1 = c.esp + 4 := up_eq (by omega)
  have up2 : up (c.esp + 4) 1 = c.esp + 4 + 4 := up_eq (by omega)
  have up3 : up (c.esp + 4 + 4) 1 = c.esp + 4 + 4 + 4 := up_eq (by omega)
  have up4 : up (c.esp + 4 + 4 + 4) 1 = c.esp + 4 + 4 + 4 + 4 := up_eq (by omega)
  have up5 : up (c.esp + 4 + 4 + 4 + 4) 1 = c.esp + 20 := up_eq (by omega)
  simp only [Cpu.popContext, Cpu.top, Cpu.next, up1, up2, up3, up4, up5, ebp, ebx, edi, esi, eip]

theorem pushContext_eq {c : Cpu} (room : 16 ≤ c.esp) (small : c.esp < 2 ^ 32) :
    c.pushContext = { c with
      mem := (pushAll c.mem c.esp [c.esi, c.edi, c.ebx, c.ebp]).1
      esp := c.esp - 16 } := by
  have lowered : down (down (down (down c.esp))) = c.esp - 16 := pushAll_esp [c.esi, c.edi, c.ebx, c.ebp] c.mem room small
  rw [← lowered]
  rfl

theorem toNat_ofNat {n : Nat} (small : n < 2 ^ 32) : (UInt32.ofNat n).toNat = n := by
  rw [UInt32.toNat_ofNat']
  exact Nat.mod_eq_of_lt small

theorem exchange_eq {c : Cpu} {cur esp : Nat} (small : cur < 2 ^ 32) (small' : next < 2 ^ 32)
    (first : word m (esp + 20) = UInt32.ofNat cur) (stored : setWord m cur (UInt32.ofNat esp) = m')
    (second : word m' (esp + 24) = UInt32.ofNat next) :
    Cpu.exchange { c with mem := m, esp := esp } =
      { c with mem := m', eax := UInt32.ofNat next, esp := (word m' next).toNat } := by
  simp only [Cpu.exchange, first, toNat_ofNat small, stored, second, toNat_ofNat small']

/-- The first half of `switch_to`: the context is saved, and the stack of `next` is chosen. -/
theorem switchTo_saves (called : Called s next) (page : Page s.cur) (small : next < 2 ^ 32) :
    ∃ m, ChangesOnly (Set.Ico s.cur (s.cur + PG_SIZE)) s.cpu.mem m ∧
      Suspended kernelThread m s.cur (.call (context s.cpu)) ∧
      switchTo s.cpu =
        Cpu.popContext { s.cpu with mem := m, eax := UInt32.ofNat next, esp := (word m next).toNat } := by
  have fits := page.2
  have low := called.low
  have high := called.high
  have first := called.first
  have second := called.second
  unfold PG_SIZE at fits high ⊢
  generalize s.cpu = c at *
  generalize s.cur = cur at *
  have room : 16 ≤ c.esp ∧ c.esp < 2 ^ 32 := by omega
  have curSmall : cur < 2 ^ 32 := by omega
  have entry : Words c.mem c.esp [word c.mem c.esp, UInt32.ofNat cur, UInt32.ofNat next] := ⟨rfl, first, second, trivial⟩
  let m4 := (pushAll c.mem c.esp [c.esi, c.edi, c.ebx, c.ebp]).1
  have pushed : Words m4 (c.esp - 16)
      [c.ebp, c.ebx, c.edi, c.esi, word c.mem c.esp, UInt32.ofNat cur, UInt32.ofNat next] :=
    entry.pushAll [c.esi, c.edi, c.ebx, c.ebp] (by dsimp only [List.length]; omega) (by dsimp only [List.length]; omega)
      (by omega)
  have changed : ChangesOnly (Set.Ico (c.esp - 16) c.esp) c.mem m4 :=
    pushAll_changes [c.esi, c.edi, c.ebx, c.ebp] c.mem (by dsimp only [List.length]; omega) (by omega)
  let m5 := setWord m4 cur (UInt32.ofNat (c.esp - 16))
  have stored : ChangesOnly (Set.Ico cur (cur + 4)) m4 m5 := setWord_changes m4 _ (by omega)
  have kept : Words m5 (c.esp - 16)
      [c.ebp, c.ebx, c.edi, c.esi, word c.mem c.esp, UInt32.ofNat cur, UInt32.ofNat next] := by
    apply pushed.congr stored (by dsimp only [List.length]; omega)
    intro x inside written
    have start := inside.1
    have stop := written.2
    omega
  have kstack : (word m5 cur).toNat = c.esp - 16 := by
    rw [word_setWord]
    exact toNat_ofNat (by omega)
  refine ⟨m5, ?_, ?_, ?_⟩
  · apply (changed.mono _).trans (stored.mono _)
    · exact Set.Ico_subset_Ico (by omega) (by omega)
    · exact Set.Ico_subset_Ico_right (by omega)
  · constructor
    · rw [kstack]
      omega
    · rw [kstack]
      show c.esp - 16 + 28 ≤ cur + 4096
      omega
    · rw [kstack]
      have split := (words_append [c.ebp, c.ebx, c.edi, c.esi, word c.mem c.esp]).mp kept
      refine ⟨split.1, ?_⟩
      show up c.esp 1 = c.esp - 16 + 20
      rw [up_eq (by omega)]
      omega
  · have arg : word m4 (c.esp - 16 + 20) = UInt32.ofNat cur := pushed.get (i := 5) rfl
    have arg' : word m5 (c.esp - 16 + 24) = UInt32.ofNat next := kept.get (i := 6) rfl
    rw [switchTo, pushContext_eq room.1 room.2, exchange_eq curSmall small arg rfl arg']

/-- The second half: a suspended thread goes on. -/
theorem popContext_resumes {c : Cpu} (suspended : Suspended kernelThread c.mem next what) (page : Page next)
    (esp : c.esp = (word c.mem next).toNat) : Resumes kernelThread c.popContext what := by
  have fits := page.2
  have high := suspended.high
  have frame := suspended.frame
  rw [← esp] at high frame
  unfold PG_SIZE at fits high
  cases what with
  | call x =>
    dsimp only [Saved.size] at high
    rw [popContext_eq frame.1 (by omega)]
    exact ⟨rfl, rfl, rfl, rfl, frame.2.symm, rfl⟩
  | forged fn fnArg =>
    dsimp only [Saved.size, SWITCH_SIZE] at high
    have split := (words_append [0, 0, 0, 0, kernelThread]).mp frame
    rw [popContext_eq split.1 (by omega)]
    exact ⟨rfl, split.2.2.1, split.2.2.2.1⟩

/-! Every run. -/

theorem due_suspended (inv : Inv kernelThread s) (called : Called s next) :
    ∃ what, due s next = some what ∧ Page next ∧ ∃ m, ChangesOnly (Set.Ico s.cur (s.cur + PG_SIZE)) s.cpu.mem m ∧
      Suspended kernelThread m s.cur (.call (context s.cpu)) ∧ Suspended kernelThread m next what ∧
      switchTo s.cpu =
        Cpu.popContext { s.cpu with mem := m, eax := UInt32.ofNat next, esp := (word m next).toNat } := by
  by_cases same : next = s.cur
  · have page := inv.page
    have fits := page.2
    unfold PG_SIZE at fits
    obtain ⟨m, changes, suspended, switches⟩ := switchTo_saves called page (by omega)
    exact ⟨.call (context s.cpu), by rw [due, same, Function.update_self], same ▸ page, m, changes, suspended,
      same ▸ suspended, switches⟩
  · obtain ⟨what, saved⟩ := Option.ne_none_iff_exists'.mp (called.known.resolve_left same)
    obtain ⟨page, suspended⟩ := inv.suspended next what saved
    have fits := page.2
    unfold PG_SIZE at fits
    obtain ⟨m, changes, suspended', switches⟩ := switchTo_saves called inv.page (by omega)
    exact ⟨what, by rw [due, Function.update_of_ne same, saved], page, m, changes, suspended',
      suspended.other_page page inv.page (Ne.symm same) changes, switches⟩

theorem Inv.run {c : Cpu} (inv : Inv kernelThread s) (permitted : ok s (.run c)) :
    Inv kernelThread { s with cpu := c } := by
  refine ⟨inv.page, inv.running, ?_⟩
  intro q what saved
  obtain ⟨page, suspended⟩ := inv.suspended q what saved
  have other : q ≠ s.cur := by
    rintro rfl
    rw [inv.running] at saved
    exact absurd saved.symm (Option.some_ne_none what)
  have waits : s.saved q ≠ none := by
    rw [saved]
    exact Option.some_ne_none what
  refine ⟨page, suspended.congr page (permitted q other waits) ?_⟩
  intro x own written
  exact written own

/-- Only the page of the thread that calls changes, and its frame is there now. -/
theorem Inv.switch (inv : Inv kernelThread s) (called : Called s next)
    (moved : step kernelThread s (.switchTo next) = some s') : Inv kernelThread s' := by
  obtain ⟨what, -, page, m, changes, suspended, -, switches⟩ := due_suspended inv called
  have memory : (switchTo s.cpu).mem = m := by
    rw [switches]
    rfl
  rw [← Option.some.inj moved]
  refine ⟨page, Function.update_self .., ?_⟩
  intro q other saved
  by_cases chosen : q = next
  · dsimp only at saved
    rw [chosen, Function.update_self] at saved
    exact absurd saved.symm (Option.some_ne_none other)
  dsimp only at saved ⊢
  rw [memory]
  rw [Function.update_of_ne chosen] at saved
  by_cases own : q = s.cur
  · subst own
    rw [Function.update_self] at saved
    rw [← Option.some.inj saved]
    exact ⟨inv.page, suspended⟩
  · rw [Function.update_of_ne own] at saved
    obtain ⟨page', waits⟩ := inv.suspended q other saved
    exact ⟨page', waits.other_page page' inv.page (Ne.symm own) changes⟩

theorem Inv.create {fn fnArg : UInt32} {name : List UInt8} (inv : Inv kernelThread s)
    (permitted : ok s (.create task fn fnArg name))
    (moved : step kernelThread s (.create task fn fnArg name) = some s') : Inv kernelThread s' := by
  obtain ⟨page, other, fresh, short⟩ := permitted
  have built : _ ∧ Suspended kernelThread _ task (.forged fn fnArg) :=
    kthreadCreate_suspended s.cpu.mem fn fnArg page short
  obtain ⟨changes, made⟩ := built
  rw [← Option.some.inj moved]
  refine ⟨inv.page, ?_, ?_⟩
  · dsimp only
    rw [Function.update_of_ne (Ne.symm other)]
    exact inv.running
  · intro q what saved
    dsimp only at saved ⊢
    by_cases new : q = task
    · subst new
      rw [Function.update_self] at saved
      rw [← Option.some.inj saved]
      exact ⟨page, made⟩
    · rw [Function.update_of_ne new] at saved
      obtain ⟨page', waits⟩ := inv.suspended q what saved
      exact ⟨page', waits.other_page page' page (Ne.symm new) changes⟩

theorem Inv.step {e : Event} (inv : Inv kernelThread s) (permitted : ok s e)
    (moved : SwitchTo.step kernelThread s e = some s') : Inv kernelThread s' := by
  cases e with
  | run c =>
    rw [← Option.some.inj moved]
    exact inv.run permitted
  | switchTo next => exact inv.switch permitted moved
  | create task fn fnArg name => exact inv.create permitted moved

theorem inv_of_reach {c : Cpu} {cur : Nat} (page : Page cur) (reached : Reach (step kernelThread) ok (start c cur) s) :
    Inv kernelThread s := by
  apply Reach.invariant _ _ reached
  · intro before e after inv permitted moved
    exact inv.step permitted moved
  · refine ⟨page, rfl, ?_⟩
    intro q what saved
    exact absurd saved.symm (Option.some_ne_none what)

/-- In every run, a call of `switch_to` gives the chosen thread what it is due: the context of its own call, or the
start of `kernel_thread` with its two arguments. -/
theorem switchTo_transparent {c : Cpu} {cur : Nat} (page : Page cur)
    (reached : Reach (step kernelThread) ok (start c cur) s) (permitted : ok s (.switchTo next))
    (moved : step kernelThread s (.switchTo next) = some s') :
    ∃ what, due s next = some what ∧ Resumes kernelThread s'.cpu what := by
  have inv := inv_of_reach page reached
  obtain ⟨what, chosen, page', m, -, -, suspended, switches⟩ := due_suspended inv permitted
  refine ⟨what, chosen, ?_⟩
  rw [← Option.some.inj moved]
  show Resumes kernelThread (switchTo s.cpu) what
  rw [switches]
  exact popContext_resumes suspended page' rfl

/-! A thread at 0xA000, made and selected by the thread at 0x9000. -/

def sampleMemory : Memory :=
  setWord (setWord (setWord (fun _ => 0) 0x9F00 0xC0001234) 0x9F04 0x9000) 0x9F08 0xA000

def sampleCpu : Cpu := ⟨sampleMemory, 0, 1, 2, 3, 4, 0xC0005000, 0x9F00⟩

def sampleThread : Event := .create 0xA000 0xC0002000 7 [105, 100, 108, 101]

def sampleSystem : System := ((step 0xC0003000 (start sampleCpu 0x9000) sampleThread).get rfl)

theorem sample_reached : Reach (step 0xC0003000) ok (start sampleCpu 0x9000) sampleSystem := by
  have permitted : ok (start sampleCpu 0x9000) sampleThread := ⟨by decide, by decide, rfl, by decide⟩
  exact Reach.cons permitted rfl (Reach.refl _)

theorem sample_called : Called sampleSystem 0xA000 := by
  constructor
  · decide +kernel
  · decide +kernel
  · decide +kernel
  · decide +kernel
  · right
    exact Option.some_ne_none (Saved.forged 0xC0002000 7)

theorem switchTo_transparent_sample : Page 0x9000 ∧ ok sampleSystem (.switchTo 0xA000) ∧
    ∃ s', step 0xC0003000 sampleSystem (.switchTo 0xA000) = some s' ∧
      ∃ what, due sampleSystem 0xA000 = some what ∧ Resumes 0xC0003000 s'.cpu what :=
  ⟨by decide, sample_called, _, rfl, switchTo_transparent (by decide) sample_reached sample_called rfl⟩

end KOS.SwitchTo
