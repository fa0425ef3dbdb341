import KOS.Stack

/-! The entry code of `kernel.s`: the macro `VECTOR` and `syscall_entry`, one instruction at a time, over the
registers and a byte memory. What an instruction does to the stack is also said of the list of words on it, and the
frame of an entry is followed there from its first push to `iretd`. -/

namespace KOS.IntrEntry
open KOS.ByteMemory KOS.LinkMemory KOS.Stack

inductive Seg where
  | ds
  | es
  | fs
  | gs

/-- All registers but `esp`. -/
structure Regs where
  eax : UInt32
  ecx : UInt32
  edx : UInt32
  ebx : UInt32
  ebp : UInt32
  esi : UInt32
  edi : UInt32
  ds : UInt16
  es : UInt16
  fs : UInt16
  gs : UInt16
  eip : UInt32
  cs : UInt32
  eflags : UInt32

namespace Regs

def seg (r : Regs) : Seg → UInt16
  | .ds => r.ds
  | .es => r.es
  | .fs => r.fs
  | .gs => r.gs

def setSeg (r : Regs) (v : UInt16) : Seg → Regs
  | .ds => { r with ds := v }
  | .es => { r with es := v }
  | .fs => { r with fs := v }
  | .gs => { r with gs := v }

end Regs

structure Cpu where
  regs : Regs
  esp : Nat
  mem : Memory

/-- Pushes in order; there is no stack below address 0. -/
def Cpu.pushAll (c : Cpu) (vs : List UInt32) : Option Cpu :=
  if 4 * vs.length ≤ c.esp then
    some { c with mem := (Stack.pushAll c.mem c.esp vs).1, esp := (Stack.pushAll c.mem c.esp vs).2 }
  else none

/-- Word `k` from the top of the stack. -/
def Cpu.slot (c : Cpu) (k : Nat) : UInt32 := word c.mem (c.esp + 4 * k)

/-- What the CPU does for an interrupt or `int`, through an interrupt gate and without a change of privilege: all code
runs in ring 0. -/
def Cpu.enter (c : Cpu) : Option Cpu :=
  (c.pushAll [c.regs.eflags, c.regs.cs, c.regs.eip]).map fun d =>
    { d with regs := { d.regs with eflags := d.regs.eflags &&& 0xFFFFFDFF } }

/-- Instructions; `addEsp` and `movSlot` count in words. -/
inductive Instr where
  | push (v : UInt32)
  | pushSeg (s : Seg)
  | pushEbx
  | pushEcx
  | pushEdx
  | pushad
  | movAl (v : UInt32)
  | out (port : UInt32)
  | sti
  | call
  | addEsp (n : Nat)
  | movSlot (k : Nat)
  | popad
  | popSeg (s : Seg)
  | iretd

/-- "restore registers". -/
def restore : List Instr := [.popad, .popSeg .gs, .popSeg .fs, .popSeg .es, .popSeg .ds, .addEsp 1, .iretd]

/-- `VECTOR n,ZERO`. -/
def vector (n : UInt32) : List Instr :=
  [.push 0, .pushSeg .ds, .pushSeg .es, .pushSeg .fs, .pushSeg .gs, .pushad, .movAl 0x20, .out 0xA0, .out 0x20,
    .push n, .call, .addEsp 1] ++ restore

def syscallEntry : List Instr :=
  [.push 0, .pushSeg .ds, .pushSeg .es, .pushSeg .fs, .pushSeg .gs, .pushad, .pushEdx, .pushEcx, .pushEbx, .sti,
    .call, .addEsp 3, .movSlot 7] ++ restore

/-- One instruction; `call` goes to code outside. -/
def exec (c : Cpu) : Instr → Option Cpu
  | .push v => c.pushAll [v]
  | .pushSeg s => c.pushAll [(c.regs.seg s).toUInt32]
  | .pushEbx => c.pushAll [c.regs.ebx]
  | .pushEcx => c.pushAll [c.regs.ecx]
  | .pushEdx => c.pushAll [c.regs.edx]
  | .pushad => c.pushAll [c.regs.eax, c.regs.ecx, c.regs.edx, c.regs.ebx, UInt32.ofNat c.esp, c.regs.ebp, c.regs.esi, c.regs.edi]
  | .movAl v => some { c with regs := { c.regs with eax := (c.regs.eax &&& 0xFFFFFF00) ||| v } }
  | .out _ => some c
  | .sti => some { c with regs := { c.regs with eflags := c.regs.eflags ||| 0x200 } }
  | .call => none
  | .addEsp n => some { c with esp := up c.esp n }
  | .movSlot k => some { c with mem := setWord c.mem (c.esp + 4 * k) c.regs.eax }
  | .popad => some { c with
      regs := { c.regs with
        edi := c.slot 0, esi := c.slot 1, ebp := c.slot 2, ebx := c.slot 4, edx := c.slot 5, ecx := c.slot 6,
        eax := c.slot 7 }
      esp := up c.esp 8 }
  | .popSeg s => some { c with regs := c.regs.setSeg (c.slot 0).toUInt16 s, esp := up c.esp 1 }
  | .iretd => some { c with
      regs := { c.regs with eip := c.slot 0, cs := c.slot 1, eflags := c.slot 2 }
      esp := up c.esp 3 }

/-! The same on the list of words on the stack. `esp` is only for `pushad`, which pushes it. -/

def onList (esp : Nat) : Instr → Regs → List UInt32 → Option (Regs × List UInt32)
  | .push v, r, st => some (r, v :: st)
  | .pushSeg s, r, st => some (r, (r.seg s).toUInt32 :: st)
  | .pushEbx, r, st => some (r, r.ebx :: st)
  | .pushEcx, r, st => some (r, r.ecx :: st)
  | .pushEdx, r, st => some (r, r.edx :: st)
  | .pushad, r, st => some (r, r.edi :: r.esi :: r.ebp :: UInt32.ofNat esp :: r.ebx :: r.edx :: r.ecx :: r.eax :: st)
  | .movAl v, r, st => some ({ r with eax := (r.eax &&& 0xFFFFFF00) ||| v }, st)
  | .out _, r, st => some (r, st)
  | .sti, r, st => some ({ r with eflags := r.eflags ||| 0x200 }, st)
  | .addEsp n, r, st => if n ≤ st.length then some (r, st.drop n) else none
  | .movSlot k, r, st => if k < st.length then some (r, st.set k r.eax) else none
  | .popad, r, st => if 8 ≤ st.length then
      some ({ r with
        edi := st.getD 0 0, esi := st.getD 1 0, ebp := st.getD 2 0, ebx := st.getD 4 0, edx := st.getD 5 0,
        ecx := st.getD 6 0, eax := st.getD 7 0 }, st.drop 8)
    else none
  | .popSeg s, r, st => if 1 ≤ st.length then some (r.setSeg (st.getD 0 0).toUInt16 s, st.drop 1) else none
  | .iretd, r, st => if 3 ≤ st.length then
      some ({ r with eip := st.getD 0 0, cs := st.getD 1 0, eflags := st.getD 2 0 }, st.drop 3)
    else none
  | .call, _, _ => none

/-- The list of words from `esp` up to `top`. -/
structure Holds (c : Cpu) (st : List UInt32) (top : Nat) : Prop where
  words : Words c.mem c.esp st
  length : c.esp + 4 * st.length = top
  fits : top < 2 ^ 32

variable {c c' : Cpu} {r r' : Regs} {st st' : List UInt32} {top : Nat} {i : Instr}

theorem Holds.pushAll (holds : Holds c st top) {vs : List UInt32} (ran : c.pushAll vs = some c') :
    c'.regs = c.regs ∧ Holds c' (vs.reverse ++ st) top ∧ ChangesOnly (Set.Ico 0 top) c.mem c'.mem := by
  have length := holds.length
  have fits := holds.fits
  unfold Cpu.pushAll at ran
  split_ifs at ran with room
  rw [← Option.some.inj ran]
  have lower := pushAll_esp vs c.mem room (by omega)
  refine ⟨rfl, ⟨?_, ?_, fits⟩, ?_⟩
  · show Words (Stack.pushAll c.mem c.esp vs).1 (Stack.pushAll c.mem c.esp vs).2 _
    rw [lower]
    exact holds.words.pushAll vs room (by omega) (by omega)
  · show (Stack.pushAll c.mem c.esp vs).2 + 4 * (vs.reverse ++ st).length = top
    rw [lower, List.length_append, List.length_reverse]
    omega
  · apply (pushAll_changes vs c.mem room (by omega)).mono
    exact Set.Ico_subset_Ico (Nat.zero_le _) (by omega)

/-- Words taken off the stack. -/
theorem Holds.drop (holds : Holds c st top) {n : Nat} (enough : n ≤ st.length) (regs : Regs) :
    Holds { c with regs := regs, esp := up c.esp n } (st.drop n) top := by
  have length := holds.length
  have fits := holds.fits
  have raised : up c.esp n = c.esp + 4 * n := up_eq (by omega)
  have split := holds.words
  rw [← List.take_append_drop n st, words_append, List.length_take_of_le enough] at split
  refine ⟨?_, ?_, fits⟩
  · show Words c.mem (up c.esp n) _
    rw [raised]
    exact split.2
  · show up c.esp n + 4 * (st.drop n).length = top
    rw [raised, List.length_drop]
    omega

theorem Holds.slot (holds : Holds c st top) {k : Nat} (inside : k < st.length) : c.slot k = st.getD k 0 := by
  apply holds.words.get
  rw [List.getD_eq_getElem?_getD, List.getElem?_eq_getElem inside]
  rfl

/-- An instruction does to the list what it does to the stack, and changes nothing above it. -/
theorem exec_onList (holds : Holds c st top) (ran : exec c i = some c')
    (listed : onList c.esp i c.regs st = some (r', st')) :
    c'.regs = r' ∧ Holds c' st' top ∧ ChangesOnly (Set.Ico 0 top) c.mem c'.mem := by
  have same : ChangesOnly (Set.Ico 0 top) c.mem c.mem := ChangesOnly.refl _ _
  cases i with
  | push v =>
    cases listed
    exact holds.pushAll ran
  | pushSeg s =>
    cases listed
    exact holds.pushAll ran
  | pushEbx =>
    cases listed
    exact holds.pushAll ran
  | pushEcx =>
    cases listed
    exact holds.pushAll ran
  | pushEdx =>
    cases listed
    exact holds.pushAll ran
  | pushad =>
    cases listed
    exact holds.pushAll ran
  | movAl v =>
    cases listed
    cases ran
    exact ⟨rfl, ⟨holds.words, holds.length, holds.fits⟩, same⟩
  | out port =>
    cases listed
    cases ran
    exact ⟨rfl, holds, same⟩
  | sti =>
    cases listed
    cases ran
    exact ⟨rfl, ⟨holds.words, holds.length, holds.fits⟩, same⟩
  | call => cases ran
  | addEsp n =>
    cases ran
    simp only [onList] at listed
    split_ifs at listed with enough
    cases listed
    exact ⟨rfl, holds.drop enough c.regs, same⟩
  | movSlot k =>
    cases ran
    simp only [onList] at listed
    split_ifs at listed with inside
    cases listed
    have length := holds.length
    have fits := holds.fits
    refine ⟨rfl, ⟨holds.words.set c.regs.eax inside (by omega), ?_, fits⟩, ?_⟩
    · rw [List.length_set]
      exact length
    · apply (setWord_changes c.mem c.regs.eax (by omega)).mono
      exact Set.Ico_subset_Ico (Nat.zero_le _) (by omega)
  | popad =>
    cases ran
    simp only [onList] at listed
    split_ifs at listed with enough
    cases listed
    refine ⟨?_, holds.drop enough _, same⟩
    rw [holds.slot (show 0 < st.length by omega), holds.slot (show 1 < st.length by omega),
      holds.slot (show 2 < st.length by omega), holds.slot (show 4 < st.length by omega),
      holds.slot (show 5 < st.length by omega), holds.slot (show 6 < st.length by omega),
      holds.slot (show 7 < st.length by omega)]
  | popSeg s =>
    cases ran
    simp only [onList] at listed
    split_ifs at listed with enough
    cases listed
    refine ⟨?_, holds.drop enough _, same⟩
    rw [holds.slot (show 0 < st.length by omega)]
  | iretd =>
    cases ran
    simp only [onList] at listed
    split_ifs at listed with enough
    cases listed
    refine ⟨?_, holds.drop enough _, same⟩
    rw [holds.slot (show 0 < st.length by omega), holds.slot (show 1 < st.length by omega),
      holds.slot (show 2 < st.length by omega)]

/-! A frame followed to its end. -/

/-- How many words are pushed for the handler. -/
def args (syscall : Bool) : Nat := if syscall then 3 else 1

/-- The registers that an entry from `entry` is to leave when its handler returns `value`. -/
def final (entry : Regs) (syscall : Bool) (value : UInt32) : Regs := if syscall then { entry with eax := value } else entry

/-- What a handler gives back; it may change anything else. -/
structure Cdecl (r r' : Regs) : Prop where
  ebx : r'.ebx = r.ebx
  esi : r'.esi = r.esi
  edi : r'.edi = r.edi
  ebp : r'.ebp = r.ebp

/-- From these registers and this stack, `code` passes the arguments of a system call and ends with the registers
that the entry is to leave, whatever its handler does to its arguments and the registers it may change. There is a
value once the handler has returned. -/
def Safe (entry : Regs) (syscall : Bool) : Option UInt32 → List Instr → Regs → List UInt32 → Prop
  | _, [], _, _ => False
  | _, .call :: rest, r, st =>
      args syscall ≤ st.length ∧ (syscall = true → st.take 3 = [entry.ebx, entry.ecx, entry.edx]) ∧
        ∀ r' ws, ws.length = args syscall → Cdecl r r' →
          Safe entry syscall (some r'.eax) rest r' (ws ++ st.drop (args syscall))
  | value, .iretd :: _, r, st => ∃ v, value = some v ∧ onList 0 .iretd r st = some (final entry syscall v, [])
  | value, i :: rest, r, st => ∀ esp, ∃ r' st', onList esp i r st = some (r', st') ∧ Safe entry syscall value rest r' st'

section Entry

variable (e : Regs) (value : Option UInt32) (eflags : UInt32)

/-- The words that the entry code keeps until `restore`, on top of what the CPU has pushed. -/
def context (esp : Nat) : List UInt32 :=
  [e.edi, e.esi, e.ebp, UInt32.ofNat esp, e.ebx, e.edx, e.ecx, e.eax, e.gs.toUInt32, e.fs.toUInt32, e.es.toUInt32,
    e.ds.toUInt32, 0, e.eip, e.cs, e.eflags]

/-- `restore` brings back every register, with `eax` from its slot. -/
theorem restore_safe (r : Regs) (syscall : Bool) (v slot : UInt32) (esp : Nat)
    (kept : { e with eax := slot } = final e syscall v) :
    Safe e syscall (some v) restore r ((context e esp).set 7 slot) := by
  -- popad, then the four segment registers, then the error code
  intro _
  refine ⟨_, _, rfl, ?_⟩
  intro _
  refine ⟨_, _, rfl, ?_⟩
  intro _
  refine ⟨_, _, rfl, ?_⟩
  intro _
  refine ⟨_, _, rfl, ?_⟩
  intro _
  refine ⟨_, _, rfl, ?_⟩
  intro _
  refine ⟨_, _, rfl, ?_⟩
  refine ⟨v, rfl, ?_⟩
  rw [← kept]
  simp [onList, context, Regs.setSeg]

/-- The pushes that both entries start with. -/
theorem save_safe (syscall : Bool) (rest : List Instr)
    (continues : ∀ esp, Safe e syscall value rest { e with eflags := eflags } (context e esp)) :
    Safe e syscall value ([.push 0, .pushSeg .ds, .pushSeg .es, .pushSeg .fs, .pushSeg .gs, .pushad] ++ rest)
      { e with eflags := eflags } [e.eip, e.cs, e.eflags] := by
  intro _
  refine ⟨_, _, rfl, ?_⟩
  intro _
  refine ⟨_, _, rfl, ?_⟩
  intro _
  refine ⟨_, _, rfl, ?_⟩
  intro _
  refine ⟨_, _, rfl, ?_⟩
  intro _
  refine ⟨_, _, rfl, ?_⟩
  intro esp
  refine ⟨_, _, rfl, ?_⟩
  exact continues esp

theorem vector_safe (n : UInt32) : Safe e false value (vector n) { e with eflags := eflags } [e.eip, e.cs, e.eflags] := by
  apply save_safe
  -- al, the two ports, the number of the interrupt
  intro esp _
  refine ⟨_, _, rfl, ?_⟩
  intro _
  refine ⟨_, _, rfl, ?_⟩
  intro _
  refine ⟨_, _, rfl, ?_⟩
  intro _
  refine ⟨_, _, rfl, ?_⟩
  refine ⟨Nat.succ_le_succ (Nat.zero_le _), fun no => absurd no Bool.false_ne_true, ?_⟩
  intro r' ws length _
  obtain ⟨w, rfl⟩ := List.length_eq_one_iff.mp length
  intro _
  refine ⟨_, _, rfl, ?_⟩
  exact restore_safe e r' false r'.eax e.eax esp rfl

theorem syscallEntry_safe : Safe e true value syscallEntry { e with eflags := eflags } [e.eip, e.cs, e.eflags] := by
  apply save_safe
  -- the three arguments, then interrupts are enabled
  intro esp _
  refine ⟨_, _, rfl, ?_⟩
  intro _
  refine ⟨_, _, rfl, ?_⟩
  intro _
  refine ⟨_, _, rfl, ?_⟩
  intro _
  refine ⟨_, _, rfl, ?_⟩
  refine ⟨Nat.le_add_left 3 _, fun _ => rfl, ?_⟩
  intro r' ws length _
  obtain ⟨a, b, c, rfl⟩ := List.length_eq_three.mp length
  intro _
  refine ⟨_, _, rfl, ?_⟩
  intro _
  refine ⟨_, _, rfl, ?_⟩
  exact restore_safe e r' true r'.eax r'.eax esp rfl

end Entry

end KOS.IntrEntry
