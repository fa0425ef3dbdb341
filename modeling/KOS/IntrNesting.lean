import KOS.IntrEntry
import KOS.Machine

/-! Entries inside one another: an interrupt may come at any instruction, of the entry code too, and code outside the
entry code may run `int 0x80`. Handlers are arbitrary code that keeps to cdecl. -/

namespace KOS.IntrNesting
open KOS.ByteMemory KOS.LinkMemory KOS.Stack KOS.IntrEntry KOS.Machine

/-- Where an entry is: before its handler, in it (with the registers at its first instruction), or behind it. -/
inductive Phase where
  | before
  | handler (regs : Regs) (esp : Nat)
  | after (value : UInt32)

def Phase.value : Phase → Option UInt32
  | .after value => some value
  | _ => none

/-- An entry that has not reached its `iretd`: the registers at the entry, and the rest of its code. -/
structure Frame where
  entry : Regs
  entryEsp : Nat
  syscall : Bool
  code : List Instr
  phase : Phase

/-- The innermost entry comes first. -/
structure System where
  cpu : Cpu
  frames : List Frame

inductive Event where
  | work (c : Cpu)
  | interrupt (n : UInt32)
  | int80
  | instr
  | call (back : UInt32)
  | ret

/-- The entries after an instruction of `f` with `rest` behind it. -/
def advance (f : Frame) (fs : List Frame) (rest : List Instr) : Instr → List Frame
  | .iretd => fs
  | _ => { f with code := rest } :: fs

/-- What the CPU does before the first instruction of `code`. -/
def begin (s : System) (syscall : Bool) (code : List Instr) : Option System :=
  s.cpu.enter.map fun c => ⟨c, ⟨s.cpu.regs, s.cpu.esp, syscall, code, .before⟩ :: s.frames⟩

def step (s : System) : Event → Option System
  | .work c => some { s with cpu := c }
  | .interrupt n => begin s false (vector n)
  | .int80 => begin s true syscallEntry
  | .instr =>
      match s.frames with
      | [] => none
      | f :: fs =>
          match f.phase, f.code with
          | .handler _ _, _ => none
          | _, [] => none
          | _, i :: rest => (exec s.cpu i).map fun c => ⟨c, advance f fs rest i⟩
  | .call back =>
      match s.frames with
      | [] => none
      | f :: fs =>
          match f.phase, f.code with
          | .before, .call :: rest =>
              (s.cpu.pushAll [back]).map fun c => ⟨c, { f with code := rest, phase := .handler c.regs c.esp } :: fs⟩
          | _, _ => none
  | .ret =>
      match s.frames with
      | [] => none
      | f :: fs =>
          match f.phase with
          | .handler _ _ =>
              some ⟨{ s.cpu with esp := up s.cpu.esp 1 }, { f with phase := .after s.cpu.regs.eax } :: fs⟩
          | _ => none

/-- `SYS_TEST0` to `SYS_TEST3`. -/
def registered : List UInt32 := [0, 1, 2, 3]

/-- The lowest word that an entry keeps: a handler may change its arguments. -/
def Frame.base (f : Frame) (esp : Nat) : Nat :=
  match f.phase with
  | .handler _ h => h + 4 + 4 * args f.syscall
  | _ => esp

/-- The words that the entries keep, the innermost of them interrupted or running at `esp`. -/
def savedCells : Nat → List Frame → Set Nat
  | _, [] => ∅
  | esp, f :: fs => Set.Ico (f.base esp) f.entryEsp ∪ savedCells f.entryEsp fs

/-- Code outside the entry code runs, with its stack below the frame of its call. -/
def Outside (esp : Nat) : List Frame → Prop
  | [] => True
  | f :: _ =>
      match f.phase with
      | .handler _ h => esp ≤ h
      | _ => False

instance (esp : Nat) (frames : List Frame) : Decidable (Outside esp frames) :=
  match frames with
  | [] => isTrue trivial
  | f :: _ => match phase : f.phase with
    | .handler _ h => decidable_of_iff (esp ≤ h) (by rw [Outside, phase])
    | .before => isFalse (by rw [Outside, phase]; exact id)
    | .after _ => isFalse (by rw [Outside, phase]; exact id)

/-- The handler returns with `esp` at its return address and the registers of cdecl. -/
def Returns (c : Cpu) : List Frame → Prop
  | [] => True
  | f :: _ =>
      match f.phase with
      | .handler r h => c.esp = h ∧ Cdecl r c.regs
      | _ => True

/-- Handlers do not write what the entries keep, and return as cdecl says. -/
def ok (s : System) : Event → Prop
  | .work c => Outside s.cpu.esp s.frames ∧ Outside c.esp s.frames ∧ c.esp < 2 ^ 32 ∧
      ChangesOnly {x | x ∉ savedCells s.cpu.esp s.frames} s.cpu.mem c.mem
  | .interrupt n => 0x20 ≤ n ∧ n ≤ 0x2F
  | .int80 => Outside s.cpu.esp s.frames ∧ s.cpu.regs.eax ∈ registered
  | .instr => True
  | .call _ => True
  | .ret => Returns s.cpu s.frames

/-- Before the first entry. -/
def start (c : Cpu) : System := ⟨c, []⟩

/-! What is kept for each entry. -/

/-- The entry in progress can be followed to its end, from the registers `c` that run now or were interrupted. -/
def FrameGood (c : Cpu) (f : Frame) : Prop :=
  match f.phase with
  | .handler r h => c.esp ≤ h ∧ ∃ st, Holds { c with esp := h + 4 + 4 * args f.syscall } st f.entryEsp ∧
      ∀ r' ws, ws.length = args f.syscall → Cdecl r r' →
        Safe f.entry f.syscall (some r'.eax) f.code r' (ws ++ st)
  | phase => ∃ st, Holds c st f.entryEsp ∧ Safe f.entry f.syscall phase.value f.code c.regs st

/-- Only code outside the entry code runs `int 0x80`, so the `eax` that it changes is no register of an entry. -/
def Good : Cpu → List Frame → Prop
  | _, [] => True
  | c, f :: fs => FrameGood c f ∧ (f.syscall = true → Outside f.entryEsp fs) ∧ Good ⟨f.entry, f.entryEsp, c.mem⟩ fs

variable {c c' : Cpu} {f : Frame} {fs : List Frame} {s s' : System} {S : Set Nat} {m : Memory}

theorem Holds.congr {st : List UInt32} {top : Nat} (holds : Holds c st top) (changes : ChangesOnly S c.mem m)
    (outside : ∀ x ∈ Set.Ico c.esp top, x ∉ S) : Holds { c with mem := m } st top := by
  have length := holds.length
  have fits := holds.fits
  refine ⟨holds.words.congr changes (by omega) ?_, length, fits⟩
  intro x inside
  exact outside x (Set.Ico_subset_Ico_right (by omega) inside)

/-- Either the handler of an entry runs, or its own code does. -/
theorem Frame.handler_or_code (f : Frame) : (∃ r h, f.phase = .handler r h) ∨ ∀ r h, f.phase ≠ .handler r h := by
  by_cases handler : ∃ r h, f.phase = .handler r h
  · exact .inl handler
  · right
    intro r h phase
    exact handler ⟨r, h, phase⟩

theorem base_of_code (runs : ∀ r h, f.phase ≠ .handler r h) (esp : Nat) : f.base esp = esp := by
  unfold Frame.base
  cases phase : f.phase with
  | handler r h => exact absurd phase (runs r h)
  | before => rfl
  | after value => rfl

theorem frameGood_iff_of_code (runs : ∀ r h, f.phase ≠ .handler r h) :
    FrameGood c f ↔ ∃ st, Holds c st f.entryEsp ∧ Safe f.entry f.syscall f.phase.value f.code c.regs st := by
  unfold FrameGood
  cases phase : f.phase with
  | handler r h => exact absurd phase (runs r h)
  | before => exact Iff.rfl
  | after value => exact Iff.rfl

theorem FrameGood.esp_le (good : FrameGood c f) : c.esp ≤ f.base c.esp ∧ c.esp ≤ f.entryEsp := by
  rcases f.handler_or_code with ⟨r, h, phase⟩ | runs
  · unfold FrameGood at good
    unfold Frame.base
    simp only [phase] at good ⊢
    obtain ⟨below, st, holds, -⟩ := good
    have length : h + 4 + 4 * args f.syscall + 4 * st.length = f.entryEsp := holds.length
    omega
  · rw [base_of_code runs]
    obtain ⟨st, holds, -⟩ := (frameGood_iff_of_code runs).mp good
    have length := holds.length
    omega

theorem FrameGood.congr (good : FrameGood c f) (changes : ChangesOnly S c.mem m)
    (outside : ∀ x ∈ Set.Ico (f.base c.esp) f.entryEsp, x ∉ S) : FrameGood { c with mem := m } f := by
  rcases f.handler_or_code with ⟨r, h, phase⟩ | runs
  · unfold FrameGood at good ⊢
    unfold Frame.base at outside
    simp only [phase] at good outside ⊢
    obtain ⟨below, st, holds, safe⟩ := good
    exact ⟨below, st, Holds.congr holds changes outside, safe⟩
  · rw [base_of_code runs] at outside
    obtain ⟨st, holds, safe⟩ := (frameGood_iff_of_code runs).mp good
    exact (frameGood_iff_of_code runs).mpr ⟨st, Holds.congr holds changes outside, safe⟩

/-- The stack grows down, so what the entries keep is above `esp`. -/
theorem saved_above {x : Nat} (good : Good c fs) (saved : x ∈ savedCells c.esp fs) : c.esp ≤ x := by
  induction fs generalizing c with
  | nil => exact absurd saved (Set.notMem_empty x)
  | cons f fs ih =>
    have bounds := good.1.esp_le
    rcases saved with own | outer
    · exact bounds.1.trans own.1
    · exact bounds.2.trans (ih good.2.2 outer)

theorem Good.congr (good : Good c fs) (changes : ChangesOnly S c.mem m)
    (outside : ∀ x ∈ savedCells c.esp fs, x ∉ S) : Good { c with mem := m } fs := by
  induction fs generalizing c with
  | nil => trivial
  | cons f fs ih =>
    refine ⟨good.1.congr changes ?_, good.2.1, ih (c := ⟨f.entry, f.entryEsp, c.mem⟩) good.2.2 changes ?_⟩
    · exact fun x inside => outside x (.inl inside)
    · exact fun x inside => outside x (.inr inside)

/-- Writes below `esp`. -/
theorem Good.below (good : Good c fs) (changes : ChangesOnly (Set.Ico 0 c.esp) c.mem m) : Good { c with mem := m } fs := by
  apply good.congr changes
  intro x saved written
  have above := saved_above good saved
  have low := written.2
  omega

/-- Code outside the entry code may change the registers and lower `esp`. -/
theorem Good.outside (good : Good c fs) (runs : Outside c'.esp fs) (same : c'.mem = c.mem) : Good c' fs := by
  cases fs with
  | nil => trivial
  | cons f fs =>
    unfold Outside at runs
    obtain ⟨first, called, rest⟩ := good
    refine ⟨?_, called, ?_⟩
    · unfold FrameGood at first ⊢
      cases phase : f.phase with
      | handler r h =>
        simp only [phase] at runs first ⊢
        obtain ⟨-, st, holds, safe⟩ := first
        refine ⟨runs, st, ⟨?_, holds.length, holds.fits⟩, safe⟩
        show Words c'.mem _ st
        rw [same]
        exact holds.words
      | before =>
        simp only [phase] at runs
      | after value =>
        simp only [phase] at runs
    · rw [same]
      exact rest

/-! One step. -/

/-- The words of `enter`, and what follows from them for the code that starts. -/
theorem Good.begin {syscall : Bool} {code : List Instr} (good : Good s.cpu s.frames) (small : s.cpu.esp < 2 ^ 32)
    (runs : syscall = true → Outside s.cpu.esp s.frames)
    (safe : ∀ (e : Regs) (eflags : UInt32),
      Safe e syscall none code { e with eflags := eflags } [e.eip, e.cs, e.eflags])
    (began : IntrNesting.begin s syscall code = some s') : Good s'.cpu s'.frames ∧ s'.cpu.esp < 2 ^ 32 := by
  obtain ⟨c, entered, rfl⟩ := Option.map_eq_some_iff.mp began
  obtain ⟨d, pushed, rfl⟩ := Option.map_eq_some_iff.mp entered
  have empty : Holds s.cpu [] s.cpu.esp := ⟨trivial, rfl, small⟩
  obtain ⟨regs, holds, changes⟩ := empty.pushAll pushed
  have length : d.esp + 4 * 3 = s.cpu.esp := holds.length
  refine ⟨⟨?_, runs, ?_⟩, ?_⟩
  · refine ⟨[s.cpu.regs.eip, s.cpu.regs.cs, s.cpu.regs.eflags], ⟨holds.words, holds.length, holds.fits⟩, ?_⟩
    dsimp only
    rw [regs]
    exact safe s.cpu.regs _
  · exact good.below changes
  · show d.esp < 2 ^ 32
    omega

theorem Safe.instr {e : Regs} {syscall : Bool} {value : Option UInt32} {i : Instr} {rest : List Instr} {r : Regs}
    {st : List UInt32} (safe : Safe e syscall value (i :: rest) r st) (plain : i ≠ .call) (more : i ≠ .iretd)
    (esp : Nat) : ∃ r' st', onList esp i r st = some (r', st') ∧ Safe e syscall value rest r' st' := by
  cases i with
  | call => exact absurd rfl plain
  | iretd => exact absurd rfl more
  | _ => exact safe esp

/-- The entry whose code runs an instruction. -/
theorem instr_cases (moved : step s .instr = some s') :
    ∃ f fs i rest c, s.frames = f :: fs ∧ (∀ r h, f.phase ≠ .handler r h) ∧ f.code = i :: rest ∧
      exec s.cpu i = some c ∧ s' = ⟨c, advance f fs rest i⟩ := by
  simp only [step] at moved
  split at moved
  · cases moved
  · next f fs frames =>
    split at moved
    · cases moved
    · cases moved
    · next i rest code runs =>
      obtain ⟨c, ran, same⟩ := Option.map_eq_some_iff.mp moved
      exact ⟨f, fs, i, rest, c, frames, runs, code, ran, same.symm⟩

/-- The end of an entry. -/
theorem iretd_final {rest : List Instr} (good : FrameGood c f) (runs : ∀ r h, f.phase ≠ .handler r h)
    (code : f.code = .iretd :: rest) (ran : exec c .iretd = some c') :
    (∃ v, f.phase = .after v ∧ c'.regs = final f.entry f.syscall v) ∧ c'.esp = f.entryEsp ∧ f.entryEsp < 2 ^ 32 ∧
      ChangesOnly (Set.Ico 0 f.entryEsp) c.mem c'.mem := by
  obtain ⟨st, holds, safe⟩ := (frameGood_iff_of_code runs).mp good
  rw [code] at safe
  obtain ⟨v, value, listed⟩ := safe
  obtain ⟨regs, holds', changes⟩ := exec_onList holds ran listed
  refine ⟨⟨v, ?_, regs⟩, holds'.length, holds.fits, changes⟩
  cases phase : f.phase with
  | after w =>
    rw [phase] at value
    rw [Option.some.inj value]
  | before =>
    rw [phase] at value
    exact absurd value.symm (Option.some_ne_none v)
  | handler r h => exact absurd phase (runs r h)

theorem Good.instr (good : Good s.cpu s.frames) (moved : step s .instr = some s') :
    Good s'.cpu s'.frames ∧ s'.cpu.esp < 2 ^ 32 := by
  obtain ⟨f, fs, i, rest, c, frames, runs, code, ran, rfl⟩ := instr_cases moved
  rw [frames] at good
  obtain ⟨first, called, outer⟩ := good
  by_cases ends : i = .iretd
  · subst ends
    obtain ⟨⟨v, -, regs⟩, esp, small, changes⟩ := iretd_final first runs code ran
    have kept := outer.below changes
    constructor
    · show Good c fs
      cases syscall : f.syscall with
      | true => exact kept.outside (by rw [esp]; exact called syscall) rfl
      | false =>
        rw [syscall] at regs
        have same : c = ⟨f.entry, f.entryEsp, c.mem⟩ := by
          rw [← esp, ← show c.regs = f.entry from regs]
        rw [same]
        exact kept
    · show c.esp < 2 ^ 32
      rw [esp]
      exact small
  · have plain : i ≠ .call := by
      rintro rfl
      exact absurd ran.symm (Option.some_ne_none c)
    obtain ⟨st, holds, safe⟩ := (frameGood_iff_of_code runs).mp first
    rw [code] at safe
    obtain ⟨r', st', listed, safe'⟩ := Safe.instr safe plain ends s.cpu.esp
    obtain ⟨regs, holds', changes⟩ := exec_onList holds ran listed
    have same : advance f fs rest i = { f with code := rest } :: fs := by
      cases i with
      | iretd => exact absurd rfl ends
      | _ => rfl
    dsimp only
    rw [same]
    have runs' : ∀ r h, ({ f with code := rest } : Frame).phase ≠ .handler r h := runs
    refine ⟨⟨(frameGood_iff_of_code runs').mpr ⟨st', holds', ?_⟩, called, outer.below changes⟩, ?_⟩
    · rw [regs]
      exact safe'
    · have length := holds'.length
      have fits := holds'.fits
      omega

/-- The entry whose handler is called. -/
theorem call_cases {back : UInt32} (moved : step s (.call back) = some s') :
    ∃ f fs rest c, s.frames = f :: fs ∧ f.phase = .before ∧ f.code = .call :: rest ∧
      s.cpu.pushAll [back] = some c ∧ s' = ⟨c, { f with code := rest, phase := .handler c.regs c.esp } :: fs⟩ := by
  simp only [step] at moved
  split at moved
  · cases moved
  · next f fs frames =>
    split at moved
    · next rest phase code =>
      obtain ⟨c, pushed, same⟩ := Option.map_eq_some_iff.mp moved
      exact ⟨f, fs, rest, c, frames, phase, code, pushed, same.symm⟩
    · cases moved

/-- The stack at the first instruction of a handler: the return address, the arguments, and what is kept. -/
theorem call_holds {rest : List Instr} {back : UInt32} (good : FrameGood c f) (phase : f.phase = .before)
    (code : f.code = .call :: rest) (pushed : c.pushAll [back] = some c') :
    ∃ st, Holds c' (back :: st) f.entryEsp ∧ c'.regs = c.regs ∧ ChangesOnly (Set.Ico 0 f.entryEsp) c.mem c'.mem ∧
      args f.syscall ≤ st.length ∧ (f.syscall = true → st.take 3 = [f.entry.ebx, f.entry.ecx, f.entry.edx]) ∧
        ∀ r' ws, ws.length = args f.syscall → Cdecl c.regs r' →
          Safe f.entry f.syscall (some r'.eax) rest r' (ws ++ st.drop (args f.syscall)) := by
  have runs : ∀ r h, f.phase ≠ .handler r h := by
    rw [phase]
    exact fun r h => Phase.noConfusion
  obtain ⟨st, holds, safe⟩ := (frameGood_iff_of_code runs).mp good
  rw [code] at safe
  obtain ⟨enough, passed, returns⟩ := safe
  obtain ⟨regs, holds', changes⟩ := holds.pushAll pushed
  exact ⟨st, holds', regs, changes, enough, passed, returns⟩

theorem Good.call {back : UInt32} (good : Good s.cpu s.frames) (moved : step s (.call back) = some s') :
    Good s'.cpu s'.frames ∧ s'.cpu.esp < 2 ^ 32 := by
  obtain ⟨f, fs, rest, c, frames, phase, code, pushed, rfl⟩ := call_cases moved
  rw [frames] at good
  obtain ⟨first, called, outer⟩ := good
  obtain ⟨st, holds, regs, changes, enough, -, returns⟩ := call_holds first phase code pushed
  have length := holds.length
  have fits := holds.fits
  rw [List.length_cons] at length
  refine ⟨⟨⟨Nat.le_refl _, st.drop (args f.syscall), ⟨?_, ?_, fits⟩, ?_⟩, called, outer.below changes⟩, ?_⟩
  · have split := holds.words.2
    rw [← List.take_append_drop (args f.syscall) st, words_append, List.length_take_of_le enough] at split
    exact split.2
  · show c.esp + 4 + 4 * args f.syscall + 4 * (st.drop (args f.syscall)).length = f.entryEsp
    rw [List.length_drop]
    omega
  · rw [regs]
    exact returns
  · show c.esp < 2 ^ 32
    omega

/-- The entry whose handler returns. -/
theorem ret_cases (moved : step s .ret = some s') :
    ∃ f fs r h, s.frames = f :: fs ∧ f.phase = .handler r h ∧
      s' = ⟨{ s.cpu with esp := up s.cpu.esp 1 }, { f with phase := .after s.cpu.regs.eax } :: fs⟩ := by
  simp only [step] at moved
  split at moved
  · cases moved
  · next f fs frames =>
    split at moved
    · next r h phase => exact ⟨f, fs, r, h, frames, phase, (Option.some.inj moved).symm⟩
    · cases moved

theorem Good.ret (good : Good s.cpu s.frames) (permitted : ok s .ret) (moved : step s .ret = some s') :
    Good s'.cpu s'.frames ∧ s'.cpu.esp < 2 ^ 32 := by
  obtain ⟨f, fs, r, h, frames, phase, rfl⟩ := ret_cases moved
  rw [frames] at good
  obtain ⟨first, called, outer⟩ := good
  have back : Returns s.cpu s.frames := permitted
  rw [frames, Returns, phase] at back
  obtain ⟨esp, cdecl⟩ := back
  unfold FrameGood at first
  simp only [phase] at first
  obtain ⟨-, st, holds, returns⟩ := first
  have length : h + 4 + 4 * args f.syscall + 4 * st.length = f.entryEsp := holds.length
  have fits := holds.fits
  -- the arguments are whatever the handler has left of them
  obtain ⟨ws, count, words⟩ := exists_words s.cpu.mem (h + 4) (args f.syscall)
  have raised : up s.cpu.esp 1 = h + 4 := by
    rw [esp]
    exact up_eq (by omega)
  dsimp only
  rw [raised]
  refine ⟨⟨?_, called, outer⟩, by omega⟩
  refine ⟨ws ++ st, ⟨?_, ?_, fits⟩, returns _ ws count cdecl⟩
  · show Words s.cpu.mem (h + 4) (ws ++ st)
    rw [words_append, count]
    exact ⟨words, holds.words⟩
  · show h + 4 + 4 * (ws ++ st).length = f.entryEsp
    rw [List.length_append, count]
    omega

theorem Good.work {c : Cpu} (good : Good s.cpu s.frames) (permitted : ok s (.work c)) : Good c s.frames := by
  obtain ⟨-, runs, -, changes⟩ := permitted
  have kept := good.congr changes (fun x saved unsaved => unsaved saved)
  exact kept.outside runs rfl

/-! Every run. -/

structure Inv (s : System) : Prop where
  good : Good s.cpu s.frames
  small : s.cpu.esp < 2 ^ 32

theorem Inv.step {e : Event} (inv : Inv s) (permitted : ok s e) (moved : IntrNesting.step s e = some s') : Inv s' := by
  cases e with
  | work c =>
    rw [← Option.some.inj moved]
    exact ⟨inv.good.work permitted, permitted.2.2.1⟩
  | interrupt n =>
    obtain ⟨good, small⟩ := inv.good.begin inv.small (fun no => absurd no Bool.false_ne_true)
      (fun e eflags => vector_safe e none eflags n) moved
    exact ⟨good, small⟩
  | int80 =>
    obtain ⟨good, small⟩ := inv.good.begin inv.small (fun _ => permitted.1)
      (fun e eflags => syscallEntry_safe e none eflags) moved
    exact ⟨good, small⟩
  | instr =>
    obtain ⟨good, small⟩ := inv.good.instr moved
    exact ⟨good, small⟩
  | call back =>
    obtain ⟨good, small⟩ := inv.good.call moved
    exact ⟨good, small⟩
  | ret =>
    obtain ⟨good, small⟩ := inv.good.ret permitted moved
    exact ⟨good, small⟩

theorem inv_of_reach (small : c.esp < 2 ^ 32) (reached : Reach step ok (start c) s) : Inv s := by
  apply Reach.invariant _ _ reached
  · intro before e after inv permitted moved
    exact inv.step permitted moved
  · exact ⟨trivial, small⟩

/-- In every run, an entry ends with the registers and `esp` that it began with, but for the value of a system call
in `eax`; and a system call's handler starts with `ebx`, `ecx` and `edx` of its caller as its arguments. -/
theorem entries_transparent (small : c.esp < 2 ^ 32) (reached : Reach step ok (start c) s) :
    (∀ f fs rest s', s.frames = f :: fs → f.code = .iretd :: rest → step s .instr = some s' →
      ∃ v, f.phase = .after v ∧ s'.cpu.regs = final f.entry f.syscall v ∧ s'.cpu.esp = f.entryEsp ∧ s'.frames = fs) ∧
    ∀ f fs back s', s.frames = f :: fs → f.syscall = true → step s (.call back) = some s' →
      word s'.cpu.mem (s'.cpu.esp + 4) = f.entry.ebx ∧ word s'.cpu.mem (s'.cpu.esp + 8) = f.entry.ecx ∧
        word s'.cpu.mem (s'.cpu.esp + 12) = f.entry.edx := by
  have inv := inv_of_reach small reached
  constructor
  · intro f fs rest s' frames code moved
    obtain ⟨g, gs, i, rest', d, frames', runs, code', ran, rfl⟩ := instr_cases moved
    rw [frames] at frames'
    cases frames'
    rw [code] at code'
    cases code'
    have good := inv.good
    rw [frames] at good
    obtain ⟨⟨v, phase, regs⟩, esp, -, -⟩ := iretd_final good.1 runs code ran
    exact ⟨v, phase, regs, esp, rfl⟩
  · intro f fs back s' frames syscall moved
    obtain ⟨g, gs, rest, d, frames', phase, code, pushed, rfl⟩ := call_cases moved
    rw [frames] at frames'
    cases frames'
    have good := inv.good
    rw [frames] at good
    obtain ⟨st, holds, -, -, -, passed, -⟩ := call_holds good.1 phase code pushed
    have split := holds.words.2
    rw [← List.take_append_drop 3 st, passed syscall, words_append] at split
    exact ⟨split.1.1, split.1.2.1, split.1.2.2.1⟩

/-! A system call with a timer interrupt in its handler, up to its `iretd`. -/

/-- The events that are not left to a handler. -/
def quiet (s : System) : Event → Prop
  | .work _ => False
  | e => ok s e

instance (r r' : Regs) : Decidable (Cdecl r r') :=
  decidable_of_iff (r'.ebx = r.ebx ∧ r'.esi = r.esi ∧ r'.edi = r.edi ∧ r'.ebp = r.ebp)
    ⟨fun h => ⟨h.1, h.2.1, h.2.2.1, h.2.2.2⟩, fun h => ⟨h.ebx, h.esi, h.edi, h.ebp⟩⟩

instance (c : Cpu) (frames : List Frame) : Decidable (Returns c frames) :=
  match frames with
  | [] => isTrue trivial
  | f :: _ => match phase : f.phase with
    | .handler r h => decidable_of_iff (c.esp = h ∧ Cdecl r c.regs) (by rw [Returns, phase])
    | .before => isTrue (by rw [Returns, phase]; trivial)
    | .after _ => isTrue (by rw [Returns, phase]; trivial)

instance (s : System) : DecidablePred (quiet s)
  | .work _ => isFalse id
  | .interrupt n => inferInstanceAs (Decidable (0x20 ≤ n ∧ n ≤ 0x2F))
  | .int80 => inferInstanceAs (Decidable (Outside s.cpu.esp s.frames ∧ s.cpu.regs.eax ∈ registered))
  | .instr => isTrue trivial
  | .call _ => isTrue trivial
  | .ret => inferInstanceAs (Decidable (Returns s.cpu s.frames))

theorem ok_of_quiet (s : System) (e : Event) (permitted : quiet s e) : ok s e := by
  cases e with
  | work c => exact absurd permitted id
  | _ => exact permitted

def sampleCpu : Cpu := ⟨⟨3, 22, 33, 11, 44, 55, 66, 16, 16, 16, 24, 0xC0001000, 8, 0x202⟩, 0x9F00, fun _ => 0⟩

def sampleRun : List Event :=
  .int80 :: List.replicate 10 .instr ++ .call 0xC0002000 ::
    (.interrupt 0x20 :: List.replicate 10 .instr ++ .call 0xC0002010 :: .ret :: List.replicate 8 .instr) ++
    .ret :: List.replicate 8 .instr

theorem sample_plays : (play step quiet (start sampleCpu) sampleRun).isSome := by decide +kernel

def sampleSystem : System := (play step quiet (start sampleCpu) sampleRun).get sample_plays

theorem sample_reached : Reach step ok (start sampleCpu) sampleSystem :=
  (reach_of_play (Option.some_get sample_plays).symm).mono ok_of_quiet

theorem entries_transparent_sample : sampleCpu.esp < 2 ^ 32 ∧ Reach step ok (start sampleCpu) sampleSystem ∧
    ∀ f fs rest s', sampleSystem.frames = f :: fs → f.code = .iretd :: rest → step sampleSystem .instr = some s' →
      ∃ v, f.phase = .after v ∧ s'.cpu.regs = final f.entry f.syscall v ∧ s'.cpu.esp = f.entryEsp ∧ s'.frames = fs :=
  ⟨by decide, sample_reached, (entries_transparent (by decide) sample_reached).1⟩

end KOS.IntrNesting
