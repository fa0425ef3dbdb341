import KOS.Ide
import KOS.Machine

/-! The permits of the channel semaphore. The drive raises an interrupt for every sector, `ide_handler` makes each a
permit when it gets to run, and the driver takes one permit for a command. -/

namespace KOS.IdePermits
open KOS.ByteMemory KOS.Ata KOS.Ide KOS.Machine

/-- A call of `ide_read` or `ide_write`. -/
structure Call where
  write : Bool
  hd : IdeHd
  lba : Nat
  buf : Nat
  cnt : Nat

/-- The loop variables of a call. -/
structure Pass where
  call : Call
  cntDone : Nat
  p : Nat

namespace Pass

def each (x : Pass) : Nat := cntEach x.call.cnt x.cntDone

def words (x : Pass) : Nat := x.each * SECTOR_SIZE % 2 ^ 32 / 2

def next (x : Pass) : Pass :=
  { x with cntDone := x.cntDone + x.each, p := (x.p + x.each * SECTOR_SIZE) % 2 ^ 32 }

end Pass

/-- Where the owner of the channel mutex is; `left` counts the words still to be moved. -/
inductive Pc where
  | free
  | head (x : Pass)
  | readDown (x : Pass)
  | readPoll (x : Pass)
  | readData (x : Pass) (addr left : Nat)
  | writePoll (x : Pass)
  | writeData (x : Pass) (addr left : Nat)
  | writeDown (x : Pass)

def Pc.isFree : Pc → Bool
  | .free => true
  | _ => false

theorem Pc.eq_free {pc : Pc} (free : pc.isFree = true) : pc = .free := by
  cases pc with
  | free => rfl
  | _ => cases free

structure Line where
  /-- Its `sema` counts the permits there are now. -/
  channel : Channel
  memory : Memory
  pc : Pc
  /-- Interrupts raised whose handler has not run yet. -/
  pending : Nat
  /-- The counts of the calls that have returned. -/
  calls : List Nat

def start (c : Channel) (m : Memory) : Line := ⟨c, m, .free, 0, []⟩

/-- The drive does something; the interrupts it raises wait. -/
def Line.device (s : Line) (c : Channel) (pc : Pc) : Line :=
  { s with channel := { c with sema := s.channel.sema }, pending := s.pending + (c.sema - s.channel.sema), pc := pc }

/-- One read of the status register; `again` while the drive is busy or has no data request. -/
def pollStatus (s : Line) (again done : Pc) : Line :=
  let polled := ideGetStatus s.channel
  s.device polled.2 (if polled.1 &&& STAT_BSY ≠ 0 ∨ polled.1 &&& STAT_DRQ = 0 then again else done)

/-- A step of the thread that owns the channel mutex. -/
def driver (s : Line) : Option Line :=
  match s.pc with
  | .free => none
  | .head x =>
      if x.cntDone < x.call.cnt then
        let c := ideSetLba s.channel x.call.lba x.each
        if x.call.write then some (s.device (ideSetCmd c CMD_WRITE_SEC) (.writePoll x))
        else some (s.device (ideSetCmd c CMD_READ_SEC) (.readDown x))
      else some { s with pc := .free, calls := x.call.cnt :: s.calls }
  | .readDown x => (semaDown s.channel).map fun c => { s with channel := c, pc := .readPoll x }
  | .readPoll x => some (pollStatus s (.readPoll x) (.readData x x.p x.words))
  | .readData x _ 0 => some { s with pc := .head x.next }
  | .readData x addr (left + 1) =>
      let r := s.channel.insw s.memory addr 1
      some { s.device r.2 (.readData x (addr + 2) left) with memory := r.1 }
  | .writePoll x => some (pollStatus s (.writePoll x) (.writeData x x.p x.words))
  | .writeData x _ 0 => some { s with pc := .writeDown x }
  | .writeData x addr (left + 1) => some (s.device (s.channel.outsw s.memory addr 1) (.writeData x (addr + 2) left))
  | .writeDown x => (semaDown s.channel).map fun c => { s with channel := c, pc := .head x.next }

inductive Event where
  | call (c : Call)
  | driver
  | irq

/-- `sema_up`, called by `ide_handler`. -/
def semaUp (c : Channel) : Channel := { c with sema := (c.sema + 1) % 2 ^ 32 }

def step (s : Line) : Event → Option Line
  | .call c =>
      match s.pc with
      | .free => some { s with channel := ideSetDrive c.hd s.channel, pc := .head ⟨c, 0, c.buf⟩ }
      | _ => none
  | .driver => driver s
  | .irq => if 0 < s.pending then some { s with channel := semaUp s.channel, pending := s.pending - 1 } else none

/-- Any thread may call when the mutex is free, and the handler may run at any time. -/
abbrev always (_ : Line) (_ : Event) : Prop := True

/-! What each interrupt is for. -/

/-- Sectors of a call beyond the first of each command. -/
def surplus (cnt : Nat) : Nat := cnt - (cnt + 255) / 256

def credit (calls : List Nat) : Nat := (calls.map surplus).sum

/-- The bytes moved when `left` words remain. -/
def moved (x : Pass) (left : Nat) : Nat := 512 * x.each - 2 * left

/-- Interrupts of the command in progress for which no permit has been taken. -/
def outstanding : Pc → Nat
  | .free => 0
  | .head _ => 0
  | .readDown _ => 1
  | .readPoll _ => 0
  | .readData x _ left => min (moved x left / 512) (x.each - 1)
  | .writePoll _ => 0
  | .writeData x _ left => moved x left / 512
  | .writeDown x => x.each

/-- Interrupts left over from the earlier commands of the call. -/
def settled : Pc → Nat
  | .free => 0
  | .head x | .readDown x | .readPoll x | .readData x _ _ | .writePoll x | .writeData x _ _ | .writeDown x =>
      surplus x.cntDone

/-- The loop is about to issue a command, or past its last one. -/
structure Idle (x : Pass) (c : Channel) : Prop where
  selected : Selected c x.call.hd.drive x.call.lba
  below : x.cntDone ≤ x.call.cnt
  whole : x.cntDone < x.call.cnt → x.cntDone % 256 = 0

/-- A command is in progress and `done` bytes have been moved for it. -/
structure Busy (x : Pass) (c : Channel) (phase : Transfer → Phase) (done : Nat) : Prop where
  selected : Selected c x.call.hd.drive x.call.lba
  more : x.cntDone < x.call.cnt
  whole : x.cntDone % 256 = 0
  phase : c.phase = phase ⟨x.call.hd.drive, x.call.lba % 2 ^ 28, x.each, done⟩

def Device (c : Channel) : Pc → Prop
  | .free => True
  | .head x => Idle x c
  | .readDown x => Busy x c .reading 0
  | .readPoll x => Busy x c .reading 0
  | .readData x _ left => Busy x c .reading (moved x left) ∧ 2 * left ≤ 512 * x.each
  | .writePoll x => Busy x c .writing 0
  | .writeData x _ left => Busy x c .writing (moved x left) ∧ 2 * left ≤ 512 * x.each
  | .writeDown x => Busy x c .writing (512 * x.each)

/-- Every interrupt is a permit, waits for the handler, or has been taken. -/
structure Balanced (s : Line) : Prop where
  permits : (s.channel.sema + s.pending) % 2 ^ 32 = (credit s.calls + settled s.pc + outstanding s.pc) % 2 ^ 32
  small : s.channel.sema < 2 ^ 32
  device : Device s.channel s.pc

variable {s s' : Line} {x : Pass} {c : Channel} {m : Memory}

theorem Pass.each_pos (more : x.cntDone < x.call.cnt) : 0 < x.each := by
  unfold Pass.each
  rw [cntEach_eq_min]
  omega

theorem Pass.each_le (x : Pass) : x.each ≤ 256 := by
  unfold Pass.each
  rw [cntEach_eq_min]
  omega

/-- A command leaves all interrupts but one. -/
theorem surplus_next (more : x.cntDone < x.call.cnt) (whole : x.cntDone % 256 = 0) :
    surplus x.next.cntDone = surplus x.cntDone + (x.each - 1) := by
  have positive := Pass.each_pos more
  have chunk := x.each_le
  unfold surplus Pass.next
  dsimp only
  omega

/-- All words of a command are all its bytes. -/
theorem Pass.words_all (x : Pass) : moved x x.words = 0 ∧ 2 * x.words ≤ 512 * x.each := by
  have size : 2 * x.words = 512 * x.each := half_size x.each x.each_le
  unfold moved
  omega

/-- One more word. -/
theorem moved_word {left : Nat} (room : 2 * (left + 1) ≤ 512 * x.each) :
    moved x left = moved x (left + 1) + 2 ∧ moved x (left + 1) % 2 = 0 ∧ moved x (left + 1) + 2 ≤ 512 * x.each := by
  unfold moved
  omega

theorem Busy.keep {phase : Transfer → Phase} {done done' : Nat} {c' : Channel} (busy : Busy x c phase done)
    (register : c'.driveSet = c.driveSet)
    (phase' : c'.phase = phase ⟨x.call.hd.drive, x.call.lba % 2 ^ 28, x.each, done'⟩) : Busy x c' phase done' :=
  ⟨busy.selected.keep register, busy.more, busy.whole, phase'⟩

/-- Behind the last byte of a command the loop goes on. -/
theorem Busy.idle {phase : Transfer → Phase} {done : Nat} (busy : Busy x c phase done) : Idle x.next c := by
  have more := busy.more
  have whole := busy.whole
  constructor
  · exact busy.selected
  · show x.cntDone + cntEach x.call.cnt x.cntDone ≤ x.call.cnt
    rw [cntEach_eq_min]
    omega
  · show x.cntDone + cntEach x.call.cnt x.cntDone < x.call.cnt → (x.cntDone + cntEach x.call.cnt x.cntDone) % 256 = 0
    rw [cntEach_eq_min]
    omega

theorem Idle.keep {c' : Channel} (idle : Idle x c) (register : c'.driveSet = c.driveSet) : Idle x c' :=
  ⟨idle.selected.keep register, idle.below, idle.whole⟩

/-- Only the drive register and the phase matter. -/
theorem Device.keep {c' : Channel} {pc : Pc} (device : Device c pc) (register : c'.driveSet = c.driveSet)
    (phase : c'.phase = c.phase) : Device c' pc := by
  cases pc with
  | free => trivial
  | head x => exact Idle.keep device register
  | readDown x => exact Busy.keep device register (phase.trans (Busy.phase device))
  | readPoll x => exact Busy.keep device register (phase.trans (Busy.phase device))
  | readData x addr left => exact ⟨device.1.keep register (phase.trans device.1.phase), device.2⟩
  | writePoll x => exact Busy.keep device register (phase.trans (Busy.phase device))
  | writeData x addr left => exact ⟨device.1.keep register (phase.trans device.1.phase), device.2⟩
  | writeDown x => exact Busy.keep device register (phase.trans (Busy.phase device))

/-! The drive's part of each step. -/

/-- A command: one interrupt at once for a read, none for a write. -/
theorem issue_read (idle : Idle x c) (more : x.cntDone < x.call.cnt) :
    (ideSetCmd (ideSetLba c x.call.lba x.each) CMD_READ_SEC).sema = c.sema + 1 ∧
      Busy x (ideSetCmd (ideSetLba c x.call.lba x.each) CMD_READ_SEC) .reading 0 := by
  have addressed := ideSetLba_addressed idle.selected (Pass.each_pos more) x.each_le
  have kept : (ideSetLba c x.call.lba x.each).sema = c.sema := by rw [ideSetLba_eq]
  generalize ideSetLba c x.call.lba x.each = programmed at addressed kept ⊢
  rw [ideSetCmd_eq, Channel.command, if_neg (not_not.mpr addressed.lbaMode), if_pos (by decide), addressed.transfer]
  exact ⟨congrArg (· + 1) kept, addressed.selected.keep rfl, more, idle.whole more, rfl⟩

theorem issue_write (idle : Idle x c) (more : x.cntDone < x.call.cnt) :
    (ideSetCmd (ideSetLba c x.call.lba x.each) CMD_WRITE_SEC).sema = c.sema ∧
      Busy x (ideSetCmd (ideSetLba c x.call.lba x.each) CMD_WRITE_SEC) .writing 0 := by
  have addressed := ideSetLba_addressed idle.selected (Pass.each_pos more) x.each_le
  have kept : (ideSetLba c x.call.lba x.each).sema = c.sema := by rw [ideSetLba_eq]
  generalize ideSetLba c x.call.lba x.each = programmed at addressed kept ⊢
  rw [ideSetCmd_eq, Channel.command, if_neg (not_not.mpr addressed.lbaMode), if_neg (by decide), if_pos (by decide),
    addressed.transfer]
  exact ⟨kept, addressed.selected.keep rfl, more, idle.whole more, rfl⟩

/-- A word from the drive: an interrupt when a sector has been drained and another follows. -/
theorem insw_word {t : Transfer} (m : Memory) (addr : Nat) (phase : c.phase = .reading t)
    (even : t.done % 2 = 0) (room : t.done + 2 ≤ 512 * t.cnt) :
    (c.insw m addr 1).2.phase = .reading { t with done := t.done + 2 } ∧
      (c.insw m addr 1).2.driveSet = c.driveSet ∧
      (c.insw m addr 1).2.sema = c.sema + if (t.done + 2) % 512 = 0 ∧ t.done + 2 < 512 * t.cnt then 1 else 0 := by
  have first : c.dataIn.2 = { c with phase := .reading { t with done := t.done + 1 } } := by
    have inner : ¬((t.done + 1) % 512 = 0 ∧ t.done + 1 < 512 * t.cnt) := by omega
    rw [Channel.dataIn, phase]
    dsimp only
    rw [if_pos (by omega), if_neg inner]
  have second : c.dataIn.2.dataIn.2 = { c with
      phase := .reading { t with done := t.done + 2 },
      sema := c.sema + if (t.done + 2) % 512 = 0 ∧ t.done + 2 < 512 * t.cnt then 1 else 0 } := by
    rw [first, Channel.dataIn]
    dsimp only
    rw [if_pos (by omega)]
    by_cases boundary : (t.done + 2) % 512 = 0 ∧ t.done + 2 < 512 * t.cnt
    · rw [if_pos boundary, if_pos boundary]
    · rw [if_neg boundary, if_neg boundary]
      rfl
  have word : (c.insw m addr 1).2 = c.dataIn.2.dataIn.2 := rfl
  rw [word, second]
  exact ⟨rfl, rfl, rfl⟩

/-- A word to the drive: an interrupt when a sector is full. -/
theorem outsw_word {t : Transfer} (m : Memory) (addr : Nat) (phase : c.phase = .writing t)
    (even : t.done % 2 = 0) (room : t.done + 2 ≤ 512 * t.cnt) :
    (c.outsw m addr 1).phase = .writing { t with done := t.done + 2 } ∧
      (c.outsw m addr 1).driveSet = c.driveSet ∧
      (c.outsw m addr 1).sema = c.sema + if (t.done + 2) % 512 = 0 then 1 else 0 := by
  have byte (c : Channel) (t : Transfer) (v : UInt8) (phase : c.phase = .writing t) (room : t.done < 512 * t.cnt) :
      (c.dataOut v).phase = .writing { t with done := t.done + 1 } ∧ (c.dataOut v).driveSet = c.driveSet ∧
        (c.dataOut v).sema = c.sema + if (t.done + 1) % 512 = 0 then 1 else 0 := by
    rw [Channel.dataOut, phase]
    dsimp only
    rw [if_pos room]
    by_cases boundary : (t.done + 1) % 512 = 0
    · rw [if_pos boundary, if_pos boundary]
      exact ⟨rfl, rfl, rfl⟩
    · rw [if_neg boundary, if_neg boundary]
      exact ⟨rfl, rfl, rfl⟩
  obtain ⟨phase1, drive1, sema1⟩ := byte c t (load m addr) phase (by omega)
  obtain ⟨phase2, drive2, sema2⟩ := byte _ _ (load m (addr + 1)) phase1 (by simp only; omega)
  have word : c.outsw m addr 1 = (c.dataOut (load m addr)).dataOut (load m (addr + 1)) := rfl
  rw [word]
  refine ⟨phase2, drive2.trans drive1, ?_⟩
  rw [sema2, sema1, if_neg (show ¬(t.done + 1) % 512 = 0 by omega)]
  rfl

/-! One step keeps the balance. -/

theorem Balanced.device_at {pc : Pc} (inv : Balanced s) (at_ : s.pc = pc) : Device s.channel pc := by
  rw [← at_]
  exact inv.device

/-- A step in which the drive may raise interrupts. -/
theorem Balanced.device_step (inv : Balanced s) {c : Channel} {pc : Pc}
    (settles : settled pc + outstanding pc = settled s.pc + outstanding s.pc + (c.sema - s.channel.sema))
    (device : Device c pc) : Balanced (s.device c pc) := by
  have permits := inv.permits
  refine ⟨?_, inv.small, device.keep rfl rfl⟩
  show (s.channel.sema + (s.pending + (c.sema - s.channel.sema))) % 2 ^ 32 =
    (credit s.calls + settled pc + outstanding pc) % 2 ^ 32
  omega

/-- A step of the driver alone, which takes no permit. -/
theorem Balanced.quiet_step (inv : Balanced s) {pc : Pc} {calls : List Nat}
    (settles : credit calls + settled pc + outstanding pc = credit s.calls + settled s.pc + outstanding s.pc)
    (device : Device s.channel pc) : Balanced { s with pc := pc, calls := calls } := by
  have permits := inv.permits
  refine ⟨?_, inv.small, device⟩
  show (s.channel.sema + s.pending) % 2 ^ 32 = (credit calls + settled pc + outstanding pc) % 2 ^ 32
  omega

/-- `sema_down`. -/
theorem Balanced.take_step (inv : Balanced s) {c : Channel} {pc : Pc} (taken : semaDown s.channel = some c)
    (settles : settled pc + outstanding pc + 1 = settled s.pc + outstanding s.pc)
    (device : Device s.channel pc) :
    Balanced { s with channel := c, pc := pc } := by
  have permits := inv.permits
  have small := inv.small
  unfold semaDown at taken
  split_ifs at taken with free
  cases taken
  refine ⟨?_, ?_, device.keep rfl rfl⟩
  · dsimp only
    omega
  · dsimp only
    omega

theorem Balanced.poll_step (inv : Balanced s) {again done : Pc}
    (stays : settled again + outstanding again = settled s.pc + outstanding s.pc)
    (goes : settled done + outstanding done = settled s.pc + outstanding s.pc)
    (before : Device s.channel again) (after : Device s.channel done) : Balanced (pollStatus s again done) := by
  unfold pollStatus
  rw [ideGetStatus_eq]
  dsimp only
  apply inv.device_step
  · split_ifs
    · rw [stays, Nat.sub_self, Nat.add_zero]
    · rw [goes, Nat.sub_self, Nat.add_zero]
  · split_ifs
    · exact before.keep rfl rfl
    · exact after.keep rfl rfl

/-- The head of the loop: a command, or the end of the call. -/
theorem Balanced.head_step (inv : Balanced s) (pc : s.pc = .head x) (ran : driver s = some s') : Balanced s' := by
  have idle : Idle x s.channel := inv.device_at pc
  simp only [driver, pc] at ran
  split_ifs at ran with more write
  · rw [← Option.some.inj ran]
    obtain ⟨sema, busy⟩ := issue_write idle more
    generalize ideSetCmd (ideSetLba s.channel x.call.lba x.each) CMD_WRITE_SEC = c at sema busy ⊢
    apply inv.device_step
    · rw [sema, pc, Nat.sub_self]
      rfl
    · exact busy
  · rw [← Option.some.inj ran]
    obtain ⟨sema, busy⟩ := issue_read idle more
    generalize ideSetCmd (ideSetLba s.channel x.call.lba x.each) CMD_READ_SEC = c at sema busy ⊢
    apply inv.device_step
    · rw [sema, pc, Nat.add_sub_cancel_left]
      rfl
    · exact busy
  · cases ran
    have below := idle.below
    have all : x.cntDone = x.call.cnt := by omega
    apply inv.quiet_step
    · rw [pc]
      show surplus x.call.cnt + credit s.calls + 0 + 0 = credit s.calls + surplus x.cntDone + 0
      rw [all]
      omega
    · trivial

/-- One word of a read. -/
theorem Balanced.read_step (inv : Balanced s) {addr left : Nat} (pc : s.pc = .readData x addr (left + 1)) :
    Balanced { s.device (s.channel.insw s.memory addr 1).2 (.readData x (addr + 2) left) with
      memory := (s.channel.insw s.memory addr 1).1 } := by
  obtain ⟨busy, room⟩ := inv.device_at pc
  have positive := Pass.each_pos busy.more
  obtain ⟨next, even, within⟩ := moved_word room
  obtain ⟨phase, drive, sema⟩ := insw_word s.memory addr busy.phase even within
  have stepped : Balanced (s.device (s.channel.insw s.memory addr 1).2 (.readData x (addr + 2) left)) := by
    apply inv.device_step
    · rw [sema, pc, Nat.add_sub_cancel_left]
      dsimp only [settled, outstanding]
      rw [next]
      split_ifs
      · omega
      · omega
    · constructor
      · rw [next]
        exact busy.keep drive phase
      · omega
  exact ⟨stepped.permits, stepped.small, stepped.device⟩

/-- One word of a write. -/
theorem Balanced.write_step (inv : Balanced s) {addr left : Nat} (pc : s.pc = .writeData x addr (left + 1)) :
    Balanced (s.device (s.channel.outsw s.memory addr 1) (.writeData x (addr + 2) left)) := by
  obtain ⟨busy, room⟩ := inv.device_at pc
  obtain ⟨next, even, within⟩ := moved_word room
  obtain ⟨phase, drive, sema⟩ := outsw_word s.memory addr busy.phase even within
  apply inv.device_step
  · rw [sema, pc, Nat.add_sub_cancel_left]
    dsimp only [settled, outstanding]
    rw [next]
    split_ifs
    · omega
    · omega
  · constructor
    · rw [next]
      exact busy.keep drive phase
    · omega

theorem Balanced.driver_step (inv : Balanced s) (ran : driver s = some s') : Balanced s' := by
  cases pc : s.pc with
  | free => simp only [driver, pc] at ran; cases ran
  | head x => exact inv.head_step pc ran
  | readDown x =>
    have device := inv.device_at pc
    simp only [driver, pc] at ran
    obtain ⟨c, taken, same⟩ := Option.map_eq_some_iff.mp ran
    subst same
    apply inv.take_step taken
    · rw [pc]
      rfl
    · exact device
  | readPoll x =>
    have device := inv.device_at pc
    simp only [driver, pc] at ran
    rw [← Option.some.inj ran]
    have all := x.words_all
    apply inv.poll_step
    · rw [pc]
    · rw [pc]
      dsimp only [settled, outstanding]
      rw [all.1]
      simp only [Nat.zero_div, Nat.zero_min]
    · exact device
    · constructor
      · rw [all.1]
        exact device
      · exact all.2
  | readData x addr left =>
    cases left with
    | zero =>
      have busy := (inv.device_at pc).1
      simp only [driver, pc] at ran
      rw [← Option.some.inj ran]
      apply inv.quiet_step
      · rw [pc]
        dsimp only [settled, outstanding]
        rw [surplus_next busy.more busy.whole]
        unfold moved
        omega
      · exact busy.idle
    | succ left =>
      simp only [driver, pc] at ran
      rw [← Option.some.inj ran]
      exact inv.read_step pc
  | writePoll x =>
    have device := inv.device_at pc
    simp only [driver, pc] at ran
    rw [← Option.some.inj ran]
    have all := x.words_all
    apply inv.poll_step
    · rw [pc]
    · rw [pc]
      dsimp only [settled, outstanding]
      rw [all.1]
    · exact device
    · constructor
      · rw [all.1]
        exact device
      · exact all.2
  | writeData x addr left =>
    cases left with
    | zero =>
      have busy := (inv.device_at pc).1
      simp only [driver, pc] at ran
      rw [← Option.some.inj ran]
      apply inv.quiet_step
      · rw [pc]
        dsimp only [settled, outstanding]
        unfold moved
        omega
      · have all : moved x 0 = 512 * x.each := rfl
        rw [all] at busy
        exact busy
    | succ left =>
      simp only [driver, pc] at ran
      rw [← Option.some.inj ran]
      exact inv.write_step pc
  | writeDown x =>
    have device := inv.device_at pc
    simp only [driver, pc] at ran
    obtain ⟨c, taken, same⟩ := Option.map_eq_some_iff.mp ran
    subst same
    have positive := Pass.each_pos device.more
    apply inv.take_step taken
    · rw [pc]
      dsimp only [settled, outstanding]
      rw [surplus_next device.more device.whole]
      omega
    · exact device.idle

theorem Balanced.step {e : Event} (inv : Balanced s) (ran : IdePermits.step s e = some s') : Balanced s' := by
  have permits := inv.permits
  cases e with
  | driver => exact inv.driver_step ran
  | irq =>
    simp only [IdePermits.step] at ran
    split_ifs at ran with raised
    rw [← Option.some.inj ran]
    refine ⟨?_, Nat.mod_lt _ (by decide), inv.device.keep rfl rfl⟩
    show ((s.channel.sema + 1) % 2 ^ 32 + (s.pending - 1)) % 2 ^ 32 =
      (credit s.calls + settled s.pc + outstanding s.pc) % 2 ^ 32
    omega
  | call c =>
    cases pc : s.pc with
    | free =>
      simp only [IdePermits.step, pc] at ran
      rw [← Option.some.inj ran, ideSetDrive_eq]
      rw [pc] at permits
      refine ⟨?_, inv.small, ?_⟩
      · have none : surplus 0 = 0 := rfl
        show (s.channel.sema + s.pending) % 2 ^ 32 = (credit s.calls + surplus 0 + 0) % 2 ^ 32
        rw [none]
        exact permits
      · constructor
        · exact .inl rfl
        · exact Nat.zero_le _
        · exact fun _ => rfl
    | _ =>
      simp only [IdePermits.step, pc] at ran
      cases ran

/-! Whole runs, from a channel whose semaphore is fresh from `sema_init`. -/

theorem balanced_start (fresh : c.sema = 0) (m : Memory) : Balanced (start c m) := by
  constructor
  · show (c.sema + 0) % 2 ^ 32 = 0 % 2 ^ 32
    rw [fresh]
  · show c.sema < 2 ^ 32
    rw [fresh]
    decide
  · trivial

theorem balanced_of_reach (fresh : c.sema = 0) (run : Reach step always (start c m) s) : Balanced s := by
  apply Reach.invariant _ (balanced_start fresh m) run
  intro before e after inv _ ran
  exact inv.step ran

/-- What is left when no call is in progress and no interrupt waits. -/
theorem Balanced.rest (inv : Balanced s) (free : s.pc = .free) (handled : s.pending = 0) :
    s.channel.sema = credit s.calls % 2 ^ 32 := by
  have permits := inv.permits
  rw [free, handled] at permits
  calc
    s.channel.sema = (s.channel.sema + 0) % 2 ^ 32 := (Nat.mod_eq_of_lt inv.small).symm
    _ = (credit s.calls + 0 + 0) % 2 ^ 32 := permits

theorem outstanding_down (down : s.pc = .readDown x ∨ s.pc = .writeDown x) :
    settled s.pc = surplus x.cntDone ∧ outstanding s.pc < 2 ^ 32 := by
  have chunk := x.each_le
  rcases down with read | write
  · rw [read]
    exact ⟨rfl, show 1 < 2 ^ 32 from by decide⟩
  · rw [write]
    exact ⟨rfl, show x.each < 2 ^ 32 by omega⟩

/-- The semaphore is empty between calls exactly when the sectors beyond the first of each command are a multiple
of 2^32. It is under the same condition that the permits for a `sema_down` are those of its own command. -/
theorem permits_spent_iff (fresh : c.sema = 0) (run : Reach step always (start c m) s) :
    (s.pc = .free → s.pending = 0 → (s.channel.sema = 0 ↔ 2 ^ 32 ∣ credit s.calls)) ∧
      ∀ x, s.pc = .readDown x ∨ s.pc = .writeDown x →
        ((s.channel.sema + s.pending) % 2 ^ 32 = outstanding s.pc ↔ 2 ^ 32 ∣ credit s.calls + surplus x.cntDone) := by
  have inv := balanced_of_reach fresh run
  constructor
  · intro free handled
    rw [inv.rest free handled]
    exact (Nat.dvd_iff_mod_eq_zero).symm
  · intro x down
    obtain ⟨earlier, small⟩ := outstanding_down down
    rw [inv.permits, earlier]
    omega

/-! A read of two sectors: the first interrupt comes with the command, the second is left. -/

def twoSectors : Call := ⟨false, ⟨0⟩, 0, 0, 2⟩

def twoSectorsRun : List Event :=
  [.call twoSectors, .driver, .irq, .driver, .driver] ++ List.replicate 514 .driver ++ [.irq]

theorem twoSectors_plays : (play step always (start countingDrive fun _ => 0) twoSectorsRun).isSome := by decide +kernel

def twoSectorsEnd : Line := (play step always (start countingDrive fun _ => 0) twoSectorsRun).get twoSectors_plays

theorem twoSectors_reached : Reach step always (start countingDrive fun _ => 0) twoSectorsEnd :=
  reach_of_play (Option.some_get twoSectors_plays).symm

theorem twoSectors_returned : twoSectorsEnd.pc.isFree = true ∧ twoSectorsEnd.pending = 0 ∧ twoSectorsEnd.calls = [2] := by
  decide +kernel

/-- A permit is left after the call of two sectors. -/
theorem twoSectors_left : ∃ s, Reach step always (start countingDrive fun _ => 0) s ∧
    s.pc = .free ∧ s.pending = 0 ∧ s.channel.sema ≠ 0 := by
  obtain ⟨free, handled, calls⟩ := twoSectors_returned
  have returned := Pc.eq_free free
  refine ⟨twoSectorsEnd, twoSectors_reached, returned, handled, ?_⟩
  rw [(balanced_of_reach rfl twoSectors_reached).rest returned handled, calls]
  decide

/-- The run of two sectors, and what the count says of it. -/
theorem permits_spent_iff_twoSectors :
    countingDrive.sema = 0 ∧ Reach step always (start countingDrive fun _ => 0) twoSectorsEnd ∧
      (twoSectorsEnd.channel.sema = 0 ↔ 2 ^ 32 ∣ credit twoSectorsEnd.calls) := by
  obtain ⟨free, handled, -⟩ := twoSectors_returned
  exact ⟨rfl, twoSectors_reached, (permits_spent_iff rfl twoSectors_reached).1 (Pc.eq_free free) handled⟩

end KOS.IdePermits
