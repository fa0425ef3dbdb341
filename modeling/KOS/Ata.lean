import KOS.ByteMemory

/-! The two drives of one ATA channel as the PIO driver sees them: the task-file
registers, a data port that moves one byte after another of the programmed
transfer, a status register, and an interrupt line whose handler raises the
channel semaphore. Only LBA28 READ SECTORS and WRITE SECTORS are described. -/

namespace KOS.Ata
open KOS.ByteMemory

def SECTOR_SIZE : Nat := 512

def IDE_SEC_CNT : Nat := 0x2
def IDE_LBA_LOW : Nat := 0x3
def IDE_LBA_MID : Nat := 0x4
def IDE_LBA_HIGH : Nat := 0x5
def IDE_DRIVE_SET : Nat := 0x6
def IDE_STA_CMD : Nat := 0x7

def CMD_READ_SEC : Nat := 0x20
def CMD_WRITE_SEC : Nat := 0x30

def STAT_BSY : Nat := 0x80
def STAT_DRQ : Nat := 0x08

abbrev Sector := Fin 512 → UInt8

/-- A transfer in progress: `done` counts the bytes already moved through the data port. -/
structure Transfer where
  drive : Fin 2
  lba : Nat
  cnt : Nat
  done : Nat

inductive Phase where
  | ready
  | reading (t : Transfer)
  | writing (t : Transfer)

structure Channel where
  portBase : Nat
  secCnt : Nat
  lbaLow : Nat
  lbaMid : Nat
  lbaHigh : Nat
  driveSet : Nat
  disk : Fin 2 → Nat → Sector
  phase : Phase
  /-- Status polls that still find the drive busy. -/
  busy : Nat
  /-- How many polls the drive needs for its n-th command. -/
  latency : Nat → Nat
  issued : Nat
  /-- Count of the channel semaphore, raised by every interrupt. -/
  sema : Nat

/-- The master is drive 0, the slave drive 1. -/
def driveNr (nr : Nat) : Fin 2 := if nr = 0 then 0 else 1

namespace Channel

def drive (c : Channel) : Fin 2 := driveNr (c.driveSet / 16 % 2)

def lbaMode (c : Channel) : Prop := c.driveSet / 64 % 2 = 1

instance (c : Channel) : Decidable c.lbaMode := inferInstanceAs (Decidable (_ = 1))

def lba (c : Channel) : Nat :=
  c.lbaLow + 2 ^ 8 * c.lbaMid + 2 ^ 16 * c.lbaHigh + 2 ^ 24 * (c.driveSet % 16)

/-- A sector-count register of 0 means 256. -/
def count (c : Channel) : Nat := if c.secCnt = 0 then 256 else c.secCnt

def transfer (c : Channel) : Transfer := ⟨c.drive, c.lba, c.count, 0⟩

/-- A read command raises its first interrupt when the first sector is buffered. -/
def command (c : Channel) (cmd : Nat) : Channel :=
  if ¬ c.lbaMode then c
  else if cmd = CMD_READ_SEC then
    { c with phase := .reading c.transfer, busy := c.latency c.issued,
             issued := c.issued + 1, sema := c.sema + 1 }
  else if cmd = CMD_WRITE_SEC then
    { c with phase := .writing c.transfer, busy := c.latency c.issued, issued := c.issued + 1 }
  else c

def status (c : Channel) : Nat :=
  if 0 < c.busy then STAT_BSY
  else match c.phase with
    | .ready => 0
    | .reading t => if t.done < 512 * t.cnt then STAT_DRQ else 0
    | .writing t => if t.done < 512 * t.cnt then STAT_DRQ else 0

/-- The driver's `outb`: the value is truncated to the register's eight bits. -/
def outb (c : Channel) (port data : Nat) : Channel :=
  let data := data % 2 ^ 8
  if port = c.portBase + IDE_SEC_CNT then { c with secCnt := data }
  else if port = c.portBase + IDE_LBA_LOW then { c with lbaLow := data }
  else if port = c.portBase + IDE_LBA_MID then { c with lbaMid := data }
  else if port = c.portBase + IDE_LBA_HIGH then { c with lbaHigh := data }
  else if port = c.portBase + IDE_DRIVE_SET then { c with driveSet := data }
  else if port = c.portBase + IDE_STA_CMD then c.command data
  else c

/-- Only the drive register and the status register are ever read. -/
def inb (c : Channel) (port : Nat) : Nat × Channel :=
  if port = c.portBase + IDE_DRIVE_SET then (c.driveSet, c)
  else if port = c.portBase + IDE_STA_CMD then (c.status, { c with busy := c.busy - 1 })
  else (0, c)

/-- Byte `k` of the sectors that follow each other from `lba` on. -/
def byteOf (disk : Fin 2 → Nat → Sector) (d : Fin 2) (lba k : Nat) : UInt8 :=
  disk d (lba + k / 512) ⟨k % 512, Nat.mod_lt _ (by decide)⟩

/-- The drive interrupts again when a sector has been drained and another follows. -/
def dataIn (c : Channel) : UInt8 × Channel :=
  match c.phase with
  | .reading t =>
      if t.done < 512 * t.cnt then
        (byteOf c.disk t.drive t.lba t.done,
          { c with phase := .reading { t with done := t.done + 1 },
                   sema := if (t.done + 1) % 512 = 0 ∧ t.done + 1 < 512 * t.cnt
                     then c.sema + 1 else c.sema })
      else (0, c)
  | _ => (0, c)

def putByte (disk : Fin 2 → Nat → Sector) (t : Transfer) (k : Nat) (v : UInt8) :
    Fin 2 → Nat → Sector :=
  fun d l j => if d = t.drive ∧ l = t.lba + k / 512 ∧ j.val = k % 512 then v else disk d l j

/-- The drive interrupts after every sector it has accepted. -/
def dataOut (c : Channel) (v : UInt8) : Channel :=
  match c.phase with
  | .writing t =>
      if t.done < 512 * t.cnt then
        { c with disk := putByte c.disk t t.done v,
                 phase := .writing { t with done := t.done + 1 },
                 sema := if (t.done + 1) % 512 = 0 then c.sema + 1 else c.sema }
      else c
  | _ => c

/-- `rep insw`: `cnt` words from the data port to ascending addresses. -/
def insw (c : Channel) (m : Memory) (addr : Nat) : Nat → Memory × Channel
  | 0 => (m, c)
  | n + 1 =>
      let low := c.dataIn
      let high := low.2.dataIn
      insw high.2 (store (store m addr low.1) (addr + 1) high.1) (addr + 2) n

/-- `rep outsw`: `cnt` words from ascending addresses to the data port. -/
def outsw (c : Channel) (m : Memory) (addr : Nat) : Nat → Channel
  | 0 => c
  | n + 1 => outsw ((c.dataOut (load m addr)).dataOut (load m (addr + 1))) m (addr + 2) n

end Channel

/-- A drive on which a sector holds its own number divided by 256. -/
def countingDrive : Channel where
  portBase := 0x1F0
  secCnt := 0
  lbaLow := 0
  lbaMid := 0
  lbaHigh := 0
  driveSet := 0
  disk := fun _ l _ => UInt8.ofNat (l / 256)
  phase := .ready
  busy := 0
  latency := fun _ => 0
  issued := 0
  sema := 0

end KOS.Ata
