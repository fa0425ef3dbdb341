import KOS.Ata

/-! The PIO driver of `ide.c`: drive selection, LBA28 addressing and the chunked
transfers `ide_read` and `ide_write`, run by the thread that owns the channel mutex. -/

namespace KOS.Ide
open KOS.ByteMemory KOS.Ata

def DRIVE_DEFAULT : Nat := 0xA0
def DRIVE_MASTER : Nat := 0x00
def DRIVE_SLAVE : Nat := 0x10
def DRIVE_LBA : Nat := 0x40

/-- `struct ide_hd`, as far as a transfer uses it: 0 is the master, anything else the slave. -/
structure IdeHd where
  devNr : Nat

def IdeHd.drive (hd : IdeHd) : Fin 2 := driveNr hd.devNr

def ideSetDrive (hd : IdeHd) (c : Channel) : Channel :=
  let port := c.portBase + IDE_DRIVE_SET
  if 0 = hd.devNr then c.outb port (DRIVE_DEFAULT ||| DRIVE_MASTER ||| DRIVE_LBA)
  else c.outb port (DRIVE_DEFAULT ||| DRIVE_SLAVE ||| DRIVE_LBA)

def ideSetCmd (c : Channel) (cmd : Nat) : Channel := c.outb (c.portBase + IDE_STA_CMD) cmd

def ideSetLba (c : Channel) (start cnt : Nat) : Channel :=
  let c := c.outb (c.portBase + IDE_LBA_LOW) start
  let c := c.outb (c.portBase + IDE_LBA_MID) (start / 2 ^ 8)
  let c := c.outb (c.portBase + IDE_LBA_HIGH) (start / 2 ^ 16)
  let (reg, c) := c.inb (c.portBase + IDE_DRIVE_SET)
  let c := c.outb (c.portBase + IDE_DRIVE_SET) (reg ||| ((start / 2 ^ 24) &&& 0xF))
  let cnt := if 256 ≤ cnt then 0 else cnt
  c.outb (c.portBase + IDE_SEC_CNT) cnt

def ideSetData (c : Channel) (m : Memory) (src cnt : Nat) : Channel :=
  let size := cnt * SECTOR_SIZE % 2 ^ 32
  c.outsw m src (size / 2)

def ideGetData (c : Channel) (m : Memory) (dst cnt : Nat) : Memory × Channel :=
  let size := cnt * SECTOR_SIZE % 2 ^ 32
  c.insw m dst (size / 2)

def ideGetStatus (c : Channel) : Nat × Channel := c.inb (c.portBase + IDE_STA_CMD)

/-- `sema_down` on the channel semaphore; `none` when no interrupt is outstanding
and the caller sleeps for good. -/
def semaDown (c : Channel) : Option Channel :=
  if 0 < c.sema then some { c with sema := c.sema - 1 } else none

/-- The polling loop around `ide_get_status`. A poll that finds the drive not ready
and does not change it repeats for ever: the loop has no result then. -/
def waitDrq (c : Channel) : Option Channel :=
  let polled := ideGetStatus c
  if polled.1 &&& STAT_BSY ≠ 0 ∨ polled.1 &&& STAT_DRQ = 0 then
    if polled.2.busy < c.busy then waitDrq polled.2 else none
  else some polled.2
termination_by c.busy

/-- `max cnt for each run is 256`. -/
def cntEach (cnt cntDone : Nat) : Nat := if 256 ≤ cnt - cntDone then 256 else cnt - cntDone

theorem cntEach_eq_min (cnt cntDone : Nat) : cntEach cnt cntDone = min 256 (cnt - cntDone) := by
  unfold cntEach
  split <;> omega

/-- One pass of the loop of `ide_read`. -/
def ideReadChunk (lba each dst : Nat) (m : Memory) (c : Channel) : Option (Memory × Channel) :=
  let c := ideSetLba c lba each
  let c := ideSetCmd c CMD_READ_SEC
  (semaDown c).bind fun c => (waitDrq c).bind fun c => some (ideGetData c m dst each)

def ideReadLoop (lba cnt cntDone dst : Nat) (m : Memory) (c : Channel) :
    Option (Memory × Channel) :=
  if cntDone < cnt then
    (ideReadChunk lba (cntEach cnt cntDone) dst m c).bind fun r =>
      ideReadLoop lba cnt (cntDone + cntEach cnt cntDone)
        ((dst + cntEach cnt cntDone * SECTOR_SIZE) % 2 ^ 32) r.1 r.2
  else some (m, c)
termination_by cnt - cntDone
decreasing_by rw [cntEach_eq_min]; omega

def ideRead (hd : IdeHd) (lba dst cnt : Nat) (m : Memory) (c : Channel) :
    Option (Memory × Channel) :=
  ideReadLoop lba cnt 0 dst m (ideSetDrive hd c)

/-- One pass of the loop of `ide_write`. -/
def ideWriteChunk (lba each src : Nat) (m : Memory) (c : Channel) : Option Channel :=
  let c := ideSetLba c lba each
  let c := ideSetCmd c CMD_WRITE_SEC
  (waitDrq c).bind fun c => semaDown (ideSetData c m src each)

def ideWriteLoop (lba cnt cntDone src : Nat) (m : Memory) (c : Channel) : Option Channel :=
  if cntDone < cnt then
    (ideWriteChunk lba (cntEach cnt cntDone) src m c).bind fun c =>
      ideWriteLoop lba cnt (cntDone + cntEach cnt cntDone)
        ((src + cntEach cnt cntDone * SECTOR_SIZE) % 2 ^ 32) m c
  else some c
termination_by cnt - cntDone
decreasing_by rw [cntEach_eq_min]; omega

def ideWrite (hd : IdeHd) (lba src cnt : Nat) (m : Memory) (c : Channel) : Option Channel :=
  ideWriteLoop lba cnt 0 src m (ideSetDrive hd c)

/-! The task file after `ide_set_drive` and `ide_set_lba`. -/

/-- The value `ide_set_drive` puts in the drive register. -/
def select (d : Fin 2) : Nat := 0xE0 + 0x10 * d.val

def highNibble (lba : Nat) : Nat := (lba / 2 ^ 24) &&& 0xF

/-- The drive register names `d` in LBA mode; its low nibble is clear or already
holds the top address bits of `lba`, so that OR-ing them in again changes nothing. -/
def Selected (c : Channel) (d : Fin 2) (lba : Nat) : Prop :=
  c.driveSet = select d ∨ c.driveSet = select d ||| highNibble lba

theorem highNibble_lt (lba : Nat) : highNibble lba < 16 := by
  have bound := Nat.and_le_right (n := lba / 2 ^ 24) (m := 0xF)
  unfold highNibble
  omega

theorem highNibble_eq (lba : Nat) : highNibble lba = lba / 2 ^ 24 % 16 :=
  Nat.and_two_pow_sub_one_eq_mod (lba / 2 ^ 24) 4

theorem select_or (d : Fin 2) (n : Nat) (small : n < 16) : select d ||| n = select d + n := by
  fin_cases d <;> interval_cases n <;> decide

theorem Selected.or {c : Channel} {d : Fin 2} {lba : Nat} (selected : Selected c d lba) :
    c.driveSet ||| highNibble lba = select d + highNibble lba := by
  rw [← select_or d _ (highNibble_lt lba)]
  rcases selected with clear | set
  · rw [clear]
  · rw [set, Nat.or_assoc, Nat.or_self]

theorem ideSetDrive_eq (hd : IdeHd) (c : Channel) :
    ideSetDrive hd c = { c with driveSet := select hd.drive } := by
  by_cases master : hd.devNr = 0
  · simp [ideSetDrive, master, Channel.outb, select, IdeHd.drive, driveNr, DRIVE_DEFAULT, DRIVE_MASTER,
      DRIVE_LBA, IDE_DRIVE_SET, IDE_SEC_CNT, IDE_LBA_LOW, IDE_LBA_MID, IDE_LBA_HIGH]
  · simp [ideSetDrive, master, Ne.symm master, Channel.outb, select, IdeHd.drive, driveNr, DRIVE_DEFAULT,
      DRIVE_SLAVE, DRIVE_LBA, IDE_DRIVE_SET, IDE_SEC_CNT, IDE_LBA_LOW, IDE_LBA_MID, IDE_LBA_HIGH]

theorem ideSetLba_eq (c : Channel) (start cnt : Nat) :
    ideSetLba c start cnt =
      { c with lbaLow := start % 2 ^ 8, lbaMid := start / 2 ^ 8 % 2 ^ 8,
               lbaHigh := start / 2 ^ 16 % 2 ^ 8,
               driveSet := (c.driveSet ||| highNibble start) % 2 ^ 8,
               secCnt := (if 256 ≤ cnt then 0 else cnt) % 2 ^ 8 } := by
  simp [ideSetLba, Channel.outb, Channel.inb, highNibble, IDE_DRIVE_SET, IDE_SEC_CNT,
    IDE_LBA_LOW, IDE_LBA_MID, IDE_LBA_HIGH]

theorem select_add_lt (d : Fin 2) (lba : Nat) : select d + highNibble lba < 2 ^ 8 := by
  have small := highNibble_lt lba
  have bound := d.isLt
  unfold select
  omega

/-- What the drive decodes after `ide_set_lba`: the selected drive, LBA mode, the low 28
bits of the address and the count, with 256 encoded as 0. -/
structure Addressed (c : Channel) (d : Fin 2) (lba cnt : Nat) : Prop where
  driveSet : c.driveSet = select d + highNibble lba
  drive : c.drive = d
  lbaMode : c.lbaMode
  lba : c.lba = lba % 2 ^ 28
  count : c.count = cnt

theorem ideSetLba_addressed {c : Channel} {d : Fin 2} {lba cnt : Nat} (selected : Selected c d lba)
    (positive : 0 < cnt) (chunk : cnt ≤ 256) : Addressed (ideSetLba c lba cnt) d lba cnt := by
  have register : (ideSetLba c lba cnt).driveSet = select d + highNibble lba := by
    rw [ideSetLba_eq]
    simp only [selected.or]
    exact Nat.mod_eq_of_lt (select_add_lt d lba)
  have nibble := highNibble_eq lba
  have small := highNibble_lt lba
  refine ⟨register, ?_, ?_, ?_, ?_⟩
  · unfold Channel.drive driveNr
    rw [register]
    fin_cases d
    · rw [if_pos (by simp only [select]; omega)]
      rfl
    · rw [if_neg (by simp only [select]; omega)]
      rfl
  · unfold Channel.lbaMode
    rw [register]
    have bound := d.isLt
    unfold select
    omega
  · unfold Channel.lba
    rw [register, ideSetLba_eq]
    have bound := d.isLt
    simp only [select]
    omega
  · unfold Channel.count
    rw [ideSetLba_eq]
    by_cases full : 256 ≤ cnt
    · simp only [if_pos full]
      rw [if_pos (by decide)]
      omega
    · simp only [if_neg full]
      rw [if_neg (by omega)]
      omega

/-! Polling and the two data loops. -/

/-- The drive has bytes to move once it is no longer busy. -/
def Pending (c : Channel) : Prop :=
  match c.phase with
  | .ready => False
  | .reading t => t.done < 512 * t.cnt
  | .writing t => t.done < 512 * t.cnt

theorem status_ready {c : Channel} (pending : Pending c) (idle : c.busy = 0) :
    c.status = STAT_DRQ := by
  unfold Pending at pending
  unfold Channel.status
  rw [if_neg (by omega)]
  cases phase : c.phase with
  | ready =>
    rw [phase] at pending
    exact pending.elim
  | reading t =>
    rw [phase] at pending
    exact if_pos pending
  | writing t =>
    rw [phase] at pending
    exact if_pos pending

theorem ideGetStatus_eq (c : Channel) :
    ideGetStatus c = (c.status, { c with busy := c.busy - 1 }) := by
  simp [ideGetStatus, Channel.inb, IDE_STA_CMD, IDE_DRIVE_SET]

/-- The polling loop ends as soon as the drive is no longer busy. -/
theorem waitDrq_pending (c : Channel) (pending : Pending c) :
    waitDrq c = some { c with busy := 0 } := by
  induction remaining : c.busy generalizing c with
  | zero =>
    rw [waitDrq, ideGetStatus_eq, status_ready pending remaining]
    simp [STAT_DRQ, STAT_BSY, remaining]
  | succ polls ih =>
    have busy : c.status = STAT_BSY := by simp [Channel.status, remaining]
    rw [waitDrq, ideGetStatus_eq, busy, if_pos (by simp [STAT_BSY]), if_pos (by simp [remaining])]
    exact ih { c with busy := c.busy - 1 } pending (by simp [remaining])

theorem dataIn_reading {c : Channel} {t : Transfer} (phase : c.phase = .reading t)
    (room : t.done < 512 * t.cnt) :
    c.dataIn.1 = Channel.byteOf c.disk t.drive t.lba t.done ∧
      c.dataIn.2.phase = .reading { t with done := t.done + 1 } ∧
      c.dataIn.2.disk = c.disk ∧ c.dataIn.2.driveSet = c.driveSet := by
  simp [Channel.dataIn, phase, room]

/-- `rep insw` fills the buffer with the next bytes of the transfer. -/
theorem insw_reading (c : Channel) (m : Memory) (dst n : Nat) (t : Transfer)
    (phase : c.phase = .reading t) (room : t.done + 2 * n ≤ 512 * t.cnt) :
    (c.insw m dst n).1 =
        fill m dst (2 * n) (fun k => Channel.byteOf c.disk t.drive t.lba (t.done + k)) ∧
      (c.insw m dst n).2.disk = c.disk ∧ (c.insw m dst n).2.driveSet = c.driveSet := by
  induction n generalizing c m dst t with
  | zero => exact ⟨rfl, rfl, rfl⟩
  | succ n ih =>
    obtain ⟨low, phase1, disk1, drive1⟩ := dataIn_reading phase (by omega)
    obtain ⟨high, phase2, disk2, drive2⟩ := dataIn_reading phase1 (by simp only; omega)
    obtain ⟨filled, disk, drive⟩ := ih c.dataIn.2.dataIn.2
      (store (store m dst c.dataIn.1) (dst + 1) c.dataIn.2.dataIn.1) (dst + 2) _ phase2
      (by simp only; omega)
    refine ⟨?_, disk.trans (disk2.trans disk1), drive.trans (drive2.trans drive1)⟩
    rw [Channel.insw, filled, show 2 * (n + 1) = 2 * n + 1 + 1 by omega, fill, fill, low, high,
      disk2, disk1]
    congr 1
    funext k
    simp only [Channel.byteOf]
    congr 2 <;> omega

theorem dataOut_writing {c : Channel} {t : Transfer} (v : UInt8) (phase : c.phase = .writing t)
    (room : t.done < 512 * t.cnt) :
    (c.dataOut v).phase = .writing { t with done := t.done + 1 } ∧
      (c.dataOut v).disk = Channel.putByte c.disk t t.done v ∧
      (c.dataOut v).driveSet = c.driveSet ∧
      ((t.done + 1) % 512 = 0 → 0 < (c.dataOut v).sema) := by
  refine ⟨by simp [Channel.dataOut, phase, room], by simp [Channel.dataOut, phase, room],
    by simp [Channel.dataOut, phase, room], ?_⟩
  intro boundary
  simp [Channel.dataOut, phase, room, boundary]

/-- Where byte `j` of sector `l` stands in a transfer that starts at sector `base`. -/
def position (base l : Nat) (j : Fin 512) : Nat := 512 * (l - base) + j.val

theorem position_lt_iff {base l n : Nat} (j : Fin 512) (after : base ≤ l) :
    position base l j < 512 * n ↔ l < base + n := by
  have lane := j.isLt
  unfold position
  omega

theorem putByte_apply (disk : Fin 2 → Nat → Sector) (t : Transfer) (k : Nat) (v : UInt8)
    (d : Fin 2) (l : Nat) (j : Fin 512) :
    Channel.putByte disk t k v d l j =
      if d = t.drive ∧ t.lba ≤ l ∧ position t.lba l j = k then v else disk d l j := by
  have lane := j.isLt
  unfold Channel.putByte position
  by_cases mine : d = t.drive
  · simp only [mine, true_and]
    by_cases here : l = t.lba + k / 512 ∧ j.val = k % 512
    · rw [if_pos here, if_pos (by omega)]
    · rw [if_neg here, if_neg (by omega)]
  · rw [if_neg (fun both => mine both.1), if_neg (fun both => mine both.1)]

/-- `rep outsw` puts the next bytes of the buffer on the disk, and nothing else changes there.
The interrupt of the last sector is outstanding when the transfer ends on a sector boundary. -/
theorem outsw_writing (c : Channel) (m : Memory) (src n : Nat) (t : Transfer)
    (phase : c.phase = .writing t) (room : t.done + 2 * n ≤ 512 * t.cnt) :
    (∀ d l j, (c.outsw m src n).disk d l j =
      if d = t.drive ∧ t.lba ≤ l ∧ t.done ≤ position t.lba l j ∧
          position t.lba l j < t.done + 2 * n
        then load m (src + (position t.lba l j - t.done)) else c.disk d l j) ∧
      (c.outsw m src n).driveSet = c.driveSet ∧
      (0 < n → (t.done + 2 * n) % 512 = 0 → 0 < (c.outsw m src n).sema) := by
  induction n generalizing c src t with
  | zero =>
    refine ⟨fun d l j => ?_, rfl, by simp⟩
    rw [if_neg (by omega)]
    rfl
  | succ n ih =>
    obtain ⟨phase1, disk1, drive1, -⟩ := dataOut_writing (load m src) phase (by omega)
    obtain ⟨phase2, disk2, drive2, raised⟩ := dataOut_writing (load m (src + 1)) phase1
      (by simp only; omega)
    obtain ⟨written, drive, signalled⟩ := ih _ (src + 2) _ phase2 (by simp only; omega)
    refine ⟨fun d l j => ?_, drive.trans (drive2.trans drive1), fun _ boundary => ?_⟩
    · rw [Channel.outsw, written, disk2, disk1, putByte_apply, putByte_apply]
      dsimp only
      by_cases mine : d = t.drive ∧ t.lba ≤ l
      · obtain ⟨rfl, after⟩ := mine
        simp only [after, true_and]
        generalize position t.lba l j = p
        by_cases first : p = t.done
        · rw [if_neg (by omega), if_neg (by omega), if_pos first, if_pos (by omega), first,
            Nat.sub_self, Nat.add_zero]
        · by_cases second : p = t.done + 1
          · rw [if_neg (by omega), if_pos second, if_pos (by omega), second, Nat.add_sub_cancel_left]
          · rw [if_neg second, if_neg first]
            by_cases later : t.done + 1 + 1 ≤ p ∧ p < t.done + 1 + 1 + 2 * n
            · rw [if_pos later, if_pos (by omega)]
              congr 1
              omega
            · rw [if_neg later, if_neg (by omega)]
      · have outside {p : Prop} : ¬(d = t.drive ∧ t.lba ≤ l ∧ p) := fun all => mine ⟨all.1, all.2.1⟩
        rw [if_neg outside, if_neg outside, if_neg outside, if_neg outside]
    · rw [Channel.outsw]
      cases n with
      | zero => exact raised (by simpa [Nat.add_assoc] using boundary)
      | succ n => exact signalled (by omega) (by simp only; omega)

/-! One pass of each transfer loop. -/

theorem ideSetCmd_eq (c : Channel) (cmd : Nat) : ideSetCmd c cmd = c.command (cmd % 2 ^ 8) := by
  simp [ideSetCmd, Channel.outb, IDE_STA_CMD, IDE_DRIVE_SET, IDE_SEC_CNT, IDE_LBA_LOW,
    IDE_LBA_MID, IDE_LBA_HIGH]

theorem Addressed.transfer {c : Channel} {d : Fin 2} {lba cnt : Nat}
    (addressed : Addressed c d lba cnt) : c.transfer = ⟨d, lba % 2 ^ 28, cnt, 0⟩ := by
  rw [Channel.transfer, addressed.drive, addressed.lba, addressed.count]

/-- A READ SECTORS command and the wait for it leave the drive streaming the programmed sectors. -/
theorem read_ready {c : Channel} {d : Fin 2} {lba cnt : Nat} (addressed : Addressed c d lba cnt)
    (positive : 0 < cnt) :
    ∃ r, (semaDown (ideSetCmd c CMD_READ_SEC)).bind waitDrq = some r ∧
      r.phase = .reading ⟨d, lba % 2 ^ 28, cnt, 0⟩ ∧ r.disk = c.disk ∧ r.driveSet = c.driveSet := by
  rw [ideSetCmd_eq, Channel.command, if_neg (not_not.mpr addressed.lbaMode), if_pos (by decide),
    addressed.transfer, semaDown, if_pos (Nat.zero_lt_succ _), Option.bind_some]
  exact ⟨_, waitDrq_pending _ (by simp only [Pending]; omega), rfl, rfl, rfl⟩

theorem write_ready {c : Channel} {d : Fin 2} {lba cnt : Nat} (addressed : Addressed c d lba cnt)
    (positive : 0 < cnt) :
    ∃ r, waitDrq (ideSetCmd c CMD_WRITE_SEC) = some r ∧
      r.phase = .writing ⟨d, lba % 2 ^ 28, cnt, 0⟩ ∧ r.disk = c.disk ∧ r.driveSet = c.driveSet := by
  rw [ideSetCmd_eq, Channel.command, if_neg (not_not.mpr addressed.lbaMode), if_neg (by decide),
    if_pos (by decide), addressed.transfer]
  exact ⟨_, waitDrq_pending _ (by simp only [Pending]; omega), rfl, rfl, rfl⟩

theorem Addressed.selected {c : Channel} {d : Fin 2} {lba cnt : Nat}
    (addressed : Addressed c d lba cnt) : Selected c d lba :=
  .inr (by rw [addressed.driveSet, select_or d _ (highNibble_lt lba)])

theorem half_size (each : Nat) (chunk : each ≤ 256) :
    2 * (each * SECTOR_SIZE % 2 ^ 32 / 2) = 512 * each := by
  unfold SECTOR_SIZE
  omega

theorem Selected.keep {c c' : Channel} {d : Fin 2} {lba : Nat} (selected : Selected c d lba)
    (same : c'.driveSet = c.driveSet) : Selected c' d lba := by
  unfold Selected at *
  rwa [same]

/-- A pass of `ide_read` copies `each` sectors from the programmed address to the buffer. -/
theorem ideReadChunk_reads {c : Channel} {d : Fin 2} {lba each : Nat} (dst : Nat) (m : Memory)
    (selected : Selected c d lba) (positive : 0 < each) (chunk : each ≤ 256) :
    ∃ c', ideReadChunk lba each dst m c =
        some (fill m dst (512 * each) (Channel.byteOf c.disk d (lba % 2 ^ 28)), c') ∧
      c'.disk = c.disk ∧ Selected c' d lba := by
  have addressed := ideSetLba_addressed selected positive chunk
  have sameDisk : (ideSetLba c lba each).disk = c.disk := by rw [ideSetLba_eq]
  have size := half_size each chunk
  obtain ⟨r, ready, phase, rDisk, rDrive⟩ := read_ready addressed positive
  obtain ⟨filled, disk, drive⟩ := insw_reading r m dst (each * SECTOR_SIZE % 2 ^ 32 / 2) _ phase
    (by simp only; omega)
  refine ⟨(ideGetData r m dst each).2, ?_, disk.trans (rDisk.trans sameDisk),
    addressed.selected.keep (drive.trans rDrive)⟩
  have contents : (ideGetData r m dst each).1 =
      fill m dst (512 * each) (Channel.byteOf c.disk d (lba % 2 ^ 28)) := by
    rw [ideGetData, filled, size, rDisk, sameDisk]
    simp only [Nat.zero_add]
  rw [← contents]
  simp only [ideReadChunk]
  rw [← Option.bind_assoc, ready, Option.bind_some]

/-- What a pass of `ide_write` leaves on the disk. -/
def written (disk : Fin 2 → Nat → Sector) (m : Memory) (src : Nat) (d : Fin 2) (base each : Nat) :
    Fin 2 → Nat → Sector :=
  fun e l j => if e = d ∧ base ≤ l ∧ l < base + each then load m (src + position base l j)
    else disk e l j

theorem ideWriteChunk_writes {c : Channel} {d : Fin 2} {lba each : Nat} (src : Nat) (m : Memory)
    (selected : Selected c d lba) (positive : 0 < each) (chunk : each ≤ 256) :
    ∃ c', ideWriteChunk lba each src m c = some c' ∧
      c'.disk = written c.disk m src d (lba % 2 ^ 28) each ∧ Selected c' d lba := by
  have addressed := ideSetLba_addressed selected positive chunk
  have sameDisk : (ideSetLba c lba each).disk = c.disk := by rw [ideSetLba_eq]
  have size := half_size each chunk
  obtain ⟨r, ready, phase, rDisk, rDrive⟩ := write_ready addressed positive
  obtain ⟨disk, drive, raised⟩ := outsw_writing r m src (each * SECTOR_SIZE % 2 ^ 32 / 2) _ phase
    (by simp only; omega)
  have signalled : 0 < (ideSetData r m src each).sema := raised (by omega) (by simp only; omega)
  refine ⟨{ ideSetData r m src each with sema := (ideSetData r m src each).sema - 1 }, ?_, ?_,
    addressed.selected.keep (drive.trans rDrive)⟩
  · simp only [ideWriteChunk]
    rw [ready, Option.bind_some, semaDown, if_pos signalled]
  · funext e l j
    have moved := disk e l j
    simp only [size, Nat.zero_add, Nat.sub_zero, Nat.zero_le, true_and, rDisk, sameDisk] at moved
    simp only [ideSetData, moved, written]
    by_cases mine : e = d ∧ lba % 2 ^ 28 ≤ l
    · simp only [mine, true_and, position_lt_iff j mine.2]
    · have outside {p : Prop} : ¬(e = d ∧ lba % 2 ^ 28 ≤ l ∧ p) := fun all => mine ⟨all.1, all.2.1⟩
      rw [if_neg outside, if_neg outside]

end KOS.Ide
