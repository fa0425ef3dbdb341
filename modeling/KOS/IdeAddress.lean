import KOS.Ide

/-! The task file through `ide_set_drive` and the calls of `ide_set_lba` that the chunk loops make. -/

namespace KOS.IdeAddress
open KOS.ByteMemory KOS.Ata KOS.Ide

/-- The channel after `ide_set_drive(hd)` and one or more calls of `ide_set_lba` for `lba`, the last one with
`cnt`. Between two calls everything may change but the drive register, which reads back what was last written. -/
inductive Programmed (hd : IdeHd) (lba : Nat) : Channel → Nat → Prop where
  | first (c : Channel) {cnt : Nat} (positive : 1 ≤ cnt) (chunk : cnt ≤ 256) :
      Programmed hd lba (ideSetLba (ideSetDrive hd c) lba cnt) cnt
  | again {c : Channel} {cnt cnt' : Nat} (before : Programmed hd lba c cnt) (c' : Channel)
      (driveSet : c'.driveSet = c.driveSet) (positive : 1 ≤ cnt') (chunk : cnt' ≤ 256) :
      Programmed hd lba (ideSetLba c' lba cnt') cnt'

variable {hd : IdeHd} {lba cnt : Nat} {c c' : Channel} {m m' : Memory}

theorem Programmed.addressed (programmed : Programmed hd lba c cnt) : Addressed c hd.drive lba cnt := by
  induction programmed with
  | first c positive chunk =>
    have selected : Selected (ideSetDrive hd c) hd.drive lba := by
      rw [ideSetDrive_eq]
      exact .inl rfl
    exact ideSetLba_addressed selected positive chunk
  | again before c' driveSet positive chunk ih =>
    exact ideSetLba_addressed (ih.selected.keep driveSet) positive chunk

/-- The registers name the drive of `hd`, LBA mode, the address and the count. -/
theorem Programmed.names (small : lba < 2 ^ 28) (programmed : Programmed hd lba c cnt) :
    c.drive = driveNr hd.devNr ∧ c.lbaMode ∧ c.lba = lba ∧ c.count = cnt := by
  have addressed := programmed.addressed
  have whole : c.lba = lba := by
    rw [addressed.lba]
    exact Nat.mod_eq_of_lt small
  exact ⟨addressed.drive, addressed.lbaMode, whole, addressed.count⟩

/-- The last two sectors of a slave, after a chunk of 256. -/
theorem programmed_names_slave :
    (ideSetLba (ideSetLba (ideSetDrive ⟨1⟩ countingDrive) 0xFFFFFFE 256) 0xFFFFFFE 2).drive = driveNr 1 ∧
      (ideSetLba (ideSetLba (ideSetDrive ⟨1⟩ countingDrive) 0xFFFFFFE 256) 0xFFFFFFE 2).lbaMode ∧
      (ideSetLba (ideSetLba (ideSetDrive ⟨1⟩ countingDrive) 0xFFFFFFE 256) 0xFFFFFFE 2).lba = 0xFFFFFFE ∧
      (ideSetLba (ideSetLba (ideSetDrive ⟨1⟩ countingDrive) 0xFFFFFFE 256) 0xFFFFFFE 2).count = 2 :=
  @Programmed.names ⟨1⟩ 0xFFFFFFE 2 _ (by decide)
    (.again (.first countingDrive (by decide) (by decide)) _ rfl (by decide) (by decide))

/-! A chunk leaves the drive register as `ide_set_lba` wrote it. -/

theorem ideSetCmd_driveSet (c : Channel) (cmd : Nat) : (ideSetCmd c cmd).driveSet = c.driveSet := by
  rw [ideSetCmd_eq, Channel.command]
  split_ifs <;> rfl

theorem semaDown_driveSet (downed : semaDown c = some c') : c'.driveSet = c.driveSet := by
  unfold semaDown at downed
  split_ifs at downed
  rw [← Option.some.inj downed]

theorem waitDrq_driveSet (waited : waitDrq c = some c') : c'.driveSet = c.driveSet := by
  induction polls : c.busy using Nat.strong_induction_on generalizing c with
  | _ polls ih =>
    rw [waitDrq, ideGetStatus_eq] at waited
    dsimp only at waited
    split_ifs at waited with notReady fewer
    · exact @ih (c.busy - 1) (by omega) { c with busy := c.busy - 1 } waited rfl
    · rw [← Option.some.inj waited]

theorem dataIn_driveSet (c : Channel) : c.dataIn.2.driveSet = c.driveSet := by
  unfold Channel.dataIn
  cases c.phase with
  | ready => rfl
  | writing t => rfl
  | reading t =>
    dsimp only
    split_ifs <;> rfl

theorem dataOut_driveSet (c : Channel) (v : UInt8) : (c.dataOut v).driveSet = c.driveSet := by
  unfold Channel.dataOut
  cases c.phase with
  | ready => rfl
  | reading t => rfl
  | writing t =>
    dsimp only
    split_ifs <;> rfl

theorem insw_driveSet (c : Channel) (m : Memory) (addr n : Nat) : (c.insw m addr n).2.driveSet = c.driveSet := by
  induction n generalizing c m addr with
  | zero => rfl
  | succ n ih =>
    rw [Channel.insw, ih, dataIn_driveSet, dataIn_driveSet]

theorem outsw_driveSet (c : Channel) (m : Memory) (addr n : Nat) : (c.outsw m addr n).driveSet = c.driveSet := by
  induction n generalizing c addr with
  | zero => rfl
  | succ n ih => rw [Channel.outsw, ih, dataOut_driveSet, dataOut_driveSet]

theorem ideReadChunk_again {each dst : Nat} (ran : ideReadChunk lba each dst m c = some (m', c')) :
    c'.driveSet = (ideSetLba c lba each).driveSet := by
  simp only [ideReadChunk, Option.bind_eq_some_iff] at ran
  obtain ⟨c1, downed, c2, waited, moved⟩ := ran
  have last : (ideGetData c2 m dst each).2 = c' := congrArg Prod.snd (Option.some.inj moved)
  rw [← last, ideGetData, insw_driveSet, waitDrq_driveSet waited, semaDown_driveSet downed, ideSetCmd_driveSet]

theorem ideWriteChunk_again {each src : Nat} (ran : ideWriteChunk lba each src m c = some c') :
    c'.driveSet = (ideSetLba c lba each).driveSet := by
  simp only [ideWriteChunk, Option.bind_eq_some_iff] at ran
  obtain ⟨c1, waited, downed⟩ := ran
  rw [semaDown_driveSet downed, ideSetData, outsw_driveSet, waitDrq_driveSet waited, ideSetCmd_driveSet]

/-- A channel in which a pass of the loop of `ide_read` or `ide_write` begins, after `cntDone` sectors. -/
inductive Pass (hd : IdeHd) (lba cnt : Nat) : Nat → Channel → Prop where
  | start (c : Channel) : Pass hd lba cnt 0 (ideSetDrive hd c)
  | read {c c' : Channel} {cntDone dst : Nat} {m m' : Memory} (before : Pass hd lba cnt cntDone c) (more : cntDone < cnt)
      (ran : ideReadChunk lba (cntEach cnt cntDone) dst m c = some (m', c')) :
      Pass hd lba cnt (cntDone + cntEach cnt cntDone) c'
  | write {c c' : Channel} {cntDone src : Nat} {m : Memory} (before : Pass hd lba cnt cntDone c) (more : cntDone < cnt)
      (ran : ideWriteChunk lba (cntEach cnt cntDone) src m c = some c') : Pass hd lba cnt (cntDone + cntEach cnt cntDone) c'

/-- In every pass the registers are `Programmed`. -/
theorem Pass.programmed {cntDone : Nat} (pass : Pass hd lba cnt cntDone c) (more : cntDone < cnt) :
    Programmed hd lba (ideSetLba c lba (cntEach cnt cntDone)) (cntEach cnt cntDone) := by
  have each := cntEach_eq_min cnt cntDone
  induction pass with
  | start c => exact .first c (by omega) (by omega)
  | @read _ _ before _ _ _ _ fewer ran ih =>
    have last := ih fewer (cntEach_eq_min cnt before)
    exact .again last _ (ideReadChunk_again ran) (by omega) (by omega)
  | @write _ _ before _ _ _ fewer ran ih =>
    have last := ih fewer (cntEach_eq_min cnt before)
    exact .again last _ (ideWriteChunk_again ran) (by omega) (by omega)

end KOS.IdeAddress
