import KOS.Ide

/-! `ide_write` over any number of passes. The source pointer advances from pass to pass
and the programmed address does not, so later passes overwrite the first 256 sectors. -/

namespace KOS.IdeWrite
open KOS.ByteMemory KOS.Ata KOS.Ide

/-- Bytes [512 * i, 512 * (i + 1)) of the source buffer. -/
def sourceSector (m : Memory) (src i : Nat) : Sector := fun j => load m (src + 512 * i + j)

/-- The last source sector below `cnt` that is written at distance `r` from the start. -/
def lastPass (cnt r : Nat) : Nat := cnt - 1 - (cnt - 1 - r) % 256

theorem written_apply (disk : Fin 2 → Nat → Sector) (m : Memory) {p src n : Nat} (d : Fin 2)
    (base each : Nat) (at_ : p % 2 ^ 32 = (src + 512 * n) % 2 ^ 32) (e : Fin 2) (l : Nat) :
    written disk m p d base each e l =
      if e = d ∧ base ≤ l ∧ l < base + each then sourceSector m src (n + (l - base))
      else disk e l := by
  funext j
  unfold written
  split_ifs
  · exact load_congr m (by unfold position; omega)
  · rfl

/-- The rest of the loop rewrites the sectors its passes reach; each keeps the last data sent to it. -/
theorem ideWriteLoop_writes (d : Fin 2) (lba src cnt cntDone p : Nat) (m : Memory) (c : Channel)
    (selected : Selected c d lba) (aligned : cntDone < cnt → cntDone % 256 = 0)
    (at_ : p % 2 ^ 32 = (src + 512 * cntDone) % 2 ^ 32) :
    ∃ c', ideWriteLoop lba cnt cntDone p m c = some c' ∧ ∀ e l, c'.disk e l =
      if e = d ∧ lba % 2 ^ 28 ≤ l ∧ l < lba % 2 ^ 28 + min 256 (cnt - cntDone)
        then sourceSector m src (lastPass cnt (l - lba % 2 ^ 28)) else c.disk e l := by
  induction cntDone, p, c using ideWriteLoop.induct cnt with
  | case1 cntDone p c more ih =>
    have each := cntEach_eq_min cnt cntDone
    have whole := aligned more
    obtain ⟨c1, pass, disk1, selected1⟩ := ideWriteChunk_writes p m selected
      (show 0 < cntEach cnt cntDone by omega) (by omega)
    obtain ⟨c', rest, disk⟩ := ih c1 selected1 (by omega) (by unfold SECTOR_SIZE; omega)
    refine ⟨c', ?_, fun e l => ?_⟩
    · rw [ideWriteLoop, if_pos more, pass, Option.bind_some]
      exact rest
    · rw [disk, disk1, written_apply c.disk m d _ _ at_]
      generalize lba % 2 ^ 28 = base
      by_cases mine : e = d ∧ base ≤ l
      · obtain ⟨rfl, after⟩ := mine
        simp only [after, true_and]
        by_cases again : l < base + min 256 (cnt - (cntDone + cntEach cnt cntDone))
        · rw [if_pos again, if_pos (by omega)]
        · rw [if_neg again]
          by_cases here : l < base + cntEach cnt cntDone
          · rw [if_pos here, if_pos (by omega),
              show cntDone + (l - base) = lastPass cnt (l - base) by unfold lastPass; omega]
          · rw [if_neg here, if_neg (by omega)]
      · have outside {q : Prop} : ¬(e = d ∧ base ≤ l ∧ q) := fun all => mine ⟨all.1, all.2.1⟩
        rw [if_neg outside, if_neg outside, if_neg outside]
  | case2 cntDone p c done =>
    refine ⟨c, ?_, fun e l => ?_⟩
    · rw [ideWriteLoop, if_neg done]
    · rw [if_neg (by omega)]

theorem ideWrite_writes (hd : IdeHd) (lba src cnt : Nat) (m : Memory) (c : Channel) :
    ∃ c', ideWrite hd lba src cnt m c = some c' ∧ ∀ e l, c'.disk e l =
      if e = hd.drive ∧ lba % 2 ^ 28 ≤ l ∧ l < lba % 2 ^ 28 + min 256 cnt
        then sourceSector m src (lastPass cnt (l - lba % 2 ^ 28)) else c.disk e l := by
  have selected : Selected (ideSetDrive hd c) hd.drive lba := .inl (by rw [ideSetDrive_eq])
  have sameDisk : (ideSetDrive hd c).disk = c.disk := by rw [ideSetDrive_eq]
  obtain ⟨c', ran, disk⟩ := ideWriteLoop_writes hd.drive lba src cnt 0 src m _ selected
    (fun _ => rfl) rfl
  exact ⟨c', ran, fun e l => by rw [disk, sameDisk, Nat.sub_zero]⟩

/-- The contract of `ide_write`: the range holds the source and nothing else changed. -/
def Stored (disk disk' : Fin 2 → Nat → Sector) (m : Memory) (src : Nat) (d : Fin 2)
    (lba cnt : Nat) : Prop :=
  (∀ i < cnt, disk' d (lba + i) = sourceSector m src i) ∧
    ∀ e l, ¬(e = d ∧ lba ≤ l ∧ l < lba + cnt) → disk' e l = disk e l

/-- `ide_write` meets its contract exactly when the last data sent to each of the first 256
sectors is the data meant for it, and the sectors never reached hold theirs already.
Up to 256 sectors both are always so. -/
theorem ideWrite_stored_iff (hd : IdeHd) (lba src cnt : Nat) (m : Memory) (c : Channel)
    (range : lba + cnt ≤ 2 ^ 28) :
    ∃ c', ideWrite hd lba src cnt m c = some c' ∧
      (Stored c.disk c'.disk m src hd.drive lba cnt ↔
        ∀ i < cnt, (if i < 256 then sourceSector m src (lastPass cnt i)
          else c.disk hd.drive (lba + i)) = sourceSector m src i) := by
  obtain ⟨c', ran, disk⟩ := ideWrite_writes hd lba src cnt m c
  have reached : ∀ i < cnt, c'.disk hd.drive (lba + i) =
      if i < 256 then sourceSector m src (lastPass cnt i) else c.disk hd.drive (lba + i) := by
    intro i below
    have base : lba % 2 ^ 28 = lba := Nat.mod_eq_of_lt (by omega)
    rw [disk, base, Nat.add_sub_cancel_left]
    by_cases first : i < 256
    · rw [if_pos first, if_pos ⟨rfl, by omega, by omega⟩]
    · rw [if_neg first, if_neg (by omega)]
  refine ⟨c', ran, ?_, ?_⟩
  · intro stored i below
    rw [← reached i below]
    exact stored.1 i below
  · intro agree
    refine ⟨fun i below => (reached i below).trans (agree i below), fun e l outside => ?_⟩
    rw [disk, if_neg]
    rintro ⟨same, after, before⟩
    have base : lba % 2 ^ 28 ≤ lba := Nat.mod_le _ _
    by_cases empty : cnt = 0
    · omega
    · have base : lba % 2 ^ 28 = lba := Nat.mod_eq_of_lt (by omega)
      exact outside ⟨same, by omega, by omega⟩

theorem ideWrite_two_sectors :
    ∃ c', ideWrite ⟨0⟩ 255 0 2 (fun _ => 7) countingDrive = some c' ∧
      Stored countingDrive.disk c'.disk (fun _ => 7) 0 0 255 2 := by
  obtain ⟨c', ran, stored⟩ := ideWrite_stored_iff ⟨0⟩ 255 0 2 (fun _ => 7) countingDrive (by decide)
  refine ⟨c', ran, stored.mpr (fun i below => ?_)⟩
  rw [if_pos (by omega)]
  rfl

/-- A write of 257 sectors leaves the last of them where the first belongs. -/
theorem ideWrite_overwrites :
    ∃ c', ideWrite ⟨0⟩ 0 0 257 (fun a => UInt8.ofNat (a / 2 ^ 17)) countingDrive = some c' ∧
      ¬ Stored countingDrive.disk c'.disk (fun a => UInt8.ofNat (a / 2 ^ 17)) 0 0 0 257 := by
  obtain ⟨c', ran, disk⟩ := ideWrite_writes ⟨0⟩ 0 0 257 (fun a => UInt8.ofNat (a / 2 ^ 17)) countingDrive
  refine ⟨c', ran, fun stored => ?_⟩
  have first := congrFun (stored.1 0 (by decide)) 0
  rw [disk, if_pos (by decide)] at first
  exact absurd first (by decide)

end KOS.IdeWrite
