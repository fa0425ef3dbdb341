import KOS.Ide

/-! `ide_read` over any number of passes. No pass advances the address it programs,
so every pass after the first streams the same 256 sectors again. -/

namespace KOS.IdeRead
open KOS.ByteMemory KOS.Ata KOS.Ide

theorem distance_inside {k o : Nat} (whole : o % (512 * 256) = 0)
    (inside : distance k o < 512 * 256) : distance k o = k % (512 * 256) := by
  unfold distance at *
  omega

theorem before_of_distance {k o n : Nat} (below : k < o + n) (outside : n ≤ distance k o) :
    k < o := by
  unfold distance at outside
  omega

/-- The loop fills the buffer at `dst` with the first 256 sectors over and over; a buffer
longer than the address space wraps onto itself, at a multiple of 256 sectors. -/
theorem ideReadLoop_reads (d : Fin 2) (lba dst cnt cntDone p : Nat) (m : Memory) (c : Channel)
    (selected : Selected c d lba) (aligned : cntDone < cnt → cntDone % 256 = 0)
    (at_ : p % 2 ^ 32 = (dst + 512 * cntDone) % 2 ^ 32) (below : cntDone ≤ cnt)
    (read : ∀ k < 512 * cntDone,
      load m (dst + k) = Channel.byteOf c.disk d (lba % 2 ^ 28) (k % (512 * 256))) :
    ∃ m' c', ideReadLoop lba cnt cntDone p m c = some (m', c') ∧ c'.disk = c.disk ∧
      ∀ k < 512 * cnt,
        load m' (dst + k) = Channel.byteOf c.disk d (lba % 2 ^ 28) (k % (512 * 256)) := by
  induction cntDone, p, m, c using ideReadLoop.induct cnt with
  | case1 cntDone p m c more ih =>
    have each := cntEach_eq_min cnt cntDone
    have whole := aligned more
    obtain ⟨c1, pass, disk1, selected1⟩ := ideReadChunk_reads p m selected
      (show 0 < cntEach cnt cntDone by omega) (by omega)
    have extended : ∀ k < 512 * (cntDone + cntEach cnt cntDone),
        load (fill m p (512 * cntEach cnt cntDone) (Channel.byteOf c.disk d (lba % 2 ^ 28))) (dst + k) =
          Channel.byteOf c.disk d (lba % 2 ^ 28) (k % (512 * 256)) := by
      intro k inside
      rw [load_fill_offset m _ at_ (by omega)]
      by_cases here : distance k (512 * cntDone) < 512 * cntEach cnt cntDone
      · rw [if_pos here]
        exact congrArg _ (distance_inside (by omega) (by omega))
      · rw [if_neg here]
        exact read k (before_of_distance (by omega) (Nat.le_of_not_lt here))
    obtain ⟨m', c', rest, disk, filled⟩ := ih ⟨_, c1⟩ selected1 (by omega)
      (by unfold SECTOR_SIZE; omega) (by omega) (by rw [disk1]; exact extended)
    refine ⟨m', c', ?_, disk.trans disk1, disk1 ▸ filled⟩
    rw [ideReadLoop, if_pos more, pass, Option.bind_some]
    exact rest
  | case2 cntDone p m c done =>
    refine ⟨m, c, ?_, rfl, fun k inside => read k (by omega)⟩
    rw [ideReadLoop, if_neg done]

/-- What `ide_read` leaves in the buffer: sector `i` of it is sector `lba + i % 256` of the drive. -/
theorem ideRead_reads (hd : IdeHd) (lba dst cnt : Nat) (m : Memory) (c : Channel) :
    ∃ m' c', ideRead hd lba dst cnt m c = some (m', c') ∧ c'.disk = c.disk ∧
      ∀ i < cnt, ∀ j : Fin 512,
        load m' (dst + 512 * i + j) = c.disk hd.drive (lba % 2 ^ 28 + i % 256) j := by
  have selected : Selected (ideSetDrive hd c) hd.drive lba := .inl (by rw [ideSetDrive_eq])
  obtain ⟨m', c', read, disk, filled⟩ := ideReadLoop_reads hd.drive lba dst cnt 0 dst m _
    selected (fun _ => rfl) rfl (Nat.zero_le _) (fun k none => by omega)
  have sameDisk : (ideSetDrive hd c).disk = c.disk := by rw [ideSetDrive_eq]
  refine ⟨m', c', read, disk.trans sameDisk, fun i below j => ?_⟩
  have lane := j.isLt
  rw [show dst + 512 * i + j.val = dst + (512 * i + j.val) by omega, filled _ (by omega),
    sameDisk, Channel.byteOf]
  congr 1
  · congr 1
    omega
  · exact Fin.ext (by simp only; omega)

/-- Up to 256 sectors are one pass, which fills the buffer and nothing else. -/
theorem ideRead_fills (hd : IdeHd) (lba dst : Nat) {cnt : Nat} (m : Memory) (c : Channel) (one : cnt ≤ 256) :
    ∃ c', ideRead hd lba dst cnt m c =
        some (fill m dst (512 * cnt) (Channel.byteOf c.disk hd.drive (lba % 2 ^ 28)), c') ∧ c'.disk = c.disk := by
  have selected : Selected (ideSetDrive hd c) hd.drive lba := .inl (by rw [ideSetDrive_eq])
  have disk : (ideSetDrive hd c).disk = c.disk := by rw [ideSetDrive_eq]
  unfold ideRead
  by_cases none : cnt = 0
  · rw [ideReadLoop, if_neg (by omega), none]
    exact ⟨_, rfl, disk⟩
  · have each := cntEach_eq_min cnt 0
    have whole : cntEach cnt 0 = cnt := by omega
    obtain ⟨c', pass, disk', -⟩ := ideReadChunk_reads dst m selected (Nat.pos_of_ne_zero none) one
    refine ⟨c', ?_, disk'.trans disk⟩
    rw [ideReadLoop, if_pos (by omega), whole, pass, Option.bind_some, ideReadLoop, if_neg (by omega), disk]

/-- `ide_read` delivers the sectors it was asked for, in order, exactly when the range
repeats with period 256; a range of at most 256 sectors always does. -/
theorem ideRead_exact_iff (hd : IdeHd) (lba dst cnt : Nat) (m : Memory) (c : Channel)
    (range : lba + cnt ≤ 2 ^ 28) :
    ∃ m' c', ideRead hd lba dst cnt m c = some (m', c') ∧
      ((∀ i < cnt, ∀ j : Fin 512, load m' (dst + 512 * i + j) = c.disk hd.drive (lba + i) j) ↔
        ∀ i < cnt, c.disk hd.drive (lba + i) = c.disk hd.drive (lba + i % 256)) := by
  obtain ⟨m', c', read, -, filled⟩ := ideRead_reads hd lba dst cnt m c
  refine ⟨m', c', read, ?_, ?_⟩
  · intro exact i below
    have base : lba % 2 ^ 28 = lba := Nat.mod_eq_of_lt (by omega)
    funext j
    rw [← exact i below j, filled i below j, base]
  · intro periodic i below j
    have base : lba % 2 ^ 28 = lba := Nat.mod_eq_of_lt (by omega)
    rw [filled i below j, base, periodic i below]

theorem ideRead_two_sectors :
    ∃ m' c', ideRead ⟨0⟩ 255 0 2 (fun _ => 0) countingDrive = some (m', c') ∧
      ∀ i < 2, ∀ j : Fin 512,
        load m' (0 + 512 * i + j) = countingDrive.disk 0 (255 + i) j := by
  obtain ⟨m', c', read, exact⟩ := ideRead_exact_iff ⟨0⟩ 255 0 2 (fun _ => 0) countingDrive
    (by decide)
  exact ⟨m', c', read, exact.mpr (fun i below => by rw [Nat.mod_eq_of_lt (by omega)])⟩

/-- The 257th sector of a read from sector 0 is sector 0 again. -/
theorem ideRead_repeats :
    ∃ m' c', ideRead ⟨0⟩ 0 0 257 (fun _ => 0) countingDrive = some (m', c') ∧
      load m' (0 + 512 * 256 + (0 : Fin 512)) ≠ countingDrive.disk 0 (0 + 256) 0 := by
  obtain ⟨m', c', read, -, filled⟩ := ideRead_reads ⟨0⟩ 0 0 257 (fun _ => 0) countingDrive
  refine ⟨m', c', read, ?_⟩
  rw [filled 256 (by decide) 0]
  decide

end KOS.IdeRead
