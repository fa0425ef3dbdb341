import KOS.FsHeap
import KOS.HeapRoom

/-! `fs_init`: every partition that does not carry the magic number is formatted, and every partition is mounted.
What that leaves in the root directory and on the disks, and what a later start finds there. -/

namespace KOS.FsInit
open KOS.ByteMemory KOS.Ata KOS.Ide KOS.FsLayout KOS.FsMount KOS.FsHeap KOS.Clients KOS.Machine
open KOS.Fs hiding fsFormat
open KOS.RootDir (Root Dirent addToDir addEntry rootDirInit inUse FT_UNKNOWN ROOT_DIR_MAX)
open KOS.LinkMemory (load32)
open KOS.HeapRoom (bootHeap booted_room below_booted)
open KOS.HeapRun (booted)

def IDE_CH_NR : Nat := 4
def SIZEOF_INODE_SYS : Nat := 72

/-- A node of `ptn_list`, with the channel of the partition's disk. -/
structure Listed where
  ch : Fin IDE_CH_NR
  f : FsPtn

/-- What `fs_init` works on besides the list. -/
structure Sys (σ : Type) where
  alloc : σ
  chans : Fin IDE_CH_NR → Channel
  root : Root
  inodeMax : Nat

variable {σ : Type} (C : Calls σ)

/-- The check of the super block in `sbBuf`; `sb` is the address of `fs_format`'s own. -/
def checkFs (sb sbBuf : Nat) (ptn : IdePtn) (s : σ) (c : Channel) : Option (σ × Channel) :=
  if FS_MAGIC ≠ load32 (C.mem s) sbBuf then fsFormat C sb ptn s c else some (s, c)

/-- The body of the loop of `fs_init`. -/
def initPtn (sb sbBuf : Nat) (p : Listed) (s : Sys σ) : Option (Sys σ × Listed) := do
  let (alloc, c) ← readSectors C p.f.ptn.hd (word (p.f.ptn.startLba + 1)) sbBuf 1 s.alloc (s.chans p.ch)
  let (alloc, c) ← checkFs C sb sbBuf p.f.ptn alloc c
  let r ← fsMount C p.f s.root s.inodeMax alloc c
  some (⟨r.alloc, Function.update s.chans p.ch r.chan, r.root, r.inodeMax⟩, { p with f := r.ptn })

def eachPtn (sb sbBuf : Nat) : List Listed → Sys σ → Option (Sys σ × List Listed)
  | [], s => some (s, [])
  | p :: rest, s => do
      let (s, p) ← initPtn C sb sbBuf p s
      let (s, rest) ← eachPtn sb sbBuf rest s
      some (s, p :: rest)

/-- The inode that `root_dir_init` allocates stays. -/
def fsInit (sb : Nat) (ptns : List Listed) (s : Sys σ) : Option (Sys σ × List Listed) :=
  let (_, alloc) := C.sysMalloc s.alloc SIZEOF_INODE_SYS
  let s := { s with alloc, root := rootDirInit }
  if ptns.isEmpty then some (s, [])
  else do
    let (sbBuf, alloc) := C.sysMalloc s.alloc SECTOR_SIZE
    let (s, ptns) ← eachPtn C sb sbBuf ptns { s with alloc }
    let alloc ← C.sysFree s.alloc sbBuf
    some ({ s with alloc }, ptns)

/-! The root directory. -/

/-- The entry that a mounted partition has. -/
def Listed.entry (p : Listed) : Dirent := ⟨p.f.inodeBase, p.f.name, FT_DIR⟩

def freeEntry : Dirent := ⟨0, [], FT_UNKNOWN⟩

/-- The two entries of `root_dir_init`, one for each partition in the order of the list, and the free ones. -/
def listing (ptns : List Listed) : Root where
  iSize := SIZEOF_DIRENT * (2 + ptns.length)
  blk := ⟨0, [0x2E], FT_DIR⟩ :: ⟨0, [0x2E, 0x2E], FT_DIR⟩ ::
    (ptns.map Listed.entry ++ List.replicate (ROOT_DIR_MAX - 2 - ptns.length) freeEntry)

/-- The same partition, whatever a mount has entered. -/
def Same (p p' : Listed) : Prop := p'.ch = p.ch ∧ p'.f.ptn = p.f.ptn ∧ p'.f.name = p.f.name

theorem addEntry_next (name : List UInt8) (iNo k : Nat) {front : List Dirent} (used : ∀ d ∈ front, inUse d = true) :
    addEntry name iNo (front ++ List.replicate (k + 1) freeEntry) =
      some (front ++ ⟨iNo, name, FT_DIR⟩ :: List.replicate k freeEntry) := by
  induction front with
  | nil => rfl
  | cons d rest ih =>
    have taken : d.fType ≠ FT_UNKNOWN := of_decide_eq_true (used d List.mem_cons_self)
    have later := ih (fun e member => used e (List.mem_cons_of_mem d member))
    rw [List.cons_append, addEntry, if_neg taken, later]
    rfl

theorem addEntry_full (name : List UInt8) (iNo : Nat) {front : List Dirent} (used : ∀ d ∈ front, inUse d = true) :
    addEntry name iNo front = none := by
  induction front with
  | nil => rfl
  | cons d rest ih =>
    have taken : d.fType ≠ FT_UNKNOWN := of_decide_eq_true (used d List.mem_cons_self)
    rw [addEntry, if_neg taken, ih (fun e member => used e (List.mem_cons_of_mem d member))]
    rfl

/-! The disks. -/

/-- The sectors of every drive. -/
abbrev Disks := Fin IDE_CH_NR → Fin 2 → Nat → Sector

def Sys.disks (s : Sys σ) : Disks := fun ch => (s.chans ch).disk

/-- Where a partition lies. -/
structure Place where
  ch : Fin IDE_CH_NR
  ptn : IdePtn

def Listed.place (p : Listed) : Place := ⟨p.ch, p.f.ptn⟩

def Place.Covers (p : Place) (ch : Fin IDE_CH_NR) (e : Fin 2) (l : Nat) : Prop := ch = p.ch ∧ Inside p.ptn e l

/-- The super block that a partition carries. -/
def Place.described (p : Place) (disks : Disks) : SuperBlock :=
  superBlockOf (disks p.ch p.ptn.hd.drive (p.ptn.startLba + 1))

def Place.Valid (p : Place) (disks : Disks) : Prop := (p.described disks).magic = FS_MAGIC

/-- Each partition has room for a file system and lies on its drive, and no two overlap. -/
structure Layout (places : List Place) : Prop where
  large : ∀ p ∈ places, 516 ≤ p.ptn.secCnt
  fits : ∀ p ∈ places, p.ptn.startLba + p.ptn.secCnt ≤ 2 ^ 28
  apart : places.Pairwise fun p q => ∀ ch e l, p.Covers ch e l → ¬q.Covers ch e l

/-- A partition with the magic number carries its own super block, and `fs_format` keeps to its buffer for one without. -/
def Place.Sound (p : Place) (disks : Disks) : Prop :=
  p.Valid disks ∧ p.described disks = superBlock p.ptn ∨ ¬p.Valid disks ∧ FsBuffer.Inside p.ptn

/-- A partition without the magic number has been formatted, and no other sector has changed. -/
structure Settled (places : List Place) (disks disks' : Disks) : Prop where
  described : ∀ p ∈ places, ¬p.Valid disks → p.described disks' = superBlock p.ptn
  kept : ∀ ch e l, (∀ p ∈ places, ¬p.Valid disks → ¬p.Covers ch e l) → disks' ch e l = disks ch e l

variable {p : Place} {places : List Place} {disks disks' disks'' : Disks}

theorem Place.covers_first (large : 516 ≤ p.ptn.secCnt) : p.Covers p.ch p.ptn.hd.drive (p.ptn.startLba + 1) :=
  ⟨rfl, rfl, by omega, by omega⟩

/-- A partition looks the same where its second sector is the same. -/
theorem Place.described_congr (same : disks' p.ch p.ptn.hd.drive (p.ptn.startLba + 1) =
    disks p.ch p.ptn.hd.drive (p.ptn.startLba + 1)) : p.described disks' = p.described disks :=
  congrArg superBlockOf same

theorem Layout.tail (layout : Layout (p :: places)) : Layout places where
  large q member := layout.large q (List.mem_cons_of_mem p member)
  fits q member := layout.fits q (List.mem_cons_of_mem p member)
  apart := (List.pairwise_cons.mp layout.apart).2

/-- The formatting of the first partition is not seen from the others. -/
theorem Settled.others (layout : Layout (p :: places)) (first : Settled [p] disks disks') :
    ∀ q ∈ places, q.described disks' = q.described disks := by
  have apart := (List.pairwise_cons.mp layout.apart).1
  intro q member
  apply Place.described_congr
  apply first.kept
  intro p' single missing covered
  rw [List.mem_singleton.mp single] at covered
  exact apart q member _ _ _ covered (Place.covers_first (layout.large q (List.mem_cons_of_mem p member)))

/-- Nor is theirs from the first. -/
theorem Settled.cons (layout : Layout (p :: places)) (first : Settled [p] disks disks')
    (later : Settled places disks' disks'') : Settled (p :: places) disks disks'' := by
  have apart := (List.pairwise_cons.mp layout.apart).1
  have others := first.others layout
  have valid : ∀ q ∈ places, (q.Valid disks' ↔ q.Valid disks) := by
    intro q member
    unfold Place.Valid
    rw [others q member]
  constructor
  · intro q member missing
    rcases List.mem_cons.mp member with rfl | behind
    · rw [← first.described q List.mem_cons_self missing]
      apply Place.described_congr
      apply later.kept
      intro q' behind _ covered
      exact apart q' behind _ _ _ (Place.covers_first (layout.large q member)) covered
    · exact later.described q behind (fun found => missing ((valid q behind).mp found))
  · intro ch e l outside
    have kept := later.kept ch e l (by
      intro q behind missing
      exact outside q (List.mem_cons_of_mem p behind) (fun found => missing ((valid q behind).mpr found)))
    rw [kept]
    apply first.kept
    intro p' single
    rw [List.mem_singleton.mp single]
    exact outside p List.mem_cons_self

theorem Settled.refl (disks : Disks) : Settled [] disks disks where
  described _ none := absurd none List.not_mem_nil
  kept _ _ _ _ := rfl

theorem Place.Sound.congr (sound : p.Sound disks) (same : p.described disks' = p.described disks) : p.Sound disks' := by
  unfold Place.Sound Place.Valid at *
  rw [same]
  exact sound

/-- Every partition is described by its own super block in the end. -/
theorem Settled.own (settled : Settled places disks disks') (layout : Layout places) (sound : ∀ p ∈ places, p.Sound disks)
    (member : p ∈ places) : p.described disks' = superBlock p.ptn := by
  rcases sound p member with ⟨found, own⟩ | ⟨missing, -⟩
  · have same : p.described disks' = p.described disks := by
      apply Place.described_congr
      apply settled.kept
      intro q listed missing covered
      by_cases equal : q = p
      · exact missing (equal ▸ found)
      · have symmetric : Std.Symm fun p q : Place => ∀ ch e l, p.Covers ch e l → ¬q.Covers ch e l :=
          ⟨fun _ _ apart ch e l second first => apart ch e l first second⟩
        exact layout.apart.forall listed member equal _ _ _ covered (Place.covers_first (layout.large p member))
    rw [same, own]
  · exact settled.described p member missing

theorem Place.valid_of_own (own : p.described disks = superBlock p.ptn) : p.Valid disks := by
  unfold Place.Valid
  rw [own]
  rfl

/-- With every magic number in place nothing is formatted. -/
theorem Settled.unchanged (settled : Settled places disks disks') (valid : ∀ p ∈ places, p.Valid disks) :
    disks' = disks := by
  funext ch e l
  apply settled.kept
  intro p member missing
  exact absurd (valid p member) missing

theorem Settled.keep (valid : p.Valid disks) : Settled [p] disks disks where
  described _ single missing := absurd valid (List.mem_singleton.mp single ▸ missing)
  kept _ _ _ _ := rfl

/-! One start. -/

theorem disks_update (s : Sys σ) {s' : Sys σ} {ch : Fin IDE_CH_NR} {c : Channel}
    (after : s'.chans = Function.update s.chans ch c) : s'.disks = Function.update s.disks ch c.disk := by
  funext ch'
  rw [Sys.disks, after]
  by_cases here : ch' = ch
  · rw [here, Function.update_self, Function.update_self]
  · rw [Function.update_of_ne here, Function.update_of_ne here]
    rfl

/-- A format of one partition. -/
theorem settled_format {c : Channel} (missing : ¬p.Valid disks) (confined : Confined p.ptn (disks p.ch) c.disk)
    (described : superBlockOf (c.disk p.ptn.hd.drive (p.ptn.startLba + 1)) = superBlock p.ptn) :
    Settled [p] disks (Function.update disks p.ch c.disk) := by
  constructor
  · intro q single _
    rw [List.mem_singleton.mp single, Place.described, Function.update_self]
    exact described
  · intro ch e l outside
    by_cases here : ch = p.ch
    · rw [here, Function.update_self]
      apply confined e l
      intro inside
      exact outside p List.mem_cons_self missing ⟨here, inside⟩
    · rw [Function.update_of_ne here]

variable {H : ClientHeap σ} {sb sbBuf n : Nat}

/-- What `fs_init` writes to besides its blocks is not the heap's: `fs_format`'s super block on the stack, and the bytes
at 0, where a block bitmap's pointer that is still NULL leads. -/
structure Frame (H : ClientHeap σ) (sb : Nat) : Prop where
  fits : sb + 512 ≤ 2 ^ 32
  stack : bytes (sb, 512) ⊆ H.static
  low : bytes (0, 512) ⊆ H.static

/-- The pages that a partition may cost: the buffer of `fs_format`, and the three of `fs_mount`. -/
def Place.pages (p : Place) : Nat :=
  pagesFor (bufSize p.ptn) + (pagesFor 512 + (pagesFor 512 + pagesFor (bufSize p.ptn)))

theorem Place.pages_add (p : Place) (n : Nat) :
    p.pages + n = pagesFor (bufSize p.ptn) + (pagesFor 512 + (pagesFor 512 + (pagesFor (bufSize p.ptn) + n))) := by
  rw [Place.pages, Nat.add_assoc, Nat.add_assoc, Nat.add_assoc]

/-- The check formats exactly what has no magic number, and then the partition is described. -/
theorem checkFs_runs {p : Place} {s : σ} {c : Channel} (frame : Frame H sb) (large : 516 ≤ p.ptn.secCnt)
    (fits : p.ptn.startLba + p.ptn.secCnt ≤ 2 ^ 28) (room : H.Room s (pagesFor (bufSize p.ptn) + n))
    (sound : p.Sound disks) (attached : c.disk = disks p.ch)
    (shown : loadSuperBlock (H.mem s) sbBuf = p.described disks) :
    ∃ s' c', checkFs H.toCalls sb sbBuf p.ptn s c = some (s', c') ∧ H.live s' = H.live s ∧ H.Room s' n ∧
      Settled [p] disks (Function.update disks p.ch c'.disk) ∧
        superBlockOf (c'.disk p.ptn.hd.drive (p.ptn.startLba + 1)) = superBlock p.ptn := by
  have magic : load32 (H.mem s) sbBuf = (p.described disks).magic := congrArg SuperBlock.magic shown
  unfold checkFs
  rw [magic]
  rcases sound with ⟨found, own⟩ | ⟨missing, inside⟩
  · rw [if_neg (not_not.mpr found.symm)]
    refine ⟨s, c, rfl, rfl, room.mono (Nat.le_add_left ..), ?_, ?_⟩
    · rw [attached, Function.update_eq_self]
      exact Settled.keep found
    · rw [attached]
      exact own
  · obtain ⟨s', c', formatted, live, left, confined, described⟩ :=
      fsFormat_runs sb c room inside frame.fits frame.stack large fits
    rw [attached] at confined
    rw [if_pos (Ne.symm missing)]
    exact ⟨s', c', formatted, live, left, settled_format missing confined described, described⟩

/-- What a pass of the loop leaves for the rest of the list. -/
structure Passed (H : ClientHeap σ) (sbBuf n : Nat) (p : Listed) (s : Sys σ) (base : Nat) (r : Sys σ × Listed) : Prop where
  same : Same p r.2
  base : r.2.f.inodeBase = base
  room : H.Room r.1.alloc n
  buf : (sbBuf, 512) ∈ H.live r.1.alloc
  settled : Settled [p.place] s.disks r.1.disks

/-- A pass of the loop. Only the entry in the root directory can be missing. -/
theorem initPtn_runs {p : Listed} {s : Sys σ} (frame : Frame H sb) (large : 516 ≤ p.f.ptn.secCnt)
    (fits : p.f.ptn.startLba + p.f.ptn.secCnt ≤ 2 ^ 28) (fresh : p.f.blkBtmp.bits = 0)
    (room : H.Room s.alloc (p.place.pages + n)) (buf : (sbBuf, 512) ∈ H.live s.alloc) (sound : p.place.Sound s.disks) :
    ∃ base after, initPtn H.toCalls sb sbBuf p s = (addToDir s.root p.f.name base).map after ∧
      ∀ root, (after root).1.root = root ∧ Passed H sbBuf n p s base (after root) := by
  have low : p.f.ptn.startLba + 1 < 2 ^ 28 := by omega
  have address : word (p.f.ptn.startLba + 1) = p.f.ptn.startLba + 1 := Nat.mod_eq_of_lt (by omega)
  rw [Place.pages_add] at room
  have bounds : sbBuf + 512 * 1 ≤ 2 ^ 32 := (H.fits _ _ room.1 _ buf).2
  obtain ⟨s1, c1, read, disk1, written, filled⟩ := readSectors_written p.f.ptn.hd (word (p.f.ptn.startLba + 1)) s.alloc
    (s.chans p.ch) (by decide : 1 ≤ 256) bounds (fun a inside => .inr ⟨_, buf, inside⟩)
  have shown : loadSuperBlock (H.mem s1) sbBuf = p.place.described s.disks := by
    rw [filled, address]
    exact loadSuperBlock_filled _ (s.chans p.ch).disk p.f.ptn.hd.drive low
  obtain ⟨s2, c2, checked, live2, room2, settled, described⟩ :=
    checkFs_runs (p := p.place) frame large fits (written.room room) sound disk1 shown
  have stale : Stale H s2 p.f.blkBtmp.bits := .inl ⟨fresh, frame.low⟩
  obtain ⟨s3, new, base, mounted, room3, live3, outcome, entered⟩ := fsMount_room s.root s.inodeMax room2 low described stale
  unfold initPtn
  have checked' : checkFs H.toCalls sb sbBuf p.f.ptn s1 c1 = some (s2, c2) := checked
  simp only [Option.bind_eq_bind, read, Option.bind_some, checked', outcome]
  refine ⟨base, _, (Option.map_eq_bind ..).symm.trans (Option.map_map ..), ?_⟩
  intro root
  have after := entered root
  refine ⟨after.root, ⟨rfl, after.ptn, after.name⟩, after.base, ?_, ?_, ?_⟩
  · show H.Room (mounted root).alloc n
    rw [after.alloc]
    exact room3
  · show (sbBuf, 512) ∈ H.live (mounted root).alloc
    rw [after.alloc, live3, live2, written.live]
    exact List.mem_append_right _ buf
  · have moved : Sys.disks ⟨(mounted root).alloc, Function.update s.chans p.ch (mounted root).chan, (mounted root).root,
        (mounted root).inodeMax⟩ = Function.update s.disks p.ch (mounted root).chan.disk := disks_update s rfl
    rw [after.disk] at moved
    change Settled [p.place] s.disks (Function.update s.disks p.ch c2.disk) at settled
    rw [← moved] at settled
    exact settled

/-- What the whole loop leaves. -/
structure Looped (H : ClientHeap σ) (sbBuf : Nat) (ptns : List Listed) (s s' : Sys σ) (ptns' : List Listed) : Prop where
  same : List.Forall₂ Same ptns ptns'
  whole : H.whole s'.alloc 0
  buf : (sbBuf, 512) ∈ H.live s'.alloc
  settled : Settled (ptns.map Listed.place) s.disks s'.disks

/-- The loop gives the partitions the free entries in their order, and stops at the assertion of `fs_mount` when
these run out. -/
theorem eachPtn_runs (frame : Frame H sb) {ptns : List Listed} (s : Sys σ) (front : List Dirent) (free : Nat)
    (layout : Layout (ptns.map Listed.place)) (fresh : ∀ p ∈ ptns, p.f.blkBtmp.bits = 0)
    (room : H.Room s.alloc ((ptns.map Listed.place).map Place.pages).sum) (buf : (sbBuf, 512) ∈ H.live s.alloc)
    (sound : ∀ p ∈ ptns.map Listed.place, p.Sound s.disks)
    (used : ∀ d ∈ front, inUse d = true) (small : front.length + free ≤ ROOT_DIR_MAX)
    (root : s.root = ⟨SIZEOF_DIRENT * front.length, front ++ List.replicate free freeEntry⟩) :
    if ptns.length ≤ free then
      ∃ s' ptns', eachPtn H.toCalls sb sbBuf ptns s = some (s', ptns') ∧ Looped H sbBuf ptns s s' ptns' ∧
        s'.root = ⟨SIZEOF_DIRENT * (front.length + ptns.length),
          front ++ (ptns'.map Listed.entry ++ List.replicate (free - ptns.length) freeEntry)⟩
    else eachPtn H.toCalls sb sbBuf ptns s = none := by
  induction ptns generalizing s front free with
  | nil =>
    rw [if_pos (show List.length [] ≤ free from Nat.zero_le free)]
    exact ⟨s, [], rfl, ⟨.nil, room.1, buf, Settled.refl _⟩, root⟩
  | cons p rest ih =>
    rw [List.map_cons] at layout sound room
    rw [List.map_cons, List.sum_cons] at room
    have first := sound p.place List.mem_cons_self
    obtain ⟨base, after, outcome, passed⟩ := initPtn_runs frame (layout.large _ List.mem_cons_self)
      (layout.fits _ List.mem_cons_self) (fresh p List.mem_cons_self) room buf first
    rw [root, addToDir] at outcome
    rw [eachPtn, outcome, List.length_cons]
    cases free with
    | zero =>
      rw [List.replicate_zero, List.append_nil, addEntry_full _ _ used, if_neg (Nat.not_succ_le_zero _)]
      rfl
    | succ free =>
      have size : word (SIZEOF_DIRENT * front.length + SIZEOF_DIRENT) = SIZEOF_DIRENT * (front.length + 1) := by
        unfold word SIZEOF_DIRENT
        unfold ROOT_DIR_MAX at small
        omega
      rw [addEntry_next _ _ _ used]
      simp only [Option.map_some, size, Option.bind_eq_bind, Option.bind_some]
      generalize next : (⟨SIZEOF_DIRENT * (front.length + 1),
        front ++ ⟨base, p.f.name, FT_DIR⟩ :: List.replicate free freeEntry⟩ : Root) = root'
      obtain ⟨rooted, here⟩ := passed root'
      generalize after root' = r at rooted here ⊢
      obtain ⟨s1, p'⟩ := r
      have entry : p'.entry = ⟨base, p.f.name, FT_DIR⟩ := by
        rw [Listed.entry, here.base, here.same.2.2]
      have later := ih s1 (front ++ [⟨base, p.f.name, FT_DIR⟩]) free layout.tail
        (fun q member => fresh q (List.mem_cons_of_mem p member)) here.room here.buf
        (fun q member => (sound q (List.mem_cons_of_mem _ member)).congr (here.settled.others layout q member))
        (by
          intro d member
          rcases List.mem_append.mp member with old | new
          · exact used d old
          · rw [List.mem_singleton.mp new]
            rfl)
        (by rw [List.length_append, List.length_singleton]; omega)
        (by
          have now : s1.root = root' := rooted
          rw [now, ← next, List.length_append, List.append_assoc]
          rfl)
      by_cases fits : rest.length ≤ free
      · rw [if_pos fits] at later
        rw [if_pos (Nat.succ_le_succ fits)]
        obtain ⟨s', rest', ran, all, listed⟩ := later
        rw [ran]
        refine ⟨s', p' :: rest', rfl, ⟨.cons here.same all.same, all.whole, all.buf, here.settled.cons layout all.settled⟩, ?_⟩
        rw [listed, List.map_cons, entry, List.length_append, List.length_singleton, List.append_assoc,
          Nat.add_sub_add_right, Nat.add_assoc, Nat.add_comm 1]
        rfl
      · rw [if_neg fits] at later
        rw [if_neg (by omega), later]
        rfl

/-- The pages that a start may cost. -/
def startPages (ptns : List Listed) : Nat :=
  pagesFor SIZEOF_INODE_SYS + (pagesFor SECTOR_SIZE + ((ptns.map Listed.place).map Place.pages).sum)

/-- A start whose partitions `fs_init` can take: the mounts have left nothing in the records, and the heap has a page for
everything that is asked for. -/
structure Ready (H : ClientHeap σ) (sb : Nat) (ptns : List Listed) (s : Sys σ) : Prop where
  frame : Frame H sb
  fresh : ∀ p ∈ ptns, p.f.blkBtmp.bits = 0
  room : H.Room s.alloc (startPages ptns)

theorem fsInit_cases {ptns : List Listed} {s : Sys σ} (ready : Ready H sb ptns s) (layout : Layout (ptns.map Listed.place))
    (sound : ∀ p ∈ ptns.map Listed.place, p.Sound s.disks) :
    if ptns.length ≤ 8 then
      ∃ s' ptns', fsInit H.toCalls sb ptns s = some (s', ptns') ∧ List.Forall₂ Same ptns ptns' ∧ s'.root = listing ptns' ∧
        Settled (ptns.map Listed.place) s.disks s'.disks
    else fsInit H.toCalls sb ptns s = none := by
  unfold fsInit
  cases ptns with
  | nil => exact ⟨_, [], rfl, List.Forall₂.nil, rfl, Settled.refl _⟩
  | cons p rest =>
    have room := ready.room
    unfold startPages at room
    replace room := (room.malloc (by decide)).2.2
    generalize H.sysMalloc s.alloc SIZEOF_INODE_SYS = taken at room
    obtain ⟨inode, t⟩ := taken
    obtain ⟨-, live, left⟩ := room.malloc (by decide)
    generalize taken' : H.sysMalloc t SECTOR_SIZE = taken at live left
    obtain ⟨sbBuf, u⟩ := taken
    have buf : (sbBuf, 512) ∈ H.live u := by
      rw [live]
      exact List.mem_cons_self
    have loop := eachPtn_runs ready.frame { s with alloc := u, root := rootDirInit }
      [⟨0, [0x2E], FT_DIR⟩, ⟨0, [0x2E, 0x2E], FT_DIR⟩] 8 layout ready.fresh left buf sound (by decide) (by decide) rfl
    by_cases few : (p :: rest).length ≤ 8
    · rw [if_pos few] at loop ⊢
      obtain ⟨s', ptns', ran, all, root⟩ := loop
      obtain ⟨v, freed, -⟩ := H.free_runs s'.alloc 0 all.whole _ all.buf
      refine ⟨{ s' with alloc := v }, ptns', ?_, all.same, ?_, all.settled⟩
      · simp only [List.isEmpty_cons, taken', ran]
        show (H.sysFree s'.alloc sbBuf).bind _ = _
        rw [freed]
        rfl
      · rw [root, listing, all.same.length_eq]
        rfl
    · rw [if_neg few] at loop ⊢
      simp only [List.isEmpty_cons, taken', loop]
      rfl

/-- A start runs into the assertion of `fs_mount` exactly when there are more than eight partitions; otherwise the root
directory lists them all in the order of the list, each with the inode number its mount has assigned. -/
theorem fsInit_lists {ptns : List Listed} {s : Sys σ} (ready : Ready H sb ptns s) (layout : Layout (ptns.map Listed.place))
    (sound : ∀ p ∈ ptns.map Listed.place, p.Sound s.disks) :
    (fsInit H.toCalls sb ptns s = none ↔ 8 < ptns.length) ∧
      ∀ s' ptns', fsInit H.toCalls sb ptns s = some (s', ptns') → List.Forall₂ Same ptns ptns' ∧ s'.root = listing ptns' := by
  have outcome := fsInit_cases ready layout sound
  by_cases few : ptns.length ≤ 8
  · rw [if_pos few] at outcome
    obtain ⟨s', ptns', ran, same, root, -⟩ := outcome
    rw [ran]
    constructor
    · exact iff_of_false (by exact nofun) (Nat.not_lt.mpr few)
    · intro t qtns equal
      cases equal
      exact ⟨same, root⟩
  · rw [if_neg few] at outcome
    rw [outcome]
    exact ⟨iff_of_true rfl (Nat.lt_of_not_le few), fun _ _ returned => absurd returned (by exact nofun)⟩

theorem fsInit_completes {ptns : List Listed} {s : Sys σ} (ready : Ready H sb ptns s) (layout : Layout (ptns.map Listed.place))
    (sound : ∀ p ∈ ptns.map Listed.place, p.Sound s.disks) (few : ptns.length ≤ 8) :
    ∃ s' ptns', fsInit H.toCalls sb ptns s = some (s', ptns') ∧ Settled (ptns.map Listed.place) s.disks s'.disks := by
  have outcome := fsInit_cases ready layout sound
  rw [if_pos few] at outcome
  obtain ⟨s', ptns', ran, -, -, settled⟩ := outcome
  exact ⟨s', ptns', ran, settled⟩

/-- A start ends with every partition described by its own super block: those that were are left as they were, with all
that lies outside, and the others are formatted. -/
theorem fsInit_settles {ptns : List Listed} {s : Sys σ} (ready : Ready H sb ptns s) (layout : Layout (ptns.map Listed.place))
    (sound : ∀ p ∈ ptns.map Listed.place, p.Sound s.disks) (few : ptns.length ≤ 8) :
    ∃ s' ptns', fsInit H.toCalls sb ptns s = some (s', ptns') ∧ Settled (ptns.map Listed.place) s.disks s'.disks ∧
      ∀ p ∈ ptns, p.place.described s'.disks = superBlock p.f.ptn := by
  obtain ⟨s', ptns', ran, settled⟩ := fsInit_completes ready layout sound few
  refine ⟨s', ptns', ran, settled, ?_⟩
  intro p member
  exact settled.own layout sound (List.mem_map_of_mem member)

/-! From one start to the next. -/

inductive Event (σ : Type) where
  | start (sb : Nat) (ptns : List Listed) (s : Sys σ)
  | files (disks : Disks)

/-- The machine with these sectors on its drives. -/
def Sys.attach (s : Sys σ) (disks : Disks) : Sys σ :=
  { s with chans := fun ch => { s.chans ch with disk := disks ch } }

def step (C : Calls σ) (disks : Disks) : Event σ → Option Disks
  | .start sb ptns s => (fsInit C sb ptns (s.attach disks)).map fun r => r.1.disks
  | .files disks' => some disks'

/-- Every start is ready and finds these partitions, and between the starts no super block is written over. -/
def Permitted (H : ClientHeap σ) (places : List Place) (disks : Disks) : Event σ → Prop
  | .start sb ptns s => ptns.map Listed.place = places ∧ Ready H sb ptns s
  | .files disks' => ∀ p ∈ places, p.described disks' = p.described disks

theorem Ready.attach {ptns : List Listed} {s : Sys σ} (ready : Ready H sb ptns s) (disks : Disks) :
    Ready H sb ptns (s.attach disks) :=
  ⟨ready.frame, ready.fresh, ready.room⟩

theorem start_settles (layout : Layout places) (few : places.length ≤ 8) {ptns : List Listed} {s : Sys σ}
    (listed : ptns.map Listed.place = places) (ready : Ready H sb ptns s) (sound : ∀ p ∈ places, p.Sound disks) :
    ∃ disks', step H.toCalls disks (.start sb ptns s) = some disks' ∧ Settled places disks disks' := by
  subst listed
  rw [List.length_map] at few
  obtain ⟨s', ptns', ran, settled⟩ := fsInit_completes (ready.attach disks) layout sound few
  refine ⟨s'.disks, ?_, settled⟩
  rw [step, ran]
  rfl

/-- Every partition is described by its own super block. -/
def Formatted (places : List Place) (disks : Disks) : Prop := ∀ p ∈ places, p.described disks = superBlock p.ptn

theorem Formatted.valid (formatted : Formatted places disks) : ∀ p ∈ places, p.Valid disks :=
  fun p member => Place.valid_of_own (formatted p member)

theorem Formatted.sound (formatted : Formatted places disks) : ∀ p ∈ places, p.Sound disks :=
  fun p member => .inl ⟨formatted.valid p member, formatted p member⟩

/-- Nothing is left to do for a start. -/
theorem Formatted.start (formatted : Formatted places disks) (layout : Layout places) (few : places.length ≤ 8)
    {ptns : List Listed} {s : Sys σ} (listed : ptns.map Listed.place = places) (ready : Ready H sb ptns s) :
    step H.toCalls disks (.start sb ptns s) = some disks := by
  obtain ⟨disks', ran, settled⟩ := start_settles layout few listed ready formatted.sound
  rw [ran, settled.unchanged formatted.valid]

theorem Formatted.step {e : Event σ} (layout : Layout places) (few : places.length ≤ 8) (formatted : Formatted places disks)
    (permitted : Permitted H places disks e) (moved : step H.toCalls disks e = some disks') : Formatted places disks' := by
  cases e with
  | start sb ptns s =>
    rw [formatted.start layout few permitted.1 permitted.2] at moved
    cases moved
    exact formatted
  | files written =>
    cases moved
    intro p member
    exact (permitted p member).trans (formatted p member)

/-- The first start formats what has to be formatted. Whatever is written to files and however often the machine is
started afterwards, no start changes a sector again. -/
theorem reach_starts (layout : Layout places) (few : places.length ≤ 8) (sound : ∀ p ∈ places, p.Sound disks)
    {ptns : List Listed} {s : Sys σ} (permitted : Permitted H places disks (.start sb ptns s))
    (first : step H.toCalls disks (.start sb ptns s) = some disks')
    (run : Reach (step H.toCalls) (Permitted H places) disks' disks'') :
    ∀ sb ptns s, Permitted H places disks'' (.start sb ptns s) → step H.toCalls disks'' (.start sb ptns s) = some disks'' := by
  intro sb' ptns' s' again
  obtain ⟨disks1, ran, settled⟩ := start_settles layout few permitted.1 permitted.2 sound
  cases first.symm.trans ran
  have formatted : Formatted places disks'' :=
    Reach.invariant (fun _ _ _ formatted permitted moved => Formatted.step layout few formatted permitted moved)
      (fun p member => settled.own layout sound member) run
  exact formatted.start layout few again.1 again.2

/-- A second partition, on the slave of the second channel. -/
def other : FsPtn := { scanned with ptn := ⟨⟨1⟩, 2048, 4096⟩, name := [0x73, 0x64, 0x64, 0x5F, 0x31] }

def twoPtns : List Listed := [⟨⟨0, by decide⟩, scanned⟩, ⟨⟨1, by decide⟩, other⟩]

def poweredOn : Sys HeapRun.Sys := ⟨booted, fun _ => countingDrive, rootDirInit, 0⟩

theorem bootHeap_frame {sb : Nat} (high : 0xC0011000 ≤ sb) (low : sb + 512 ≤ 0xC0100000) : Frame bootHeap sb where
  fits := by omega
  stack := by
    rintro a ⟨first, last⟩
    dsimp only at first last
    exact below_booted (by omega)
  low := by
    rintro a ⟨-, last⟩
    dsimp only at last
    exact below_booted (by omega)

theorem poweredOn_ready {sb : Nat} (high : 0xC0011000 ≤ sb) (low : sb + 512 ≤ 0xC0100000) :
    Ready bootHeap sb twoPtns poweredOn where
  frame := bootHeap_frame high low
  fresh := by decide
  room := booted_room (by decide)

theorem twoPtns_layout : Layout (twoPtns.map Listed.place) where
  large := by decide
  fits := by decide
  apart := by
    apply List.Pairwise.cons _ (List.pairwise_singleton _ _)
    intro q single ch e l first second
    rw [List.mem_singleton.mp single] at second
    have clash := first.1.symm.trans second.1
    exact absurd clash (by decide)

/-- Neither partition is formatted. -/
theorem twoPtns_sound : ∀ p ∈ twoPtns.map Listed.place, p.Sound poweredOn.disks := by
  have keeps : ∀ p ∈ twoPtns.map Listed.place, 512 ≤ bufSize p.ptn ∧
      (superBlock p.ptn).blkCnt / 8 + (512 - (superBlock p.ptn).blkCnt / 8 % 512) ≤ bufSize p.ptn := by decide
  have magic : ∀ p ∈ twoPtns.map Listed.place, (p.described poweredOn.disks).magic ≠ FS_MAGIC := by decide
  intro p member
  refine .inr ⟨magic p member, ?_⟩
  exact (FsBuffer.parts_fit _ (inodeBtmpSec_eq p.ptn) (FsBuffer.bufSize_eq p.ptn)).mpr (keeps p member)

theorem fsInit_lists_two :
    ∃ s' ptns', fsInit bootHeap.toCalls 0xC0080000 twoPtns poweredOn = some (s', ptns') ∧ s'.root = listing ptns' := by
  have ready : Ready bootHeap 0xC0080000 twoPtns poweredOn := poweredOn_ready (by decide) (by decide)
  obtain ⟨s', ptns', ran, -⟩ := fsInit_completes ready twoPtns_layout twoPtns_sound (by decide)
  exact ⟨s', ptns', ran, ((fsInit_lists ready twoPtns_layout twoPtns_sound).2 s' ptns' ran).2⟩

theorem fsInit_settles_two :
    ∃ s' ptns', fsInit bootHeap.toCalls 0xC0080000 twoPtns poweredOn = some (s', ptns') ∧
      Settled (twoPtns.map Listed.place) poweredOn.disks s'.disks ∧
        ∀ p ∈ twoPtns, p.place.described s'.disks = superBlock p.f.ptn :=
  fsInit_settles (poweredOn_ready (by decide) (by decide)) twoPtns_layout twoPtns_sound (by decide)

/-- A file's sector is written between the first start and the second. -/
def filed (disks : Disks) : Disks := fun ch e l => if l = 700 then fun _ => 0x4B else disks ch e l

theorem reach_starts_two :
    ∃ disks, step bootHeap.toCalls poweredOn.disks (.start 0xC0080000 twoPtns poweredOn) = some disks ∧
      step bootHeap.toCalls (filed disks) (.start 0xC0090000 twoPtns poweredOn) = some (filed disks) := by
  have ready : Ready bootHeap 0xC0080000 twoPtns poweredOn := poweredOn_ready (by decide) (by decide)
  obtain ⟨disks, ran, -⟩ := start_settles twoPtns_layout (by decide) rfl ready twoPtns_sound
  refine ⟨disks, ran, ?_⟩
  have kept : ∀ p ∈ twoPtns.map Listed.place, p.described (filed disks) = p.described disks := by
    intro p member
    have away : ∀ p ∈ twoPtns.map Listed.place, p.ptn.startLba + 1 ≠ 700 := by decide
    exact Place.described_congr (if_neg (away p member))
  exact reach_starts twoPtns_layout (by decide) twoPtns_sound ⟨rfl, ready⟩ ran
    (Reach.cons (e := .files (filed disks)) kept rfl (Reach.refl _)) 0xC0090000 twoPtns poweredOn
      ⟨rfl, poweredOn_ready (by decide) (by decide)⟩

end KOS.FsInit
