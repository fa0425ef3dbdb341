import KOS.IdeInit

/-! `ide_init` and `fs_init` from one start of a machine to the next: the file systems lie where the partition tables are
not, so every start finds the partitions of the first one. -/

namespace KOS.Startup
open KOS.Ata KOS.KernelList KOS.PartitionScan KOS.IdeInit KOS.Machine
open KOS.Partition (Word Buffer Found Tag calls entryCalls ofHeap ptable ptnList)
open KOS.Clients (ClientHeap)
open KOS.FsInit (IDE_CH_NR Listed Place Layout Disks Same Formatted Frame Ready startPages)
open KOS.FsMount (FsPtn)
open KOS.HeapRoom (bootHeap booted_room)

abbrev Drive := Fin IDE_CH_NR × Fin 2

/-! The scan reads nothing but the tables. -/

section Tables

variable {tables tables' : Word → Buffer} {base : Word} {offsets : List Word}

theorem EbrChain.congr (chain : EbrChain tables base offsets)
    (same : ∀ offset ∈ offsets, tables' (base + offset) = tables (base + offset)) : EbrChain tables' base offsets := by
  induction chain with
  | @last offset none =>
    apply EbrChain.last
    rw [same offset List.mem_cons_self]
    exact none
  | @next offset rest idx link only later ih =>
    have here := same offset List.mem_cons_self
    have moved := ih (fun o member => same o (List.mem_cons_of_mem _ member))
    rw [← here] at link only moved ⊢
    exact .next idx link only moved

theorem WellFormed.congr (wellFormed : WellFormed tables base offsets) (mbr : tables' 0 = tables 0)
    (same : ∀ offset ∈ offsets, tables' (base + offset) = tables (base + offset)) : WellFormed tables' base offsets := by
  cases wellFormed with
  | plain none =>
    apply WellFormed.plain
    rw [mbr]
    exact none
  | extended idx link only nonzero chain =>
    have moved := EbrChain.congr chain same
    rw [← mbr] at link only nonzero moved ⊢
    exact .extended idx link only nonzero moved

theorem logicals_congr (same : ∀ offset ∈ offsets, tables' (base + offset) = tables (base + offset)) :
    logicals tables' base offsets = logicals tables base offsets := by
  induction offsets with
  | nil => rfl
  | cons offset rest ih =>
    rw [logicals, logicals, same offset List.mem_cons_self, ih (fun o member => same o (List.mem_cons_of_mem _ member))]

theorem scanned_congr (mbr : tables' 0 = tables 0)
    (same : ∀ offset ∈ offsets, tables' (base + offset) = tables (base + offset)) :
    scanned tables' base offsets = scanned tables base offsets := by
  rw [scanned, scanned, mbr, logicals_congr same]

/-- Every entry that the scan finds is in one of the tables. -/
theorem scanned_table (wellFormed : WellFormed tables base offsets) {f : Found} (member : f ∈ scanned tables base offsets) :
    f.base + f.offset = 0 ∨ ∃ offset ∈ offsets, f.base + f.offset = base + offset := by
  have place := (mem_scanned_places wellFormed (PartitionScan.Found.place f)).mp (List.mem_map_of_mem member)
  rcases place.2 with ⟨first, second⟩ | ⟨first, second⟩
  · have zero : f.base = 0 ∧ f.offset = 0 := ⟨first, second⟩
    left
    rw [zero.1, zero.2]
    rfl
  · have chained : f.base = base := first
    right
    exact ⟨f.offset, second, by rw [chained]⟩

theorem entryCalls_congr {call call' : Word → Word → Nat} {base offset : Word} {idx : Nat} (inside : idx < 4)
    (same : tables' (base + offset) = tables (base + offset))
    (nested : Extended (tables (base + offset)) idx →
      (if 0 = base then call' (ptable (tables (base + offset)) idx).startLba 0
        else call' base (ptable (tables (base + offset)) idx).startLba) =
      if 0 = base then call (ptable (tables (base + offset)) idx).startLba 0
        else call base (ptable (tables (base + offset)) idx).startLba) :
    entryCalls tables' call' base offset idx = entryCalls tables call base offset idx := by
  unfold entryCalls
  rw [same]
  by_cases extended : 0x05 = (ptable (tables (base + offset)) idx).type
  · simp only [if_pos extended, nested ⟨inside, extended⟩]
  · simp only [if_neg extended]

/-- The scan of a chain asks as often for memory. -/
theorem calls_chain (chain : EbrChain tables base offsets) (nonzero : 0 ≠ base)
    (same : ∀ offset ∈ offsets, tables' (base + offset) = tables (base + offset)) :
    ∀ offset ∈ offsets.head?, ∀ fuel, calls tables' fuel base offset = calls tables fuel base offset := by
  induction chain with
  | @last offset none =>
    intro o head fuel
    cases head
    cases fuel with
    | zero => rfl
    | succ fuel =>
      rw [Partition.calls, Partition.calls]
      congr 2
      apply List.map_congr_left
      intro idx member
      exact entryCalls_congr (mem_table.mp member) (same offset List.mem_cons_self) (fun extended => absurd extended (none idx))
  | @next offset rest idx link only later ih =>
    intro o head fuel
    cases head
    cases fuel with
    | zero => rfl
    | succ fuel =>
      rw [Partition.calls, Partition.calls]
      congr 2
      apply List.map_congr_left
      intro i member
      apply entryCalls_congr (mem_table.mp member) (same offset List.mem_cons_self)
      intro extended
      rw [only i extended, if_neg nonzero, if_neg nonzero]
      exact ih (fun o' member => same o' (List.mem_cons_of_mem _ member)) _ rfl fuel

theorem calls_disk (wellFormed : WellFormed tables base offsets) (mbr : tables' 0 = tables 0)
    (same : ∀ offset ∈ offsets, tables' (base + offset) = tables (base + offset)) (fuel : Nat) :
    calls tables' fuel 0 0 = calls tables fuel 0 0 := by
  cases fuel with
  | zero => rfl
  | succ fuel =>
    rw [Partition.calls, Partition.calls]
    congr 2
    apply List.map_congr_left
    intro i member
    apply entryCalls_congr (mem_table.mp member) mbr
    intro extended
    rw [if_pos rfl, if_pos rfl]
    cases wellFormed with
    | plain none => exact absurd extended (none i)
    | extended idx link only nonzero chain =>
      have here : i = idx := only i extended
      subst here
      exact calls_chain chain nonzero same _ rfl fuel

theorem ptns_congr (wellFormed : WellFormed tables base offsets) (mbr : tables' 0 = tables 0)
    (same : ∀ offset ∈ offsets, tables' (base + offset) = tables (base + offset)) (hd : Partition.IdeHd) :
    (scanned tables' base offsets).map (Found.ptn tables' hd) = (scanned tables base offsets).map (Found.ptn tables hd) := by
  rw [scanned_congr mbr same]
  apply List.map_congr_left
  intro f member
  have sector : tables' (f.base + f.offset) = tables (f.base + f.offset) := by
    rcases scanned_table wellFormed member with zero | ⟨offset, listed, here⟩
    · rw [zero, mbr]
    · rw [here, same offset listed]
  unfold Found.ptn Found.entry
  rw [sector]

end Tables

section Machine

variable {σ : Type} {H : ClientHeap σ} {fuel sb left : Nat} {s₀ s s' : IdeInit.Sys σ} {t : FsInit.Sys σ} {heap : σ}
  {base : Drive → Word} {offsets : Drive → List Word} {ptns ptns' : List Listed} {disks disks' : Disks}

/-- The sectors that hold the tables of a drive. -/
def Table (base : Drive → Word) (offsets : Drive → List Word) (x : Drive) (l : Nat) : Prop :=
  l = 0 ∨ ∃ offset ∈ offsets x, l = (base x + offset).toNat % 2 ^ 28

def drivesOf (s : IdeInit.Sys σ) : Disks := fun ch => (s.gIdeCh ch).port.chan.disk

/-- The same hardware, with these sectors on its drives. -/
structure Attached (s₀ : IdeInit.Sys σ) (disks : Disks) (s : IdeInit.Sys σ) : Prop where
  present : ∀ x, s.present x = s₀.present x
  vector : ∀ ch, (s.gIdeCh ch).port.vector = (s₀.gIdeCh ch).port.vector
  disks : drivesOf s = disks

/-- The tables are as the first start has found them. -/
def SameTables (base : Drive → Word) (offsets : Drive → List Word) (disks disks' : Disks) : Prop :=
  ∀ x l, Table base offsets x l → disks' x.1 x.2 l = disks x.1 x.2 l

theorem sector_congr {x : Drive} {lba : Word}
    (same : drivesOf s x.1 x.2 (lba.toNat % 2 ^ 28) = drivesOf s₀ x.1 x.2 (lba.toNat % 2 ^ 28)) :
    s.sector x lba = s₀.sector x lba := by
  funext a
  have inside : a % 512 / 512 = 0 := Nat.div_eq_of_lt (Nat.mod_lt a (by decide))
  unfold Sys.sector Port.sector Channel.byteOf
  rw [inside]
  exact congrFun same _

theorem sector_mbr (attached : Attached s₀ disks s) (tables : SameTables base offsets (drivesOf s₀) disks) (x : Drive) :
    s.sector x 0 = s₀.sector x 0 := by
  apply sector_congr
  rw [attached.disks]
  exact tables x _ (.inl rfl)

theorem sector_ebr (attached : Attached s₀ disks s) (tables : SameTables base offsets (drivesOf s₀) disks) (x : Drive) :
    ∀ offset ∈ offsets x, s.sector x (base x + offset) = s₀.sector x (base x + offset) := by
  intro offset listed
  apply sector_congr
  rw [attached.disks]
  exact tables x _ (.inr ⟨offset, listed, rfl⟩)

theorem readable_again (readable : Readable s₀ fuel base offsets) (attached : Attached s₀ disks s)
    (tables : SameTables base offsets (drivesOf s₀) disks) : Readable s fuel base offsets := by
  constructor
  · intro ch
    rw [attached.vector ch]
    exact readable.vectors ch
  · intro x there
    rw [attached.present x] at there
    exact WellFormed.congr (readable.wellFormed x there) (sector_mbr attached tables x) (sector_ebr attached tables x)
  · intro x there
    rw [attached.present x] at there
    rw [logicals_congr (sector_ebr attached tables x)]
    exact readable.few x there
  · exact readable.enough

theorem partitions_again (readable : Readable s₀ fuel base offsets) (attached : Attached s₀ disks s)
    (tables : SameTables base offsets (drivesOf s₀) disks) :
    drives.flatMap (partitions s (entries s base offsets)) = drives.flatMap (partitions s₀ (entries s₀ base offsets)) := by
  congr 1
  funext x
  unfold partitions
  rw [attached.present x]
  cases there : s₀.present x with
  | true =>
    rw [if_pos rfl, if_pos rfl]
    exact ptns_congr (readable.wellFormed x there) (sector_mbr attached tables x) (sector_ebr attached tables x) _
  | false => rfl

theorem requests_again (readable : Readable s₀ fuel base offsets) (attached : Attached s₀ disks s)
    (tables : SameTables base offsets (drivesOf s₀) disks) (xs : List Drive) : requests s fuel xs = requests s₀ fuel xs := by
  unfold requests
  congr 1
  apply List.map_congr_left
  intro x _
  rw [attached.present x]
  cases there : s₀.present x with
  | true =>
    rw [if_pos rfl, if_pos rfl]
    exact calls_disk (readable.wellFormed x there) (sector_mbr attached tables x) (sector_ebr attached tables x) fuel
  | false => rfl

/-- A node of `ptn_list` as `fs_init` takes it. -/
def Node (ptn : Partition.IdePtn) (p : Listed) : Prop :=
  ∃ x : Drive, hdName x.1 x.2 = ptn.hd.name ∧ p.ch = x.1 ∧
    p.f.ptn = ⟨⟨x.2⟩, ptn.startLba.toNat, ptn.secCnt.toNat⟩ ∧ p.f.name = ptn.name

theorem Node.same {ptn : Partition.IdePtn} {p p' : Listed} (node : Node ptn p) (node' : Node ptn p') : Same p p' := by
  obtain ⟨x, drive, ch, fields, name⟩ := node
  obtain ⟨x', drive', ch', fields', name'⟩ := node'
  cases hdName_injective x x' (drive.trans drive'.symm)
  exact ⟨ch'.trans ch.symm, fields'.trans fields.symm, name'.trans name.symm⟩

/-- `ide_init` leaves `ptn_list` with these nodes, and this heap. -/
def Lists (H : ClientHeap σ) (fuel : Nat) (s : IdeInit.Sys σ) (ptns : List Listed) (heap : σ) : Prop :=
  ∃ s' : IdeInit.Sys σ, ∃ new : List Nat, ideInit (ofHeap H) fuel s = some s' ∧ s'.scan.heap = heap ∧
    Holds s'.scan.tags ptnList (new.map Tag.ptnTag) ∧ List.Forall₂ Node (new.map s'.scan.ptns) ptns

/-- The list is that of the tables, and what the heap had room for besides is left. -/
theorem Lists.nodes (lists : Lists H fuel s ptns heap) (readable : Readable s fuel base offsets)
    (room : H.Room s.scan.heap (requests s fuel drives + left)) :
    List.Forall₂ Node (drives.flatMap (partitions s (entries s base offsets))) ptns ∧ H.Room heap left := by
  obtain ⟨t, new', ran', rfl, holds, nodes⟩ := lists
  obtain ⟨s', new, ran, done⟩ := ideInit_done (ofHeap H) readable room
  cases ran'.symm.trans ran
  have tags : new'.map Tag.ptnTag = new.map Tag.ptnTag := holds.unique DoublyLinked.Fields.not_apart_self done.listed
  have same : new' = new := List.map_injective_iff.mpr (fun a b equal => Tag.ptnTag.inj equal) tags
  rw [same, done.ptns] at nodes
  exact ⟨nodes, done.ready⟩

theorem lists_of_nodes (readable : Readable s fuel base offsets) (room : H.Room s.scan.heap (requests s fuel drives + left))
    (nodes : List.Forall₂ Node (drives.flatMap (partitions s (entries s base offsets))) ptns) :
    ∃ heap, Lists H fuel s ptns heap := by
  obtain ⟨s', new, ran, done⟩ := ideInit_done (ofHeap H) readable room
  refine ⟨_, s', new, ran, rfl, done.listed, ?_⟩
  rw [done.ptns]
  exact nodes

/-- The node of a partition; the fields in `rest` are those that the scan does not fill in. -/
def node (rest : FsPtn) (x : Drive) (ptn : Partition.IdePtn) : Listed :=
  ⟨x.1, { rest with ptn := ⟨⟨x.2⟩, ptn.startLba.toNat, ptn.secCnt.toNat⟩, name := ptn.name }⟩

theorem node_nodes (rest : FsPtn) (s : IdeInit.Sys σ) (found : Drive → List Found) (xs : List Drive) :
    List.Forall₂ Node (xs.flatMap (partitions s found)) (xs.flatMap fun x => (partitions s found x).map (node rest x)) := by
  have drive : ∀ x, ∀ ptn ∈ partitions s found x, Node ptn (node rest x ptn) := by
    intro x ptn member
    unfold partitions at member
    split at member
    · obtain ⟨f, -, rfl⟩ := List.mem_map.mp member
      exact ⟨x, rfl, rfl, rfl, rfl⟩
    · exact absurd member List.not_mem_nil
  induction xs with
  | nil => exact .nil
  | cons x later ih =>
    rw [List.flatMap_cons, List.flatMap_cons]
    apply List.rel_append _ ih
    rw [List.forall₂_map_right_iff, List.forall₂_same]
    exact drive x

theorem nodes_same {found : List Partition.IdePtn} (nodes : List.Forall₂ Node found ptns)
    (nodes' : List.Forall₂ Node found ptns') : List.Forall₂ Same ptns ptns' := by
  induction nodes generalizing ptns' with
  | nil =>
    cases nodes'
    exact .nil
  | cons node _ ih =>
    cases nodes' with
    | cons node' rest => exact .cons (node.same node') (ih rest)

theorem places_same (same : List.Forall₂ Same ptns ptns') : ptns'.map Listed.place = ptns.map Listed.place := by
  induction same with
  | nil => rfl
  | @cons p p' _ _ here _ ih =>
    have place : p'.place = p.place := congrArg₂ Place.mk here.1 here.2.1
    rw [List.map_cons, List.map_cons, place, ih]

/-! From one start to the next. -/

/-- `fs_init` is called with the list and the heap that `ide_init` leaves, and there is a page for all that the two
ask for. -/
structure Boots (H : ClientHeap σ) (fuel sb : Nat) (s : IdeInit.Sys σ) (ptns : List Listed) (t : FsInit.Sys σ) : Prop where
  room : H.Room s.scan.heap (requests s fuel drives + startPages ptns)
  lists : Lists H fuel s ptns t.alloc
  frame : Frame H sb
  fresh : ∀ p ∈ ptns, p.f.blkBtmp.bits = 0

theorem Boots.ready (boots : Boots H fuel sb s ptns t) (readable : Readable s fuel base offsets) : Ready H sb ptns t :=
  ⟨boots.frame, boots.fresh, (boots.lists.nodes readable boots.room).2⟩

inductive Event (σ : Type) where
  | start (s : IdeInit.Sys σ) (sb : Nat) (ptns : List Listed) (t : FsInit.Sys σ)
  | files (disks : Disks)

variable (H) in
def step (disks : Disks) : Event σ → Option Disks
  | .start _ sb ptns t => FsInit.step H.toCalls disks (.start sb ptns t)
  | .files disks' => some disks'

/-- Files are written outside the tables, and no super block is written over. -/
def Permitted (H : ClientHeap σ) (fuel : Nat) (s₀ : IdeInit.Sys σ) (base : Drive → Word)
    (offsets : Drive → List Word) (places : List Place) (disks : Disks) : Event σ → Prop
  | .start s sb ptns t => Attached s₀ disks s ∧ Boots H fuel sb s ptns t
  | .files disks' => SameTables base offsets disks disks' ∧ ∀ p ∈ places, p.described disks' = p.described disks

/-- What every run keeps. -/
structure Kept (s₀ : IdeInit.Sys σ) (base : Drive → Word) (offsets : Drive → List Word) (places : List Place)
    (disks : Disks) : Prop where
  tables : SameTables base offsets (drivesOf s₀) disks
  formatted : Formatted places disks

/-- The first start, and file systems that stay off the tables. -/
structure First (H : ClientHeap σ) (fuel sb : Nat) (s₀ : IdeInit.Sys σ) (base : Drive → Word)
    (offsets : Drive → List Word) (ptns : List Listed) (t : FsInit.Sys σ) : Prop where
  readable : Readable s₀ fuel base offsets
  boots : Boots H fuel sb s₀ ptns t
  layout : Layout (ptns.map Listed.place)
  sound : ∀ p ∈ ptns.map Listed.place, p.Sound (drivesOf s₀)
  few : (ptns.map Listed.place).length ≤ 8
  clear : ∀ p ∈ ptns, ∀ x l, Table base offsets x l → ¬p.place.Covers x.1 x.2 l

/-- A start on the same tables finds the same list. -/
theorem First.again {sb' : Nat} {t' : FsInit.Sys σ} (first : First H fuel sb s₀ base offsets ptns t)
    (attached : Attached s₀ disks s) (tables : SameTables base offsets (drivesOf s₀) disks)
    (boots : Boots H fuel sb' s ptns' t') : List.Forall₂ Same ptns ptns' := by
  have nodes := (first.boots.lists.nodes first.readable first.boots.room).1
  have nodes' := (boots.lists.nodes (readable_again first.readable attached tables) boots.room).1
  rw [partitions_again first.readable attached tables] at nodes'
  exact nodes_same nodes nodes'

/-- What is formatted is not a table. -/
theorem First.settled (first : First H fuel sb s₀ base offsets ptns t)
    (settled : FsInit.Settled (ptns.map Listed.place) disks disks') : SameTables base offsets disks disks' := by
  intro x l table
  apply settled.kept
  intro place member _ covered
  obtain ⟨p, listed, rfl⟩ := List.mem_map.mp member
  exact first.clear p listed x l table covered

/-- Nothing is left to do for a later start. -/
theorem Kept.start {sb' : Nat} {t' : FsInit.Sys σ} (first : First H fuel sb s₀ base offsets ptns t)
    (kept : Kept s₀ base offsets (ptns.map Listed.place) disks) (attached : Attached s₀ disks s)
    (boots : Boots H fuel sb' s ptns' t') : Startup.step H disks (.start s sb' ptns' t') = some disks := by
  have same := places_same (first.again attached kept.tables boots)
  have ready := boots.ready (readable_again first.readable attached kept.tables)
  exact kept.formatted.start first.layout first.few same ready

theorem Kept.step {e : Event σ} (first : First H fuel sb s₀ base offsets ptns t)
    (kept : Kept s₀ base offsets (ptns.map Listed.place) disks)
    (permitted : Permitted H fuel s₀ base offsets (ptns.map Listed.place) disks e) (moved : step H disks e = some disks') :
    Kept s₀ base offsets (ptns.map Listed.place) disks' := by
  cases e with
  | start s sb' listed t' =>
    obtain ⟨attached, boots⟩ := permitted
    rw [kept.start first attached boots] at moved
    cases moved
    exact kept
  | files written =>
    obtain ⟨tables, described⟩ := permitted
    cases moved
    constructor
    · intro x l table
      rw [tables x l table]
      exact kept.tables x l table
    · intro p member
      exact (described p member).trans (kept.formatted p member)

/-- Once a start has been through, every later one returns from `ide_init`, finds the partitions of the first under the
names they had, and leaves every sector as it is, whatever the files have become in between. -/
theorem reach_finds (first : First H fuel sb s₀ base offsets ptns t)
    (ran : step H (drivesOf s₀) (.start s₀ sb ptns t) = some disks)
    (run : Reach (step H) (Permitted H fuel s₀ base offsets (ptns.map Listed.place)) disks disks')
    (attached : Attached s₀ disks' s) (room : H.Room s.scan.heap (requests s₀ fuel drives + startPages ptns)) :
    (∃ heap, Lists H fuel s ptns heap) ∧ ∀ sb' ptns' t', Boots H fuel sb' s ptns' t' → List.Forall₂ Same ptns ptns' ∧
      step H disks' (.start s sb' ptns' t') = some disks' := by
  obtain ⟨disks1, formatted, settled⟩ :=
    FsInit.start_settles first.layout first.few rfl (first.boots.ready first.readable) first.sound
  cases ran.symm.trans formatted
  have start : Kept s₀ base offsets (ptns.map Listed.place) disks :=
    ⟨first.settled settled, fun p member => settled.own first.layout first.sound member⟩
  have kept : Kept s₀ base offsets (ptns.map Listed.place) disks' :=
    Reach.invariant (fun _ _ _ kept permitted moved => kept.step first permitted moved) start run
  have readable := readable_again first.readable attached kept.tables
  constructor
  · rw [← requests_again first.readable attached kept.tables] at room
    apply lists_of_nodes readable room
    rw [partitions_again first.readable attached kept.tables]
    exact (first.boots.lists.nodes first.readable first.boots.room).1
  · intro sb' ptns' t' boots
    exact ⟨first.again attached kept.tables boots, kept.start first attached boots⟩

end Machine

/-- One drive, with a primary partition and a logical one. -/
def sampleSectors : Nat → Sector := fun l j =>
  if l = 0 then (if j.val = 450 then 0x83 else if j.val = 455 then 8 else if j.val = 459 then 16
    else if j.val = 466 then 0x05 else if j.val = 471 then 0x20 else 0)
  else if l = 8192 then (if j.val = 450 then 0x83 else if j.val = 454 then 8 else if j.val = 459 then 4 else 0)
  else 0

def sampleMachine : IdeInit.Sys HeapRun.Sys where
  gIdeCh ch := ⟨[], fun _ => ⟨[], ⟨0⟩, false⟩, 0,
    ⟨{ countingDrive with disk := fun _ => sampleSectors }, fun d => ch.val = 0 ∧ d.val = 0, fun _ _ => 0, irqs ch⟩⟩
  registered := []
  scan := PartitionEnds.empty

def attach {σ : Type} (s : IdeInit.Sys σ) (disks : Disks) : IdeInit.Sys σ :=
  { s with gIdeCh := fun ch => (s.gIdeCh ch).onChan fun c => { c with disk := disks ch } }

/-- The sectors as the scan sees them. -/
def sampleTables : Word → Buffer := fun lba a =>
  Channel.byteOf (fun _ => sampleSectors) (driveNr 0) (lba.toNat % 2 ^ 28) (a % 512)

def samplePtns : List Listed :=
  drives.flatMap fun x => (partitions sampleMachine (entries sampleMachine (fun _ => 8192) fun _ => [0]) x).map
    (node FsMount.scanned x)

theorem sampleMachine_readable : Readable sampleMachine 2 (fun _ => 8192) (fun _ => [0]) := by
  have wellFormed : WellFormed sampleTables 8192 [0] := by
    have mbr : ∀ i < 4, 0x05 = (ptable (sampleTables 0) i).type → i = 1 := by decide +kernel
    have ebr : ∀ i < 4, 0x05 ≠ (ptable (sampleTables (8192 + 0)) i).type := by decide +kernel
    have base : (ptable (sampleTables 0) 1).startLba = 8192 := by decide +kernel
    have chain : EbrChain sampleTables 8192 [0] := .last fun i extended => ebr i extended.1 extended.2
    rw [← base] at chain ⊢
    exact .extended 1 ⟨by decide, by decide⟩ (fun i extended => mbr i extended.1 extended.2) (by decide) chain
  have few : (logicals sampleTables 8192 [0]).length < 995 := by decide +kernel
  constructor
  · intro ch
    rfl
  · intro x _
    exact wellFormed
  · intro x _
    exact few
  · intro x
    exact Nat.one_lt_two

theorem sampleMachine_room :
    bootHeap.Room sampleMachine.scan.heap (requests sampleMachine 2 drives + startPages samplePtns) :=
  booted_room (by decide +kernel)

theorem samplePtns_sound : ∀ p ∈ samplePtns.map Listed.place, p.Sound (drivesOf sampleMachine) := by
  have keeps : ∀ p ∈ samplePtns.map Listed.place, 512 ≤ Fs.bufSize p.ptn ∧
      (Fs.superBlock p.ptn).blkCnt / 8 + (512 - (Fs.superBlock p.ptn).blkCnt / 8 % 512) ≤ Fs.bufSize p.ptn := by decide +kernel
  have magic : ∀ p ∈ samplePtns.map Listed.place, (p.described (drivesOf sampleMachine)).magic ≠ Fs.FS_MAGIC := by
    decide +kernel
  intro p member
  refine .inr ⟨magic p member, ?_⟩
  exact (FsBuffer.parts_fit _ (Fs.inodeBtmpSec_eq p.ptn) (FsBuffer.bufSize_eq p.ptn)).mpr (keeps p member)

/-- `fs_init` on the heap that `ide_init` leaves. -/
def handed (heap : HeapRun.Sys) : FsInit.Sys HeapRun.Sys := { FsInit.poweredOn with alloc := heap }

theorem samplePtns_boots (sb : Nat) (high : 0xC0011000 ≤ sb) (low : sb + 512 ≤ 0xC0100000) :
    ∃ heap, Boots bootHeap 2 sb sampleMachine samplePtns (handed heap) := by
  obtain ⟨heap, lists⟩ := lists_of_nodes sampleMachine_readable sampleMachine_room (node_nodes FsMount.scanned ..)
  exact ⟨heap, sampleMachine_room, lists, FsInit.bootHeap_frame high low, by decide +kernel⟩

theorem samplePtns_first {sb : Nat} {t : FsInit.Sys HeapRun.Sys} (boots : Boots bootHeap 2 sb sampleMachine samplePtns t) :
    First bootHeap 2 sb sampleMachine (fun _ => 8192) (fun _ => [0]) samplePtns t := by
  constructor
  · exact sampleMachine_readable
  · exact boots
  · constructor
    · decide +kernel
    · decide +kernel
    · have before : (samplePtns.map Listed.place).Pairwise fun p q => p.ptn.startLba + p.ptn.secCnt ≤ q.ptn.startLba := by
        decide +kernel
      apply before.imp
      intro p q order ch e l first second
      have low := first.2.2.2
      have high := second.2.2.1
      omega
  · exact samplePtns_sound
  · decide +kernel
  · have off : ∀ p ∈ samplePtns, 0 < p.f.ptn.startLba ∧
        (8192 < p.f.ptn.startLba ∨ p.f.ptn.startLba + p.f.ptn.secCnt ≤ 8192) := by decide +kernel
    intro p member x l table covered
    have low : p.f.ptn.startLba ≤ l := covered.2.2.1
    have high : l < p.f.ptn.startLba + p.f.ptn.secCnt := covered.2.2.2
    have away := off p member
    rcases table with zero | ⟨offset, listed, here⟩
    · omega
    · rw [List.mem_singleton.mp listed] at here
      have ebr : l = 8192 := here
      omega

/-- The machine is started, a sector of a file is written, and the machine is started again. -/
theorem reach_finds_sample :
    ∃ t disks, step bootHeap (drivesOf sampleMachine) (.start sampleMachine 0xC0080000 samplePtns t) = some disks ∧
      (∃ heap, Lists bootHeap 2 (attach sampleMachine (FsInit.filed disks)) samplePtns heap) ∧
      ∀ sb' ptns' t', Boots bootHeap 2 sb' (attach sampleMachine (FsInit.filed disks)) ptns' t' →
        List.Forall₂ Same samplePtns ptns' ∧
          step bootHeap (FsInit.filed disks) (.start (attach sampleMachine (FsInit.filed disks)) sb' ptns' t') =
            some (FsInit.filed disks) := by
  obtain ⟨heap, boots⟩ := samplePtns_boots 0xC0080000 (by decide) (by decide)
  have first := samplePtns_first boots
  obtain ⟨disks, ran, -⟩ :=
    FsInit.start_settles first.layout first.few rfl (boots.ready sampleMachine_readable) first.sound
  refine ⟨handed heap, disks, ran, ?_⟩
  have tables : SameTables (fun _ => 8192) (fun _ => [0]) disks (FsInit.filed disks) := by
    intro x l table
    apply if_neg
    rcases table with zero | ⟨offset, listed, here⟩
    · rw [zero]
      decide
    · rw [List.mem_singleton.mp listed] at here
      have ebr : l = 8192 := here
      rw [ebr]
      decide
  have described : ∀ p ∈ samplePtns.map Listed.place, p.described (FsInit.filed disks) = p.described disks := by
    intro p member
    have away : ∀ p ∈ samplePtns.map Listed.place, p.ptn.startLba + 1 ≠ 700 := by decide +kernel
    exact Place.described_congr (if_neg (away p member))
  exact reach_finds first ran (Reach.cons (e := .files (FsInit.filed disks)) ⟨tables, described⟩ rfl (Reach.refl _))
    ⟨fun _ => rfl, fun _ => rfl, rfl⟩ sampleMachine_room

end KOS.Startup
