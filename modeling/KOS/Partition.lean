import KOS.Clients
import KOS.Stdio

/-! `ide_get_partition`: the recursive scan of the partition tables. `sys_malloc` and `sys_free` keep the set
of blocks that are out as long as requests are granted, and `ide_read` of one sector returns it. -/

namespace KOS.Partition
open KOS.DoublyLinked KOS.KernelList KOS.Stdio NodeStore

abbrev Word := BitVec 32

/-- The bytes of a boot sector. -/
abbrev Buffer := Nat → UInt8

/-- `struct ptn_table`, as far as the scan reads it. -/
structure PtnTable where
  type : UInt8
  startLba : Word
  secCnt : Word

def word32 (bs : Buffer) (a : Nat) : Word :=
  BitVec.ofNat 32 ((bs a).toNat + 2 ^ 8 * (bs (a + 1)).toNat + 2 ^ 16 * (bs (a + 2)).toNat + 2 ^ 24 * (bs (a + 3)).toNat)

/-- `bs->ptable[idx]`: 16 packed bytes each, behind 446 bytes of boot code. -/
def ptable (bs : Buffer) (idx : Nat) : PtnTable where
  type := bs (446 + 16 * idx + 4)
  startLba := word32 bs (446 + 16 * idx + 8)
  secCnt := word32 bs (446 + 16 * idx + 12)

structure IdeHd where
  name : List UInt8

/-- `struct ide_ptn`, as far as the scan fills it in. -/
structure IdePtn where
  name : List UInt8
  startLba : Word
  secCnt : Word
  hd : IdeHd

/-- Link fields point to nothing, to a sentinel of `ptn_list`, or to the `ptn_tag` of a partition. -/
inductive Tag
  | null
  | head
  | tail
  | ptnTag (ptn : Nat)
  deriving DecidableEq

def ptnList : KList Tag := ⟨.head, .tail⟩

def SIZEOF_BOOT_SECTOR : Nat := 512
def SIZEOF_IDE_PTN : Nat := 108

/-- `sys_malloc`, which may return NULL, and `sys_free`, which may not return. `ready h n` says that the next `n` requests
are granted, whatever is freed in between; beyond these nothing is known of the heap. -/
structure Allocator (η : Type*) where
  malloc : η → Nat → Nat × η
  free : η → Nat → Option η
  live : η → Set Nat
  ready : η → Nat → Prop
  granted : ∀ h n size, ready h (n + 1) → size ≤ SIZEOF_BOOT_SECTOR → (malloc h size).1 ≠ 0
  fresh : ∀ h n size, ready h (n + 1) → size ≤ SIZEOF_BOOT_SECTOR → (malloc h size).1 ∉ live h
  live_malloc : ∀ h n size, ready h (n + 1) → size ≤ SIZEOF_BOOT_SECTOR →
    live (malloc h size).2 = insert (malloc h size).1 (live h)
  ready_malloc : ∀ h n size, ready h (n + 1) → size ≤ SIZEOF_BOOT_SECTOR → ready (malloc h size).2 n
  free_runs : ∀ h n, ready h n → ∀ a ∈ live h, ∃ h', free h a = some h' ∧ live h' = live h \ {a} ∧ ready h' n

section Heap

variable {σ : Type*} {H : Clients.ClientHeap σ} {h : σ} {n size : Nat}

/-- A request of the scan takes one page at most. -/
theorem room_malloc (room : H.Room h (n + 1)) (small : size ≤ SIZEOF_BOOT_SECTOR) :
    (H.sysMalloc h size).1 ≠ 0 ∧ H.live (H.sysMalloc h size).2 = ((H.sysMalloc h size).1, size) :: H.live h ∧
      H.Room (H.sysMalloc h size).2 n ∧ ∀ b ∈ H.live h, b.1 ≠ (H.sysMalloc h size).1 := by
  have little : size ≤ 512 := small
  have limit : size ≤ HeapLayout.MAX_SIZE := little.trans (by decide)
  have one : Clients.pagesFor size = 1 := Clients.pagesFor_small (by omega)
  have enough : H.Room h (Clients.pagesFor size + n) := by
    rw [one, Nat.add_comm]
    exact room
  obtain ⟨some, live, left⟩ := enough.malloc limit
  exact ⟨some, live, left, H.malloc_new h size n limit enough.1⟩

/-- The kernel heap is ready for as many requests as it has room for pages. -/
def ofHeap (H : Clients.ClientHeap σ) : Allocator σ where
  malloc := H.sysMalloc
  free := H.sysFree
  live h := {a | ∃ b ∈ H.live h, b.1 = a}
  ready := H.Room
  granted _ _ _ room small := (room_malloc room small).1
  fresh _ _ _ room small out := by
    obtain ⟨b, live, same⟩ := out
    exact (room_malloc room small).2.2.2 b live same
  live_malloc _ _ _ room small := by
    ext a
    simp [(room_malloc room small).2.1, eq_comm]
  ready_malloc _ _ _ room small := (room_malloc room small).2.2.1
  free_runs h n room a out := by
    obtain ⟨b, live, rfl⟩ := out
    obtain ⟨h', freed, left, room'⟩ := room.free live
    refine ⟨h', freed, ?_, room'⟩
    ext c
    rw [left]
    constructor
    · rintro ⟨d, member, rfl⟩
      obtain ⟨old, other⟩ := List.mem_filter.mp member
      exact ⟨⟨d, old, rfl⟩, of_decide_eq_true other⟩
    · rintro ⟨⟨d, old, rfl⟩, other⟩
      exact ⟨d, List.mem_filter.mpr ⟨old, decide_eq_true other⟩, rfl⟩

end Heap

structure Scan (η : Type*) where
  heap : η
  buffers : Nat → Buffer
  ptns : Nat → IdePtn
  tags : Fields Tag
  /-- The static counter. -/
  ptnNr : Word

def nameFormat : List UInt8 := "%s_%d".toList.map ch

/-- `sprintf(ptn->name, "%s_%d", hd->name, nr)`. -/
def ptnName (hd : IdeHd) (nr : Word) : List UInt8 := (render nameFormat [.str hd.name, .int nr]).getD []

variable {η : Type*} (al : Allocator η) (disk : Word → Buffer) (hd : IdeHd)

/-- Case C of the loop. -/
def recordPtn (base offset : Word) (bs idx : Nat) (s : Scan η) : Scan η :=
  let ptn := (al.malloc s.heap SIZEOF_IDE_PTN).1
  let heap := (al.malloc s.heap SIZEOF_IDE_PTN).2
  let nr := if 0 = base then BitVec.ofNat 32 (idx + 1) else s.ptnNr
  let ptnNr := if 0 = base then s.ptnNr else s.ptnNr + 1
  let entry := ptable (s.buffers bs) idx
  { s with
    heap, ptnNr
    ptns := Function.update s.ptns ptn
      { name := ptnName hd nr, startLba := base + offset + entry.startLba, secCnt := entry.secCnt, hd }
    tags := listAppend s.tags ptnList (.ptnTag ptn) }

/-- One pass of the loop; `call` is the recursive call. -/
def scanEntry (call : Scan η → Word → Word → Option (Scan η)) (base offset : Word) (bs idx : Nat) (s : Scan η) :
    Option (Scan η) :=
  let entry := ptable (s.buffers bs) idx
  if 0 = entry.type then some s
  else if 0x05 = entry.type then
    if 0 = base then call { s with ptnNr := 5 } entry.startLba 0
    else call s base entry.startLba
  else some (recordPtn al hd base offset bs idx s)

def scanTable (call : Scan η → Word → Word → Option (Scan η)) (base offset : Word) (bs : Nat) :
    List Nat → Scan η → Option (Scan η)
  | [], s => some s
  | idx :: rest, s => (scanEntry al hd call base offset bs idx s).bind (scanTable call base offset bs rest)

/-- `none` stands for a recursion deeper than the fuel, or a `sys_free` that does not return. -/
def ideGetPartition : Nat → Scan η → Word → Word → Option (Scan η)
  | 0, _, _, _ => none
  | fuel + 1, s, base, offset =>
      let bs := (al.malloc s.heap SIZEOF_BOOT_SECTOR).1
      let heap := (al.malloc s.heap SIZEOF_BOOT_SECTOR).2
      let s := { s with heap, buffers := Function.update s.buffers bs (disk (base + offset)) }
      (scanTable al hd (ideGetPartition fuel) base offset bs [0, 1, 2, 3] s).bind fun s =>
        (al.free s.heap bs).map fun heap => { s with heap }

/-! How often the scan calls `sys_malloc`. -/

def entryCalls (call : Word → Word → Nat) (base offset : Word) (idx : Nat) : Nat :=
  let entry := ptable (disk (base + offset)) idx
  if 0 = entry.type then 0
  else if 0x05 = entry.type then if 0 = base then call entry.startLba 0 else call base entry.startLba
  else 1

/-- The requests of a scan that goes down `fuel` calls at most. -/
def calls : Nat → Word → Word → Nat
  | 0, _, _ => 0
  | fuel + 1, base, offset => ([0, 1, 2, 3].map (entryCalls disk (calls fuel) base offset)).sum + 1

/-! The scan without its memory: which entries it comes to, and the number each gets. -/

/-- An entry of a table, by the sector that holds it, and its number. -/
structure Found where
  base : Word
  offset : Word
  idx : Nat
  nr : Word

def Found.entry (f : Found) : PtnTable := ptable (disk (f.base + f.offset)) f.idx

/-- The partition that is recorded for it. -/
def Found.ptn (f : Found) : IdePtn where
  name := ptnName hd f.nr
  startLba := f.base + f.offset + (f.entry disk).startLba
  secCnt := (f.entry disk).secCnt
  hd := hd

def visitEntry (call : Word → Word → Word → Option (List Found × Word)) (base offset : Word) (idx : Nat) (nr : Word) :
    Option (List Found × Word) :=
  let entry := ptable (disk (base + offset)) idx
  if 0 = entry.type then some ([], nr)
  else if 0x05 = entry.type then
    if 0 = base then call 5 entry.startLba 0
    else call nr base entry.startLba
  else if 0 = base then some ([⟨base, offset, idx, BitVec.ofNat 32 (idx + 1)⟩], nr)
  else some ([⟨base, offset, idx, nr⟩], nr + 1)

def visitTable (call : Word → Word → Word → Option (List Found × Word)) (base offset : Word) :
    List Nat → Word → Option (List Found × Word)
  | [], nr => some ([], nr)
  | idx :: rest, nr => (visitEntry disk call base offset idx nr).bind fun first =>
      (visitTable call base offset rest first.2).map fun later => (first.1 ++ later.1, later.2)

def visit : Nat → Word → Word → Word → Option (List Found × Word)
  | 0, _, _, _ => none
  | fuel + 1, nr, base, offset => visitTable disk (visit fuel) base offset [0, 1, 2, 3] nr

/-! What a part of the scan leaves alone. -/

variable {al disk hd} {s s' s'' : Scan η}

/-- `s'` has the partitions `new` more than `s`, at the end of the list, and no other block. -/
structure Appended (al : Allocator η) (s s' : Scan η) (new : List Nat) : Prop where
  fresh : ∀ a ∈ new, a ∉ al.live s.heap
  nodup : new.Nodup
  live : al.live s'.heap = al.live s.heap ∪ {a | a ∈ new}
  ptns : ∀ a ∈ al.live s.heap, s'.ptns a = s.ptns a
  buffers : ∀ a ∈ al.live s.heap, s'.buffers a = s.buffers a
  list : ∀ old : List Nat, (∀ a ∈ old, a ∈ al.live s.heap) → Holds s.tags ptnList (old.map Tag.ptnTag) →
    Holds s'.tags ptnList ((old ++ new).map Tag.ptnTag)

theorem Appended.refl (s : Scan η) : Appended al s s [] := by
  constructor
  · intro a none
    exact absurd none List.not_mem_nil
  · exact List.nodup_nil
  · ext a
    simp
  · intro a _
    rfl
  · intro a _
    rfl
  · intro old _ holds
    rw [List.append_nil]
    exact holds

theorem Appended.mem_live {new : List Nat} (first : Appended al s s' new) {a : Nat} :
    a ∈ al.live s'.heap ↔ a ∈ al.live s.heap ∨ a ∈ new := by
  rw [first.live]
  rfl

theorem Appended.trans {new later : List Nat} (first : Appended al s s' new) (second : Appended al s' s'' later) :
    Appended al s s'' (new ++ later) := by
  have within : ∀ a ∈ al.live s.heap, a ∈ al.live s'.heap := fun a out => first.mem_live.mpr (.inl out)
  constructor
  · intro a member
    rcases List.mem_append.mp member with here | there
    · exact first.fresh a here
    · intro out
      exact second.fresh a there (within a out)
  · apply List.Nodup.append first.nodup second.nodup
    intro a here there
    exact second.fresh a there (first.mem_live.mpr (.inr here))
  · ext a
    rw [second.mem_live, first.mem_live]
    simp [or_assoc]
  · intro a out
    rw [second.ptns a (within a out), first.ptns a out]
  · intro a out
    rw [second.buffers a (within a out), first.buffers a out]
  · intro old out holds
    rw [← List.append_assoc]
    apply second.list _ _ (first.list old out holds)
    intro a member
    exact first.mem_live.mpr ((List.mem_append.mp member).imp_left (out a))

/-- A record is one more partition. -/
theorem recordPtn_appended (base offset : Word) (bs idx : Nat) {k : Nat} (ready : al.ready s.heap (k + 1)) :
    Appended al s (recordPtn al hd base offset bs idx s) [(al.malloc s.heap SIZEOF_IDE_PTN).1] := by
  have fresh := al.fresh s.heap k SIZEOF_IDE_PTN ready (by decide)
  constructor
  · intro a member
    rw [List.mem_singleton.mp member]
    exact fresh
  · exact List.nodup_singleton _
  · ext a
    show a ∈ al.live (al.malloc s.heap SIZEOF_IDE_PTN).2 ↔ _
    rw [al.live_malloc s.heap k SIZEOF_IDE_PTN ready (by decide)]
    simp [or_comm]
  · intro a out
    apply Function.update_of_ne
    rintro rfl
    exact fresh out
  · intro a _
    rfl
  · intro old out holds
    rw [List.map_append]
    apply listAppend_holds holds trivial
    intro z member same
    subst same
    have inner : Tag.ptnTag (al.malloc s.heap SIZEOF_IDE_PTN).1 ∈ old.map Tag.ptnTag := by
      simpa [ptnList] using member
    obtain ⟨a, listed, same⟩ := List.mem_map.mp inner
    exact fresh (Tag.ptnTag.inj same ▸ out a listed)

theorem recordPtn_ptn (base offset : Word) (bs idx : Nat) (s : Scan η)
    (loaded : s.buffers bs = disk (base + offset)) :
    [(al.malloc s.heap SIZEOF_IDE_PTN).1].map (recordPtn al hd base offset bs idx s).ptns =
      [Found.ptn disk hd ⟨base, offset, idx, if 0 = base then BitVec.ofNat 32 (idx + 1) else s.ptnNr⟩] := by
  rw [List.map_singleton, recordPtn, Found.ptn, Found.entry, loaded]
  congr 1
  exact Function.update_self ..

/-- The scan with its memory does what the scan without it does, and leaves the heap ready for `k` requests. -/
def Matches (al : Allocator η) (disk : Word → Buffer) (hd : IdeHd) (s : Scan η) (k : Nat) (scanned : Option (Scan η))
    (visited : Option (List Found × Word)) : Prop :=
  match visited with
  | none => scanned = none
  | some (found, nr) => ∃ s' new, scanned = some s' ∧ Appended al s s' new ∧
      new.map s'.ptns = found.map (Found.ptn disk hd) ∧ s'.ptnNr = nr ∧ al.ready s'.heap k

section Refinement

variable {call : Scan η → Word → Word → Option (Scan η)} {call' : Word → Word → Word → Option (List Found × Word)}
  {cnt : Word → Word → Nat}
  (matched : ∀ s base offset k, al.ready s.heap (cnt base offset + k) →
    Matches al disk hd s k (call s base offset) (call' s.ptnNr base offset))
include matched

theorem scanEntry_matches {base offset : Word} {bs : Nat} (idx : Nat) {k : Nat} (loaded : s.buffers bs = disk (base + offset))
    (ready : al.ready s.heap (entryCalls disk cnt base offset idx + k)) :
    Matches al disk hd s k (scanEntry al hd call base offset bs idx s)
      (visitEntry disk call' base offset idx s.ptnNr) := by
  unfold entryCalls at ready
  unfold scanEntry visitEntry
  rw [loaded]
  dsimp only at ready
  by_cases unused : 0 = (ptable (disk (base + offset)) idx).type
  · simp only [if_pos unused, Nat.zero_add] at ready ⊢
    exact ⟨s, [], rfl, Appended.refl s, rfl, rfl, ready⟩
  · simp only [if_neg unused] at ready ⊢
    by_cases extended : 0x05 = (ptable (disk (base + offset)) idx).type
    · simp only [if_pos extended] at ready ⊢
      by_cases primary : 0 = base
      · simp only [if_pos primary] at ready ⊢
        have called := matched { s with ptnNr := 5 } (ptable (disk (base + offset)) idx).startLba 0 k ready
        revert called
        cases call' 5 (ptable (disk (base + offset)) idx).startLba 0 with
        | none => exact id
        | some r =>
          intro ⟨s', new, ran, appended, records, counted, left⟩
          exact ⟨s', new, ran, ⟨appended.fresh, appended.nodup, appended.live, appended.ptns, appended.buffers,
            appended.list⟩, records, counted, left⟩
      · simp only [if_neg primary] at ready ⊢
        exact matched s base _ k ready
    · simp only [if_neg extended, Nat.add_comm 1 k] at ready ⊢
      have appended : Appended al s (recordPtn al hd base offset bs idx s) _ := recordPtn_appended base offset bs idx ready
      have records : [_].map (recordPtn al hd base offset bs idx s).ptns = [Found.ptn disk hd _] := recordPtn_ptn base offset bs idx s loaded
      have left : al.ready (recordPtn al hd base offset bs idx s).heap k :=
        al.ready_malloc s.heap k SIZEOF_IDE_PTN ready (by decide)
      by_cases primary : 0 = base
      · simp only [if_pos primary] at records ⊢
        exact ⟨_, _, rfl, appended, records, if_pos primary, left⟩
      · simp only [if_neg primary] at records ⊢
        exact ⟨_, _, rfl, appended, records, if_neg primary, left⟩

theorem scanTable_matches {base offset : Word} {bs : Nat} (idxs : List Nat) {k : Nat} (out : bs ∈ al.live s.heap)
    (loaded : s.buffers bs = disk (base + offset))
    (ready : al.ready s.heap ((idxs.map (entryCalls disk cnt base offset)).sum + k)) :
    Matches al disk hd s k (scanTable al hd call base offset bs idxs s)
      (visitTable disk call' base offset idxs s.ptnNr) := by
  induction idxs generalizing s with
  | nil =>
    rw [List.map_nil, List.sum_nil, Nat.zero_add] at ready
    exact ⟨s, [], rfl, Appended.refl s, rfl, rfl, ready⟩
  | cons idx rest ih =>
    rw [List.map_cons, List.sum_cons, Nat.add_assoc] at ready
    have entry := scanEntry_matches matched idx loaded ready
    rw [scanTable, visitTable]
    revert entry
    cases visitEntry disk call' base offset idx s.ptnNr with
    | none =>
      intro failed
      show Option.bind _ _ = none
      rw [show scanEntry al hd call base offset bs idx s = none from failed]
      rfl
    | some first =>
      intro ⟨s', new, ran, appended, records, counted, left⟩
      have later := ih (appended.mem_live.mpr (.inl out)) ((appended.buffers bs out).trans loaded) left
      rw [ran, Option.bind_some, Option.bind_some]
      rw [counted] at later
      revert later
      cases visitTable disk call' base offset rest first.2 with
      | none => exact id
      | some second =>
        intro ⟨s'', more, ran', appended', records', counted', left'⟩
        refine ⟨s'', new ++ more, ran', appended.trans appended', ?_, counted', left'⟩
        have kept : new.map s''.ptns = new.map s'.ptns := by
          apply List.map_congr_left
          intro a member
          exact appended'.ptns a (appended.mem_live.mpr (.inr member))
        rw [List.map_append, kept, records, records']
        exact (List.map_append ..).symm

end Refinement

/-- The scan refines the visit as far as the heap is ready for it: it ends when the visit does, records what the visit
finds, in that order at the end of the list, and gives back every buffer. -/
theorem ideGetPartition_matches (fuel k : Nat) (s : Scan η) (base offset : Word)
    (ready : al.ready s.heap (calls disk fuel base offset + k)) :
    Matches al disk hd s k (ideGetPartition al disk hd fuel s base offset) (visit disk fuel s.ptnNr base offset) := by
  induction fuel generalizing s base offset k with
  | zero => rfl
  | succ fuel ih =>
    rw [calls, Nat.add_right_comm] at ready
    have fresh := al.fresh s.heap _ SIZEOF_BOOT_SECTOR ready le_rfl
    have taken := al.live_malloc s.heap _ SIZEOF_BOOT_SECTOR ready le_rfl
    have left := al.ready_malloc s.heap _ SIZEOF_BOOT_SECTOR ready le_rfl
    rw [ideGetPartition, visit]
    generalize (al.malloc s.heap SIZEOF_BOOT_SECTOR).1 = bs at *
    generalize (al.malloc s.heap SIZEOF_BOOT_SECTOR).2 = heap at *
    have out : bs ∈ al.live heap := taken ▸ Set.mem_insert bs _
    have table := scanTable_matches (s := { s with heap, buffers := Function.update s.buffers bs (disk (base + offset)) })
      (fun s base offset k => ih k s base offset) [0, 1, 2, 3] out (Function.update_self ..) left
    revert table
    dsimp only
    cases visitTable disk (visit disk fuel) base offset [0, 1, 2, 3] s.ptnNr with
    | none =>
      intro failed
      show Option.bind _ _ = none
      rw [show scanTable .. = none from failed]
      rfl
    | some r =>
      intro ⟨s', new, ran, appended, records, counted, left'⟩
      obtain ⟨heap', freed, gone, left''⟩ := al.free_runs s'.heap k left' bs (appended.mem_live.mpr (.inl out))
      refine ⟨{ s' with heap := heap' }, new, ?_, ?_, records, counted, left''⟩
      · rw [ran, Option.bind_some, freed]
        rfl
      · have within : ∀ a ∈ al.live s.heap, a ∈ al.live heap := fun a inside => taken ▸ Set.mem_insert_of_mem bs inside
        have other : ∀ a ∈ al.live s.heap, a ≠ bs := by
          rintro a inside rfl
          exact fresh inside
        constructor
        · intro a member inside
          exact appended.fresh a member (within a inside)
        · exact appended.nodup
        · ext a
          show a ∈ al.live heap' ↔ _
          rw [gone, Set.mem_sdiff, appended.mem_live]
          show (a ∈ al.live heap ∨ a ∈ new) ∧ a ∉ {bs} ↔ _
          rw [taken]
          constructor
          · rintro ⟨(rfl | inside) | member, apart⟩
            · exact absurd rfl apart
            · exact .inl inside
            · exact .inr member
          · rintro (inside | member)
            · exact ⟨.inl (.inr inside), other a inside⟩
            · refine ⟨.inr member, ?_⟩
              rintro rfl
              exact appended.fresh _ member out
        · intro a inside
          exact appended.ptns a (within a inside)
        · intro a inside
          exact (appended.buffers a (within a inside)).trans (Function.update_of_ne (other a inside) ..)
        · intro old listed holds
          exact appended.list old (fun a member => within a (listed a member)) holds

end KOS.Partition
