import KOS.Descent
import KOS.HeapRoom
import KOS.Partition

/-! When the scan of the partition tables ends. -/

namespace KOS.PartitionEnds
open KOS.DoublyLinked KOS.KernelList KOS.Stdio KOS.Descent KOS.Partition
open Relation (ReflTransGen TransGen)

variable {η : Type*} {al : Allocator η} {disk : Word → Buffer} {hd : IdeHd}

/-- The arguments of the recursive call for an extended entry. -/
def target (base : Word) (entry : PtnTable) : Word × Word :=
  if 0 = base then (entry.startLba, 0) else (base, entry.startLba)

/-- `next` is called from the scan of the boot sector at `at_`. -/
def Links (disk : Word → Buffer) (at_ next : Word × Word) : Prop :=
  ∃ idx ∈ [0, 1, 2, 3], 0x05 = (ptable (disk (at_.1 + at_.2)) idx).type ∧
    next = target at_.1 (ptable (disk (at_.1 + at_.2)) idx)

instance : Finite Word := Finite.of_injective BitVec.toFin BitVec.toFin_injective

/-- The heap of a machine with 3 MiB, and nothing scanned yet. -/
def bootedHeap : Allocator HeapRun.Sys := ofHeap HeapRoom.bootHeap

def empty : Scan HeapRun.Sys where
  heap := HeapRun.booted
  buffers := fun _ _ => 0
  ptns := fun _ => ⟨[], 0, 0, ⟨[]⟩⟩
  tags := listInit Tag.null ⟨fun _ => .null, fun _ => .null⟩ ptnList
  ptnNr := 0

theorem empty_ready {n : Nat} (few : n ≤ 128) : bootedHeap.ready empty.heap n := HeapRoom.booted_room few

section Entry

variable {call : Scan η → Word → Word → Option (Scan η)} {s : Scan η} {base offset : Word} {bs idx : Nat} {table : Buffer}
  (loaded : s.buffers bs = table)
include loaded

end Entry

end KOS.PartitionEnds
