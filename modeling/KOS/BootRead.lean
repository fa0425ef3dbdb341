import KOS.AddressMap
import KOS.Ide

/-! `read_hd` of `mbr.s` and `read_hd_32` of `loader.s`: sectors read by polling, before there is a driver.
Both are one routine, on registers of 16 and of 32 bits. -/

namespace KOS.BootRead
open KOS.ByteMemory KOS.LinkMemory KOS.AddressMap KOS.Ata

/-- Steps 1 to 3, and what they leave in `eax`. -/
def start (c : Channel) (eax cl : Nat) : Channel × Nat :=
  let c := c.outb 0x1f2 cl
  let c := c.outb 0x1f3 eax
  let eax := eax / 2 ^ 8
  let c := c.outb 0x1f4 eax
  let eax := eax / 2 ^ 8
  let c := c.outb 0x1f5 eax
  let eax := eax / 2 ^ 8
  let al := (eax % 2 ^ 8 &&& 0x0f) ||| 0xe0
  let c := c.outb 0x1f6 al
  let al := 0x20
  let c := c.outb 0x1f7 al
  (c, eax / 2 ^ 8 * 2 ^ 8 + al)

/-- `mul dx`: `ah` is still what step 2 left there. -/
def product (eax cl : Nat) : Nat := (eax / 2 ^ 8 % 2 ^ 8 * 2 ^ 8 + cl) * 256 % 2 ^ 16

variable {t : Nat → Nat} {m : Memory} {c : Channel} {r : Transfer} {w eax bx cx cl n : Nat}

/-! The five steps. -/

/-- The registers before the command. -/
def programmed (c : Channel) (eax cl : Nat) : Channel :=
  { c with secCnt := cl % 2 ^ 8, lbaLow := eax % 2 ^ 8, lbaMid := eax / 2 ^ 8 % 2 ^ 8,
           lbaHigh := eax / 2 ^ 16 % 2 ^ 8, driveSet := 0xe0 + eax / 2 ^ 24 % 16 }

/-- What a routine has done that was to read `n` sectors of drive `d` to `bx`. -/
def Reads (t : Nat → Nat) (bx : Nat) (d : Fin 2) (lba n : Nat) (m : Memory) (c : Channel) (result : Option (Memory × Channel)) : Prop :=
  ∃ m' c', result = some (m', c') ∧
    (∀ i < n, ∀ j : Fin 512, read t m' (bx + (512 * i + j)) = c.disk d (lba + i) j) ∧
    ChangesOnly (cells t bx (512 * n)) m m' ∧ c'.disk = c.disk

end KOS.BootRead
