import KOS.BitFields
import KOS.Print
import KOS.SetupPage

/-! The segment descriptors of `boot.inc` and `loader.s`, and the segment that `print.s` writes the screen through. -/

namespace KOS.Gdt
open KOS.BitFields KOS.ByteMemory KOS.LinkMemory

/-! Records in memory. -/

/-- `n` bytes as one number, little endian. -/
def number (m : Memory) : Nat → Nat → Nat
  | _, 0 => 0
  | a, n + 1 => (load m a).toNat + 2 ^ 8 * number m (a + 1) n

/-- Fields given by their size in bytes, stored one after the other. -/
def storeFields : Memory → Nat → List (Nat × Nat) → Memory
  | m, _, [] => m
  | m, a, (n, v) :: rest => storeFields (fill m a n (byteOf v)) (a + n) rest

/-- The same fields by their width in bits. -/
def inBits (fields : List (Nat × Nat)) : List (Nat × Nat) := fields.map fun f => (8 * f.1, f.2 % 2 ^ (8 * f.1))

variable {m m' : Memory} {a n k v x : Nat} {fields : List (Nat × Nat)}

theorem number_append : number m a (n + k) = number m a n + 2 ^ (8 * n) * number m (a + n) k := by
  induction n generalizing a with
  | zero =>
    show number m a (0 + k) = 0 + 2 ^ 0 * number m a k
    rw [Nat.zero_add, Nat.pow_zero, Nat.one_mul, Nat.zero_add]
  | succ n ih =>
    calc number m a (n + 1 + k)
        = (load m a).toNat + 2 ^ 8 * number m (a + 1) (n + k) := by rw [Nat.add_right_comm, number]
      _ = (load m a).toNat + 2 ^ 8 * (number m (a + 1) n + 2 ^ (8 * n) * number m (a + (n + 1)) k) := by
          rw [ih, Nat.add_assoc a 1 n, Nat.add_comm 1 n]
      _ = number m a (n + 1) + 2 ^ (8 * (n + 1)) * number m (a + (n + 1)) k := by
          rw [number, Nat.mul_add 8 n 1, Nat.pow_add]
          ring

theorem number_congr (same : ∀ i < n, load m' (a + i) = load m (a + i)) : number m' a n = number m a n := by
  induction n generalizing a with
  | zero => rfl
  | succ n ih =>
    have first : load m' a = load m a := same 0 (Nat.succ_pos n)
    rw [number, number, first, ih]
    intro i inside
    rw [Nat.add_assoc, Nat.add_comm 1]
    exact same (i + 1) (Nat.succ_lt_succ inside)

theorem number_bytes (bytes : ∀ i < n, load m (a + i) = byteOf v i) : number m a n = v % 2 ^ (8 * n) := by
  induction n generalizing a v with
  | zero => exact (Nat.mod_one v).symm
  | succ n ih =>
    have first : load m a = byteOf v 0 := bytes 0 (Nat.succ_pos n)
    have later : number m (a + 1) n = v / 2 ^ 8 % 2 ^ (8 * n) := by
      apply ih
      intro i inside
      rw [Nat.add_assoc, Nat.add_comm 1, bytes (i + 1) (Nat.succ_lt_succ inside), byteOf, byteOf, Nat.div_div_eq_div_mul,
        ← Nat.pow_add, Nat.mul_succ, Nat.add_comm 8]
    rw [number, first, later, byteOf_toNat, Nat.mul_zero, Nat.pow_zero, Nat.div_one, Nat.mul_succ, Nat.add_comm (8 * n),
      Nat.pow_add, Nat.mod_mul]

theorem number_fill (m : Memory) (a v : Nat) (fits : n ≤ 2 ^ 32) : number (fill m a n (byteOf v)) a n = v % 2 ^ (8 * n) := by
  apply number_bytes
  intro i inside
  rw [load_fill m a n _ fits i (inside.trans_le fits), if_pos inside]

theorem storeFields_other (outside : ∀ i < (fields.map Prod.fst).sum, x ≠ (a + i) % 2 ^ 32) : storeFields m a fields x = m x := by
  induction fields generalizing m a with
  | nil => rfl
  | cons f rest ih =>
    rw [List.map_cons, List.sum_cons] at outside
    rw [storeFields, ih, fill_other]
    · intro i inside
      exact outside i (Nat.lt_add_right _ inside)
    · intro i inside
      rw [Nat.add_assoc]
      exact outside (f.1 + i) (Nat.add_lt_add_left inside f.1)

/-- A record in memory is its fields side by side. -/
theorem number_storeFields (m : Memory) (a : Nat) (fits : (fields.map Prod.fst).sum ≤ 2 ^ 32) :
    number (storeFields m a fields) a (fields.map Prod.fst).sum = pack (inBits fields) := by
  induction fields generalizing m a with
  | nil => rfl
  | cons f rest ih =>
    rw [List.map_cons, List.sum_cons] at fits ⊢
    have low : number (storeFields (fill m a f.1 (byteOf f.2)) (a + f.1) rest) a f.1 = f.2 % 2 ^ (8 * f.1) := by
      rw [← number_fill m a f.2 (by omega)]
      apply number_congr
      intro i inside
      apply storeFields_other
      intro k within
      omega
    rw [storeFields, number_append, low, ih _ _ (by omega)]
    rfl

theorem load32_number (m : Memory) (a : Nat) : load32 m a = number m a 4 := by
  unfold load32 number
  unfold number
  unfold number
  unfold number
  unfold number
  ring

theorem number_lt (m : Memory) (a n : Nat) : number m a n < 2 ^ (8 * n) := by
  induction n generalizing a with
  | zero => exact Nat.one_pos
  | succ n ih =>
    have byte : (load m a).toNat < 2 ^ 8 := UInt8.toNat_lt _
    have later := ih (a + 1)
    rw [number, Nat.mul_succ, Nat.pow_add]
    omega

attribute [irreducible] number

/-- Records of eight bytes, one after the other. -/
def storeTable : Memory → Nat → List (List (Nat × Nat)) → Memory
  | m, _, [] => m
  | m, a, r :: rest => storeTable (storeFields m a r) (a + 8) rest

variable {records : List (List (Nat × Nat))}

theorem storeTable_other (eight : ∀ r ∈ records, (r.map Prod.fst).sum = 8)
    (outside : ∀ i < 8 * records.length, x ≠ (a + i) % 2 ^ 32) : storeTable m a records x = m x := by
  induction records generalizing m a with
  | nil => rfl
  | cons r rest ih =>
    rw [List.length_cons] at outside
    have size := eight r List.mem_cons_self
    rw [storeTable, ih fun r' inside => eight r' (List.mem_cons_of_mem r inside)]
    · apply storeFields_other
      intro i inside
      exact outside i (by omega)
    · intro i inside
      rw [Nat.add_assoc]
      exact outside (8 + i) (by omega)

theorem storeTable_at (m : Memory) (a : Nat) (eight : ∀ r ∈ records, (r.map Prod.fst).sum = 8) (fits : 8 * records.length ≤ 2 ^ 32)
    (inside : k < records.length) : number (storeTable m a records) (a + 8 * k) 8 = pack (inBits (records.getD k [])) := by
  induction records generalizing m a k with
  | nil => exact absurd inside (Nat.not_lt_zero k)
  | cons r rest ih =>
    rw [List.length_cons] at fits inside
    have size := eight r List.mem_cons_self
    have others : ∀ r' ∈ rest, (r'.map Prod.fst).sum = 8 := fun r' within => eight r' (List.mem_cons_of_mem r within)
    cases k with
    | zero =>
      have first : number (storeFields m a r) a 8 = pack (inBits r) := by
        rw [← size]
        exact number_storeFields m a (by omega)
      show number (storeTable (storeFields m a r) (a + 8) rest) a 8 = pack (inBits r)
      rw [← first]
      apply number_congr
      intro i low
      apply storeTable_other others
      intro k within
      omega
    | succ k =>
      rw [storeTable, show a + 8 * (k + 1) = a + 8 + 8 * k by omega]
      exact ih _ _ others (by omega) (by omega)

/-! The macro `DESCRIPTOR`. -/

def GDT_TYPE_CODE : Nat := 0x8 <<< 8
def GDT_TYPE_DATA : Nat := 0x2 <<< 8
def GDT_S_SW : Nat := 0x1 <<< 12
def GDT_DPL_0 : Nat := 0x0 <<< 13
def GDT_P_1 : Nat := 0x1 <<< 15
def GDT_AVL_0 : Nat := 0x0 <<< 20
def GDT_L_32 : Nat := 0x0 <<< 21
def GDT_D_32 : Nat := 0x1 <<< 22
def GDT_G_1 : Nat := 0x0 <<< 23
def GDT_G_4K : Nat := 0x1 <<< 23

def DESCRIPTOR (base limit attribute_ : Nat) : List (Nat × Nat) :=
  [(2, limit &&& 0xffff), (2, base &&& 0xffff), (1, (base >>> 16) &&& 0xff),
    (2, ((limit >>> 8) &&& 0xf00) ||| ((attribute_ >>> 8) &&& 0xf0ff)), (1, (base >>> 24) &&& 0xff)]

/-- What the processor reads in the eight bytes of a segment descriptor. -/
structure Descriptor where
  base : Nat
  limit : Nat
  type : Nat
  s : Nat
  dpl : Nat
  p : Nat
  avl : Nat
  l : Nat
  d : Nat
  g : Nat
  deriving DecidableEq

def descriptorWidths : List Nat := [16, 16, 8, 4, 1, 2, 1, 4, 1, 1, 1, 1, 8]

def decode (eight : Nat) : Descriptor :=
  let f := fun i => (unpack descriptorWidths eight).getD i 0
  { base := f 1 + 2 ^ 16 * f 2 + 2 ^ 24 * f 12, limit := f 0 + 2 ^ 16 * f 7, type := f 3, s := f 4, dpl := f 5, p := f 6,
    avl := f 8, l := f 9, d := f 10, g := f 11 }

/-- The descriptor that the three arguments of the macro stand for. -/
def described (base limit attribute_ : Nat) : Descriptor :=
  { base, limit, type := attribute_ / 2 ^ 8 % 2 ^ 4, s := attribute_ / 2 ^ 12 % 2, dpl := attribute_ / 2 ^ 13 % 2 ^ 2,
    p := attribute_ / 2 ^ 15 % 2, avl := attribute_ / 2 ^ 20 % 2, l := attribute_ / 2 ^ 21 % 2, d := attribute_ / 2 ^ 22 % 2,
    g := attribute_ / 2 ^ 23 % 2 }

/-- The third word of the macro. -/
def accessFields (limit attribute_ : Nat) : List (Nat × Nat) :=
  [(4, attribute_ / 2 ^ 8 % 2 ^ 4), (1, attribute_ / 2 ^ 12 % 2 ^ 1), (2, attribute_ / 2 ^ 13 % 2 ^ 2), (1, attribute_ / 2 ^ 15 % 2 ^ 1),
    (4, limit / 2 ^ 16 % 2 ^ 4), (1, attribute_ / 2 ^ 20 % 2 ^ 1), (1, attribute_ / 2 ^ 21 % 2 ^ 1), (1, attribute_ / 2 ^ 22 % 2 ^ 1),
    (1, attribute_ / 2 ^ 23 % 2 ^ 1)]

/-- All but the last byte. -/
def frontFields (base limit attribute_ : Nat) : List (Nat × Nat) :=
  [(16, limit % 2 ^ 16), (16, base % 2 ^ 16), (8, base / 2 ^ 16 % 2 ^ 8)] ++ accessFields limit attribute_

def descriptorFields (base limit attribute_ : Nat) : List (Nat × Nat) :=
  frontFields base limit attribute_ ++ [(8, base / 2 ^ 24 % 2 ^ 8)]

variable {base limit attribute_ : Nat}

theorem access_word (limit attribute_ : Nat) :
    ((limit >>> 8) &&& 0xf00) ||| ((attribute_ >>> 8) &&& 0xf0ff) =
      attribute_ / 2 ^ 8 % 2 ^ 8 + (limit / 2 ^ 16 % 2 ^ 4 + attribute_ / 2 ^ 20 % 2 ^ 4 * 2 ^ 4) * 2 ^ 8 := by
  have nibble : limit / 2 ^ 16 % 2 ^ 4 < 2 ^ 4 := Nat.mod_lt _ (by decide)
  have byte : attribute_ / 2 ^ 8 % 2 ^ 8 < 2 ^ 8 := Nat.mod_lt _ (by decide)
  have limitBits : (limit >>> 8) &&& 0xf00 = (limit / 2 ^ 16 % 2 ^ 4) <<< 8 := by
    rw [show 0xf00 = (2 ^ 4 - 1) * 2 ^ 8 by decide, and_mask, Nat.shiftRight_eq_div_pow, Nat.div_div_eq_div_mul, ← Nat.pow_add,
      Nat.shiftLeft_eq]
  have high : (attribute_ >>> 8) &&& 0xf000 = (attribute_ / 2 ^ 20 % 2 ^ 4 * 2 ^ 4) <<< 8 := by
    rw [show 0xf000 = (2 ^ 4 - 1) * 2 ^ 12 by decide, and_mask, Nat.shiftRight_eq_div_pow, Nat.div_div_eq_div_mul, ← Nat.pow_add,
      Nat.shiftLeft_eq, Nat.mul_assoc, ← Nat.pow_add]
  have low : (attribute_ >>> 8) &&& 0xff = attribute_ / 2 ^ 8 % 2 ^ 8 := by
    rw [Nat.shiftRight_eq_div_pow]
    exact Nat.and_two_pow_sub_one_eq_mod _ 8
  rw [show 0xf0ff = 0xff ||| 0xf000 by decide, Nat.and_or_distrib_left, limitBits, high, low, Nat.or_left_comm,
    ← Nat.shiftLeft_or_distrib, low_or nibble, Nat.shiftLeft_eq, low_or byte]

theorem byte_fields (x : Nat) : x % 2 ^ 8 = x % 2 ^ 4 + 2 ^ 4 * (x / 2 ^ 4 % 2 + 2 * (x / 2 ^ 5 % 2 ^ 2 + 2 ^ 2 * (x / 2 ^ 7 % 2))) := by
  omega

theorem nibble_fields (x : Nat) : x % 2 ^ 4 = x % 2 + 2 * (x / 2 % 2 + 2 * (x / 2 ^ 2 % 2 + 2 * (x / 2 ^ 3 % 2))) := by
  omega

theorem access_fields (limit attribute_ : Nat) :
    ((limit >>> 8) &&& 0xf00) ||| ((attribute_ >>> 8) &&& 0xf0ff) = pack (accessFields limit attribute_) := by
  have low := byte_fields (attribute_ / 2 ^ 8)
  have high := nibble_fields (attribute_ / 2 ^ 20)
  simp only [Nat.div_div_eq_div_mul, ← Nat.pow_add, ← Nat.pow_succ, Nat.reduceAdd] at low high
  rw [access_word]
  unfold accessFields
  simp only [pack, Nat.pow_one]
  generalize attribute_ / 2 ^ 8 % 2 ^ 8 = byte at low ⊢
  generalize attribute_ / 2 ^ 20 % 2 ^ 4 = nibble at high ⊢
  generalize attribute_ / 2 ^ 8 % 2 ^ 4 = type at low ⊢
  generalize attribute_ / 2 ^ 13 % 2 ^ 2 = dpl at low ⊢
  generalize limit / 2 ^ 16 % 2 ^ 4 = last
  rw [low, high]
  ring

theorem accessFields_fits (limit attribute_ : Nat) : Fits (accessFields limit attribute_) := by
  unfold Fits accessFields
  simp only [List.forall_mem_cons]
  refine ⟨?_, ?_, ?_, ?_, ?_, ?_, ?_, ?_, ?_, by simp⟩ <;> exact Nat.mod_lt _ (by decide)

/-- The macro packs the descriptor that it is given. -/
theorem pack_DESCRIPTOR (base limit attribute_ : Nat) :
    pack (inBits (DESCRIPTOR base limit attribute_)) = pack (descriptorFields base limit attribute_) := by
  have limitLow : limit &&& 0xffff = limit % 2 ^ 16 := Nat.and_two_pow_sub_one_eq_mod limit 16
  have baseLow : base &&& 0xffff = base % 2 ^ 16 := Nat.and_two_pow_sub_one_eq_mod base 16
  have baseMiddle : (base >>> 16) &&& 0xff = base / 2 ^ 16 % 2 ^ 8 := by
    rw [Nat.shiftRight_eq_div_pow]
    exact Nat.and_two_pow_sub_one_eq_mod _ 8
  have baseHigh : (base >>> 24) &&& 0xff = base / 2 ^ 24 % 2 ^ 8 := by
    rw [Nat.shiftRight_eq_div_pow]
    exact Nat.and_two_pow_sub_one_eq_mod _ 8
  have small : pack (accessFields limit attribute_) < 2 ^ 16 := pack_lt (accessFields_fits limit attribute_)
  have access := access_fields limit attribute_
  have fields : inBits (DESCRIPTOR base limit attribute_) = [(16, limit % 2 ^ 16), (16, base % 2 ^ 16), (8, base / 2 ^ 16 % 2 ^ 8)] ++
      (width (accessFields limit attribute_), pack (accessFields limit attribute_)) :: [(8, base / 2 ^ 24 % 2 ^ 8)] := by
    unfold DESCRIPTOR inBits
    rw [limitLow, baseLow, baseMiddle, baseHigh, access]
    simp only [List.map_cons, List.map_nil, Nat.reduceMul, Nat.mod_mod, Nat.mod_eq_of_lt small]
    rfl
  rw [fields, pack_append, pack_group, ← pack_append, ← List.append_assoc]
  rfl

theorem descriptorFields_fits (base limit attribute_ : Nat) : Fits (descriptorFields base limit attribute_) := by
  intro f inside
  rcases List.mem_append.mp inside with before | last
  · unfold frontFields at before
    rcases List.mem_append.mp before with first | access
    · simp only [List.mem_cons, List.not_mem_nil, or_false] at first
      rcases first with same | same | same <;> (rw [same]; exact Nat.mod_lt _ (Nat.two_pow_pos _))
    · exact accessFields_fits limit attribute_ f access
  · rw [List.mem_singleton.mp last]
    exact Nat.mod_lt _ (Nat.two_pow_pos _)

/-- The processor reads in a descriptor what the macro was given. -/
theorem decode_fields {base limit : Nat} (attribute_ : Nat) (base32 : base < 2 ^ 32) (limit20 : limit < 2 ^ 20) :
    decode (pack (descriptorFields base limit attribute_)) = described base limit attribute_ := by
  have read := unpack_pack (descriptorFields_fits base limit attribute_)
  have widths : (descriptorFields base limit attribute_).map Prod.fst = descriptorWidths := rfl
  have whole : base % 2 ^ 16 + 2 ^ 16 * (base / 2 ^ 16 % 2 ^ 8) + 2 ^ 24 * (base / 2 ^ 24 % 2 ^ 8) = base := by omega
  have most : limit % 2 ^ 16 + 2 ^ 16 * (limit / 2 ^ 16 % 2 ^ 4) = limit := by omega
  rw [widths] at read
  unfold decode
  rw [read]
  show Descriptor.mk (base % 2 ^ 16 + 2 ^ 16 * (base / 2 ^ 16 % 2 ^ 8) + 2 ^ 24 * (base / 2 ^ 24 % 2 ^ 8))
    (limit % 2 ^ 16 + 2 ^ 16 * (limit / 2 ^ 16 % 2 ^ 4)) _ _ _ _ _ _ _ _ = _
  rw [whole, most]
  rfl

/-! `or [ebx + 4], eax`, with 0xC0000000 in `eax`. -/

def updateBase (m : Memory) (desc : Nat) : Memory := store32 m (desc + 4) (load32 m (desc + 4) ||| 0xC0000000)

theorem pack_base (base limit attribute_ : Nat) : pack (descriptorFields base limit attribute_) =
    pack (frontFields base limit attribute_) + 2 ^ 56 * (base / 2 ^ 24 % 2 ^ 8) := by
  have last : pack [(8, base / 2 ^ 24 % 2 ^ 8)] = base / 2 ^ 24 % 2 ^ 8 := by
    rw [pack, pack, Nat.mul_zero, Nat.add_zero]
  have size : width (frontFields base limit attribute_) = 56 := rfl
  rw [descriptorFields, pack_append, last, size]

theorem front_lt (base limit attribute_ : Nat) : pack (frontFields base limit attribute_) < 2 ^ 56 :=
  pack_lt fun f inside => descriptorFields_fits base limit attribute_ f (List.mem_append_left _ inside)

theorem frontFields_high (base limit attribute_ : Nat) :
    frontFields (base + 0xC0000000) limit attribute_ = frontFields base limit attribute_ := by
  have low : (base + 0xC0000000) % 2 ^ 16 = base % 2 ^ 16 := by omega
  have middle : (base + 0xC0000000) / 2 ^ 16 % 2 ^ 8 = base / 2 ^ 16 % 2 ^ 8 := by omega
  unfold frontFields
  rw [low, middle]

theorem number_or (m : Memory) (a : Nat) :
    number (updateBase m a) a 8 = number m a 4 + 2 ^ 32 * (number m (a + 4) 4 ||| 0xC0000000) := by
  have word : number m (a + 4) 4 ||| 0xC0000000 < 2 ^ 32 := Nat.or_lt_two_pow (number_lt m (a + 4) 4) (by decide)
  have kept : number (updateBase m a) a 4 = number m a 4 := by
    apply number_congr
    intro i inside
    unfold updateBase store32 load
    apply fill_other
    intro k within
    omega
  have stored : number (updateBase m a) (a + 4) 4 = number m (a + 4) 4 ||| 0xC0000000 := by
    unfold updateBase
    rw [store32, number_fill _ _ _ (by decide), load32_number]
    exact Nat.mod_eq_of_lt word
  rw [← kept, ← stored]
  exact @number_append (updateBase m a) a 4 4

/-- A descriptor below 1 GB is moved to the last gigabyte, and keeps everything else. -/
theorem number_updateBase {base : Nat} (holds : number m a 8 = pack (descriptorFields base limit attribute_)) (low : base < 2 ^ 30) :
    number (updateBase m a) a 8 = pack (descriptorFields (base + 0xC0000000) limit attribute_) := by
  have halves : number m a 8 = number m a 4 + 2 ^ 32 * number m (a + 4) 4 := @number_append m a 4 4
  have below := front_lt base limit attribute_
  have value := pack_base base limit attribute_
  have wanted := pack_base (base + 0xC0000000) limit attribute_
  have same : base / 2 ^ 24 % 2 ^ 8 = base / 2 ^ 24 := Nat.mod_eq_of_lt (by omega)
  have more : (base + 0xC0000000) / 2 ^ 24 % 2 ^ 8 = base / 2 ^ 24 + 0xC0 := by omega
  have high : base / 2 ^ 24 < 2 ^ 6 := by omega
  rw [frontFields_high, more] at wanted
  rw [same] at value
  rw [value] at holds
  rw [number_or, wanted]
  generalize pack (frontFields base limit attribute_) = front at below holds
  generalize base / 2 ^ 24 = top at high holds
  generalize number m (a + 4) 4 = upper at halves
  have room : upper < 2 ^ 30 := by omega
  rw [show 0xC0000000 = 3 * 2 ^ 30 by decide, low_or room]
  omega

/-- Every descriptor the macro makes is read as it was written, and one below 1 GB after the update as the same segment
3 GB higher. -/
theorem descriptor_moves (m : Memory) (a limit attribute_ : Nat) {base : Nat} (low : base < 2 ^ 30) (limit20 : limit < 2 ^ 20) :
    let m' := storeFields m a (DESCRIPTOR base limit attribute_)
    decode (number m' a 8) = described base limit attribute_ ∧
      decode (number (updateBase m' a) a 8) = { described base limit attribute_ with base := base + 0xC0000000 } := by
  have stored : number (storeFields m a (DESCRIPTOR base limit attribute_)) a 8 = pack (descriptorFields base limit attribute_) := by
    rw [← pack_DESCRIPTOR]
    exact number_storeFields m a (show 8 ≤ 2 ^ 32 by decide)
  apply And.intro
  · rw [stored]
    exact decode_fields attribute_ (by omega) limit20
  · rw [number_updateBase stored low]
    exact decode_fields attribute_ (by omega) limit20

/-- The descriptor of the screen. -/
theorem descriptor_moves_video :
    let m' := storeFields (fun _ => 0) 0x818 (DESCRIPTOR 0xb8000 0x7fff (GDT_P_1 + GDT_S_SW + GDT_TYPE_DATA))
    decode (number m' 0x818 8) = described 0xb8000 0x7fff (GDT_P_1 + GDT_S_SW + GDT_TYPE_DATA) ∧
      decode (number (updateBase m' 0x818) 0x818 8) =
        { described 0xb8000 0x7fff (GDT_P_1 + GDT_S_SW + GDT_TYPE_DATA) with base := 0xb8000 + 0xC0000000 } :=
  descriptor_moves (fun _ => 0) 0x818 0x7fff (GDT_P_1 + GDT_S_SW + GDT_TYPE_DATA) (by decide) (by decide)

/-! The table of `loader.s`, before and after paging. -/

def gdtBase : Nat := 0x800
def codeDesc : Nat := gdtBase + 8
def dataDesc : Nat := gdtBase + 16
def videoDesc : Nat := gdtBase + 24
def GDT_SIZE : Nat := 32
def GDT_LIMIT : Nat := GDT_SIZE - 1

def SELECTOR_CODE : Nat := codeDesc - gdtBase
def SELECTOR_DATA : Nat := dataDesc - gdtBase
def SELECTOR_VIDEO : Nat := videoDesc - gdtBase

def codeAttribute : Nat := GDT_G_4K + GDT_D_32 + GDT_L_32 + GDT_AVL_0 + GDT_P_1 + GDT_DPL_0 + GDT_S_SW + GDT_TYPE_CODE
def dataAttribute : Nat := GDT_G_4K + GDT_D_32 + GDT_L_32 + GDT_AVL_0 + GDT_P_1 + GDT_DPL_0 + GDT_S_SW + GDT_TYPE_DATA
def videoAttribute : Nat := GDT_G_1 + GDT_D_32 + GDT_L_32 + GDT_AVL_0 + GDT_P_1 + GDT_DPL_0 + GDT_S_SW + GDT_TYPE_DATA

def gdtRecords : List (List (Nat × Nat)) :=
  [DESCRIPTOR 0x0 0x0 0x0, DESCRIPTOR 0x0 0xfffff codeAttribute, DESCRIPTOR 0x0 0xfffff dataAttribute,
    DESCRIPTOR 0xb8000 0x07fff videoAttribute]

/-- The loader's image, with what memory holds around the table. -/
def gdt (m : Memory) : Memory := storeTable m gdtBase gdtRecords

structure Gdtr where
  base : Nat
  limit : Nat

def gdtr : Gdtr := ⟨gdtBase, GDT_LIMIT⟩

/-- `update GDT for video`: the descriptor and the table itself move to the kernel's addresses. -/
def updateGdt (m : Memory) (r : Gdtr) : Memory × Gdtr := (updateBase m videoDesc, { r with base := r.base ||| 0xC0000000 })

/-- The last offset of a segment. -/
def Descriptor.last (d : Descriptor) : Nat := if d.g = 1 then d.limit * 2 ^ 12 + (2 ^ 12 - 1) else d.limit

/-- The linear address of a byte of a segment; `none` is a fault. -/
def Descriptor.linear (d : Descriptor) (offset : Nat) : Option Nat :=
  if d.p = 1 ∧ offset ≤ d.last then some ((d.base + offset) % 2 ^ 32) else none

/-- Loads a segment register; `translate` is the address translation in force. -/
def loadSegment (translate : Nat → Option Nat) (m : Memory) (r : Gdtr) (selector : Nat) : Option Descriptor :=
  if selector + 7 ≤ r.limit then (translate (r.base + selector)).map fun a => decode (number m a 8) else none

/-- `seg:offset` as the processor resolves it. -/
def resolve (translate : Nat → Option Nat) (m : Memory) (r : Gdtr) (selector offset : Nat) : Option Nat :=
  (loadSegment translate m r selector).bind fun d => d.linear offset

theorem gdt_at (m : Memory) {k : Nat} (inside : k < 4) :
    number (gdt m) (gdtBase + 8 * k) 8 = pack (inBits (gdtRecords.getD k [])) :=
  storeTable_at m gdtBase (by decide) (by decide) inside

theorem flat_linear {attribute_ offset : Nat} (granular : attribute_ / 2 ^ 23 % 2 = 1) (present : attribute_ / 2 ^ 15 % 2 = 1)
    (small : offset < 2 ^ 32) : (described 0 0xfffff attribute_).linear offset = some offset := by
  have last : (described 0 0xfffff attribute_).last = 0xffffffff := by
    unfold Descriptor.last described
    rw [if_pos granular]
    norm_num
  rw [Descriptor.linear, last, if_pos ⟨present, by omega⟩]
  show some ((0 + offset) % 2 ^ 32) = some offset
  rw [Nat.zero_add, Nat.mod_eq_of_lt small]

theorem loadSegment_at {translate : Nat → Option Nat} {r : Gdtr} {selector at_ : Nat} (inside : selector + 7 ≤ r.limit)
    (there : translate (r.base + selector) = some at_) {base limit attribute_ : Nat} (base32 : base < 2 ^ 32) (limit20 : limit < 2 ^ 20)
    (holds : number m at_ 8 = pack (descriptorFields base limit attribute_)) :
    loadSegment translate m r selector = some (described base limit attribute_) := by
  rw [loadSegment, if_pos inside, there, Option.map_some, holds, decode_fields attribute_ base32 limit20]

theorem video_linear {base offset : Nat} (base32 : base + 0x7fff < 2 ^ 32) :
    (described base 0x7fff videoAttribute).linear offset = if offset ≤ 0x7fff then some (base + offset) else none := by
  unfold Descriptor.linear
  by_cases inside : offset ≤ 0x7fff
  · rw [if_pos inside, if_pos ⟨rfl, inside⟩]
    exact congrArg some (Nat.mod_eq_of_lt (by show base + offset < 2 ^ 32; omega))
  · rw [if_neg inside, if_neg fun both => inside both.2]

/-- The descriptors after the update, where the table was. -/
theorem updateGdt_at (m : Memory) {k : Nat} (inside : k < 3) :
    number (updateGdt (gdt m) gdtr).1 (gdtBase + 8 * k) 8 = number (gdt m) (gdtBase + 8 * k) 8 := by
  apply number_congr
  intro i low
  unfold updateGdt updateBase store32 load
  apply fill_other
  intro j within
  unfold videoDesc gdtBase
  omega

open SetupPage TwoLevel in
/-- The low megabyte is seen at the kernel's addresses. -/
theorem high_walk (p : Phys) {a : Nat} (low : a < 0x100000) : walk (setupPage p) PAGE_DIR_ADDR (0xC0000000 + a) = some a := by
  have index : dirIndex (0xC0000000 + a) = 768 := by
    unfold dirIndex
    omega
  have table : tableIndex (0xC0000000 + a) = a / 0x1000 := by
    unfold tableIndex
    omega
  have rest : offset (0xC0000000 + a) = a % 0x1000 := by
    unfold offset
    omega
  rw [setupPage_walk_low (.inr index) (by omega), table, rest]
  exact congrArg some (by omega)

theorem gdt_video (m : Memory) : number (gdt m) videoDesc 8 = pack (descriptorFields 0xb8000 0x7fff videoAttribute) := by
  rw [← pack_DESCRIPTOR]
  exact gdt_at m (show 3 < 4 by decide)

/-- The flat segments, which the update leaves as they are. -/
theorem gdt_flat (m : Memory) {selector : Nat} (flat : selector ∈ [SELECTOR_CODE, SELECTOR_DATA]) :
    ∃ attribute_, (attribute_ / 2 ^ 23 % 2 = 1 ∧ attribute_ / 2 ^ 15 % 2 = 1) ∧ selector + 7 ≤ GDT_LIMIT ∧
      number (gdt m) (gdtBase + selector) 8 = pack (descriptorFields 0 0xfffff attribute_) ∧
      number (updateGdt (gdt m) gdtr).1 (gdtBase + selector) 8 = pack (descriptorFields 0 0xfffff attribute_) := by
  have code : number (gdt m) (gdtBase + 8 * 1) 8 = pack (descriptorFields 0 0xfffff codeAttribute) :=
    (gdt_at m (by decide)).trans (pack_DESCRIPTOR ..)
  have data : number (gdt m) (gdtBase + 8 * 2) 8 = pack (descriptorFields 0 0xfffff dataAttribute) :=
    (gdt_at m (by decide)).trans (pack_DESCRIPTOR ..)
  rcases List.mem_cons.mp flat with same | other
  · rw [same, show SELECTOR_CODE = 8 * 1 by decide]
    exact ⟨codeAttribute, by decide, by decide, code, (updateGdt_at m (by decide)).trans code⟩
  · rw [List.mem_singleton.mp other, show SELECTOR_DATA = 8 * 2 by decide]
    exact ⟨dataAttribute, by decide, by decide, data, (updateGdt_at m (by decide)).trans data⟩

/-- What memory and the page tables held before the loader ran does not matter: the flat segments reach every address,
and the screen is reached through `SELECTOR_VIDEO` at the same bytes before and after paging, up to its last byte. -/
theorem segments_resolve (m : Memory) (p : TwoLevel.Phys) (offset : Nat) :
    let after := updateGdt (gdt m) gdtr
    let paging := TwoLevel.walk (SetupPage.setupPage p) SetupPage.PAGE_DIR_ADDR
    resolve some (gdt m) gdtr SELECTOR_VIDEO offset = (if offset ≤ 0x7fff then some (0xb8000 + offset) else none) ∧
      resolve paging after.1 after.2 SELECTOR_VIDEO offset =
        (if offset ≤ Print.videoLimit then some (Print.videoBase + offset) else none) ∧
      (offset ≤ Print.videoLimit → paging (Print.videoBase + offset) = some (0xb8000 + offset)) ∧
      ∀ selector ∈ [SELECTOR_CODE, SELECTOR_DATA], offset < 2 ^ 32 →
        resolve some (gdt m) gdtr selector offset = some offset ∧ resolve paging after.1 after.2 selector offset = some offset := by
  intro after paging
  have video := gdt_video m
  have base : after.2.base = 0xC0000000 + gdtBase := show gdtBase ||| 0xC0000000 = _ by decide
  refine ⟨?_, ?_, ?_, ?_⟩
  · have loaded : loadSegment some (gdt m) gdtr SELECTOR_VIDEO = some (described 0xb8000 0x7fff videoAttribute) :=
      loadSegment_at (by decide) rfl (by decide) (by decide) video
    rw [resolve, loaded, Option.bind_some]
    exact video_linear (by decide)
  · have there : paging (after.2.base + SELECTOR_VIDEO) = some (gdtBase + SELECTOR_VIDEO) := by
      rw [base, Nat.add_assoc]
      exact high_walk p (show gdtBase + SELECTOR_VIDEO < 0x100000 by decide)
    have loaded : loadSegment paging after.1 after.2 SELECTOR_VIDEO = some (described (0xb8000 + 0xC0000000) 0x7fff videoAttribute) :=
      loadSegment_at (show SELECTOR_VIDEO + 7 ≤ GDT_LIMIT by decide) there (by decide) (by decide) (number_updateBase video (by decide))
    rw [resolve, loaded, Option.bind_some]
    exact video_linear (by decide)
  · intro inside
    unfold Print.videoLimit at inside
    have low : 0xb8000 + offset < 0x100000 := by omega
    have same : Print.videoBase + offset = 0xC0000000 + (0xb8000 + offset) := by
      unfold Print.videoBase
      omega
    rw [same]
    exact high_walk p low
  · intro selector flat small
    obtain ⟨attribute_, bits, inside, before, later⟩ := gdt_flat m flat
    have there : paging (after.2.base + selector) = some (gdtBase + selector) := by
      rw [base, Nat.add_assoc]
      apply high_walk
      unfold GDT_LIMIT GDT_SIZE at inside
      unfold gdtBase
      omega
    apply And.intro
    · rw [resolve, loadSegment_at inside rfl (by decide) (by decide) before, Option.bind_some]
      exact flat_linear bits.1 bits.2 small
    · rw [resolve, loadSegment_at inside there (by decide) (by decide) later, Option.bind_some]
      exact flat_linear bits.1 bits.2 small

end KOS.Gdt
