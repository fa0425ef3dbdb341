import KOS.Gdt

/-! `idt_init` of `interrupt.c`, and where the processor goes on an interrupt through the table it builds. -/

namespace KOS.Idt
open KOS.BitFields KOS.ByteMemory KOS.LinkMemory KOS.Gdt

def IDT_VEC_MAX : Nat := 0x80
def IDT_DESC_CNT : Nat := 0x30
def SELECTOR_K_CODE : Nat := 0x1 <<< 3
def GDT_DPL_3 : Nat := 0x3 <<< 13

def makeIdtTable (m : Memory) (pDest attr func : Nat) : Memory :=
  storeFields m pDest
    [(2, func &&& 0x000FFFF), (2, SELECTOR_K_CODE), (1, 0), (1, ((attr >>> 8) &&& 0xE0) ||| 0x0E), (2, (func &&& 0xFFFF0000) >>> 16)]

/-- `idt_table` is in `memory`; `intr_func` holds `none` for `NULL`. -/
structure Tables (η : Type*) where
  memory : Memory
  intrFunc : Nat → Option η
  intrName : Nat → String

variable {η : Type*} (intrEntry : Nat → Nat) (syscallEntry idtTable : Nat) (intrGeneralHandler : η)

/-- One pass of the loop of `idt_init`. -/
def idtEntry (t : Tables η) (idx : Nat) : Tables η :=
  let t := { t with intrName := Function.update t.intrName idx "unknown", intrFunc := Function.update t.intrFunc idx none }
  if idx < IDT_DESC_CNT then
    { t with
      memory := makeIdtTable t.memory (idtTable + 8 * idx) (GDT_P_1 + GDT_DPL_0) (intrEntry idx)
      intrFunc := Function.update t.intrFunc idx (some intrGeneralHandler) }
  else t

def idtLoop : Nat → Tables η → Nat → Tables η
  | 0, t, _ => t
  | n + 1, t, idx => idtLoop n (idtEntry intrEntry idtTable intrGeneralHandler t idx) (idx + 1)

def intrNames : List (Nat × String) :=
  [(0x00, "#DE Divide Error"), (0x01, "#DB Debug Exception"), (0x02, "NMI Interrupt"), (0x03, "#BP Breakpoint Exception"),
    (0x04, "#OF Overflow Exception"), (0x05, "#BR BOUND Range Exceeded Exception"), (0x06, "#UD Invalid Opcode Exception"),
    (0x07, "#NM Device Not Available Exception"), (0x08, "#DF Double Fault Exception"), (0x09, "Coprocessor Segment Overrun"),
    (0x0A, "#TS Invalid TSS Exception"), (0x0B, "#NP Segment Not Present"), (0x0C, "#SS Stack Fault Exception"),
    (0x0D, "#GP General Protection Exception"), (0x0E, "#PF Page-Fault Exception"), (0x10, "#MF x87 FPU Floating-Point Error"),
    (0x11, "#AC Alignment Check Exception"), (0x12, "#MC Machine-Check Exception"), (0x13, "#XF SIMD Floating-Point Exception"),
    (0x14, "#VE Virtualization Exception"), (0x15, "#CP Control Protection Exception"),
    (0x1C, "#HV Hypervisor Injection Exception"), (0x1D, "#VC VMM Communication Exception"), (0x1E, "#SX Security Exception")]

/-- The operand of `lidt`. -/
def idtOperand : Nat := (8 * (IDT_VEC_MAX + 1) - 1) ||| (idtTable <<< 16)

def idtInit (t : Tables η) : Tables η :=
  let t := idtLoop intrEntry idtTable intrGeneralHandler (IDT_VEC_MAX + 1) t 0
  { t with
    memory := makeIdtTable t.memory (idtTable + 8 * 0x80) (GDT_P_1 + GDT_DPL_3) syscallEntry
    intrName := intrNames.foldl (fun names n => Function.update names n.1 n.2) t.intrName }

/-! The processor's side. -/

/-- What `lidt` loads: the limit, then the base. -/
def lidt (operand : Nat) : Gdtr := ⟨operand / 2 ^ 16 % 2 ^ 32, operand % 2 ^ 16⟩

structure Gate where
  offset : Nat
  selector : Nat
  type : Nat
  s : Nat
  dpl : Nat
  p : Nat

def gateWidths : List Nat := [16, 16, 8, 4, 1, 2, 1, 16]

def decodeGate (eight : Nat) : Gate :=
  let f := fun i => (unpack gateWidths eight).getD i 0
  { offset := f 0 + 2 ^ 16 * f 7, selector := f 1, type := f 3, s := f 4, dpl := f 5, p := f 6 }

/-- `enter` is a 32-bit interrupt gate, which clears the interrupt flag. -/
inductive Entry where
  | fault (vector : Nat)
  | otherGate (type : Nat)
  | enter (selector offset : Nat)
  deriving DecidableEq

/-- An interrupt at privilege level `cpl`; `software` says that an `int` instruction caused it. -/
def interruptTo (m : Memory) (idtr : Gdtr) (cpl : Nat) (software : Bool) (vec : Nat) : Entry :=
  let g := decodeGate (number m (idtr.base + 8 * vec) 8)
  if idtr.limit < 8 * vec + 7 then .fault 0x0D
  else if g.s ≠ 0 ∨ g.type ∉ [0x5, 0x6, 0x7, 0xE, 0xF] then .fault 0x0D
  else if software ∧ g.dpl < cpl then .fault 0x0D
  else if g.p = 0 then .fault 0x0B
  else if g.type ≠ 0xE then .otherGate g.type
  else .enter g.selector g.offset

/-! A gate. -/

def attributeFields (attr : Nat) : List (Nat × Nat) := [(4, 0xE), (1, 0), (2, attr / 2 ^ 13 % 2 ^ 2), (1, attr / 2 ^ 15 % 2 ^ 1)]

def gateFields (attr func : Nat) : List (Nat × Nat) :=
  [(16, func % 2 ^ 16), (16, SELECTOR_K_CODE), (8, 0)] ++ attributeFields attr ++ [(16, func / 2 ^ 16 % 2 ^ 16)]

theorem attribute_byte (attr : Nat) : (((attr >>> 8) &&& 0xE0) ||| 0x0E) % 2 ^ 8 = pack (attributeFields attr) := by
  have bits : (attr >>> 8) &&& 0xE0 = attr / 2 ^ 13 % 2 ^ 3 * 2 ^ 5 := by
    rw [show 0xE0 = (2 ^ 3 - 1) * 2 ^ 5 by decide, and_mask, Nat.shiftRight_eq_div_pow, Nat.div_div_eq_div_mul, ← Nat.pow_add]
  rw [bits, Nat.or_comm, low_or (by decide)]
  unfold attributeFields
  simp only [pack]
  omega

theorem pack_gate (attr func : Nat) :
    pack (inBits [(2, func &&& 0x000FFFF), (2, SELECTOR_K_CODE), (1, 0), (1, ((attr >>> 8) &&& 0xE0) ||| 0x0E),
      (2, (func &&& 0xFFFF0000) >>> 16)]) = pack (gateFields attr func) := by
  have low : func &&& 0x000FFFF = func % 2 ^ 16 := Nat.and_two_pow_sub_one_eq_mod func 16
  have high : (func &&& 0xFFFF0000) >>> 16 = func / 2 ^ 16 % 2 ^ 16 := by
    rw [show 0xFFFF0000 = (2 ^ 16 - 1) * 2 ^ 16 by decide, and_mask, Nat.shiftRight_eq_div_pow,
      Nat.mul_div_cancel _ (by decide)]
  have byte := attribute_byte attr
  have fields : inBits [(2, func &&& 0x000FFFF), (2, SELECTOR_K_CODE), (1, 0), (1, ((attr >>> 8) &&& 0xE0) ||| 0x0E),
      (2, (func &&& 0xFFFF0000) >>> 16)] = [(16, func % 2 ^ 16), (16, SELECTOR_K_CODE), (8, 0)] ++
        (width (attributeFields attr), pack (attributeFields attr)) :: [(16, func / 2 ^ 16 % 2 ^ 16)] := by
    unfold inBits
    rw [low, high]
    simp only [List.map_cons, List.map_nil, Nat.reduceMul, Nat.mod_mod, byte]
    rfl
  rw [fields, pack_append, pack_group, ← pack_append, ← List.append_assoc]
  rfl

theorem gateFields_fits (attr func : Nat) : Fits (gateFields attr func) := by
  unfold Fits gateFields attributeFields
  simp only [List.cons_append, List.nil_append, List.forall_mem_cons]
  refine ⟨?_, by decide, by decide, by decide, by decide, ?_, ?_, ?_, by simp⟩ <;> exact Nat.mod_lt _ (by decide)

theorem decode_gate (attr : Nat) {func : Nat} (func32 : func < 2 ^ 32) :
    decodeGate (pack (gateFields attr func)) = ⟨func, SELECTOR_K_CODE, 0xE, 0, attr / 2 ^ 13 % 2 ^ 2, attr / 2 ^ 15 % 2 ^ 1⟩ := by
  have read := unpack_pack (gateFields_fits attr func)
  have widths : (gateFields attr func).map Prod.fst = gateWidths := rfl
  have whole : func % 2 ^ 16 + 2 ^ 16 * (func / 2 ^ 16 % 2 ^ 16) = func := by omega
  rw [widths] at read
  unfold decodeGate
  rw [read]
  show Gate.mk (func % 2 ^ 16 + 2 ^ 16 * (func / 2 ^ 16 % 2 ^ 16)) _ _ _ _ _ = _
  rw [whole]
  rfl

/-! The table. -/

/-- A record of eight bytes stored at one place of a table, read at any. -/
theorem number_slot (m : Memory) (a : Nat) {r : List (Nat × Nat)} {j k : Nat} (eight : (r.map Prod.fst).sum = 8) (small : j < 2 ^ 20)
    (small' : k < 2 ^ 20) :
    number (storeFields m (a + 8 * j) r) (a + 8 * k) 8 = if k = j then pack (inBits r) else number m (a + 8 * k) 8 := by
  by_cases same : k = j
  · rw [if_pos same, same, ← eight]
    exact number_storeFields m _ (by omega)
  · rw [if_neg same]
    apply number_congr
    intro i low
    apply storeFields_other
    intro l within
    omega

section Init
variable {intrEntry : Nat → Nat} {syscallEntry idtTable : Nat} {intrGeneralHandler : η} {t : Tables η} {idx k n : Nat}

theorem idtEntry_gate (small : idx < 2 ^ 20) (small' : k < 2 ^ 20) :
    number (idtEntry intrEntry idtTable intrGeneralHandler t idx).memory (idtTable + 8 * k) 8 =
      if k = idx ∧ k < IDT_DESC_CNT then pack (gateFields (GDT_P_1 + GDT_DPL_0) (intrEntry k))
      else number t.memory (idtTable + 8 * k) 8 := by
  unfold idtEntry
  by_cases stub : idx < IDT_DESC_CNT
  · simp only [if_pos stub, makeIdtTable]
    rw [number_slot _ _ rfl small small', pack_gate]
    by_cases same : k = idx
    · rw [if_pos same, if_pos ⟨same, same ▸ stub⟩, same]
    · rw [if_neg same, if_neg fun both => same both.1]
  · simp only [if_neg stub]
    have other : ¬(k = idx ∧ k < IDT_DESC_CNT) := fun both => stub (both.1 ▸ both.2)
    rw [if_neg other]

theorem idtLoop_gate (small : idx + n < 2 ^ 20) (small' : k < 2 ^ 20) :
    number (idtLoop intrEntry idtTable intrGeneralHandler n t idx).memory (idtTable + 8 * k) 8 =
      if idx ≤ k ∧ k < idx + n ∧ k < IDT_DESC_CNT then pack (gateFields (GDT_P_1 + GDT_DPL_0) (intrEntry k))
      else number t.memory (idtTable + 8 * k) 8 := by
  induction n generalizing t idx with
  | zero => exact (if_neg (by omega)).symm
  | succ n ih =>
    rw [idtLoop, ih (by omega), idtEntry_gate (by omega) small']
    by_cases later : idx + 1 ≤ k ∧ k < idx + 1 + n ∧ k < IDT_DESC_CNT
    · rw [if_pos later, if_pos (by omega)]
    · rw [if_neg later]
      by_cases here : k = idx ∧ k < IDT_DESC_CNT
      · rw [if_pos here, if_pos (by omega)]
      · rw [if_neg here, if_neg (by omega)]

theorem idtLoop_func (n : Nat) :
    (idtLoop intrEntry idtTable intrGeneralHandler n t idx).intrFunc k =
      if idx ≤ k ∧ k < idx + n then if k < IDT_DESC_CNT then some intrGeneralHandler else none else t.intrFunc k := by
  induction n generalizing t idx with
  | zero => exact (if_neg (by omega)).symm
  | succ n ih =>
    rw [idtLoop, ih]
    by_cases later : idx + 1 ≤ k ∧ k < idx + 1 + n
    · have within : idx ≤ k ∧ k < idx + (n + 1) := by omega
      rw [if_pos later, if_pos within]
    · rw [if_neg later, idtEntry]
      by_cases same : k = idx
      · have within : idx ≤ k ∧ k < idx + (n + 1) := by omega
        rw [if_pos within, same]
        by_cases stub : idx < IDT_DESC_CNT
        · simp only [if_pos stub, Function.update_self]
        · simp only [if_neg stub, Function.update_self]
      · have beyond : ¬(idx ≤ k ∧ k < idx + (n + 1)) := by omega
        rw [if_neg beyond]
        by_cases stub : idx < IDT_DESC_CNT
        · simp only [if_pos stub, Function.update_of_ne same]
        · simp only [if_neg stub, Function.update_of_ne same]

/-- The gate of every vector the table has room for. -/
theorem idtInit_gate (inside : k ≤ IDT_VEC_MAX) :
    number (idtInit intrEntry syscallEntry idtTable intrGeneralHandler t).memory (idtTable + 8 * k) 8 =
      if k = 0x80 then pack (gateFields (GDT_P_1 + GDT_DPL_3) syscallEntry)
      else if k < IDT_DESC_CNT then pack (gateFields (GDT_P_1 + GDT_DPL_0) (intrEntry k))
      else number t.memory (idtTable + 8 * k) 8 := by
  unfold IDT_VEC_MAX at inside
  have looped := @idtLoop_gate η intrEntry idtTable intrGeneralHandler t 0 k (IDT_VEC_MAX + 1) (by decide) (by omega)
  unfold idtInit makeIdtTable
  dsimp only
  rw [number_slot _ _ rfl (by decide) (by omega), pack_gate, looped]
  by_cases syscall : k = 0x80
  · rw [if_pos syscall, if_pos syscall]
  · rw [if_neg syscall, if_neg syscall]
    unfold IDT_VEC_MAX IDT_DESC_CNT
    by_cases stub : k < 0x30
    · rw [if_pos stub, if_pos (by omega)]
    · rw [if_neg stub, if_neg fun all => stub all.2.2]

theorem idtInit_func (inside : k ≤ IDT_VEC_MAX) :
    (idtInit intrEntry syscallEntry idtTable intrGeneralHandler t).intrFunc k =
      if k < IDT_DESC_CNT then some intrGeneralHandler else none := by
  unfold idtInit
  dsimp only
  rw [idtLoop_func, if_pos ⟨Nat.zero_le k, by omega⟩]

theorem lidt_idtOperand (range : idtTable < 2 ^ 32) : lidt (idtOperand idtTable) = ⟨idtTable, 8 * (IDT_VEC_MAX + 1) - 1⟩ := by
  have operand : idtOperand idtTable = 8 * (IDT_VEC_MAX + 1) - 1 + idtTable * 2 ^ 16 := by
    rw [idtOperand, Nat.shiftLeft_eq]
    exact low_or (by decide) idtTable
  have base : (8 * (IDT_VEC_MAX + 1) - 1 + idtTable * 2 ^ 16) / 2 ^ 16 % 2 ^ 32 = idtTable := by
    unfold IDT_VEC_MAX
    omega
  have limit : (8 * (IDT_VEC_MAX + 1) - 1 + idtTable * 2 ^ 16) % 2 ^ 16 = 8 * (IDT_VEC_MAX + 1) - 1 := by
    unfold IDT_VEC_MAX
    omega
  rw [lidt, operand, base, limit]

theorem interruptTo_gate {m : Memory} {idtr : Gdtr} {cpl vec attr func : Nat} {software : Bool} (room : 8 * vec + 7 ≤ idtr.limit)
    (func32 : func < 2 ^ 32) (present : attr / 2 ^ 15 % 2 ^ 1 = 1)
    (holds : number m (idtr.base + 8 * vec) 8 = pack (gateFields attr func)) :
    interruptTo m idtr cpl software vec =
      if software ∧ attr / 2 ^ 13 % 2 ^ 2 < cpl then .fault 0x0D else .enter SELECTOR_K_CODE func := by
  rw [interruptTo, holds, decode_gate attr func32]
  dsimp only
  rw [if_neg (by omega), if_neg (by decide), present]
  by_cases privileged : software ∧ attr / 2 ^ 13 % 2 ^ 2 < cpl
  · rw [if_pos privileged, if_pos privileged]
  · rw [if_neg privileged, if_neg privileged, if_neg (by decide), if_neg (by decide)]

theorem interruptTo_empty {m : Memory} {idtr : Gdtr} {cpl vec : Nat} {software : Bool}
    (empty : 8 * vec + 7 ≤ idtr.limit → number m (idtr.base + 8 * vec) 8 = 0) : interruptTo m idtr cpl software vec = .fault 0x0D := by
  unfold interruptTo
  by_cases room : 8 * vec + 7 ≤ idtr.limit
  · rw [empty room]
    dsimp only
    rw [if_neg (by omega), if_pos (by decide)]
  · dsimp only
    rw [if_pos (by omega)]

/-- After `idt_init` a hardware interrupt or an exception of every vector below 0x30 reaches its entry stub, and its
slot of `intr_func` holds the general handler; user code reaches `syscall_entry` and nothing else: every other `int`
is a general protection fault, and so is every vector above. -/
theorem idtInit_delivers {vec cpl : Nat} {software : Bool} (stubs : ∀ v < IDT_DESC_CNT, intrEntry v < 2 ^ 32)
    (syscall32 : syscallEntry < 2 ^ 32) (table32 : idtTable < 2 ^ 32) (bss : ∀ i < 8 * (IDT_VEC_MAX + 1), load t.memory (idtTable + i) = 0)
    (level : cpl ≤ 3) :
    let t' := idtInit intrEntry syscallEntry idtTable intrGeneralHandler t
    interruptTo t'.memory (lidt (idtOperand idtTable)) cpl software vec =
        (if vec < IDT_DESC_CNT then if software ∧ 0 < cpl then .fault 0x0D else .enter SELECTOR_K_CODE (intrEntry vec)
        else if vec = 0x80 then .enter SELECTOR_K_CODE syscallEntry else .fault 0x0D) ∧
      (vec ≤ IDT_VEC_MAX → t'.intrFunc vec = if vec < IDT_DESC_CNT then some intrGeneralHandler else none) := by
  intro t'
  apply And.intro
  · rw [lidt_idtOperand table32]
    by_cases inside : vec ≤ IDT_VEC_MAX
    · have gate := @idtInit_gate η intrEntry syscallEntry idtTable intrGeneralHandler t vec inside
      have room : 8 * vec + 7 ≤ 8 * (IDT_VEC_MAX + 1) - 1 := by omega
      by_cases stub : vec < IDT_DESC_CNT
      · rw [if_neg (by unfold IDT_DESC_CNT at stub; omega), if_pos stub] at gate
        rw [if_pos stub]
        exact interruptTo_gate room (stubs vec stub) (show (GDT_P_1 + GDT_DPL_0) / 2 ^ 15 % 2 ^ 1 = 1 by decide) gate
      · rw [if_neg stub]
        by_cases syscall : vec = 0x80
        · rw [if_pos syscall] at gate
          rw [if_pos syscall, interruptTo_gate room syscall32 (show (GDT_P_1 + GDT_DPL_3) / 2 ^ 15 % 2 ^ 1 = 1 by decide) gate, if_neg]
          intro both
          exact absurd both.2 (Nat.not_lt.mpr level)
        · rw [if_neg syscall, if_neg stub] at gate
          rw [if_neg syscall]
          apply interruptTo_empty
          intro _
          refine gate.trans (number_bytes (v := 0) ?_)
          intro i low
          rw [Nat.add_assoc, bss (8 * vec + i) (by omega)]
          unfold byteOf
          rw [Nat.zero_div]
          rfl
    · unfold IDT_VEC_MAX at inside
      rw [if_neg (by unfold IDT_DESC_CNT; omega), if_neg (by omega)]
      apply interruptTo_empty
      intro room
      unfold IDT_VEC_MAX at room
      dsimp only at room
      omega
  · exact idtInit_func

end Init

/-- `int 0x80` and `int 0x21` from user code. -/
theorem idtInit_delivers_user :
    (∀ v < IDT_DESC_CNT, 0xC0001000 + 64 * v < 2 ^ 32) ∧
      let t' := idtInit (fun v => 0xC0001000 + 64 * v) 0xC0002000 0xC0003000 () ⟨fun _ => 0, fun _ => none, fun _ => ""⟩
      interruptTo t'.memory (lidt (idtOperand 0xC0003000)) 3 true 0x80 = .enter SELECTOR_K_CODE 0xC0002000 ∧
        interruptTo t'.memory (lidt (idtOperand 0xC0003000)) 3 true 0x21 = .fault 0x0D := by
  have stubs : ∀ v < IDT_DESC_CNT, 0xC0001000 + 64 * v < 2 ^ 32 := by
    intro v small
    have low : v < 0x30 := small
    omega
  refine ⟨stubs, ?_, ?_⟩
  · exact (idtInit_delivers stubs (by decide) (by decide) (fun _ _ => rfl) (by decide)).1
  · exact (idtInit_delivers stubs (by decide) (by decide) (fun _ _ => rfl) (by decide)).1

end KOS.Idt
