import Mathlib

/-! The two 8259A interrupt controllers that `pic_init` programs: edge triggered and fully nested, the slave's output
on line 2 of the master. -/

namespace KOS.Pic

/-- What a write to the data port is taken for. -/
inductive Expects where
  | icw2
  | icw3
  | icw4
  | ocw1
  deriving DecidableEq

structure Config where
  base : Nat
  wiring : Nat
  imr : Nat
  single : Bool
  needs4 : Bool
  autoEoi : Bool
  expects : Expects
  deriving DecidableEq

/-- The lines of one chip. The counters, since its last ICW1, are not part of the hardware: rising edges, requests
taken by the processor, and requests withdrawn before that. -/
structure Lines where
  level : Fin 8 → Bool
  irr : Fin 8 → Bool
  isr : Fin 8 → Bool
  edges : Fin 8 → Nat
  taken : Fin 8 → Nat
  withdrawn : Fin 8 → Nat

structure Chip where
  config : Config
  lines : Lines

structure Pics where
  master : Chip
  slave : Chip

/-! One chip. -/

def Config.icw1 (c : Config) (data : Nat) : Config :=
  { c with imr := 0, single := data.testBit 1, needs4 := data.testBit 0, autoEoi := false, expects := .icw2 }

def Config.data (c : Config) (data : Nat) : Config :=
  match c.expects with
  | .icw2 =>
      { c with base := data &&& 0xF8, expects := if ¬c.single then .icw3 else if c.needs4 then .icw4 else .ocw1 }
  | .icw3 => { c with wiring := data, expects := if c.needs4 then .icw4 else .ocw1 }
  | .icw4 => { c with autoEoi := data.testBit 1, expects := .ocw1 }
  | .ocw1 => { c with imr := data }

namespace Lines

/-- ICW1 forgets every request. -/
def clear (x : Lines) : Lines :=
  { x with irr := fun _ => false, isr := fun _ => false, edges := fun _ => 0, taken := fun _ => 0, withdrawn := fun _ => 0 }

def raise (x : Lines) (l : Fin 8) : Lines :=
  if x.level l then x
  else { x with level := Function.update x.level l true, irr := Function.update x.irr l true, edges := Function.update x.edges l (x.edges l + 1) }

/-- A request that falls before the processor takes it is withdrawn. -/
def drop (x : Lines) (l : Fin 8) : Lines :=
  { x with level := Function.update x.level l false, irr := Function.update x.irr l false,
           withdrawn := if x.irr l then Function.update x.withdrawn l (x.withdrawn l + 1) else x.withdrawn }

def take (x : Lines) (l : Fin 8) (autoEoi : Bool) : Lines :=
  { x with irr := Function.update x.irr l false, isr := if autoEoi then x.isr else Function.update x.isr l true,
           taken := Function.update x.taken l (x.taken l + 1) }

/-- The non-specific EOI ends the request of the highest priority. -/
def eoi (x : Lines) : Lines :=
  match Fin.find? x.isr with
  | some l => { x with isr := Function.update x.isr l false }
  | none => x

end Lines

namespace Chip

def pending (c : Chip) (l : Fin 8) : Bool := c.lines.irr l && !c.config.imr.testBit l

/-- The request that raises the chip's output: pending, and above everything in service. -/
def request (c : Chip) : Option (Fin 8) :=
  (Fin.find? fun l => c.lines.isr l || c.pending l).filter fun l => !c.lines.isr l

/-- Of the command words that are no ICW1, only the non-specific EOI: the kernel sends no other. -/
def outCtrl (c : Chip) (data : Nat) : Chip :=
  if data.testBit 4 then ⟨c.config.icw1 data, c.lines.clear⟩
  else if data = 0x20 then { c with lines := c.lines.eoi }
  else c

def outData (c : Chip) (data : Nat) : Chip := { c with config := c.config.data data }

/-- The vector the chip answers an acknowledge with; line 7 when its request has gone. -/
def inta (c : Chip) : Nat × Chip :=
  match c.request with
  | some l => (c.config.base + l, { c with lines := c.lines.take l c.config.autoEoi })
  | none => (c.config.base + 7, c)

end Chip

/-! The pair. -/

namespace Pics

/-- The wire from the slave's output to line 2 of the master. -/
def settle (p : Pics) : Pics :=
  { p with master := { p.master with lines := if p.slave.request.isSome then p.master.lines.raise 2 else p.master.lines.drop 2 } }

def PIC_M_CTRL : Nat := 0x20
def PIC_M_DATA : Nat := 0x21
def PIC_S_CTRL : Nat := 0xA0
def PIC_S_DATA : Nat := 0xA1

def outb (p : Pics) (port data : Nat) : Pics :=
  settle (if port = PIC_M_CTRL then { p with master := p.master.outCtrl data }
    else if port = PIC_M_DATA then { p with master := p.master.outData data }
    else if port = PIC_S_CTRL then { p with slave := p.slave.outCtrl data }
    else if port = PIC_S_DATA then { p with slave := p.slave.outData data }
    else p)

/-- A device moves its line; `slave` says on which chip. -/
def move (p : Pics) (slave : Bool) (f : Lines → Lines) : Pics :=
  settle (if slave then { p with slave := { p.slave with lines := f p.slave.lines } }
    else { p with master := { p.master with lines := f p.master.lines } })

def raise (p : Pics) (slave : Bool) (l : Fin 8) : Pics := p.move slave fun x => x.raise l

def drop (p : Pics) (slave : Bool) (l : Fin 8) : Pics := p.move slave fun x => x.drop l

/-- The processor's acknowledge: the vector comes from the slave when its line is the one in question. -/
def inta (p : Pics) : Nat × Pics :=
  match p.master.request with
  | some l =>
      if p.master.config.wiring.testBit l then (p.slave.inta.1, settle ⟨p.master.inta.2, p.slave.inta.2⟩)
      else (p.master.inta.1, settle { p with master := p.master.inta.2 })
  | none => (p.master.inta.1, p)

end Pics

/-- The writes of `pic_init`. -/
def picInit : List (Nat × Nat) :=
  [(Pics.PIC_M_CTRL, 0x11), (Pics.PIC_M_DATA, 0x20), (Pics.PIC_M_DATA, 0x04), (Pics.PIC_M_DATA, 0x01),
    (Pics.PIC_S_CTRL, 0x11), (Pics.PIC_S_DATA, 0x28), (Pics.PIC_S_DATA, 0x02), (Pics.PIC_S_DATA, 0x01),
    (Pics.PIC_M_DATA, 0xFA), (Pics.PIC_S_DATA, 0x33)]

/-- The two writes at the head of every entry stub. -/
def eois : List (Nat × Nat) := [(Pics.PIC_S_CTRL, 0x20), (Pics.PIC_M_CTRL, 0x20)]

def masterConfig : Config := ⟨0x20, 0x04, 0xFA, false, true, false, .ocw1⟩
def slaveConfig : Config := ⟨0x28, 0x02, 0x33, false, true, false, .ocw1⟩

/-- Devices are wired to every line but the one that the slave's output drives. -/
def DeviceLine (slave : Bool) (l : Fin 8) : Prop := slave = true ∨ l ≠ 2

instance (slave : Bool) (l : Fin 8) : Decidable (DeviceLine slave l) := inferInstanceAs (Decidable (slave = true ∨ l ≠ 2))

def timerLine : Bool × Fin 8 := (false, 0)
def diskLine : Bool × Fin 8 := (true, 6)

/-- The device lines that `pic_init` leaves open, in the order of their priority. -/
def sources : List (Bool × Fin 8) := [(false, 0), (true, 2), (true, 3), (true, 6), (true, 7)]

/-! Requests. -/

variable {x : Lines} {c : Chip} {p : Pics} {l j : Fin 8}

theorem Chip.request_eq_some : c.request = some l ↔
    c.lines.isr l = false ∧ c.pending l = true ∧ ∀ k < l, c.lines.isr k = false ∧ c.pending k = false := by
  unfold Chip.request
  rw [Option.filter_eq_some_iff, Fin.find?_eq_some_iff]
  simp only [Bool.or_eq_true, Bool.or_eq_false_iff, Bool.not_eq_true']
  apply Iff.intro
  · intro h
    obtain ⟨⟨asks, first⟩, idle⟩ := h
    rw [idle] at asks
    exact ⟨idle, asks.resolve_left (by decide), first⟩
  · intro h
    obtain ⟨idle, asks, first⟩ := h
    exact ⟨⟨.inr asks, first⟩, idle⟩

/-- With nothing in service every pending request gets out. -/
theorem Chip.request_isSome (idle : ∀ k, c.lines.isr k = false) : c.request.isSome ↔ ∃ k, c.pending k = true := by
  apply Iff.intro
  · intro some_
    obtain ⟨l, request⟩ := Option.isSome_iff_exists.mp some_
    exact ⟨l, (request_eq_some.mp request).2.1⟩
  · intro h
    obtain ⟨k, asks⟩ := h
    have found : (Fin.find? c.pending).isSome := Fin.isSome_find?_of_eq_true asks
    obtain ⟨l, first⟩ := Option.isSome_iff_exists.mp found
    obtain ⟨here, before⟩ := Fin.find?_eq_some_iff.mp first
    have request : c.request = some l := request_eq_some.mpr ⟨idle l, here, fun i less => ⟨idle i, before i less⟩⟩
    exact Option.isSome_iff_exists.mpr ⟨l, request⟩

theorem Chip.inta_some (request : c.request = some l) :
    c.inta = (c.config.base + l.val, { c with lines := c.lines.take l c.config.autoEoi }) := by
  rw [Chip.inta, request]

theorem Chip.inta_none (nothing : c.request = none) : c.inta = (c.config.base + 7, c) := by
  rw [Chip.inta, nothing]

/-- A request in service blocks itself and everything below it. -/
theorem Chip.request_taken (request : c.request = some l) (manual : c.config.autoEoi = false) :
    (c.inta.2).request = none := by
  obtain ⟨idle, asks, first⟩ := request_eq_some.mp request
  rw [inta_some request]
  by_contra some_
  obtain ⟨k, again⟩ := Option.ne_none_iff_exists'.mp some_
  obtain ⟨idle', asks', first'⟩ := request_eq_some.mp again
  simp only [Lines.take, manual, Bool.false_eq_true, if_false, Chip.pending] at idle' asks' first'
  by_cases same : k = l
  · rw [same, Function.update_self] at idle'
    exact absurd idle' (by decide)
  · rw [Function.update_of_ne same] at asks'
    rcases lt_or_gt_of_ne same with less | greater
    · exact absurd ((first k less).2.symm.trans asks') (by decide)
    · have set := (first' l greater).1
      rw [Function.update_self] at set
      exact absurd set (by decide)

/-! What each operation does to the lines. -/

/-- Every edge is taken, withdrawn or pending, and what is pending is still high. -/
structure Counted (x : Lines) : Prop where
  edges : ∀ l, x.edges l = x.taken l + x.withdrawn l + (x.irr l).toNat
  level : ∀ l, x.irr l = true → x.level l = true

/-- At most one request in service. -/
def AtMostOne (x : Lines) : Prop := ∀ i j, x.isr i = true → x.isr j = true → i = j

namespace Lines

@[simp] theorem raise_taken (x : Lines) (l : Fin 8) : (x.raise l).taken = x.taken := by
  unfold raise
  split <;> rfl

@[simp] theorem raise_isr (x : Lines) (l : Fin 8) : (x.raise l).isr = x.isr := by
  unfold raise
  split <;> rfl

@[simp] theorem drop_taken (x : Lines) (l : Fin 8) : (x.drop l).taken = x.taken := rfl
@[simp] theorem drop_isr (x : Lines) (l : Fin 8) : (x.drop l).isr = x.isr := rfl

@[simp] theorem eoi_taken (x : Lines) : x.eoi.taken = x.taken := by
  unfold eoi
  split <;> rfl

@[simp] theorem eoi_irr (x : Lines) : x.eoi.irr = x.irr := by
  unfold eoi
  split <;> rfl

@[simp] theorem eoi_level (x : Lines) : x.eoi.level = x.level := by
  unfold eoi
  split <;> rfl

/-- One EOI ends the only request in service. -/
theorem eoi_idle (one : AtMostOne x) (k : Fin 8) : x.eoi.isr k = false := by
  unfold eoi
  cases found : Fin.find? x.isr with
  | none => exact Fin.find?_eq_none_iff.mp found k
  | some l =>
    have set := (Fin.find?_eq_some_iff.mp found).1
    show Function.update x.isr l false k = false
    by_cases same : k = l
    · rw [same, Function.update_self]
    · rw [Function.update_of_ne same]
      exact Bool.eq_false_iff.mpr fun other => same (one k l other set)

theorem take_atMostOne (idle : ∀ k, x.isr k = false) (l : Fin 8) : AtMostOne (x.take l false) := by
  have only : ∀ i, (x.take l false).isr i = true → i = l := by
    intro i set
    by_contra other
    have same : (x.take l false).isr i = x.isr i := by
      show Function.update x.isr l true i = x.isr i
      exact Function.update_of_ne other _ _
    exact absurd (set.symm.trans (same.trans (idle i))) (by decide)
  exact fun i j set set' => (only i set).trans (only j set').symm

theorem take_other (x : Lines) {l k : Fin 8} (other : k ≠ l) (auto : Bool) : (x.take l auto).irr k = x.irr k :=
  Function.update_of_ne other _ _

theorem take_taken (x : Lines) (l k : Fin 8) (auto : Bool) : (x.take l auto).taken k = x.taken k + if k = l then 1 else 0 := by
  show Function.update x.taken l (x.taken l + 1) k = _
  by_cases same : k = l
  · rw [same, Function.update_self, if_pos rfl]
  · rw [Function.update_of_ne same, if_neg same, Nat.add_zero]

theorem clear_counted (x : Lines) : Counted x.clear := ⟨fun _ => rfl, fun _ impossible => absurd impossible Bool.false_ne_true⟩

theorem raise_counted (counted : Counted x) (l : Fin 8) : Counted (x.raise l) := by
  unfold raise
  by_cases high : x.level l = true
  · rw [if_pos high]
    exact counted
  · rw [if_neg high]
    have low : x.irr l = false := Bool.eq_false_iff.mpr fun asks => high (counted.level l asks)
    constructor
    · intro k
      have before := counted.edges k
      dsimp only
      by_cases same : k = l
      · rw [same] at before ⊢
        rw [low] at before
        rw [Function.update_self, Function.update_self, before]
        rfl
      · rw [Function.update_of_ne same, Function.update_of_ne same]
        exact before
    · intro k asks
      dsimp only at asks ⊢
      by_cases same : k = l
      · rw [same, Function.update_self]
      · rw [Function.update_of_ne same] at asks ⊢
        exact counted.level k asks

theorem drop_counted (counted : Counted x) (l : Fin 8) : Counted (x.drop l) := by
  unfold drop
  constructor
  · intro k
    have before := counted.edges k
    dsimp only
    by_cases same : k = l
    · rw [same] at before ⊢
      rw [Function.update_self, before]
      by_cases asks : x.irr l = true
      · rw [if_pos asks, Function.update_self, asks]
        rfl
      · rw [if_neg asks, Bool.eq_false_iff.mpr asks]
    · rw [Function.update_of_ne same, before]
      by_cases asks : x.irr l = true
      · rw [if_pos asks, Function.update_of_ne same]
      · rw [if_neg asks]
  · intro k asks
    dsimp only at asks ⊢
    by_cases same : k = l
    · rw [same, Function.update_self] at asks
      exact absurd asks (by decide)
    · rw [Function.update_of_ne same] at asks ⊢
      exact counted.level k asks

theorem take_counted (counted : Counted x) {l : Fin 8} (asks : x.irr l = true) (auto : Bool) : Counted (x.take l auto) := by
  unfold take
  constructor
  · intro k
    have before := counted.edges k
    dsimp only
    by_cases same : k = l
    · rw [same] at before ⊢
      rw [asks] at before
      rw [Function.update_self, Function.update_self, before]
      show x.taken l + x.withdrawn l + 1 = x.taken l + 1 + x.withdrawn l + 0
      omega
    · rw [Function.update_of_ne same, Function.update_of_ne same, before]
  · intro k asks'
    dsimp only at asks' ⊢
    by_cases same : k = l
    · rw [same, Function.update_self] at asks'
      exact absurd asks' (by decide)
    · rw [Function.update_of_ne same] at asks'
      exact counted.level k asks'

theorem eoi_counted (counted : Counted x) : Counted x.eoi := by
  unfold eoi
  split
  · exact ⟨counted.edges, counted.level⟩
  · exact counted

/-- Other lines are not touched. -/
theorem raise_other (x : Lines) {l k : Fin 8} (other : k ≠ l) :
    (x.raise l).irr k = x.irr k ∧ (x.raise l).level k = x.level k := by
  unfold raise
  split
  · exact ⟨rfl, rfl⟩
  · exact ⟨Function.update_of_ne other _ _, Function.update_of_ne other _ _⟩

theorem drop_self (x : Lines) (l : Fin 8) : (x.drop l).irr l = false ∧ (x.drop l).level l = false := by
  unfold drop
  dsimp only
  exact ⟨Function.update_self .., Function.update_self ..⟩

theorem drop_other (x : Lines) {l k : Fin 8} (other : k ≠ l) : (x.drop l).irr k = x.irr k ∧ (x.drop l).level k = x.level k :=
  ⟨Function.update_of_ne other _ _, Function.update_of_ne other _ _⟩

end Lines

/-! The wire. -/

/-- Line 2 of the master follows the slave's output, and has caught every edge of it. -/
structure Wired (p : Pics) : Prop where
  level : p.master.lines.level 2 = p.slave.request.isSome
  irr : p.master.lines.irr 2 = p.slave.request.isSome

theorem raise_synced (synced : x.irr l = x.level l) : (x.raise l).irr l = true ∧ (x.raise l).level l = true := by
  unfold Lines.raise
  by_cases high : x.level l = true
  · rw [if_pos high]
    exact ⟨synced.trans high, high⟩
  · rw [if_neg high]
    dsimp only
    exact ⟨Function.update_self .., Function.update_self ..⟩

theorem settle_lines (p : Pics) :
    p.settle.master.lines = if p.slave.request.isSome then p.master.lines.raise 2 else p.master.lines.drop 2 := rfl

theorem settle_slave (p : Pics) : p.settle.slave = p.slave := rfl

/-- A slave that asks for nothing pulls the line low, whatever it was. -/
theorem settle_wired_none (nothing : p.slave.request.isSome = false) : Wired p.settle := by
  have low := Lines.drop_self p.master.lines 2
  constructor
  · rw [settle_lines, settle_slave, nothing]
    exact low.2
  · rw [settle_lines, settle_slave, nothing]
    exact low.1

theorem settle_wired (synced : p.master.lines.irr 2 = p.master.lines.level 2) : Wired p.settle := by
  by_cases asks : p.slave.request.isSome = true
  · have high := raise_synced synced
    constructor
    · rw [settle_lines, settle_slave, asks]
      exact high.2
    · rw [settle_lines, settle_slave, asks]
      exact high.1
  · exact settle_wired_none (Bool.eq_false_iff.mpr asks)

end KOS.Pic
