import KOS.Idt
import KOS.Machine
import KOS.Pic

/-! External interrupts, from a device's line to the handler: the controllers, the entry stubs of `kernel.s`, which end
the interrupt before they call `intr_func`, and the registration of handlers. -/

namespace KOS.Interrupts
open KOS.Machine KOS.Pic

/-- An entry of `intr_func`: `intr_general_handler`, or what a driver registered. -/
inductive Handler (η : Type*) where
  | general
  | driver (handler : η)

/-- `intr_general_handler` returns for the spurious vectors and stops the system for the others. -/
def Handler.returns {η : Type*} : Handler η → Nat → Bool
  | .general, vec => vec = 0x27 ∨ vec = 0x2F
  | .driver _, _ => true

/-- What the processor is about: the rest of `pic_init`, kernel or user code, an acknowledge, or an entry stub with the
writes it has still to make. -/
inductive Cpu where
  | setup (outs : List (Nat × Nat))
  | run
  | acking
  | stub (vec : Nat) (outs : List (Nat × Nat))
  | halted
  deriving DecidableEq

structure System (η : Type*) where
  pics : Pics
  flag : Bool
  cpu : Cpu
  func : Nat → Option (Handler η)
  calls : List (Nat × Handler η)

inductive Event (η : Type*) where
  | raise (slave : Bool) (l : Fin 8)
  | drop (slave : Bool) (l : Fin 8)
  | out
  | sample
  | inta
  | call
  | setFlag (b : Bool)
  | registerHandler (vec : Nat) (func : η)

variable {η : Type*}

def step (s : System η) : Event η → Option (System η)
  | .raise slave l => some { s with pics := s.pics.raise slave l }
  | .drop slave l => some { s with pics := s.pics.drop slave l }
  | .out =>
      match s.cpu with
      | .setup (o :: outs) => some { s with pics := s.pics.outb o.1 o.2, cpu := .setup outs }
      | .setup [] => some { s with cpu := .run }
      | .stub vec (o :: outs) => some { s with pics := s.pics.outb o.1 o.2, cpu := .stub vec outs }
      | _ => none
  | .sample =>
      match s.cpu with
      | .run => if s.flag ∧ s.pics.master.request.isSome then some { s with cpu := .acking } else none
      | _ => none
  | .inta =>
      match s.cpu with
      | .acking => some { s with pics := s.pics.inta.2, cpu := .stub s.pics.inta.1 eois, flag := false }
      | _ => none
  | .call =>
      match s.cpu with
      | .stub vec [] =>
          (s.func vec).map fun h => { s with calls := s.calls ++ [(vec, h)], cpu := if h.returns vec then .run else .halted }
      | _ => none
  | .setFlag b =>
      match s.cpu with
      | .run => some { s with flag := b }
      | _ => none
  | .registerHandler vec func =>
      match s.cpu with
      | .run => some { s with func := Function.update s.func vec (some (.driver func)) }
      | _ => none

/-- No device drives line 2 of the master. -/
def Wires (_ : System η) : Event η → Prop
  | .raise slave l => DeviceLine slave l
  | .drop slave l => DeviceLine slave l
  | _ => True

instance (s : System η) : DecidablePred (Wires s)
  | .raise slave l => inferInstanceAs (Decidable (DeviceLine slave l))
  | .drop slave l => inferInstanceAs (Decidable (DeviceLine slave l))
  | .out | .sample | .inta | .call | .setFlag _ | .registerHandler _ _ => inferInstanceAs (Decidable True)

/-- `intr_init` up to `pic_init`; the controllers are as the firmware left them. -/
def start (pics : Pics) (tables : Idt.Tables (Handler η)) : System η where
  pics := pics
  flag := false
  cpu := .setup picInit
  func := tables.intrFunc
  calls := []

/-- The vector under execution in a stub counts as delivered. -/
def Cpu.vectors : Cpu → List Nat
  | .stub vec _ => [vec]
  | _ => []

def delivered (s : System η) : List Nat := s.calls.map Prod.fst ++ s.cpu.vectors

/-! What is kept. -/

variable {p q : Pics} {d : List Nat} {s s' : System η}

/-- The two configurations, as a write leaves them. -/
def configOut (c : Config × Config) (o : Nat × Nat) : Config × Config :=
  if o.1 = Pics.PIC_M_CTRL then if o.2.testBit 4 then (c.1.icw1 o.2, c.2) else c
  else if o.1 = Pics.PIC_M_DATA then (c.1.data o.2, c.2)
  else if o.1 = Pics.PIC_S_CTRL then if o.2.testBit 4 then (c.1, c.2.icw1 o.2) else c
  else if o.1 = Pics.PIC_S_DATA then (c.1, c.2.data o.2)
  else c

def configs (p : Pics) : Config × Config := (p.master.config, p.slave.config)

theorem outb_configs (p : Pics) (o : Nat × Nat) : configs (p.outb o.1 o.2) = configOut (configs p) o := by
  unfold configs configOut Pics.outb Pics.settle Chip.outCtrl Chip.outData
  split_ifs <;> rfl

/-- `pic_init` programs both chips, whatever they were in the middle of. -/
theorem picInit_configs (c : Config × Config) : picInit.foldl configOut c = (masterConfig, slaveConfig) := rfl

structure MasterTally (p : Pics) (d : List Nat) : Prop where
  counted : Counted p.master.lines
  taken : ∀ l, l ≠ 2 → l ≠ 7 → p.master.lines.taken l = d.count (0x20 + l.val)

structure SlaveTally (p : Pics) (d : List Nat) : Prop where
  counted : Counted p.slave.lines
  taken : ∀ l, p.slave.lines.taken l = d.count (0x28 + l.val)
  wired : Wired p

theorem MasterTally.settle (tally : MasterTally q d) : MasterTally q.settle d := by
  constructor
  · rw [settle_lines]
    split
    · exact Lines.raise_counted tally.counted 2
    · exact Lines.drop_counted tally.counted 2
  · intro l other last
    rw [settle_lines]
    split
    · rw [Lines.raise_taken]
      exact tally.taken l other last
    · exact tally.taken l other last

theorem Wired.synced (wired : Wired p) : p.master.lines.irr 2 = p.master.lines.level 2 := wired.irr.trans wired.level.symm

section Move
variable {f : Lines → Lines} {slave : Bool}

/-- What a device or an EOI does to the lines of a chip. -/
structure Gentle (f : Lines → Lines) : Prop where
  counted : ∀ x, Counted x → Counted (f x)
  taken : ∀ x, (f x).taken = x.taken

theorem MasterTally.move (gentle : Gentle f) (tally : MasterTally p d) : MasterTally (p.move slave f) d := by
  apply MasterTally.settle
  cases slave with
  | true => exact ⟨tally.counted, tally.taken⟩
  | false =>
    constructor
    · exact gentle.counted _ tally.counted
    · intro l other last
      exact (congrFun (gentle.taken _) l).trans (tally.taken l other last)

theorem SlaveTally.move (gentle : Gentle f) (synced : slave = false → (f p.master.lines).irr 2 = (f p.master.lines).level 2)
    (tally : SlaveTally p d) : SlaveTally (p.move slave f) d := by
  cases slave with
  | true =>
    have synced' := Wired.synced tally.wired
    constructor
    · exact gentle.counted _ tally.counted
    · intro l
      exact (congrFun (gentle.taken _) l).trans (tally.taken l)
    · exact settle_wired synced'
  | false => exact ⟨tally.counted, tally.taken, settle_wired (synced rfl)⟩

theorem gentle_raise (l : Fin 8) : Gentle fun x => x.raise l := ⟨fun _ counted => Lines.raise_counted counted l, fun x => Lines.raise_taken x l⟩
theorem gentle_drop (l : Fin 8) : Gentle fun x => x.drop l := ⟨fun _ counted => Lines.drop_counted counted l, fun x => Lines.drop_taken x l⟩
theorem gentle_eoi : Gentle Lines.eoi := ⟨fun _ counted => Lines.eoi_counted counted, Lines.eoi_taken⟩

theorem settle_isr (p : Pics) : p.settle.master.lines.isr = p.master.lines.isr := by
  rw [settle_lines]
  split
  · exact Lines.raise_isr _ _
  · rfl

theorem move_master_isr (p : Pics) (slave : Bool) (f : Lines → Lines) :
    (p.move slave f).master.lines.isr = if slave then p.master.lines.isr else (f p.master.lines).isr := by
  cases slave with
  | true => exact settle_isr _
  | false => exact settle_isr _

theorem move_slave_isr (p : Pics) (slave : Bool) (f : Lines → Lines) :
    (p.move slave f).slave.lines.isr = if slave then (f p.slave.lines).isr else p.slave.lines.isr := by
  cases slave with
  | true => rfl
  | false => rfl

theorem move_configs (p : Pics) (slave : Bool) (f : Lines → Lines) : configs (p.move slave f) = configs p := by
  cases slave with
  | true => rfl
  | false => rfl

end Move

/-! The invariant. -/

def Idle (x : Lines) : Prop := ∀ k, x.isr k = false

/-- At most `n` writes of `pic_init` are left. -/
def Left (n : Nat) : Cpu → Prop
  | .setup outs => outs.length ≤ n
  | _ => True

/-- What the chips have in service. -/
def Service (p : Pics) : Cpu → Prop
  | .setup outs => (outs.length ≤ 9 → Idle p.master.lines) ∧ (outs.length ≤ 5 → Idle p.slave.lines)
  | .stub _ outs =>
      (outs = eois ∧ AtMostOne p.master.lines ∧ AtMostOne p.slave.lines) ∨ (outs = eois.tail ∧ AtMostOne p.master.lines ∧ Idle p.slave.lines) ∨
        (outs = [] ∧ Idle p.master.lines ∧ Idle p.slave.lines)
  | _ => Idle p.master.lines ∧ Idle p.slave.lines

/-- The writes left of `pic_init` lead to the final configuration. -/
def Configured (s : System η) : Cpu → Prop
  | .setup outs => outs <:+ picInit ∧ outs.foldl configOut (configs s.pics) = (masterConfig, slaveConfig) ∧ s.calls = []
  | _ => configs s.pics = (masterConfig, slaveConfig)

def serviced : List Nat := [0x20, 0x27, 0x2A, 0x2B, 0x2E, 0x2F]

structure Inv (s : System η) : Prop where
  configured : Configured s s.cpu
  master : Left 9 s.cpu → MasterTally s.pics (delivered s)
  slave : Left 5 s.cpu → SlaveTally s.pics (delivered s)
  service : Service s.pics s.cpu
  vectors : ∀ v ∈ delivered s, v ∈ serviced

/-- A device moves a line. -/
theorem Inv.move {f : Lines → Lines} {slave : Bool} (inv : Inv s) (gentle : Gentle f) (isr : ∀ x, (f x).isr = x.isr)
    (synced : slave = false → ∀ x : Lines, x.irr 2 = x.level 2 → (f x).irr 2 = (f x).level 2) :
    Inv { s with pics := s.pics.move slave f } := by
  have masterIsr : (s.pics.move slave f).master.lines.isr = s.pics.master.lines.isr := by
    rw [move_master_isr, isr, ite_self]
  have slaveIsr : (s.pics.move slave f).slave.lines.isr = s.pics.slave.lines.isr := by
    rw [move_slave_isr, isr, ite_self]
  constructor
  · have configured := inv.configured
    show Configured { s with pics := s.pics.move slave f } s.cpu
    cases cpu : s.cpu with
    | setup outs =>
      rw [cpu] at configured
      refine ⟨configured.1, ?_, configured.2.2⟩
      rw [move_configs]
      exact configured.2.1
    | _ =>
      rw [cpu] at configured
      exact (move_configs _ _ _).trans configured
  · intro left
    exact (inv.master left).move gentle
  · intro left
    have tally := inv.slave left
    exact tally.move gentle fun master => synced master _ (Wired.synced tally.wired)
  · have service := inv.service
    show Service (s.pics.move slave f) s.cpu
    cases cpu : s.cpu <;> rw [cpu] at service <;> simpa only [Service, Idle, AtMostOne, masterIsr, slaveIsr] using service
  · exact inv.vectors

theorem setup_cases {o : Nat × Nat} {outs : List (Nat × Nat)} (suffix : o :: outs <:+ picInit) :
    (outs.length = 9 ∧ o = (Pics.PIC_M_CTRL, 0x11)) ∨ (outs.length = 5 ∧ o = (Pics.PIC_S_CTRL, 0x11)) ∨
      (outs.length ≠ 9 ∧ outs.length ≠ 5 ∧ (o.1 = Pics.PIC_M_DATA ∨ o.1 = Pics.PIC_S_DATA)) := by
  have tail := (List.mem_tails _ _).mpr suffix
  simp only [picInit, List.tails, List.mem_cons, List.not_mem_nil, or_false, List.cons.injEq, reduceCtorEq] at tail
  rcases tail with h | h | h | h | h | h | h | h | h | h <;> obtain ⟨same, rest⟩ := h <;> rw [same, rest] <;> decide

/-- A write to a data port leaves the lines alone, up to the wire. -/
theorem data_lines {port data : Nat} (data_ : port = Pics.PIC_M_DATA ∨ port = Pics.PIC_S_DATA) :
    ∃ q : Pics, p.outb port data = q.settle ∧ q.master.lines = p.master.lines ∧ q.slave.lines = p.slave.lines := by
  rcases data_ with same | same
  · rw [same]
    exact ⟨{ p with master := p.master.outData data }, rfl, rfl, rfl⟩
  · rw [same]
    exact ⟨{ p with slave := p.slave.outData data }, rfl, rfl, rfl⟩

theorem clear_request {c : Chip} (irr : c.lines.irr = fun _ => false) (isr : c.lines.isr = fun _ => false) :
    c.request.isSome = false := by
  apply Bool.eq_false_iff.mpr
  intro some_
  obtain ⟨k, asks⟩ := (Chip.request_isSome fun k => congrFun isr k).mp some_
  rw [Chip.pending, irr] at asks
  exact absurd asks Bool.false_ne_true

/-- One write of `pic_init`. -/
theorem Inv.setupOut {o : Nat × Nat} {outs : List (Nat × Nat)} (inv : Inv s) (cpu : s.cpu = .setup (o :: outs)) :
    Inv { s with pics := s.pics.outb o.1 o.2, cpu := .setup outs } := by
  have configured := inv.configured
  have master := inv.master
  have slave := inv.slave
  have service := inv.service
  have nothing : delivered s = [] := by
    rw [cpu] at configured
    rw [delivered, configured.2.2, cpu]
    rfl
  rw [cpu] at configured master slave service
  rw [nothing] at master slave
  have calls : s.calls = [] := configured.2.2
  have none' : delivered { s with pics := s.pics.outb o.1 o.2, cpu := .setup outs } = [] := by
    rw [delivered]
    show s.calls.map Prod.fst ++ [] = []
    rw [calls]
    rfl
  have next : outs <:+ picInit := (List.suffix_cons o outs).trans configured.1
  have config : outs.foldl configOut (configs (s.pics.outb o.1 o.2)) = (masterConfig, slaveConfig) := by
    rw [outb_configs]
    exact configured.2.1
  rcases setup_cases configured.1 with ⟨length, same⟩ | ⟨length, same⟩ | ⟨notMaster, notSlave, data⟩
  · have chips : s.pics.outb o.1 o.2 = Pics.settle { s.pics with master := ⟨s.pics.master.config.icw1 0x11, s.pics.master.lines.clear⟩ } := by
      rw [same]
      rfl
    constructor
    · exact ⟨next, config, calls⟩
    · intro _
      rw [none', chips]
      exact MasterTally.settle ⟨Lines.clear_counted _, fun _ _ _ => rfl⟩
    · intro left
      exact absurd (show outs.length ≤ 5 from left) (by omega)
    · refine ⟨fun _ k => ?_, fun few => absurd few (by omega)⟩
      rw [chips, settle_isr]
      rfl
    · rw [none']
      exact fun v impossible => absurd impossible List.not_mem_nil
  · have chips : s.pics.outb o.1 o.2 = Pics.settle { s.pics with slave := ⟨s.pics.slave.config.icw1 0x11, s.pics.slave.lines.clear⟩ } := by
      rw [same]
      rfl
    have few : (o :: outs).length ≤ 9 := by
      rw [List.length_cons]
      omega
    constructor
    · exact ⟨next, config, calls⟩
    · intro _
      rw [none', chips]
      exact MasterTally.settle ⟨(master few).counted, (master few).taken⟩
    · intro _
      rw [none', chips]
      exact ⟨Lines.clear_counted _, fun _ => rfl, settle_wired_none (clear_request rfl rfl)⟩
    · refine ⟨fun _ k => ?_, fun _ _ => ?_⟩
      · rw [chips, settle_isr]
        exact service.1 few k
      · rw [chips]
        rfl
    · rw [none']
      exact fun v impossible => absurd impossible List.not_mem_nil
  · obtain ⟨q, chips, masterLines, slaveLines⟩ := @data_lines s.pics o.1 o.2 data
    constructor
    · exact ⟨next, config, calls⟩
    · intro left
      have tally := master (show outs.length + 1 ≤ 9 by have few : outs.length ≤ 9 := left; omega)
      rw [none', chips]
      apply MasterTally.settle
      constructor
      · rw [masterLines]
        exact tally.counted
      · rw [masterLines]
        exact tally.taken
    · intro left
      have tally := slave (show outs.length + 1 ≤ 5 by have few : outs.length ≤ 5 := left; omega)
      rw [none', chips]
      constructor
      · rw [settle_slave, slaveLines]
        exact tally.counted
      · rw [settle_slave, slaveLines]
        exact tally.taken
      · apply settle_wired
        rw [masterLines]
        exact Wired.synced tally.wired
    · refine ⟨fun few k => ?_, fun few k => ?_⟩
      · rw [chips, settle_isr, masterLines]
        exact service.1 (show outs.length + 1 ≤ 9 by omega) k
      · rw [chips, settle_slave, slaveLines]
        exact service.2 (show outs.length + 1 ≤ 5 by omega) k
    · rw [none']
      exact fun v impossible => absurd impossible List.not_mem_nil

/-- One write of an entry stub: first the slave's EOI, then the master's. -/
theorem Inv.stubOut {vec : Nat} {o : Nat × Nat} {outs : List (Nat × Nat)} (inv : Inv s) (cpu : s.cpu = .stub vec (o :: outs)) :
    Inv { s with pics := s.pics.outb o.1 o.2, cpu := .stub vec outs } := by
  have configured := inv.configured
  have master := inv.master
  have slave := inv.slave
  have service := inv.service
  have vectors := inv.vectors
  have same : delivered s = delivered { s with pics := s.pics.outb o.1 o.2, cpu := .stub vec outs } := by
    rw [delivered, cpu]
    rfl
  rw [cpu] at configured master slave service
  rw [same] at master slave vectors
  rcases service with ⟨all, oneMaster, oneSlave⟩ | ⟨last, oneMaster, idleSlave⟩ | ⟨empty, -⟩
  · obtain ⟨first, rest⟩ := List.cons.inj all
    have chips : s.pics.outb o.1 o.2 = s.pics.move true Lines.eoi := by rw [first]; rfl
    rw [chips] at master slave vectors ⊢
    constructor
    · exact (move_configs s.pics true Lines.eoi).trans configured
    · exact fun _ => MasterTally.move gentle_eoi (master trivial)
    · exact fun _ => SlaveTally.move gentle_eoi (fun no => absurd no (by decide)) (slave trivial)
    · refine .inr (.inl ⟨rest, ?_, ?_⟩)
      · intro i j
        rw [move_master_isr]
        exact oneMaster i j
      · exact fun k => Lines.eoi_idle oneSlave k
    · exact vectors
  · obtain ⟨first, rest⟩ := List.cons.inj last
    have chips : s.pics.outb o.1 o.2 = s.pics.move false Lines.eoi := by rw [first]; rfl
    have synced := Wired.synced (slave trivial).wired
    rw [chips] at master slave vectors ⊢
    constructor
    · exact (move_configs s.pics false Lines.eoi).trans configured
    · exact fun _ => MasterTally.move gentle_eoi (master trivial)
    · refine fun _ => SlaveTally.move gentle_eoi (fun _ => ?_) (slave trivial)
      rw [Lines.eoi_irr, Lines.eoi_level]
      exact synced
    · refine .inr (.inr ⟨rest, ?_, idleSlave⟩)
      intro k
      rw [move_master_isr]
      exact Lines.eoi_idle oneMaster k
    · exact vectors
  · exact absurd empty (List.cons_ne_nil o outs)

/-! The acknowledge. -/

theorem unmasked_master : ∀ l : Fin 8, (!(0xFA).testBit l.val) = true → l = 0 ∨ l = 2 := by decide
theorem unmasked_slave : ∀ l : Fin 8, (!(0x33).testBit l.val) = true → l ∈ [(2 : Fin 8), 3, 6, 7] := by decide

theorem inta_cases (config : configs p = (masterConfig, slaveConfig)) (wired : Wired p) :
    (p.master.request = none ∧ p.inta = (0x27, p)) ∨
      (p.master.request = some 0 ∧ p.inta = (0x20, Pics.settle { p with master := { p.master with lines := p.master.lines.take 0 false } })) ∨
      ∃ j : Fin 8, p.master.request = some 2 ∧ p.slave.request = some j ∧ j ∈ [(2 : Fin 8), 3, 6, 7] ∧
        p.inta = (0x28 + j.val, Pics.settle
          ⟨{ p.master with lines := p.master.lines.take 2 false }, { p.slave with lines := p.slave.lines.take j false }⟩) := by
  have masterIs : p.master.config = masterConfig := congrArg Prod.fst config
  have slaveIs : p.slave.config = slaveConfig := congrArg Prod.snd config
  cases request : p.master.request with
  | none =>
    refine .inl ⟨rfl, ?_⟩
    rw [Pics.inta, request]
    dsimp only
    rw [Chip.inta_none request, masterIs]
    rfl
  | some l =>
    obtain ⟨-, asks, -⟩ := Chip.request_eq_some.mp request
    rw [Chip.pending, masterIs, Bool.and_eq_true] at asks
    rcases unmasked_master l asks.2 with zero | two
    · refine .inr (.inl ⟨by rw [zero], ?_⟩)
      rw [zero] at request
      rw [Pics.inta, request]
      dsimp only
      rw [masterIs, if_neg (by decide), Chip.inta_some request, masterIs]
      rfl
    · rw [two] at request asks
      have some_ : p.slave.request.isSome = true := wired.irr.symm.trans asks.1
      obtain ⟨j, request'⟩ := Option.isSome_iff_exists.mp some_
      obtain ⟨-, asks', -⟩ := Chip.request_eq_some.mp request'
      rw [Chip.pending, slaveIs, Bool.and_eq_true] at asks'
      refine .inr (.inr ⟨j, by rw [two], request', unmasked_slave j asks'.2, ?_⟩)
      rw [Pics.inta, request]
      dsimp only
      rw [masterIs, if_pos (by decide), Chip.inta_some request, Chip.inta_some request', masterIs, slaveIs]
      rfl

theorem count_append {v w : Nat} (d : List Nat) : (d ++ [w]).count v = d.count v + if v = w then 1 else 0 := by
  rw [List.count_append, List.count_singleton]
  by_cases same : v = w
  · rw [same]
    simp
  · rw [if_neg same, if_neg (by simpa using Ne.symm same)]

theorem zero_vector : ∀ l : Fin 8, l = 0 ↔ 0x20 + l.val = 0x20 := by decide
theorem slave_vector : ∀ l j : Fin 8, l = j ↔ 0x28 + l.val = 0x28 + j.val := by decide
theorem slave_serviced : ∀ j ∈ [(2 : Fin 8), 3, 6, 7], 0x28 + j.val ∈ serviced := by decide

/-- The processor takes a request, or the default vector of a request that has gone. -/
theorem Inv.inta (inv : Inv s) (cpu : s.cpu = .acking) :
    Inv { s with pics := s.pics.inta.2, cpu := .stub s.pics.inta.1 eois, flag := false } := by
  have configured := inv.configured
  have master := inv.master
  have slave := inv.slave
  have service := inv.service
  have vectors := inv.vectors
  have more : ∀ s' : System η, s'.calls = s.calls → s'.cpu = .stub s.pics.inta.1 eois → delivered s' = delivered s ++ [s.pics.inta.1] := by
    intro s' calls cpu'
    rw [delivered, delivered, calls, cpu, cpu']
    show _ = s.calls.map Prod.fst ++ [] ++ [s.pics.inta.1]
    rw [List.append_nil]
    rfl
  have more' := more { s with pics := s.pics.inta.2, cpu := .stub s.pics.inta.1 eois, flag := false } rfl rfl
  rw [cpu] at configured master slave service
  have masterTally := master trivial
  have slaveTally := slave trivial
  have fresh : ∀ l : Fin 8, ¬ 0x20 + l.val = 0x27 ∨ l = 7 := by decide
  rcases inta_cases configured slaveTally.wired with ⟨-, same⟩ | ⟨request, same⟩ | ⟨j, request, request', inside, same⟩
  · rw [same] at more' ⊢
    dsimp only at more' ⊢
    constructor
    · exact configured
    · intro _
      rw [more']
      refine ⟨masterTally.counted, fun l other last => ?_⟩
      rw [count_append, if_neg ((fresh l).resolve_right last)]
      exact masterTally.taken l other last
    · intro _
      rw [more']
      refine ⟨slaveTally.counted, fun l => ?_, slaveTally.wired⟩
      rw [count_append, if_neg (by omega)]
      exact slaveTally.taken l
    · refine .inl ⟨rfl, fun i j set => ?_, fun i j set => ?_⟩
      · exact absurd ((service.1 i).symm.trans set) (by decide)
      · exact absurd ((service.2 i).symm.trans set) (by decide)
    · intro v inside
      rw [more'] at inside
      rcases List.mem_append.mp inside with before | last
      · exact vectors v before
      · rw [List.mem_singleton.mp last]
        decide
  · obtain ⟨-, asks, -⟩ := Chip.request_eq_some.mp request
    rw [Chip.pending, Bool.and_eq_true] at asks
    have synced := Wired.synced slaveTally.wired
    rw [same] at more' ⊢
    dsimp only at more' ⊢
    constructor
    · exact configured
    · intro _
      rw [more']
      apply MasterTally.settle
      refine ⟨Lines.take_counted masterTally.counted asks.1 false, fun l other last => ?_⟩
      rw [count_append]
      dsimp only
      rw [Lines.take_taken, masterTally.taken l other last]
      exact congrArg _ (if_congr (zero_vector l) rfl rfl)
    · intro _
      rw [more']
      refine ⟨slaveTally.counted, fun l => ?_, settle_wired ?_⟩
      · rw [count_append, if_neg (by omega)]
        exact slaveTally.taken l
      · exact (Lines.take_other _ (by decide) false).trans synced
    · refine .inl ⟨rfl, ?_, fun i j set => ?_⟩
      · intro i j
        rw [settle_isr]
        exact Lines.take_atMostOne service.1 0 i j
      · exact absurd ((service.2 i).symm.trans set) (by decide)
    · intro v inside
      rw [more'] at inside
      rcases List.mem_append.mp inside with before | last
      · exact vectors v before
      · rw [List.mem_singleton.mp last]
        decide
  · obtain ⟨-, asks, -⟩ := Chip.request_eq_some.mp request
    obtain ⟨-, asks', -⟩ := Chip.request_eq_some.mp request'
    rw [Chip.pending, Bool.and_eq_true] at asks asks'
    have manual : s.pics.slave.config.autoEoi = false := by
      rw [show s.pics.slave.config = slaveConfig from congrArg Prod.snd configured]
      rfl
    have quiet := Chip.request_taken request' manual
    rw [Chip.inta_some request', manual] at quiet
    rw [same] at more' ⊢
    dsimp only at more' ⊢
    constructor
    · exact configured
    · intro _
      rw [more']
      apply MasterTally.settle
      refine ⟨Lines.take_counted masterTally.counted asks.1 false, fun l other last => ?_⟩
      rw [count_append, if_neg (by omega)]
      dsimp only
      rw [Lines.take_taken, if_neg other]
      exact masterTally.taken l other last
    · intro _
      rw [more']
      refine ⟨Lines.take_counted slaveTally.counted asks'.1 false, fun l => ?_, settle_wired_none ?_⟩
      · rw [count_append, settle_slave]
        dsimp only
        rw [Lines.take_taken, slaveTally.taken l]
        exact congrArg _ (if_congr (slave_vector l j) rfl rfl)
      · exact congrArg Option.isSome quiet
    · refine .inl ⟨rfl, ?_, ?_⟩
      · intro i k
        rw [settle_isr]
        exact Lines.take_atMostOne service.1 2 i k
      · exact Lines.take_atMostOne service.2 j
    · intro v delivered_
      rw [more'] at delivered_
      rcases List.mem_append.mp delivered_ with before | last
      · exact vectors v before
      · rw [List.mem_singleton.mp last]
        exact slave_serviced j inside

/-! One step. -/

/-- The chips stay as they are while the processor goes on. -/
theorem Inv.goOn (inv : Inv s) (left : Left 5 s.cpu) (left' : Left 9 s.cpu) (config : configs s.pics = (masterConfig, slaveConfig))
    (idle : Idle s.pics.master.lines ∧ Idle s.pics.slave.lines) (pics : s'.pics = s.pics) (same : delivered s' = delivered s)
    (cpu : s'.cpu = .run ∨ s'.cpu = .acking ∨ s'.cpu = .halted) : Inv s' := by
  constructor
  · rcases cpu with is_ | is_ | is_ <;> rw [is_] <;> exact (congrArg configs pics).trans config
  · intro _
    rw [pics, same]
    exact inv.master left'
  · intro _
    rw [pics, same]
    exact inv.slave left
  · rcases cpu with is_ | is_ | is_ <;> rw [is_, pics] <;> exact idle
  · rw [same]
    exact inv.vectors

theorem Inv.out (inv : Inv s) (moved : step s .out = some s') : Inv s' := by
  unfold step at moved
  cases cpu : s.cpu with
  | setup outs =>
    cases outs with
    | nil =>
      simp only [cpu, Option.some.injEq] at moved
      have configured := inv.configured
      have service := inv.service
      rw [cpu] at configured service
      rw [← moved]
      apply inv.goOn
      · rw [cpu]
        exact Nat.zero_le 5
      · rw [cpu]
        exact Nat.zero_le 9
      · exact configured.2.1
      · exact ⟨service.1 (Nat.zero_le 9), service.2 (Nat.zero_le 5)⟩
      · rfl
      · rw [delivered, delivered, cpu]
        rfl
      · exact .inl rfl
    | cons o outs =>
      simp only [cpu, Option.some.injEq] at moved
      rw [← moved]
      exact inv.setupOut cpu
  | stub vec outs =>
    cases outs with
    | nil =>
      simp only [cpu] at moved
      exact absurd moved (Option.some_ne_none s').symm
    | cons o outs =>
      simp only [cpu, Option.some.injEq] at moved
      rw [← moved]
      exact inv.stubOut cpu
  | _ =>
    simp only [cpu] at moved
    exact absurd moved (Option.some_ne_none s').symm

theorem Inv.call (inv : Inv s) (moved : step s .call = some s') : Inv s' := by
  unfold step at moved
  cases cpu : s.cpu with
  | stub vec outs =>
    cases outs with
    | nil =>
      simp only [cpu] at moved
      obtain ⟨h, -, same⟩ := Option.map_eq_some_iff.mp moved
      have configured := inv.configured
      have service := inv.service
      rw [cpu] at configured service
      have idle : Idle s.pics.master.lines ∧ Idle s.pics.slave.lines := by
        rcases service with ⟨impossible, -⟩ | ⟨impossible, -⟩ | ⟨-, idle⟩
        · exact absurd impossible (by decide)
        · exact absurd impossible (by decide)
        · exact idle
      rw [← same]
      apply inv.goOn
      · rw [cpu]
        exact trivial
      · rw [cpu]
        exact trivial
      · exact configured
      · exact idle
      · rfl
      · rw [delivered, delivered, cpu]
        dsimp only
        rw [List.map_append]
        by_cases returns : h.returns vec = true
        · rw [if_pos returns]
          exact List.append_nil _
        · rw [if_neg returns]
          exact List.append_nil _
      · dsimp only
        by_cases returns : h.returns vec = true
        · exact .inl (if_pos returns)
        · exact .inr (.inr (if_neg returns))
    | cons o outs =>
      simp only [cpu] at moved
      exact absurd moved (Option.some_ne_none s').symm
  | _ =>
    simp only [cpu] at moved
    exact absurd moved (Option.some_ne_none s').symm

/-- What kernel code does between interrupts. -/
theorem Inv.run (inv : Inv s) (cpu : s.cpu = .run) (pics : s'.pics = s.pics) (calls : s'.calls = s.calls)
    (cpu' : s'.cpu = .run ∨ s'.cpu = .acking) : Inv s' := by
  have configured := inv.configured
  have service := inv.service
  rw [cpu] at configured service
  apply inv.goOn
  · rw [cpu]
    exact trivial
  · rw [cpu]
    exact trivial
  · exact configured
  · exact service
  · exact pics
  · rw [delivered, delivered, calls, cpu]
    rcases cpu' with is_ | is_
    · rw [is_]
    · rw [is_]
      rfl
  · exact cpu'.imp_right .inl

theorem Inv.step {e : Event η} (inv : Inv s) (permitted : Wires s e) (moved : Interrupts.step s e = some s') : Inv s' := by
  cases e with
  | raise slave l =>
    rw [← Option.some.inj moved]
    refine inv.move (gentle_raise l) (fun x => Lines.raise_isr x l) fun master x synced => ?_
    have other : l ≠ 2 := permitted.resolve_left (by rw [master]; decide)
    have kept := Lines.raise_other x other.symm
    rw [kept.1, kept.2]
    exact synced
  | drop slave l =>
    rw [← Option.some.inj moved]
    refine inv.move (gentle_drop l) (fun x => rfl) fun master x synced => ?_
    have other : l ≠ 2 := permitted.resolve_left (by rw [master]; decide)
    have kept := Lines.drop_other x other.symm
    rw [kept.1, kept.2]
    exact synced
  | out => exact inv.out moved
  | sample =>
    unfold Interrupts.step at moved
    cases cpu : s.cpu with
    | run =>
      simp only [cpu] at moved
      by_cases asks : s.flag ∧ s.pics.master.request.isSome
      · rw [if_pos asks] at moved
        rw [← Option.some.inj moved]
        exact inv.run cpu rfl rfl (.inr rfl)
      · rw [if_neg asks] at moved
        exact absurd moved (Option.some_ne_none s').symm
    | _ =>
      simp only [cpu] at moved
      exact absurd moved (Option.some_ne_none s').symm
  | inta =>
    unfold Interrupts.step at moved
    cases cpu : s.cpu with
    | acking =>
      simp only [cpu, Option.some.injEq] at moved
      rw [← moved]
      exact inv.inta cpu
    | _ =>
      simp only [cpu] at moved
      exact absurd moved (Option.some_ne_none s').symm
  | call => exact inv.call moved
  | setFlag b =>
    unfold Interrupts.step at moved
    cases cpu : s.cpu with
    | run =>
      simp only [cpu, Option.some.injEq] at moved
      rw [← moved]
      exact inv.run cpu rfl rfl (.inl rfl)
    | _ =>
      simp only [cpu] at moved
      exact absurd moved (Option.some_ne_none s').symm
  | registerHandler vec func =>
    unfold Interrupts.step at moved
    cases cpu : s.cpu with
    | run =>
      simp only [cpu, Option.some.injEq] at moved
      rw [← moved]
      exact inv.run cpu rfl rfl (.inl rfl)
    | _ =>
      simp only [cpu] at moved
      exact absurd moved (Option.some_ne_none s').symm

theorem inv_start (pics : Pics) (tables : Idt.Tables (Handler η)) : Inv (start pics tables) := by
  constructor
  · exact ⟨List.suffix_rfl, picInit_configs _, rfl⟩
  · exact fun few => absurd (show picInit.length ≤ 9 from few) (by decide)
  · exact fun few => absurd (show picInit.length ≤ 5 from few) (by decide)
  · exact ⟨fun few => absurd few (by decide), fun few => absurd few (by decide)⟩
  · exact fun v impossible => absurd impossible List.not_mem_nil

theorem reach_inv {tables : Idt.Tables (Handler η)} (run : Reach step Wires (start p tables) s) : Inv s :=
  run.invariant (fun _ _ _ inv permitted moved => inv.step permitted moved) (inv_start p tables)

/-- The vector that a line ends in. -/
def vector (source : Bool × Fin 8) : Nat := if source.1 then 0x28 + source.2.val else 0x20 + source.2.val

def Pics.lines (p : Pics) (slave : Bool) : Lines := if slave then p.slave.lines else p.master.lines

theorem serviced_sources : ∀ v ∈ serviced, v = 0x27 ∨ ∃ source ∈ sources, v = vector source := by decide

/-- Whatever state the controllers were in: once `pic_init` is through, nothing stays in service between two interrupts,
every edge of an open line has been delivered once, has been withdrawn, or is still pending, and nothing else has been
delivered but the default vector of the master. -/
theorem reach_delivers {tables : Idt.Tables (Handler η)} (run : Reach step Wires (start p tables) s)
    (up : ∀ outs, s.cpu ≠ .setup outs) :
    configs s.pics = (masterConfig, slaveConfig) ∧
      (s.cpu = .run → Idle s.pics.master.lines ∧ Idle s.pics.slave.lines) ∧
      (∀ source ∈ sources, let x := Pics.lines s.pics source.1
        x.edges source.2 = (delivered s).count (vector source) + x.withdrawn source.2 + (x.irr source.2).toNat) ∧
      ∀ v ∈ delivered s, v = 0x27 ∨ ∃ source ∈ sources, v = vector source := by
  have inv := reach_inv run
  have config : configs s.pics = (masterConfig, slaveConfig) := by
    have configured := inv.configured
    cases cpu : s.cpu with
    | setup outs => exact absurd cpu (up outs)
    | _ =>
      rw [cpu] at configured
      exact configured
  have left : ∀ n, Left n s.cpu := by
    intro n
    cases cpu : s.cpu with
    | setup outs => exact absurd cpu (up outs)
    | _ => exact trivial
  have master := inv.master (left 9)
  have slave := inv.slave (left 5)
  refine ⟨config, fun cpu => ?_, fun source inside => ?_, fun v inside => ?_⟩
  · have service := inv.service
    rw [cpu] at service
    exact service
  · obtain ⟨chip, l⟩ := source
    cases chip with
    | true => exact (slave.counted.edges l).trans (by rw [slave.taken l]; rfl)
    | false =>
      have zero : l = 0 := by
        revert inside
        revert l
        decide
      exact (master.counted.edges l).trans (by rw [master.taken l (by rw [zero]; decide) (by rw [zero]; decide)]; rfl)
  · exact serviced_sources v (inv.vectors v inside)

/-! Registered handlers. -/

def asks (p : Pics) (source : Bool × Fin 8) : Bool := (Pics.lines p source.1).irr source.2

/-- A driver's handler is registered for `vec`. -/
def Driver (s : System η) (vec : Nat) : Prop := ∃ func, s.func vec = some (.driver func)

/-- A device raises an open line only once its driver has registered. -/
def Driven (s : System η) (e : Event η) : Prop :=
  Wires s e ∧ match e with
    | .raise slave l => (slave, l) ∈ sources → Driver s (vector (slave, l))
    | _ => True

instance (s : System η) (vec : Nat) : Decidable (Driver s vec) :=
  match there : s.func vec with
  | some (.driver func) => isTrue ⟨func, there⟩
  | some .general => isFalse fun h => by obtain ⟨_, other⟩ := h; rw [there] at other; cases other
  | none => isFalse fun h => by obtain ⟨_, other⟩ := h; rw [there] at other; cases other

instance (s : System η) : DecidablePred (Driven s)
  | .raise slave l => inferInstanceAs (Decidable (_ ∧ ((slave, l) ∈ sources → Driver s (vector (slave, l)))))
  | .drop slave l => inferInstanceAs (Decidable (Wires s (.drop slave l) ∧ True))
  | .out | .sample | .inta | .call | .setFlag _ | .registerHandler _ _ => inferInstanceAs (Decidable (True ∧ True))

/-- How many writes of `pic_init` are left once a chip has seen its ICW1. -/
def ready (slave : Bool) : Nat := if slave then 5 else 9

structure Handled (s : System η) : Prop where
  asked : ∀ source ∈ sources, Left (ready source.1) s.cpu → asks s.pics source = true → Driver s (vector source)
  stub : ∀ vec outs, s.cpu = .stub vec outs → vec ≠ 0x27 → Driver s vec
  going : s.cpu ≠ .halted
  calls : ∀ c ∈ s.calls, c.1 ≠ 0x27 → ∃ func, c.2 = .driver func

theorem source_not_wire : ∀ source ∈ sources, source ≠ (false, 2) := by decide

section Asks
variable {source : Bool × Fin 8}

theorem asks_settle (inside : source ∈ sources) : asks p.settle source = asks p source := by
  obtain ⟨slave, l⟩ := source
  cases slave with
  | true => rfl
  | false =>
    have other : l ≠ 2 := fun same => source_not_wire _ inside (by rw [same])
    show p.settle.master.lines.irr l = p.master.lines.irr l
    rw [settle_lines]
    split
    · exact (Lines.raise_other _ other).1
    · exact (Lines.drop_other _ other).1

theorem asks_move (inside : source ∈ sources) (slave : Bool) (f : Lines → Lines) :
    asks (p.move slave f) source = if slave = source.1 then (f (Pics.lines p slave)).irr source.2 else asks p source := by
  unfold Pics.move
  rw [asks_settle inside]
  obtain ⟨slave', l⟩ := source
  cases slave with
  | true =>
    cases slave' with
    | true => rfl
    | false => rfl
  | false =>
    cases slave' with
    | true => rfl
    | false => rfl

theorem asks_eoi (inside : source ∈ sources) (slave : Bool) : asks (p.move slave Lines.eoi) source = asks p source := by
  rw [asks_move inside]
  by_cases same : slave = source.1
  · rw [if_pos same, Lines.eoi_irr, same]
    rfl
  · rw [if_neg same]

/-- An acknowledge takes one request; the others stay. -/
theorem asks_inta_master (inside : source ∈ sources) :
    asks (Pics.settle { p with master := { p.master with lines := p.master.lines.take 0 false } }) source =
      (asks p source && decide (source ≠ (false, 0))) := by
  rw [asks_settle inside]
  obtain ⟨slave, l⟩ := source
  cases slave with
  | true =>
    show p.slave.lines.irr l = (p.slave.lines.irr l && decide ((true, l) ≠ (false, (0 : Fin 8))))
    simp
  | false =>
    show Function.update p.master.lines.irr 0 false l = (p.master.lines.irr l && decide ((false, l) ≠ (false, (0 : Fin 8))))
    by_cases same : l = 0
    · rw [same, Function.update_self]
      simp
    · rw [Function.update_of_ne same]
      simp [same]

theorem asks_inta_slave (inside : source ∈ sources) (j : Fin 8) :
    asks (Pics.settle ⟨{ p.master with lines := p.master.lines.take 2 false }, { p.slave with lines := p.slave.lines.take j false }⟩) source =
      (asks p source && decide (source ≠ (true, j))) := by
  rw [asks_settle inside]
  obtain ⟨slave, l⟩ := source
  cases slave with
  | true =>
    show Function.update p.slave.lines.irr j false l = (p.slave.lines.irr l && decide ((true, l) ≠ (true, j)))
    by_cases same : l = j
    · rw [same, Function.update_self]
      simp
    · rw [Function.update_of_ne same]
      simp [same]
  | false =>
    have other : l ≠ 2 := fun same => source_not_wire _ inside (by rw [same])
    show Function.update p.master.lines.irr 2 false l = (p.master.lines.irr l && decide ((false, l) ≠ (true, j)))
    rw [Function.update_of_ne other]
    simp

end Asks

theorem open_slave : ∀ k ∈ [(2 : Fin 8), 3, 6, 7], ¬(!slaveConfig.imr.testBit k.val) = false := by decide

theorem slave_source : ∀ j ∈ [(2 : Fin 8), 3, 6, 7], (true, j) ∈ sources := by decide

theorem sources_before : ∀ j ∈ [(2 : Fin 8), 3, 6, 7],
    sources = sources.takeWhile (· ≠ (true, j)) ++ (true, j) :: (sources.dropWhile (· ≠ (true, j))).tail ∧
      ∀ other ∈ sources.takeWhile (· ≠ (true, j)), other = (false, 0) ∨ ∃ k ∈ [(2 : Fin 8), 3, 6, 7], k < j ∧ other = (true, k) := by
  decide

/-- The vector of an acknowledge, with the line whose request it takes. -/
theorem inta_takes (config : configs p = (masterConfig, slaveConfig)) (wired : Wired p) :
    (p.master.request = none ∧ p.inta = (0x27, p)) ∨
      ∃ source ∈ sources, p.master.request.isSome ∧ p.inta.1 = vector source ∧ asks p source = true ∧
        (∀ other ∈ sources, asks p.inta.2 other = (asks p other && decide (other ≠ source))) ∧
        ∃ before after, sources = before ++ source :: after ∧ ∀ other ∈ before, asks p other = false := by
  have masterIs : p.master.config = masterConfig := congrArg Prod.fst config
  have slaveIs : p.slave.config = slaveConfig := congrArg Prod.snd config
  rcases inta_cases config wired with none_ | ⟨request, same⟩ | ⟨j, request, request', inside, same⟩
  · exact .inl none_
  · obtain ⟨-, pending, -⟩ := Chip.request_eq_some.mp request
    rw [Chip.pending, Bool.and_eq_true] at pending
    refine .inr ⟨(false, 0), by decide, by rw [request]; rfl, by rw [same]; rfl, pending.1, ?_, [], sources.tail, rfl, ?_⟩
    · intro other inside
      rw [same]
      exact asks_inta_master inside
    · exact fun other impossible => absurd impossible List.not_mem_nil
  · obtain ⟨-, -, above⟩ := Chip.request_eq_some.mp request
    obtain ⟨-, pending, first⟩ := Chip.request_eq_some.mp request'
    rw [Chip.pending, Bool.and_eq_true] at pending
    have timer : asks p (false, 0) = false := by
      have low := (above 0 (by decide)).2
      rw [Chip.pending, masterIs] at low
      exact (Bool.and_eq_false_iff.mp low).resolve_right (by decide)
    have earlier : ∀ k ∈ [(2 : Fin 8), 3, 6, 7], k < j → asks p (true, k) = false := by
      intro k open_ less
      have low := (first k less).2
      rw [Chip.pending, slaveIs] at low
      exact (Bool.and_eq_false_iff.mp low).resolve_right (open_slave k open_)
    obtain ⟨split, others⟩ := sources_before j inside
    refine .inr ⟨(true, j), slave_source j inside, by rw [request]; rfl, by rw [same]; rfl, pending.1, ?_, _, _, split, ?_⟩
    · intro other inside'
      rw [same]
      exact asks_inta_slave inside' j
    · intro other before
      rcases others other before with first_ | ⟨k, open_, less, is_⟩
      · rw [first_]
        exact timer
      · rw [is_]
        exact earlier k open_ less

theorem Left.mono {m n : Nat} {cpu : Cpu} (left : Left m cpu) (le : m ≤ n) : Left n cpu := by
  cases cpu with
  | setup outs => exact Nat.le_trans left le
  | _ => exact trivial

/-- Nothing new is asked, and the processor is not in a stub with a vector of its own. -/
theorem Handled.goOn (handled : Handled s) (func : ∀ vec, Driver s vec → Driver s' vec)
    (asked : ∀ source ∈ sources, Left (ready source.1) s'.cpu → asks s'.pics source = true →
      Left (ready source.1) s.cpu ∧ asks s.pics source = true)
    (stub : ∀ vec outs, s'.cpu = .stub vec outs → ∃ outs', s.cpu = .stub vec outs') (going : s'.cpu ≠ .halted)
    (calls : s'.calls = s.calls) : Handled s' := by
  constructor
  · intro source inside left pending
    obtain ⟨left', pending'⟩ := asked source inside left pending
    exact func _ (handled.asked source inside left' pending')
  · intro vec outs cpu other
    obtain ⟨outs', cpu'⟩ := stub vec outs cpu
    exact func _ (handled.stub vec outs' cpu' other)
  · exact going
  · rw [calls]
    exact handled.calls

theorem Handled.setupOut {o : Nat × Nat} {outs : List (Nat × Nat)} (inv : Inv s) (handled : Handled s)
    (cpu : s.cpu = .setup (o :: outs)) : Handled { s with pics := s.pics.outb o.1 o.2, cpu := .setup outs } := by
  have configured := inv.configured
  rw [cpu] at configured
  refine handled.goOn (fun _ driver => driver) ?_ (fun _ _ impossible => Cpu.noConfusion impossible)
    (fun impossible => Cpu.noConfusion impossible) rfl
  intro source inside left pending
  have few : outs.length ≤ ready source.1 := left
  dsimp only at pending
  rw [cpu]
  rcases setup_cases configured.1 with ⟨length, same⟩ | ⟨length, same⟩ | ⟨notMaster, notSlave, data⟩
  · have chips : s.pics.outb o.1 o.2 = Pics.settle { s.pics with master := ⟨s.pics.master.config.icw1 0x11, s.pics.master.lines.clear⟩ } := by
      rw [same]
      rfl
    rw [chips, asks_settle inside] at pending
    obtain ⟨slave, l⟩ := source
    cases slave with
    | true => exact absurd (show outs.length ≤ 5 from few) (by omega)
    | false => exact absurd pending Bool.false_ne_true
  · have chips : s.pics.outb o.1 o.2 = Pics.settle { s.pics with slave := ⟨s.pics.slave.config.icw1 0x11, s.pics.slave.lines.clear⟩ } := by
      rw [same]
      rfl
    rw [chips, asks_settle inside] at pending
    obtain ⟨slave, l⟩ := source
    cases slave with
    | true => exact absurd pending Bool.false_ne_true
    | false => exact ⟨show outs.length + 1 ≤ 9 by omega, pending⟩
  · obtain ⟨q, chips, masterLines, slaveLines⟩ := @data_lines s.pics o.1 o.2 data
    rw [chips, asks_settle inside] at pending
    obtain ⟨slave, l⟩ := source
    cases slave with
    | true =>
      have few' : outs.length ≤ 5 := few
      exact ⟨show outs.length + 1 ≤ 5 by omega, (congrArg (fun x : Lines => x.irr l) slaveLines).symm.trans pending⟩
    | false =>
      have few' : outs.length ≤ 9 := few
      exact ⟨show outs.length + 1 ≤ 9 by omega, (congrArg (fun x : Lines => x.irr l) masterLines).symm.trans pending⟩

theorem Handled.stubOut {vec : Nat} {o : Nat × Nat} {outs : List (Nat × Nat)} (inv : Inv s) (handled : Handled s)
    (cpu : s.cpu = .stub vec (o :: outs)) : Handled { s with pics := s.pics.outb o.1 o.2, cpu := .stub vec outs } := by
  have service := inv.service
  rw [cpu] at service
  refine handled.goOn (fun _ driver => driver) ?_ ?_ (fun impossible => Cpu.noConfusion impossible) rfl
  · intro source inside _ pending
    rw [cpu]
    refine ⟨trivial, ?_⟩
    dsimp only at pending
    rcases service with ⟨all, -⟩ | ⟨last, -⟩ | ⟨empty, -⟩
    · obtain ⟨first, -⟩ := List.cons.inj all
      rw [first] at pending
      exact (asks_eoi inside true).symm.trans pending
    · obtain ⟨first, -⟩ := List.cons.inj last
      rw [first] at pending
      exact (asks_eoi inside false).symm.trans pending
    · exact absurd empty (List.cons_ne_nil o outs)
  · intro vec' outs' same
    have vecs : vec = vec' := (Cpu.stub.inj same).1
    exact ⟨o :: outs, by rw [← vecs]; exact cpu⟩

theorem Handled.inta (inv : Inv s) (handled : Handled s) (cpu : s.cpu = .acking) :
    Handled { s with pics := s.pics.inta.2, cpu := .stub s.pics.inta.1 eois, flag := false } := by
  have configured := inv.configured
  have slave := inv.slave
  have asked := handled.asked
  rw [cpu] at configured slave asked
  constructor
  · intro source inside _ pending
    dsimp only at pending
    rcases inta_takes configured (slave trivial).wired with ⟨-, same⟩ | ⟨taken, -, -, -, -, others, -⟩
    · rw [same] at pending
      exact asked source inside trivial pending
    · rw [others source inside, Bool.and_eq_true] at pending
      exact asked source inside trivial pending.1
  · intro vec outs same other
    obtain ⟨vecs, -⟩ := Cpu.stub.inj same
    rw [← vecs] at other ⊢
    rcases inta_takes configured (slave trivial).wired with ⟨-, same⟩ | ⟨taken, inside, -, is_, pending, -⟩
    · exact absurd (congrArg Prod.fst same) other
    · rw [is_]
      exact asked taken inside trivial pending
  · exact fun impossible => Cpu.noConfusion impossible
  · exact handled.calls

/-- A device moves a line. -/
theorem Handled.move {f : Lines → Lines} {slave : Bool} (handled : Handled s)
    (asked : ∀ l, (slave, l) ∈ sources → (f (Pics.lines s.pics slave)).irr l = true →
      (Pics.lines s.pics slave).irr l = true ∨ Driver s (vector (slave, l))) :
    Handled { s with pics := s.pics.move slave f } := by
  constructor
  · intro source inside left pending
    dsimp only at left pending
    rw [asks_move inside] at pending
    by_cases same : slave = source.1
    · rw [if_pos same] at pending
      subst same
      rcases asked source.2 inside pending with before | driver
      · exact handled.asked source inside left before
      · exact driver
    · rw [if_neg same] at pending
      exact handled.asked source inside left pending
  · exact handled.stub
  · exact handled.going
  · exact handled.calls

theorem Handled.call (handled : Handled s) (moved : step s .call = some s') : Handled s' := by
  unfold step at moved
  cases cpu : s.cpu with
  | stub vec outs =>
    cases outs with
    | nil =>
      simp only [cpu] at moved
      obtain ⟨h, there, same⟩ := Option.map_eq_some_iff.mp moved
      have known : vec ≠ 0x27 → ∃ func, h = .driver func := by
        intro other
        obtain ⟨func, driver⟩ := handled.stub vec [] cpu other
        exact ⟨func, Option.some.inj (there.symm.trans driver)⟩
      have returns : h.returns vec = true := by
        cases h with
        | driver func => rfl
        | general =>
          have spurious : vec = 0x27 := by
            by_contra other
            obtain ⟨func, impossible⟩ := known other
            cases impossible
          rw [spurious]
          rfl
      rw [if_pos returns] at same
      rw [← same]
      constructor
      · intro source inside _ pending
        exact handled.asked source inside (by rw [cpu]; exact trivial) pending
      · exact fun _ _ impossible => Cpu.noConfusion impossible
      · exact fun impossible => Cpu.noConfusion impossible
      · intro c inside other
        rcases List.mem_append.mp inside with before | last
        · exact handled.calls c before other
        · rw [List.mem_singleton.mp last] at other ⊢
          exact known other
    | cons o outs =>
      simp only [cpu] at moved
      exact absurd moved (Option.some_ne_none s').symm
  | _ =>
    simp only [cpu] at moved
    exact absurd moved (Option.some_ne_none s').symm

theorem Handled.step {e : Event η} (inv : Inv s) (handled : Handled s) (permitted : Driven s e)
    (moved : Interrupts.step s e = some s') : Handled s' := by
  cases e with
  | raise slave l =>
    rw [← Option.some.inj moved]
    apply handled.move
    intro k inside pending
    by_cases same : k = l
    · rw [same] at inside ⊢
      exact .inr (permitted.2 inside)
    · exact .inl ((Lines.raise_other _ same).1.symm.trans pending)
  | drop slave l =>
    rw [← Option.some.inj moved]
    apply handled.move
    intro k inside pending
    by_cases same : k = l
    · rw [same] at pending
      exact absurd ((Lines.drop_self _ l).1.symm.trans pending) (by decide)
    · exact .inl ((Lines.drop_other _ same).1.symm.trans pending)
  | out =>
    unfold Interrupts.step at moved
    cases cpu : s.cpu with
    | setup outs =>
      cases outs with
      | nil =>
        simp only [cpu, Option.some.injEq] at moved
        rw [← moved]
        refine handled.goOn (fun _ driver => driver) (fun source _ _ pending => ⟨?_, pending⟩)
          (fun _ _ impossible => Cpu.noConfusion impossible) (fun impossible => Cpu.noConfusion impossible) rfl
        rw [cpu]
        exact Nat.zero_le _
      | cons o outs =>
        simp only [cpu, Option.some.injEq] at moved
        rw [← moved]
        exact handled.setupOut inv cpu
    | stub vec outs =>
      cases outs with
      | nil =>
        simp only [cpu] at moved
        exact absurd moved (Option.some_ne_none s').symm
      | cons o outs =>
        simp only [cpu, Option.some.injEq] at moved
        rw [← moved]
        exact handled.stubOut inv cpu
    | _ =>
      simp only [cpu] at moved
      exact absurd moved (Option.some_ne_none s').symm
  | sample =>
    unfold Interrupts.step at moved
    cases cpu : s.cpu with
    | run =>
      simp only [cpu] at moved
      by_cases pending : s.flag ∧ s.pics.master.request.isSome
      · rw [if_pos pending] at moved
        rw [← Option.some.inj moved]
        refine handled.goOn (fun _ driver => driver) (fun source _ _ pending => ⟨?_, pending⟩)
          (fun _ _ impossible => Cpu.noConfusion impossible) (fun impossible => Cpu.noConfusion impossible) rfl
        rw [cpu]
        exact trivial
      · rw [if_neg pending] at moved
        exact absurd moved (Option.some_ne_none s').symm
    | _ =>
      simp only [cpu] at moved
      exact absurd moved (Option.some_ne_none s').symm
  | inta =>
    unfold Interrupts.step at moved
    cases cpu : s.cpu with
    | acking =>
      simp only [cpu, Option.some.injEq] at moved
      rw [← moved]
      exact handled.inta inv cpu
    | _ =>
      simp only [cpu] at moved
      exact absurd moved (Option.some_ne_none s').symm
  | call => exact handled.call moved
  | setFlag b =>
    unfold Interrupts.step at moved
    cases cpu : s.cpu with
    | run =>
      simp only [cpu, Option.some.injEq] at moved
      rw [← moved]
      refine handled.goOn (fun _ driver => driver) (fun source _ _ pending => ⟨?_, pending⟩)
        (fun _ _ impossible => Cpu.noConfusion impossible) (fun impossible => Cpu.noConfusion impossible) rfl
      rw [cpu]
      exact trivial
    | _ =>
      simp only [cpu] at moved
      exact absurd moved (Option.some_ne_none s').symm
  | registerHandler vec func =>
    unfold Interrupts.step at moved
    cases cpu : s.cpu with
    | run =>
      simp only [cpu, Option.some.injEq] at moved
      rw [← moved]
      refine handled.goOn ?_ (fun source _ _ pending => ⟨?_, pending⟩)
        (fun _ _ impossible => Cpu.noConfusion impossible) (fun impossible => Cpu.noConfusion impossible) rfl
      · intro vec' driver
        by_cases same : vec' = vec
        · exact ⟨func, by rw [same]; exact Function.update_self ..⟩
        · obtain ⟨func', there⟩ := driver
          exact ⟨func', (Function.update_of_ne same _ _).trans there⟩
      · rw [cpu]
        exact trivial
    | _ =>
      simp only [cpu] at moved
      exact absurd moved (Option.some_ne_none s').symm

theorem handled_start (pics : Pics) (tables : Idt.Tables (Handler η)) : Handled (start pics tables) := by
  constructor
  · intro source _ left
    have few : picInit.length ≤ ready source.1 := left
    have most : ready source.1 ≤ 9 := by
      unfold ready
      split <;> decide
    exact absurd (few.trans most) (by decide)
  · exact fun _ _ impossible => Cpu.noConfusion impossible
  · exact fun impossible => Cpu.noConfusion impossible
  · exact fun c impossible => absurd impossible List.not_mem_nil

theorem both_step (s : System η) (e : Event η) (t : System η) (both : Inv s ∧ Handled s) (permitted : Driven s e)
    (moved : step s e = some t) : Inv t ∧ Handled t :=
  ⟨both.1.step permitted.1 moved, both.2.step both.1 permitted moved⟩

theorem reach_both {tables : Idt.Tables (Handler η)} (run : Reach step Driven (start p tables) s) : Inv s ∧ Handled s :=
  Reach.invariant both_step ⟨inv_start p tables, handled_start p tables⟩ run

/-- No external interrupt stops the system: the general handler is called with the default vector only. -/
theorem reach_handled {tables : Idt.Tables (Handler η)} (run : Reach step Driven (start p tables) s) :
    s.cpu ≠ .halted ∧ ∀ c ∈ s.calls, c.1 ≠ 0x27 → ∃ func, c.2 = .driver func :=
  ⟨(reach_both run).2.going, (reach_both run).2.calls⟩

/-! What is pending is served. -/

/-- Devices are quiet and nobody registers. -/
def Quiet (_ : System η) : Event η → Prop
  | .raise _ _ => False
  | .drop _ _ => False
  | .registerHandler _ _ => False
  | _ => True

def pend (p : Pics) : List (Bool × Fin 8) := sources.filter fun source => asks p source

theorem Quiet.wires {e : Event η} (quiet : Quiet s e) : Wires s e := by
  cases e with
  | raise slave l => exact quiet.elim
  | drop slave l => exact quiet.elim
  | _ => trivial

/-- The first of the elements that pass, and the rest when it no longer does. -/
theorem filter_first {α : Type*} {P P' : α → Bool} {l before after : List α} {x : α} (split : l = before ++ x :: after)
    (nodup : l.Nodup) (none_ : ∀ y ∈ before, P y = false) (here : P x = true) (cleared : ∀ y ∈ l, P' y = true ↔ P y = true ∧ y ≠ x) :
    l.filter P = x :: l.filter P' := by
  have distinct : x ∉ after := by
    rw [split] at nodup
    exact (List.nodup_cons.mp (List.nodup_append.mp nodup).2.1).1
  have gone : P' x ≠ true := fun still => ((cleared x (by rw [split]; simp)).mp still).2 rfl
  have first : before.filter P = [] := List.filter_eq_nil_iff.mpr fun y inside => by rw [none_ y inside]; decide
  have first' : before.filter P' = [] := by
    apply List.filter_eq_nil_iff.mpr
    intro y inside still
    have passes := ((cleared y (by rw [split]; exact List.mem_append_left _ inside)).mp still).1
    exact absurd ((none_ y inside).symm.trans passes) (by decide)
  have later : after.filter P' = after.filter P := by
    apply List.filter_congr
    intro y inside
    have iff_ := cleared y (by rw [split]; exact List.mem_append_right _ (List.mem_cons_of_mem x inside))
    have other : y ≠ x := fun same => distinct (same ▸ inside)
    rw [Bool.eq_iff_iff, iff_]
    exact and_iff_left other
  rw [split, List.filter_append, List.filter_append, first, first', List.nil_append, List.nil_append,
    List.filter_cons_of_pos here, List.filter_cons_of_neg gone, later]

theorem open_sources : ∀ source ∈ sources,
    (!(if source.1 then slaveConfig else masterConfig).imr.testBit source.2.val) = true := by decide

/-- An open line that asks reaches the processor. -/
theorem asks_out {source : Bool × Fin 8} (config : configs p = (masterConfig, slaveConfig)) (wired : Wired p)
    (idle : Idle p.master.lines ∧ Idle p.slave.lines) (inside : source ∈ sources) (asks_ : asks p source = true) :
    p.master.request.isSome = true := by
  have masterIs : p.master.config = masterConfig := congrArg Prod.fst config
  have slaveIs : p.slave.config = slaveConfig := congrArg Prod.snd config
  have unmasked := open_sources source inside
  obtain ⟨slave, l⟩ := source
  cases slave with
  | true =>
    have pending : p.slave.pending l = true := by
      rw [Chip.pending, slaveIs, Bool.and_eq_true]
      exact ⟨asks_, unmasked⟩
    have wire : p.master.lines.irr 2 = true := wired.irr.trans ((Chip.request_isSome idle.2).mpr ⟨l, pending⟩)
    apply (Chip.request_isSome idle.1).mpr
    refine ⟨2, ?_⟩
    rw [Chip.pending, masterIs, wire]
    decide
  | false =>
    apply (Chip.request_isSome idle.1).mpr
    refine ⟨l, ?_⟩
    rw [Chip.pending, masterIs, Bool.and_eq_true]
    exact ⟨asks_, unmasked⟩

/-- One request is taken and its handler called: the one of the highest priority. -/
theorem round (inv : Inv s) (cpu : s.cpu = .run) {source : Bool × Fin 8} {rest : List (Bool × Fin 8)}
    (pending : pend s.pics = source :: rest) (driver : Driver s (vector source)) :
    ∃ s' func, Reach step Quiet s s' ∧ s'.cpu = .run ∧ s'.func = s.func ∧ pend s'.pics = rest ∧
      s.func (vector source) = some (.driver func) ∧ s'.calls = s.calls ++ [(vector source, .driver func)] := by
  have configured := inv.configured
  have slave := inv.slave
  have service := inv.service
  rw [cpu] at configured slave service
  have wired := (slave trivial).wired
  have mem : source ∈ sources.filter fun source => asks s.pics source := by
    rw [show (sources.filter fun source => asks s.pics source) = source :: rest from pending]
    exact List.mem_cons_self
  obtain ⟨inside, asks_⟩ := List.mem_filter.mp mem
  have out := asks_out configured wired service inside asks_
  rcases inta_takes configured wired with ⟨none_, -⟩ | ⟨taken, inside', -, is_, asks', others, before, after, split, idle⟩
  · rw [none_] at out
    exact absurd out (by decide)
  · have first : pend s.pics = taken :: pend s.pics.inta.2 := by
      apply filter_first split (by decide) idle asks'
      intro y within
      rw [others y within, Bool.and_eq_true, decide_eq_true_iff]
    obtain ⟨same, rest_⟩ := List.cons.inj (first.symm.trans pending)
    obtain ⟨func, driver⟩ := driver
    rw [same] at is_
    let chips := (s.pics.inta.2.move true Lines.eoi).move false Lines.eoi
    have kept : pend chips = rest := by
      rw [← rest_]
      apply List.filter_congr
      intro y within
      rw [asks_eoi within, asks_eoi within]
    let after_ : System η :=
      { s with pics := chips, flag := false, cpu := .run, calls := s.calls ++ [(vector source, .driver func)] }
    refine ⟨after_, func, ?_, rfl, rfl, kept, driver, rfl⟩
    have enabled : step s (.setFlag true) = some { s with flag := true } := by
      unfold step
      rw [cpu]
    have sampled : step { s with flag := true } .sample = some { s with flag := true, cpu := .acking } := by
      unfold step
      simp only [cpu, out, and_self, if_true]
    have acked : step { s with flag := true, cpu := .acking } .inta =
        some { s with pics := s.pics.inta.2, flag := false, cpu := .stub (vector source) eois } := by
      rw [← is_]
      rfl
    have slaveEoi : step { s with pics := s.pics.inta.2, flag := false, cpu := .stub (vector source) eois } .out =
        some { s with pics := s.pics.inta.2.move true Lines.eoi, flag := false, cpu := .stub (vector source) eois.tail } := rfl
    have masterEoi : step { s with pics := s.pics.inta.2.move true Lines.eoi, flag := false, cpu := .stub (vector source) eois.tail } .out =
        some { s with pics := chips, flag := false, cpu := .stub (vector source) [] } := rfl
    have called : step { s with pics := chips, flag := false, cpu := .stub (vector source) [] } .call = some after_ := by
      unfold step
      simp only [driver, Option.map_some]
      rfl
    apply Reach.cons (e := .setFlag true) trivial enabled
    apply Reach.cons (e := .sample) trivial sampled
    apply Reach.cons (e := .inta) trivial acked
    apply Reach.cons (e := .out) trivial slaveEoi
    apply Reach.cons (e := .out) trivial masterEoi
    exact Reach.cons (e := .call) trivial called (Reach.refl after_)

theorem drains (inv : Inv s) (cpu : s.cpu = .run) (drivers : ∀ source ∈ pend s.pics, Driver s (vector source)) :
    ∃ s' calls, Reach step Quiet s s' ∧ s'.cpu = .run ∧ pend s'.pics = [] ∧ s'.calls = s.calls ++ calls ∧
      calls.map (fun c => (c.1, some c.2)) = (pend s.pics).map fun source => (vector source, s.func (vector source)) := by
  induction pending : pend s.pics generalizing s with
  | nil => exact ⟨s, [], Reach.refl s, cpu, pending, (List.append_nil _).symm, rfl⟩
  | cons source rest ih =>
    rw [pending] at drivers
    obtain ⟨t, func, first, running, same, left, driver, calls⟩ := round inv cpu pending (drivers source List.mem_cons_self)
    have inv' : Inv t := Reach.invariant (fun s e t inv quiet moved => inv.step (Quiet.wires quiet) moved) inv first
    have drivers' : ∀ source ∈ pend t.pics, Driver t (vector source) := by
      intro later member
      rw [left] at member
      obtain ⟨func', there⟩ := drivers later (List.mem_cons_of_mem source member)
      exact ⟨func', (congrFun same _).trans there⟩
    obtain ⟨u, calls', later, running', done, more, order⟩ := ih inv' running drivers' left
    refine ⟨u, (vector source, .driver func) :: calls', first.trans later, running', done, ?_, ?_⟩
    · rw [more, calls, List.append_assoc]
      rfl
    · rw [List.map_cons, List.map_cons, order, same, driver]

/-- From every state between two interrupts in which the pending open lines have their drivers, the pending requests
can be served down to the last one, each once, by the handlers now registered and in the order of their priority: the timer
first, then the disks. -/
theorem reach_drains {tables : Idt.Tables (Handler η)} (run : Reach step Wires (start p tables) s) (cpu : s.cpu = .run)
    (drivers : ∀ source ∈ pend s.pics, Driver s (vector source)) :
    ∃ s' calls, Reach step Quiet s s' ∧ s'.cpu = .run ∧ pend s'.pics = [] ∧ s'.calls = s.calls ++ calls ∧
      calls.map (fun c => (c.1, some c.2)) = (pend s.pics).map fun source => (vector source, s.func (vector source)) :=
  drains (reach_inv run) cpu drivers

/-! A timer tick and a disk request, both pending. -/

def noLines : Lines := ⟨fun _ => false, fun _ => false, fun _ => false, fun _ => 0, fun _ => 0, fun _ => 0⟩

/-- The controllers in the middle of another initialization. -/
def firmware : Pics :=
  ⟨⟨⟨0x08, 0, 0, true, false, true, .icw3⟩, { noLines with isr := fun _ => true }⟩,
    ⟨⟨0x70, 0, 0, false, true, true, .icw4⟩, { noLines with irr := fun _ => true }⟩⟩

def bootTables : Idt.Tables (Handler String) :=
  Idt.idtInit (fun v => 0xC0001000 + 64 * v) 0xC0002000 0xC0003000 .general ⟨fun _ => 0, fun _ => none, fun _ => ""⟩

/-- The timer's first edge comes before its driver; it is taken, and then a disk and the timer ask. -/
def boot : List (Event String) :=
  List.replicate 11 .out ++
    [.raise timerLine.1 timerLine.2, .registerHandler 0x20 "timer_handler", .registerHandler 0x2E "ide_handler",
      .setFlag true, .sample, .inta, .out, .out, .call, .drop timerLine.1 timerLine.2, .raise diskLine.1 diskLine.2,
      .raise timerLine.1 timerLine.2]

theorem boot_plays : (play step Wires (start firmware bootTables) boot).isSome := by
  decide +kernel

def booted : System String := (play step Wires (start firmware bootTables) boot).get boot_plays

theorem booted_reached : Reach step Wires (start firmware bootTables) booted :=
  reach_of_play (Option.some_get boot_plays).symm

theorem booted_runs : booted.cpu = .run := by
  decide +kernel

theorem booted_delivers :
    configs booted.pics = (masterConfig, slaveConfig) ∧
      (booted.cpu = .run → Idle booted.pics.master.lines ∧ Idle booted.pics.slave.lines) ∧
      (∀ source ∈ sources, let x := Pics.lines booted.pics source.1
        x.edges source.2 = (delivered booted).count (vector source) + x.withdrawn source.2 + (x.irr source.2).toNat) ∧
      ∀ v ∈ delivered booted, v = 0x27 ∨ ∃ source ∈ sources, v = vector source :=
  reach_delivers booted_reached fun _ impossible => Cpu.noConfusion (booted_runs.symm.trans impossible)

theorem booted_pending : pend booted.pics = [timerLine, diskLine] := by
  decide +kernel

theorem booted_drivers : Driver booted 0x20 ∧ Driver booted 0x2E := by
  decide +kernel

theorem booted_drains :
    ∃ s' calls, Reach step Quiet booted s' ∧ s'.cpu = .run ∧ pend s'.pics = [] ∧ s'.calls = booted.calls ++ calls ∧
      calls.map (fun c => (c.1, some c.2)) = (pend booted.pics).map fun source => (vector source, booted.func (vector source)) := by
  apply reach_drains booted_reached booted_runs
  intro source member
  rw [booted_pending] at member
  rcases List.mem_cons.mp member with rfl | last
  · exact booted_drivers.1
  · rw [List.mem_singleton.mp last]
    exact booted_drivers.2

/-- With the drivers first: a disk interrupt is taken and its handler called. -/
def driven : List (Event String) :=
  List.replicate 11 .out ++
    [.registerHandler 0x20 "timer_handler", .registerHandler 0x2E "ide_handler", .raise diskLine.1 diskLine.2, .setFlag true,
      .sample, .inta, .out, .out, .call, .raise timerLine.1 timerLine.2]

theorem driven_plays : (play step Driven (start firmware bootTables) driven).isSome := by
  decide +kernel

theorem booted_handled :
    let after := (play step Driven (start firmware bootTables) driven).get driven_plays
    after.cpu ≠ .halted ∧ ∀ c ∈ after.calls, c.1 ≠ 0x27 → ∃ func, c.2 = .driver func :=
  reach_handled (reach_of_play (Option.some_get driven_plays).symm)

end KOS.Interrupts
