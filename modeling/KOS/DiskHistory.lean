import KOS.IdePermits
import KOS.IdeWrite
import KOS.LinkMemory

/-! The channel as a store: whatever the drive's interrupts and polls do in between, the calls of `ide_read` and
`ide_write` take effect one after the other. -/

namespace KOS.DiskHistory
open KOS.ByteMemory KOS.Ata KOS.Ide KOS.IdeWrite KOS.IdePermits KOS.Machine

/-- Main memory and the two drives, between two calls. -/
structure Store where
  memory : Memory
  disk : Fin 2 → Nat → Sector

/-- What a call is for. -/
def serve (w : Store) (c : Call) : Store :=
  if c.write then
    { w with disk := fun d l =>
        if d = c.hd.drive ∧ c.lba ≤ l ∧ l < c.lba + c.cnt then sourceSector w.memory c.buf (l - c.lba) else w.disk d l }
  else { w with memory := fill w.memory c.buf (512 * c.cnt) (Channel.byteOf w.disk c.hd.drive c.lba) }

/-- The calls that return what they promise: one command, inside the address range. -/
def Fits (c : Call) : Prop := c.cnt ≤ 256 ∧ c.lba + c.cnt ≤ 2 ^ 28

instance : DecidablePred Fits := fun c => inferInstanceAs (Decidable (c.cnt ≤ 256 ∧ c.lba + c.cnt ≤ 2 ^ 28))

structure State where
  line : Line
  /- History: the calls that got the mutex, and those that have returned. -/
  called : List Call
  log : List Call

/-- The call that returns with this step. -/
def returned (l l' : Line) : List Call :=
  match l.pc, l'.pc with
  | .head x, .free => [x.call]
  | _, _ => []

def entered : Event → List Call
  | .call c => [c]
  | .driver => []
  | .irq => []

def step (s : State) (e : Event) : Option State :=
  (IdePermits.step s.line e).map fun l =>
    { line := l, called := s.called ++ entered e, log := s.log ++ returned s.line l }

def Fitting (_ : State) : Event → Prop
  | .call c => Fits c
  | .driver => True
  | .irq => True

instance (s : State) : DecidablePred (Fitting s)
  | .call c => inferInstanceAs (Decidable (Fits c))
  | .driver => isTrue trivial
  | .irq => isTrue trivial

def start (c : Channel) (m : Memory) : State := ⟨IdePermits.start c m, [], []⟩

/-! Where the data is while a call is under way. -/

def Same (w : Store) (l : Line) : Prop := l.memory = w.memory ∧ l.channel.disk = w.disk

/-- The first command of a call that fits is its only one. -/
structure First (x : Pass) (write : Bool) : Prop where
  fits : Fits x.call
  kind : x.call.write = write
  done : x.cntDone = 0
  p : x.p = x.call.buf

/-- The first `n` bytes have come from the drive. -/
def Arrived (w : Store) (c : Call) (n : Nat) (l : Line) : Prop :=
  l.memory = fill w.memory c.buf n (Channel.byteOf w.disk c.hd.drive c.lba) ∧ l.channel.disk = w.disk

/-- The first `n` bytes are on the drive. -/
def Delivered (w : Store) (c : Call) (n : Nat) (l : Line) : Prop :=
  l.memory = w.memory ∧ ∀ d k j, l.channel.disk d k j =
    if d = c.hd.drive ∧ c.lba ≤ k ∧ position c.lba k j < n then load w.memory (c.buf + position c.lba k j)
    else w.disk d k j

def Contents (w : Store) (l : Line) : Pc → Prop
  | .free => Same w l
  | .head x => Fits x.call ∧
      (x.cntDone = 0 ∧ x.p = x.call.buf ∧ Same w l ∨ x.cntDone = x.call.cnt ∧ Same (serve w x.call) l)
  | .readDown x => First x false ∧ Same w l
  | .readPoll x => First x false ∧ Same w l
  | .readData x addr left => First x false ∧ addr = x.call.buf + moved x left ∧ Arrived w x.call (moved x left) l
  | .writePoll x => First x true ∧ Same w l
  | .writeData x addr left => First x true ∧ addr = x.call.buf + moved x left ∧ Delivered w x.call (moved x left) l
  | .writeDown x => First x true ∧ Same (serve w x.call) l

def current : Pc → List Call
  | .free => []
  | .head x | .readDown x | .readPoll x | .readData x _ _ | .writePoll x | .writeData x _ _ | .writeDown x => [x.call]

structure Inv (w : Store) (s : State) : Prop where
  balanced : Balanced s.line
  contents : Contents (s.log.foldl serve w) s.line s.line.pc
  order : s.called = s.log ++ current s.line.pc

variable {w : Store} {s s' : State} {l l' : Line} {x : Pass} {c : Call} {m : Memory} {chan : Channel} {write : Bool}

/-! One word at a time. -/

theorem fill_snoc (m : Memory) (a n : Nat) (f : Nat → UInt8) : fill m a (n + 1) f = store (fill m a n f) (a + n) (f n) := by
  induction n generalizing m a f with
  | zero => rfl
  | succ n ih =>
    calc
      fill m a (n + 1 + 1) f = fill (store m a (f 0)) (a + 1) (n + 1) fun k => f (k + 1) := rfl
      _ = store (fill (store m a (f 0)) (a + 1) n fun k => f (k + 1)) (a + 1 + n) (f (n + 1)) := ih _ _ _
      _ = store (fill m a (n + 1) f) (a + (n + 1)) (f (n + 1)) := by rw [Nat.add_assoc, Nat.add_comm 1]; rfl

theorem First.each (first : First x write) : x.each = x.call.cnt := by
  have few := first.fits.1
  unfold Pass.each
  rw [cntEach_eq_min, first.done]
  omega

theorem First.lba (first : First x write) (some_ : 0 < x.call.cnt) : x.call.lba % 2 ^ 28 = x.call.lba := by
  have inside := first.fits.2
  exact Nat.mod_eq_of_lt (by omega)

/-- A word from the drive joins those that are in the buffer. -/
theorem arrived_word {t : Transfer} {addr : Nat} (arrived : Arrived w c t.done l) (phase : l.channel.phase = .reading t)
    (drive : t.drive = c.hd.drive) (lba : t.lba = c.lba) (room : t.done + 2 ≤ 512 * t.cnt) (at_ : addr = c.buf + t.done) :
    (l.channel.insw l.memory addr 1).1 =
        fill w.memory c.buf (t.done + 2) (Channel.byteOf w.disk c.hd.drive c.lba) ∧
      (l.channel.insw l.memory addr 1).2.disk = w.disk := by
  obtain ⟨low, phase1, disk1, -⟩ := dataIn_reading phase (by omega)
  obtain ⟨high, -, disk2, -⟩ := dataIn_reading phase1 (by dsimp only; omega)
  have word : l.channel.insw l.memory addr 1 =
      (store (store l.memory addr l.channel.dataIn.1) (addr + 1) l.channel.dataIn.2.dataIn.1, l.channel.dataIn.2.dataIn.2) := rfl
  rw [word]
  dsimp only
  constructor
  · rw [fill_snoc, fill_snoc, ← arrived.1, low, high, disk1, arrived.2, drive, lba, at_, Nat.add_assoc]
  · exact disk2.trans (disk1.trans arrived.2)

/-- A word to the drive joins those that are there. -/
theorem delivered_word {t : Transfer} {addr : Nat} (delivered : Delivered w c t.done l)
    (phase : l.channel.phase = .writing t) (drive : t.drive = c.hd.drive) (lba : t.lba = c.lba)
    (room : t.done + 2 ≤ 512 * t.cnt) (at_ : addr = c.buf + t.done) (d : Fin 2) (k : Nat) (j : Fin 512) :
    (l.channel.outsw l.memory addr 1).disk d k j =
      if d = c.hd.drive ∧ c.lba ≤ k ∧ position c.lba k j < t.done + 2 then load w.memory (c.buf + position c.lba k j)
      else w.disk d k j := by
  obtain ⟨written, -, -⟩ := outsw_writing l.channel l.memory addr 1 t phase (by omega)
  rw [written, delivered.2, delivered.1, drive, lba, at_]
  by_cases mine : d = c.hd.drive ∧ c.lba ≤ k
  · obtain ⟨rfl, after⟩ := mine
    simp only [after, true_and]
    generalize position c.lba k j = p
    by_cases earlier : p < t.done
    · rw [if_neg (by omega), if_pos earlier, if_pos (by omega)]
    · by_cases now : p < t.done + 2
      · rw [if_pos (by omega), if_pos now, show c.buf + t.done + (p - t.done) = c.buf + p by omega]
      · rw [if_neg (by omega), if_neg earlier, if_neg now]
  · have outside {q : Prop} : ¬(d = c.hd.drive ∧ c.lba ≤ k ∧ q) := fun all => mine ⟨all.1, all.2.1⟩
    rw [if_neg outside, if_neg outside, if_neg outside]

/-- All words of a read, or of a write, are what the call is for. -/
theorem arrived_all (read : c.write = false) (arrived : Arrived w c (512 * c.cnt) l) : Same (serve w c) l := by
  unfold serve
  rw [if_neg (by rw [read]; decide)]
  exact arrived

theorem delivered_all (write : c.write = true) (delivered : Delivered w c (512 * c.cnt) l) : Same (serve w c) l := by
  unfold serve
  rw [if_pos write]
  refine ⟨delivered.1, ?_⟩
  funext d k j
  rw [delivered.2]
  dsimp only
  by_cases mine : d = c.hd.drive ∧ c.lba ≤ k
  · obtain ⟨rfl, after⟩ := mine
    simp only [after, true_and, position_lt_iff j after]
    split_ifs
    · unfold sourceSector position
      rw [Nat.add_assoc]
    · rfl
  · have outside {q : Prop} : ¬(d = c.hd.drive ∧ c.lba ≤ k ∧ q) := fun all => mine ⟨all.1, all.2.1⟩
    rw [if_neg outside, if_neg outside]

theorem serve_none (none : c.cnt = 0) : serve w c = w := by
  unfold serve
  split_ifs
  · have same : (fun d l => if d = c.hd.drive ∧ c.lba ≤ l ∧ l < c.lba + c.cnt then sourceSector w.memory c.buf (l - c.lba)
        else w.disk d l) = w.disk := by
      funext d l
      rw [if_neg (by omega)]
    rw [same]
  · rw [none]
    rfl

theorem command_disk (chan : Channel) (lba cnt cmd : Nat) : (ideSetCmd (ideSetLba chan lba cnt) cmd).disk = chan.disk := by
  rw [ideSetCmd_eq, ideSetLba_eq]
  unfold Channel.command
  split_ifs <;> rfl

theorem poll_cases (l : Line) (again done : Pc) :
    (pollStatus l again done).memory = l.memory ∧ (pollStatus l again done).channel.disk = l.channel.disk ∧
      ((pollStatus l again done).pc = again ∨ (pollStatus l again done).pc = done) := by
  unfold pollStatus
  rw [ideGetStatus_eq]
  refine ⟨rfl, rfl, ?_⟩
  dsimp only [Line.device]
  split_ifs
  · exact .inl rfl
  · exact .inr rfl

theorem semaDown_disk {chan' : Channel} (taken : semaDown chan = some chan') : chan'.disk = chan.disk := by
  unfold semaDown at taken
  split_ifs at taken
  cases taken
  rfl

/-! One step. -/

/-- What a step of the driver returns and leaves to be done. -/
structure Goes (w : Store) (l l' : Line) : Prop where
  contents : Contents ((returned l l').foldl serve w) l' l'.pc
  order : returned l l' ++ current l'.pc = current l.pc

/-- A step inside a call. -/
theorem Goes.inside {pc' : Pc} (nothing : returned l l' = []) (pc : l'.pc = pc') (contents : Contents w l' pc')
    (same : current pc' = current l.pc) : Goes w l l' := by
  constructor
  · rw [nothing, pc]
    exact contents
  · rw [nothing, pc]
    exact same

theorem returned_inside (busy : ∀ x, l.pc ≠ .head x) : returned l l' = [] := by
  unfold returned
  split
  · rename_i x head _
    exact absurd head (busy x)
  · rfl

theorem head_goes (pc : l.pc = .head x) (contents : Contents w l (.head x)) (ran : driver l = some l') : Goes w l l' := by
  obtain ⟨fits, stage⟩ := contents
  simp only [driver, pc] at ran
  split_ifs at ran with more write
  · obtain ⟨done, p, same⟩ := stage.resolve_right (by intro all; omega)
    have disk := command_disk l.channel x.call.lba x.each CMD_WRITE_SEC
    generalize ideSetCmd (ideSetLba l.channel x.call.lba x.each) CMD_WRITE_SEC = c at ran disk
    cases ran
    apply Goes.inside
    · unfold returned
      rw [pc]
      rfl
    · rfl
    · exact ⟨⟨fits, write, done, p⟩, same.1, disk.trans same.2⟩
    · rw [pc]
      rfl
  · obtain ⟨done, p, same⟩ := stage.resolve_right (by intro all; omega)
    have disk := command_disk l.channel x.call.lba x.each CMD_READ_SEC
    generalize ideSetCmd (ideSetLba l.channel x.call.lba x.each) CMD_READ_SEC = c at ran disk
    cases ran
    apply Goes.inside
    · unfold returned
      rw [pc]
      rfl
    · rfl
    · exact ⟨⟨fits, Bool.eq_false_iff.mpr write, done, p⟩, same.1, disk.trans same.2⟩
    · rw [pc]
      rfl
  · cases ran
    have served : Same (serve w x.call) l := by
      rcases stage with ⟨done, -, same⟩ | ⟨-, same⟩
      · rw [serve_none (by omega)]
        exact same
      · exact same
    have ends : returned l { l with pc := .free, calls := x.call.cnt :: l.calls } = [x.call] := by
      unfold returned
      rw [pc]
    constructor
    · rw [ends]
      exact served
    · rw [ends, pc]
      rfl

/-- The words of a command, from the poll that finds the drive ready to the last word. -/
theorem First.words (first : First x write) : moved x x.words = 0 ∧ moved x 0 = 512 * x.call.cnt := by
  refine ⟨x.words_all.1, ?_⟩
  show 512 * x.each = _
  rw [first.each]

theorem read_goes {addr left : Nat} (pc : l.pc = .readData x addr (left + 1)) (busy : Busy x l.channel .reading (moved x (left + 1)))
    (room : 2 * (left + 1) ≤ 512 * x.each) (contents : Contents w l (.readData x addr (left + 1)))
    (ran : driver l = some l') : Goes w l l' := by
  obtain ⟨first, at_, arrived⟩ := contents
  obtain ⟨next, -, within⟩ := moved_word room
  have lba := first.lba (by rw [← first.each]; omega)
  obtain ⟨memory, disk⟩ := arrived_word arrived busy.phase rfl lba within at_
  simp only [driver, pc] at ran
  generalize l.channel.insw l.memory addr 1 = r at ran memory disk
  cases ran
  refine Goes.inside (returned_inside fun y => by rw [pc]; exact Pc.noConfusion) rfl ⟨first, ?_, ?_, disk⟩ (by rw [pc]; rfl)
  · rw [at_, next, Nat.add_assoc]
  · rw [next]
    exact memory

theorem write_goes {addr left : Nat} (pc : l.pc = .writeData x addr (left + 1))
    (busy : Busy x l.channel .writing (moved x (left + 1))) (room : 2 * (left + 1) ≤ 512 * x.each)
    (contents : Contents w l (.writeData x addr (left + 1))) (ran : driver l = some l') : Goes w l l' := by
  obtain ⟨first, at_, delivered⟩ := contents
  obtain ⟨next, -, within⟩ := moved_word room
  have lba := first.lba (by rw [← first.each]; omega)
  have disk := delivered_word delivered busy.phase rfl lba within at_
  simp only [driver, pc] at ran
  generalize l.channel.outsw l.memory addr 1 = r at ran disk
  cases ran
  refine Goes.inside (returned_inside fun y => by rw [pc]; exact Pc.noConfusion) rfl ⟨first, ?_, delivered.1, ?_⟩ (by rw [pc]; rfl)
  · rw [at_, next, Nat.add_assoc]
  · rw [next]
    exact disk

theorem driver_goes (balanced : Balanced l) (contents : Contents w l l.pc) (ran : driver l = some l') : Goes w l l' := by
  cases pc : l.pc with
  | free =>
    simp only [driver, pc] at ran
    cases ran
  | head x =>
    rw [pc] at contents
    exact head_goes pc contents ran
  | readDown x =>
    rw [pc] at contents
    simp only [driver, pc] at ran
    obtain ⟨c, taken, same⟩ := Option.map_eq_some_iff.mp ran
    subst same
    exact Goes.inside (returned_inside fun y => by rw [pc]; exact Pc.noConfusion) rfl
      ⟨contents.1, contents.2.1, (semaDown_disk taken).trans contents.2.2⟩ (by rw [pc]; rfl)
  | readPoll x =>
    rw [pc] at contents
    obtain ⟨first, same⟩ := contents
    simp only [driver, pc] at ran
    cases ran
    obtain ⟨memory, disk, stage⟩ := poll_cases l (.readPoll x) (.readData x x.p x.words)
    have nothing : returned l (pollStatus l (.readPoll x) (.readData x x.p x.words)) = [] :=
      returned_inside fun y => by rw [pc]; exact Pc.noConfusion
    rcases stage with again | done
    · exact Goes.inside nothing again ⟨first, memory.trans same.1, disk.trans same.2⟩ (by rw [pc])
    · refine Goes.inside nothing done ⟨first, ?_, ?_, disk.trans same.2⟩ (by rw [pc]; rfl)
      · rw [first.words.1, first.p, Nat.add_zero]
      · rw [first.words.1, memory]
        exact same.1
  | readData x addr left =>
    obtain ⟨busy, room⟩ := balanced.device_at pc
    rw [pc] at contents
    cases left with
    | zero =>
      obtain ⟨first, -, arrived⟩ := contents
      simp only [driver, pc] at ran
      cases ran
      rw [first.words.2] at arrived
      have all : x.next.cntDone = x.call.cnt := by
        show x.cntDone + x.each = _
        rw [first.done, first.each, Nat.zero_add]
      refine Goes.inside (returned_inside fun y => by rw [pc]; exact Pc.noConfusion) rfl ⟨first.fits, .inr ⟨all, ?_⟩⟩
        (by rw [pc]; rfl)
      exact arrived_all first.kind arrived
    | succ left => exact read_goes pc busy room contents ran
  | writePoll x =>
    rw [pc] at contents
    obtain ⟨first, same⟩ := contents
    simp only [driver, pc] at ran
    cases ran
    obtain ⟨memory, disk, stage⟩ := poll_cases l (.writePoll x) (.writeData x x.p x.words)
    have nothing : returned l (pollStatus l (.writePoll x) (.writeData x x.p x.words)) = [] :=
      returned_inside fun y => by rw [pc]; exact Pc.noConfusion
    rcases stage with again | done
    · exact Goes.inside nothing again ⟨first, memory.trans same.1, disk.trans same.2⟩ (by rw [pc])
    · refine Goes.inside nothing done ⟨first, ?_, memory.trans same.1, ?_⟩ (by rw [pc]; rfl)
      · rw [first.words.1, first.p, Nat.add_zero]
      · intro d k j
        rw [first.words.1, if_neg (by omega), disk, same.2]
  | writeData x addr left =>
    obtain ⟨busy, room⟩ := balanced.device_at pc
    rw [pc] at contents
    cases left with
    | zero =>
      obtain ⟨first, -, delivered⟩ := contents
      simp only [driver, pc] at ran
      cases ran
      rw [first.words.2] at delivered
      exact Goes.inside (returned_inside fun y => by rw [pc]; exact Pc.noConfusion) rfl
        ⟨first, delivered_all first.kind delivered⟩ (by rw [pc]; rfl)
    | succ left => exact write_goes pc busy room contents ran
  | writeDown x =>
    rw [pc] at contents
    obtain ⟨first, same⟩ := contents
    simp only [driver, pc] at ran
    obtain ⟨c, taken, equal⟩ := Option.map_eq_some_iff.mp ran
    subst equal
    have all : x.next.cntDone = x.call.cnt := by
      show x.cntDone + x.each = _
      rw [first.done, first.each, Nat.zero_add]
    exact Goes.inside (returned_inside fun y => by rw [pc]; exact Pc.noConfusion) rfl
      ⟨first.fits, .inr ⟨all, same.1, (semaDown_disk taken).trans same.2⟩⟩ (by rw [pc]; rfl)

theorem Contents.keep {pc : Pc} (contents : Contents w l pc) (memory : l'.memory = l.memory)
    (disk : l'.channel.disk = l.channel.disk) : Contents w l' pc := by
  have same {v : Store} (same : Same v l) : Same v l' := ⟨memory.trans same.1, disk.trans same.2⟩
  cases pc with
  | free => exact same contents
  | head x =>
    obtain ⟨fits, stage⟩ := contents
    exact ⟨fits, stage.imp (fun before => ⟨before.1, before.2.1, same before.2.2⟩) fun after => ⟨after.1, same after.2⟩⟩
  | readDown x => exact ⟨contents.1, same contents.2⟩
  | readPoll x => exact ⟨contents.1, same contents.2⟩
  | readData x addr left =>
    obtain ⟨first, at_, arrived⟩ := contents
    exact ⟨first, at_, memory.trans arrived.1, disk.trans arrived.2⟩
  | writePoll x => exact ⟨contents.1, same contents.2⟩
  | writeData x addr left =>
    obtain ⟨first, at_, delivered⟩ := contents
    exact ⟨first, at_, memory.trans delivered.1, by rw [disk]; exact delivered.2⟩
  | writeDown x => exact ⟨contents.1, same contents.2⟩

/-- The handler makes a permit and touches nothing else. -/
theorem irq_line (ran : IdePermits.step l .irq = some l') :
    l'.memory = l.memory ∧ l'.channel.disk = l.channel.disk ∧ l'.pc = l.pc := by
  simp only [IdePermits.step] at ran
  split_ifs at ran
  cases ran
  exact ⟨rfl, rfl, rfl⟩

theorem call_line (ran : IdePermits.step l (.call c) = some l') :
    l.pc = .free ∧ l' = { l with channel := ideSetDrive c.hd l.channel, pc := .head ⟨c, 0, c.buf⟩ } := by
  cases pc : l.pc with
  | free =>
    simp only [IdePermits.step, pc] at ran
    exact ⟨rfl, (Option.some.inj ran).symm⟩
  | _ =>
    simp only [IdePermits.step, pc] at ran
    cases ran

theorem Inv.step {e : Event} (inv : Inv w s) (fitting : Fitting s e) (moved : DiskHistory.step s e = some s') :
    Inv w s' := by
  obtain ⟨l', ran, rfl⟩ := Option.map_eq_some_iff.mp moved
  have balanced : Balanced l' := inv.balanced.step ran
  cases e with
  | driver =>
    have goes := driver_goes inv.balanced inv.contents ran
    refine ⟨balanced, ?_, ?_⟩
    · show Contents ((s.log ++ returned s.line l').foldl serve w) l' l'.pc
      rw [List.foldl_append]
      exact goes.contents
    · show s.called ++ [] = s.log ++ returned s.line l' ++ current l'.pc
      rw [List.append_nil, List.append_assoc, goes.order]
      exact inv.order
  | irq =>
    obtain ⟨memory, disk, pc⟩ := irq_line ran
    have nothing : returned s.line l' = [] := by
      unfold returned
      rw [pc]
      split
      · rename_i head free
        rw [head] at free
        cases free
      · rfl
    refine ⟨balanced, ?_, ?_⟩
    · show Contents ((s.log ++ returned s.line l').foldl serve w) l' l'.pc
      rw [nothing, List.append_nil, pc]
      exact inv.contents.keep memory disk
    · show s.called ++ [] = s.log ++ returned s.line l' ++ current l'.pc
      rw [nothing, List.append_nil, List.append_nil, pc]
      exact inv.order
  | call c =>
    obtain ⟨free, rfl⟩ := call_line ran
    have same : Contents _ _ _ := inv.contents
    rw [free] at same
    have nothing : returned s.line { s.line with channel := ideSetDrive c.hd s.line.channel, pc := .head ⟨c, 0, c.buf⟩ } = [] :=
      returned_inside fun y => by rw [free]; exact Pc.noConfusion
    have order := inv.order
    rw [free] at order
    refine ⟨balanced, ?_, ?_⟩
    · show Contents ((s.log ++ _).foldl serve w) _ (.head ⟨c, 0, c.buf⟩)
      rw [nothing, List.append_nil]
      refine ⟨fitting, .inl ⟨rfl, rfl, same.1, ?_⟩⟩
      show (ideSetDrive c.hd s.line.channel).disk = _
      rw [ideSetDrive_eq]
      exact same.2
    · show s.called ++ [c] = s.log ++ _ ++ [c]
      rw [nothing, List.append_nil, order]
      exact congrArg (· ++ [c]) (List.append_nil _)

theorem inv_start (fresh : chan.sema = 0) (m : Memory) : Inv ⟨m, chan.disk⟩ (start chan m) :=
  ⟨balanced_start fresh m, ⟨rfl, rfl⟩, rfl⟩

theorem reach_inv (fresh : chan.sema = 0) (run : Reach step Fitting (start chan m) s) : Inv ⟨m, chan.disk⟩ s :=
  run.invariant (fun _ _ _ inv fitting moved => inv.step fitting moved) (inv_start fresh m)

/-! What is seen between two steps. -/

/-- Every byte is as before the call or as behind it. -/
structure Between (v v' : Store) (l : Line) : Prop where
  memory : ∀ a, l.memory a = v.memory a ∨ l.memory a = v'.memory a
  disk : ∀ d k j, l.channel.disk d k j = v.disk d k j ∨ l.channel.disk d k j = v'.disk d k j

theorem Same.before {v' : Store} (same : Same w l) : Between w v' l := by
  constructor
  · intro a
    exact .inl (congrFun same.1 a)
  · intro d k j
    exact .inl (by rw [same.2])

theorem Same.after {v : Store} (same : Same w l) : Between v w l := by
  constructor
  · intro a
    exact .inr (congrFun same.1 a)
  · intro d k j
    exact .inr (by rw [same.2])

deriving instance DecidableEq for IdeHd
deriving instance DecidableEq for Call

def saved : Call := ⟨true, ⟨0⟩, 7, 0x1000, 1⟩
/-- The driver and the handler run, and nobody calls. -/
def Silent (_ : State) : Event → Prop
  | .call _ => False
  | .driver => True
  | .irq => True

def Ends (s : State) : Prop := ∃ s', Reach step Silent s s' ∧ s'.line.pc = .free

/-- Fewer permits are left over than the counter of the semaphore can hold. -/
def Few (s : State) : Prop := credit s.line.calls + 256 < 2 ^ 32

theorem step_moved {e : Event} (ran : IdePermits.step s.line e = some l') :
    step s e = some ⟨l', s.called ++ entered e, s.log ++ returned s.line l'⟩ := by
  rw [step, ran]
  rfl

/-- A step of the driver, with what it leaves true for the rest. -/
theorem Inv.ends (inv : Inv w s) (ran : driver s.line = some l')
    (rest : Inv w ⟨l', s.called ++ [], s.log ++ returned s.line l'⟩ → Ends ⟨l', s.called ++ [], s.log ++ returned s.line l'⟩) :
    Ends s := by
  obtain ⟨s', later, free⟩ := rest (inv.step (e := .driver) trivial (step_moved ran))
  exact ⟨s', Reach.cons (e := .driver) trivial (step_moved ran) later, free⟩

theorem Inv.contents_at {pc : Pc} (inv : Inv w s) (at_ : s.line.pc = pc) : Contents (s.log.foldl serve w) s.line pc := by
  rw [← at_]
  exact inv.contents

theorem First.next_done (first : First x write) : x.next.cntDone = x.next.call.cnt := by
  show x.cntDone + x.each = x.call.cnt
  rw [first.done, first.each, Nat.zero_add]

theorem ends_done (inv : Inv w s) (pc : s.line.pc = .head x) (done : x.cntDone = x.call.cnt) : Ends s := by
  have ran : driver s.line = some { s.line with pc := .free, calls := x.call.cnt :: s.line.calls } := by
    simp only [driver, pc]
    exact if_neg (by omega)
  exact inv.ends ran fun _ => ⟨_, Reach.refl _, rfl⟩

theorem ends_readData {addr left : Nat} (inv : Inv w s) (pc : s.line.pc = .readData x addr left) : Ends s := by
  induction left generalizing s addr with
  | zero =>
    have first := (inv.contents_at pc).1
    have ran : driver s.line = some { s.line with pc := .head x.next } := by simp only [driver, pc]
    exact inv.ends ran fun inv' => ends_done inv' rfl first.next_done
  | succ left ih =>
    have ran : driver s.line = some { s.line.device (s.line.channel.insw s.line.memory addr 1).2 (.readData x (addr + 2) left) with
        memory := (s.line.channel.insw s.line.memory addr 1).1 } := by simp only [driver, pc]
    exact inv.ends ran fun inv' => ih inv' rfl

/-- A poll either finds the drive busy, and brings it nearer to its end, or goes on. -/
theorem poll_line (l : Line) (again done : Pc) (pending : Pending l.channel) :
    (l.channel.busy = 0 → (pollStatus l again done).pc = done) ∧
      (0 < l.channel.busy → (pollStatus l again done).pc = again) ∧
      (pollStatus l again done).channel.busy = l.channel.busy - 1 := by
  unfold pollStatus
  rw [ideGetStatus_eq]
  refine ⟨?_, ?_, rfl⟩
  · intro idle
    rw [status_ready pending idle]
    exact if_neg (show ¬(STAT_DRQ &&& STAT_BSY ≠ 0 ∨ STAT_DRQ &&& STAT_DRQ = 0) by decide)
  · intro busy
    have status : l.channel.status = STAT_BSY := if_pos busy
    rw [status]
    exact if_pos (show STAT_BSY &&& STAT_BSY ≠ 0 ∨ STAT_BSY &&& STAT_DRQ = 0 by decide)

theorem readPoll_line (inv : Inv w s) (pc : s.line.pc = .readPoll x) :
    driver s.line = some (pollStatus s.line (.readPoll x) (.readData x x.p x.words)) ∧ Pending s.line.channel := by
  have busy : Busy x s.line.channel .reading 0 := inv.balanced.device_at pc
  have positive := Pass.each_pos busy.more
  constructor
  · simp only [driver, pc]
  · unfold Pending
    rw [busy.phase]
    show 0 < 512 * x.each
    omega

theorem writePoll_line (inv : Inv w s) (pc : s.line.pc = .writePoll x) :
    driver s.line = some (pollStatus s.line (.writePoll x) (.writeData x x.p x.words)) ∧ Pending s.line.channel := by
  have busy : Busy x s.line.channel .writing 0 := inv.balanced.device_at pc
  have positive := Pass.each_pos busy.more
  constructor
  · simp only [driver, pc]
  · unfold Pending
    rw [busy.phase]
    show 0 < 512 * x.each
    omega

theorem ends_readPoll (inv : Inv w s) (pc : s.line.pc = .readPoll x) : Ends s := by
  induction polls : s.line.channel.busy generalizing s with
  | zero =>
    obtain ⟨ran, pending⟩ := readPoll_line inv pc
    have goes := (poll_line s.line (.readPoll x) (.readData x x.p x.words) pending).1
    exact inv.ends ran fun inv' => ends_readData inv' (goes polls)
  | succ n ih =>
    obtain ⟨ran, pending⟩ := readPoll_line inv pc
    obtain ⟨-, waits, fewer⟩ := poll_line s.line (.readPoll x) (.readData x x.p x.words) pending
    exact inv.ends ran fun inv' => ih inv' (waits (by omega)) (by rw [fewer, polls]; rfl)

/-- There is a permit, or an interrupt whose handler will make one. -/
theorem Inv.permit (inv : Inv w s) (few : Few s) (down : s.line.pc = .readDown x ∨ s.line.pc = .writeDown x) :
    0 < s.line.channel.sema ∨ 0 < s.line.pending := by
  have permits := inv.balanced.permits
  have few : credit s.line.calls + 256 < 2 ^ 32 := few
  rcases down with read | write
  · have first := (inv.contents_at read).1
    rw [read] at permits
    have settles : settled (.readDown x) = 0 := by
      show surplus x.cntDone = 0
      rw [first.done]
      rfl
    have one : outstanding (.readDown x) = 1 := rfl
    omega
  · have first := (inv.contents_at write).1
    have busy : Busy x s.line.channel .writing (512 * x.each) := inv.balanced.device_at write
    have positive := Pass.each_pos busy.more
    have chunk := x.each_le
    rw [write] at permits
    have settles : settled (.writeDown x) = 0 := by
      show surplus x.cntDone = 0
      rw [first.done]
      rfl
    have each : outstanding (.writeDown x) = x.each := rfl
    omega

/-- The handler runs, and then there is a permit. -/
theorem Inv.awake (inv : Inv w s) (few : Few s) (down : s.line.pc = .readDown x ∨ s.line.pc = .writeDown x)
    (rest : ∀ t, Inv w t → t.line.pc = s.line.pc → 0 < t.line.channel.sema → Few t → Ends t) : Ends s := by
  by_cases some_ : 0 < s.line.channel.sema
  · exact rest s inv rfl some_ few
  · have raised : 0 < s.line.pending := (inv.permit few down).resolve_left some_
    have ran : IdePermits.step s.line .irq =
        some { s.line with channel := semaUp s.line.channel, pending := s.line.pending - 1 } := if_pos raised
    have one : 0 < (s.line.channel.sema + 1) % 2 ^ 32 := by
      rw [Nat.eq_zero_of_not_pos some_]
      decide
    obtain ⟨s', later, free⟩ := rest _ (inv.step (e := .irq) trivial (step_moved ran)) rfl one few
    exact ⟨s', Reach.cons (e := .irq) trivial (step_moved ran) later, free⟩

theorem down_line (some_ : 0 < chan.sema) : semaDown chan = some { chan with sema := chan.sema - 1 } := if_pos some_

theorem ends_readDown (inv : Inv w s) (few : Few s) (pc : s.line.pc = .readDown x) : Ends s := by
  apply inv.awake few (.inl pc)
  intro t inv same some_ _
  have ran : driver t.line =
      some { t.line with channel := { t.line.channel with sema := t.line.channel.sema - 1 }, pc := .readPoll x } := by
    simp only [driver, same.trans pc, down_line some_]
    rfl
  exact inv.ends ran fun inv' => ends_readPoll inv' rfl

theorem ends_writeDown (inv : Inv w s) (few : Few s) (pc : s.line.pc = .writeDown x) : Ends s := by
  apply inv.awake few (.inr pc)
  intro t inv same some_ _
  have ran : driver t.line =
      some { t.line with channel := { t.line.channel with sema := t.line.channel.sema - 1 }, pc := .head x.next } := by
    simp only [driver, same.trans pc, down_line some_]
    rfl
  have first := (inv.contents_at (same.trans pc)).1
  exact inv.ends ran fun inv' => ends_done inv' rfl first.next_done

theorem ends_writeData {addr left : Nat} (inv : Inv w s) (few : Few s) (pc : s.line.pc = .writeData x addr left) : Ends s := by
  induction left generalizing s addr with
  | zero =>
    have ran : driver s.line = some { s.line with pc := .writeDown x } := by simp only [driver, pc]
    exact inv.ends ran fun inv' => ends_writeDown inv' few rfl
  | succ left ih =>
    have ran : driver s.line =
        some (s.line.device (s.line.channel.outsw s.line.memory addr 1) (.writeData x (addr + 2) left)) := by
      simp only [driver, pc]
    exact inv.ends ran fun inv' => ih inv' few rfl

theorem ends_writePoll (inv : Inv w s) (few : Few s) (pc : s.line.pc = .writePoll x) : Ends s := by
  induction polls : s.line.channel.busy generalizing s with
  | zero =>
    obtain ⟨ran, pending⟩ := writePoll_line inv pc
    have goes := (poll_line s.line (.writePoll x) (.writeData x x.p x.words) pending).1
    exact inv.ends ran fun inv' => ends_writeData inv' few (goes polls)
  | succ n ih =>
    obtain ⟨ran, pending⟩ := writePoll_line inv pc
    obtain ⟨-, waits, fewer⟩ := poll_line s.line (.writePoll x) (.writeData x x.p x.words) pending
    exact inv.ends ran fun inv' => ih inv' few (waits (by omega)) (by rw [fewer, polls]; rfl)

theorem ends_head (inv : Inv w s) (few : Few s) (pc : s.line.pc = .head x) : Ends s := by
  have contents := inv.contents_at pc
  by_cases more : x.cntDone < x.call.cnt
  · cases kind : x.call.write with
    | true =>
      have ran : ∃ c, driver s.line = some (s.line.device c (.writePoll x)) := by
        refine ⟨ideSetCmd (ideSetLba s.line.channel x.call.lba x.each) CMD_WRITE_SEC, ?_⟩
        simp only [driver, pc, more, kind, if_true]
      obtain ⟨c, ran⟩ := ran
      exact inv.ends ran fun inv' => ends_writePoll inv' few rfl
    | false =>
      have ran : ∃ c, driver s.line = some (s.line.device c (.readDown x)) := by
        refine ⟨ideSetCmd (ideSetLba s.line.channel x.call.lba x.each) CMD_READ_SEC, ?_⟩
        simp only [driver, pc, more, kind, if_true]
        exact if_neg Bool.false_ne_true
      obtain ⟨c, ran⟩ := ran
      exact inv.ends ran fun inv' => ends_readDown inv' few rfl
  · have done : x.cntDone = x.call.cnt := by
      rcases contents.2 with before | after
      · omega
      · exact after.1
    exact ends_done inv pc done

theorem ends (inv : Inv w s) (few : Few s) : Ends s := by
  cases pc : s.line.pc with
  | free => exact ⟨s, Reach.refl s, pc⟩
  | head x => exact ends_head inv few pc
  | readDown x => exact ends_readDown inv few pc
  | readPoll x => exact ends_readPoll inv pc
  | readData x addr left => exact ends_readData inv pc
  | writePoll x => exact ends_writePoll inv few pc
  | writeData x addr left => exact ends_writeData inv few pc
  | writeDown x => exact ends_writeDown inv few pc

end KOS.DiskHistory
