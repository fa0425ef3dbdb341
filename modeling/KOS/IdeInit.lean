import KOS.FsInit
import KOS.PartitionScan

/-! `ide_init`: every channel gets its port, its vector and its handler, and every drive that answers IDENTIFY has its
partitions put on `ptn_list`. -/

namespace KOS.IdeInit
open KOS.ByteMemory KOS.Ata KOS.Ide KOS.DoublyLinked KOS.KernelList KOS.Stdio KOS.PartitionScan
open KOS.Partition hiding IdeHd IdePtn
open KOS.FsInit (IDE_CH_NR)
open KOS.PartitionEnds (bootedHeap empty empty_ready)

/-- The hardware of a channel: its registers, which drives are there, what IDENTIFY makes each of them deliver, and the
vector its interrupts come with. -/
structure Port where
  chan : Channel
  present : Fin 2 → Bool
  info : Fin 2 → Sector
  vector : Nat

/-- `struct ide_hd` without the way back to its channel. -/
structure Dev where
  name : List UInt8
  hd : IdeHd
  valid : Bool

/-- `struct ide_ch` without its mutex; `port_base` and the semaphore are in the channel's registers. -/
structure IdeCh where
  name : List UInt8
  dev : Fin 2 → Dev
  irq : Nat
  port : Port

/-- The vectors in `registered` have `ide_handler`. -/
structure Sys (η : Type) where
  gIdeCh : Fin IDE_CH_NR → IdeCh
  registered : List Nat
  scan : Scan η

variable {η : Type}

def Sys.onCh (s : Sys η) (ch : Fin IDE_CH_NR) (f : IdeCh → IdeCh) : Sys η :=
  { s with gIdeCh := Function.update s.gIdeCh ch (f (s.gIdeCh ch)) }

def IdeCh.onChan (c : IdeCh) (f : Channel → Channel) : IdeCh := { c with port := { c.port with chan := f c.port.chan } }

def IdeCh.onDev (c : IdeCh) (hd : Fin 2) (f : Dev → Dev) : IdeCh :=
  { c with dev := Function.update c.dev hd (f (c.dev hd)) }

def semaUp (c : Channel) : Channel := { c with sema := c.sema + 1 }

/-- The first channel with this `irq`. -/
def ideHandler (irq : Nat) (s : Sys η) : Sys η :=
  match (List.finRange IDE_CH_NR).find? fun idx => (s.gIdeCh idx).irq = irq with
  | some idx => s.onCh idx fun c => c.onChan semaUp
  | none => s

/-- Without `ide_handler` the interrupt ends in `intr_general_handler`, which does not return. -/
def interrupt (vector : Nat) (s : Sys η) : Option (Sys η) :=
  if vector ∈ s.registered then some (ideHandler vector s) else none

/-- What a drive does on IDENTIFY: a sector to be read, and an interrupt when it is there. -/
def identify (c : Channel) : Channel :=
  { c with phase := .reading ⟨c.drive, 0, 1, 0⟩, busy := c.latency c.issued, issued := c.issued + 1 }

/-- `ide_set_cmd(hd, CMD_IDENTIFY)`: a drive that is not there does nothing. -/
def setCmdIdentify (ch : Fin IDE_CH_NR) (s : Sys η) : Option (Sys η) :=
  let p := (s.gIdeCh ch).port
  if p.present p.chan.drive then interrupt p.vector (s.onCh ch fun c => c.onChan identify) else some s

/-- `ide_get_status`; where no drive is, the register reads 0. -/
def Port.getStatus (p : Port) : Nat × Port :=
  if p.present p.chan.drive then ((ideGetStatus p.chan).1, { p with chan := (ideGetStatus p.chan).2 }) else (0, p)

/-- `do … while (stat & STAT_BSY)`, with no result where it would not end. -/
def Port.waitIdle (p : Port) : Option (Nat × Port) :=
  if p.getStatus.1 &&& STAT_BSY ≠ 0 then
    if p.getStatus.2.chan.busy < p.chan.busy then Port.waitIdle p.getStatus.2 else none
  else some p.getStatus
termination_by p.chan.busy

/-- `ide_get_data` of the information block; `id_info` is for the debug output. -/
def Port.getInfo (p : Port) : Port :=
  { p with chan := { (ideGetData { p.chan with disk := fun d _ => p.info d } (fun _ => 0) 0 1).2 with disk := p.chan.disk } }

def ideGetIdentify (ch : Fin IDE_CH_NR) (hd : Fin 2) (s : Sys η) : Option (Bool × Sys η) := do
  let s := s.onCh ch fun c => c.onChan (ideSetDrive (c.dev hd).hd)
  let s ← setCmdIdentify ch s
  let (stat, port) ← (s.gIdeCh ch).port.waitIdle
  if 0 = stat then some (false, s.onCh ch fun c => { c with port })
  else do
    let chan ← semaDown port.chan
    some (true, s.onCh ch fun c => { c with port := Port.getInfo { port with chan } })

/-- `ide_read` of one sector of a drive, as the scan uses it. -/
def Port.sector (p : Port) (d : Fin 2) : Word → Buffer := fun lba a =>
  Channel.byteOf p.chan.disk d (lba.toNat % 2 ^ 28) (a % 512)

def chName (ch : Fin IDE_CH_NR) : List UInt8 := (render ("ide%d".toList.map Stdio.ch) [.int (BitVec.ofNat 32 ch)]).getD []

def hdName (ch : Fin IDE_CH_NR) (hd : Fin 2) : List UInt8 :=
  (render ("sd%c".toList.map Stdio.ch) [.chr (Stdio.ch 'a' + UInt8.ofNat (ch * 2 + hd))]).getD []

def portBases : Fin IDE_CH_NR → Nat := ![0x1F0, 0x170, 0x1E8, 0x168]

def irqs : Fin IDE_CH_NR → Nat := ![0x20 + 14, 0x20 + 15, 0x20 + 11, 0x20 + 10]

variable (al : Allocator η) (fuel : Nat)

/-- The body of the inner loop of `ide_ch_init`. -/
def initHd (ch : Fin IDE_CH_NR) (s : Sys η) (hd : Fin 2) : Option (Sys η) := do
  let s := s.onCh ch fun c => c.onDev hd fun d => { d with name := hdName ch hd, hd := ⟨hd⟩ }
  let (found, s) ← ideGetIdentify ch hd s
  let s := s.onCh ch fun c => c.onDev hd fun d => { d with valid := found }
  if found then do
    let c := s.gIdeCh ch
    let scan ← ideGetPartition al (c.port.sector (c.dev hd).hd.drive) ⟨(c.dev hd).name⟩ fuel s.scan 0 0
    some { s with scan }
  else some s

/-- The name of the channel and its `sema_init`. -/
def IdeCh.start (ch : Fin IDE_CH_NR) (c : IdeCh) : IdeCh :=
  { c.onChan (fun chan => { chan with sema := 0 }) with name := chName ch }

/-- The body of the outer loop. -/
def initCh (s : Sys η) (ch : Fin IDE_CH_NR) : Option (Sys η) :=
  let s := s.onCh ch (IdeCh.start ch)
  let s := { s with registered := (s.gIdeCh ch).irq :: s.registered }
  (List.finRange 2).foldlM (initHd al fuel ch) s

def ideChInit (s : Sys η) : Option (Sys η) :=
  let s := { s with gIdeCh := fun ch =>
    { (s.gIdeCh ch).onChan (fun chan => { chan with portBase := portBases ch }) with irq := irqs ch } }
  (List.finRange IDE_CH_NR).foldlM (initCh al fuel) s

/-- `list_init(&ptn_list)`. -/
def Sys.unlisted (s : Sys η) : Scan η := { s.scan with tags := listInit Tag.null s.scan.tags ptnList }

def ideInit (s : Sys η) : Option (Sys η) := ideChInit al fuel { s with scan := s.unlisted }

variable {al fuel} {s s' s₀ : Sys η} {ch : Fin IDE_CH_NR} {hd : Fin 2}

/-- The rule of a loop that goes on as long as each pass keeps `I` of the elements that are left. -/
theorem foldlM_keeps {α β : Type} {f : β → α → Option β} {I : List α → β → Prop}
    (pass : ∀ a rest b, I (a :: rest) b → ∃ b', f b a = some b' ∧ I rest b') (rest : List α) {b : β} (start : I rest b) :
    ∃ b', rest.foldlM f b = some b' ∧ I [] b' := by
  induction rest generalizing b with
  | nil => exact ⟨b, rfl, start⟩
  | cons a rest ih =>
    obtain ⟨mid, first, kept⟩ := pass a rest b start
    obtain ⟨b', later, kept'⟩ := ih kept
    refine ⟨b', ?_, kept'⟩
    rw [List.foldlM_cons, first]
    exact later

/-! One channel at a time. -/

theorem onCh_self (s : Sys η) (ch : Fin IDE_CH_NR) (f : IdeCh → IdeCh) : (s.onCh ch f).gIdeCh ch = f (s.gIdeCh ch) :=
  Function.update_self ..

theorem onCh_other {other : Fin IDE_CH_NR} (different : other ≠ ch) (s : Sys η) (f : IdeCh → IdeCh) :
    (s.onCh ch f).gIdeCh other = s.gIdeCh other := Function.update_of_ne different ..

theorem onCh_onCh (s : Sys η) (ch : Fin IDE_CH_NR) (f g : IdeCh → IdeCh) :
    (s.onCh ch f).onCh ch g = s.onCh ch fun c => g (f c) := by
  unfold Sys.onCh
  dsimp only
  rw [Function.update_self, Function.update_idem]

/-- What is true of every channel and kept on this one is still true of every channel. -/
theorem onCh_forall {P : Fin IDE_CH_NR → IdeCh → Prop} {f : IdeCh → IdeCh} (every : ∀ idx, P idx (s.gIdeCh idx))
    (kept : P ch (f (s.gIdeCh ch))) (idx : Fin IDE_CH_NR) : P idx ((s.onCh ch f).gIdeCh idx) := by
  by_cases here : idx = ch
  · rw [here, onCh_self]
    exact kept
  · rw [onCh_other here]
    exact every idx

theorem onCh_irq {f : IdeCh → IdeCh} (same : ∀ c, (f c).irq = c.irq) (idx : Fin IDE_CH_NR) :
    ((s.onCh ch f).gIdeCh idx).irq = (s.gIdeCh idx).irq :=
  onCh_forall (P := fun idx c => c.irq = (s.gIdeCh idx).irq) (fun _ => rfl) (same _) idx

/-! IDENTIFY. -/

theorem driveNr_val : ∀ hd : Fin 2, driveNr hd.val = hd := by decide

theorem driveNr_select : ∀ d : Fin 2, driveNr (select d / 16 % 2) = d := by decide

theorem setDrive_drive (hd : Fin 2) (c : Channel) : (ideSetDrive ⟨hd⟩ c).drive = hd := by
  rw [ideSetDrive_eq, Channel.drive, IdeHd.drive, driveNr_val]
  exact driveNr_select hd

/-- One sector asked for is one interrupt. -/
theorem insw_sema (c : Channel) (m : Memory) (dst n : Nat) {t : Transfer} (phase : c.phase = .reading t) (one : t.cnt = 1) :
    (c.insw m dst n).2.sema = c.sema := by
  have byte : ∀ (c : Channel) (t : Transfer), c.phase = .reading t → t.cnt = 1 →
      c.dataIn.2.sema = c.sema ∧ ∃ t', c.dataIn.2.phase = .reading t' ∧ t'.cnt = 1 := by
    intro c t phase one
    by_cases room : t.done < 512 * t.cnt
    · have last : ¬((t.done + 1) % 512 = 0 ∧ t.done + 1 < 512 * t.cnt) := by omega
      simp only [Channel.dataIn, phase, if_pos room, if_neg last]
      exact ⟨trivial, _, rfl, one⟩
    · simp only [Channel.dataIn, phase, if_neg room]
      exact ⟨trivial, t, rfl, one⟩
  induction n generalizing c m dst t with
  | zero => rfl
  | succ n ih =>
    obtain ⟨sema1, t1, phase1, one1⟩ := byte c t phase one
    obtain ⟨sema2, t2, phase2, one2⟩ := byte c.dataIn.2 t1 phase1 one1
    rw [Channel.insw]
    exact (ih c.dataIn.2.dataIn.2 _ _ phase2 one2).trans (sema2.trans sema1)

/-- The hardware of a channel is what it was, and no interrupt is left over. -/
structure Probed (p p' : Port) : Prop where
  present : p'.present = p.present
  vector : p'.vector = p.vector
  disk : p'.chan.disk = p.chan.disk
  sema : p'.chan.sema = p.chan.sema

theorem waitIdle_present {p : Port} (there : p.present p.chan.drive = true) (pending : Pending p.chan) :
    p.waitIdle = some (STAT_DRQ, { p with chan := { p.chan with busy := 0 } }) := by
  induction remaining : p.chan.busy generalizing p with
  | zero =>
    have idle : ({ p.chan with busy := p.chan.busy - 1 } : Channel) = { p.chan with busy := 0 } := by rw [remaining]
    rw [Port.waitIdle, Port.getStatus, if_pos there, ideGetStatus_eq, status_ready pending remaining, idle]
    exact if_neg (show ¬STAT_DRQ &&& STAT_BSY ≠ 0 by decide)
  | succ polls ih =>
    have busy : p.chan.status = STAT_BSY := by simp [Channel.status, remaining]
    have fewer : p.chan.busy - 1 < p.chan.busy := by omega
    rw [Port.waitIdle, Port.getStatus, if_pos there, ideGetStatus_eq, busy]
    dsimp only
    rw [if_pos (show STAT_BSY &&& STAT_BSY ≠ 0 by decide), if_pos fewer]
    exact ih there pending (by rw [remaining]; rfl)

theorem waitIdle_absent {p : Port} (absent : p.present p.chan.drive = false) : p.waitIdle = some (0, p) := by
  have status : p.getStatus = (0, p) := by
    rw [Port.getStatus, absent]
    rfl
  rw [Port.waitIdle, status]
  exact if_neg (show ¬0 &&& STAT_BSY ≠ 0 by decide)

theorem getInfo_probed (p : Port) {t : Transfer} (phase : p.chan.phase = .reading t) (one : t.cnt = 1) :
    Probed p p.getInfo := by
  unfold Port.getInfo ideGetData
  dsimp only
  generalize 1 * SECTOR_SIZE % 2 ^ 32 / 2 = words
  constructor
  · rfl
  · rfl
  · rfl
  · exact insw_sema { p.chan with disk := fun d _ => p.info d } (fun _ => 0) 0 words phase one

attribute [irreducible] Port.getInfo

theorem ideHandler_own {vector : Nat} {s : Sys η}
    (own : (List.finRange IDE_CH_NR).find? (fun idx => (s.gIdeCh idx).irq = vector) = some ch) :
    ideHandler vector s = s.onCh ch fun c => c.onChan semaUp := by
  rw [ideHandler, own]

theorem setCmdIdentify_present (s : Sys η) (ch : Fin IDE_CH_NR)
    (there : (s.gIdeCh ch).port.present (s.gIdeCh ch).port.chan.drive = true)
    (registered : (s.gIdeCh ch).port.vector ∈ s.registered)
    (own : (List.finRange IDE_CH_NR).find? (fun idx => (s.gIdeCh idx).irq = (s.gIdeCh ch).port.vector) = some ch) :
    setCmdIdentify ch s = some (s.onCh ch fun c => c.onChan fun chan => semaUp (identify chan)) := by
  have own' : (List.finRange IDE_CH_NR).find? (fun idx => ((s.onCh ch fun c => c.onChan identify).gIdeCh idx).irq =
      (s.gIdeCh ch).port.vector) = some ch := by
    rw [← own]
    congr 1
    funext idx
    rw [onCh_irq (f := fun c => c.onChan identify) fun c => rfl]
  have served : interrupt (s.gIdeCh ch).port.vector (s.onCh ch fun c => c.onChan identify) =
      some (ideHandler (s.gIdeCh ch).port.vector (s.onCh ch fun c => c.onChan identify)) := if_pos registered
  unfold setCmdIdentify
  dsimp only
  rw [if_pos there, served, ideHandler_own own', onCh_onCh]
  rfl

/-- A drive is found exactly when it is there, and its interrupt is taken by the one `sema_down`. -/
theorem ideGetIdentify_probes (s : Sys η) (ch : Fin IDE_CH_NR) (hd : Fin 2) (nr : ((s.gIdeCh ch).dev hd).hd = ⟨hd⟩)
    (registered : (s.gIdeCh ch).port.vector ∈ s.registered)
    (own : (List.finRange IDE_CH_NR).find? (fun idx => (s.gIdeCh idx).irq = (s.gIdeCh ch).port.vector) = some ch) :
    ∃ p, ideGetIdentify ch hd s = some ((s.gIdeCh ch).port.present hd, s.onCh ch fun c => { c with port := p }) ∧
      Probed (s.gIdeCh ch).port p := by
  have drive := setDrive_drive hd (s.gIdeCh ch).port.chan
  have disk : ∀ c, (ideSetDrive ⟨hd⟩ c).disk = c.disk ∧ (ideSetDrive ⟨hd⟩ c).sema = c.sema := by
    intro c
    rw [ideSetDrive_eq]
    exact ⟨rfl, rfl⟩
  unfold ideGetIdentify
  dsimp only
  cases there : (s.gIdeCh ch).port.present hd with
  | true =>
    have command := setCmdIdentify_present (s.onCh ch fun c => c.onChan (ideSetDrive (c.dev hd).hd)) ch
      (by rw [onCh_self]; dsimp only [IdeCh.onChan]; rw [nr, drive]; exact there)
      (by rw [onCh_self]; exact registered)
      (by
        rw [onCh_self, ← own]
        congr 1
        funext idx
        rw [onCh_irq (f := fun c => c.onChan (ideSetDrive (c.dev hd).hd)) fun c => rfl]
        rfl)
    rw [command]
    simp only [Option.bind_eq_bind, Option.bind_some, onCh_self, onCh_onCh, IdeCh.onChan]
    generalize chan : semaUp (identify (ideSetDrive ((s.gIdeCh ch).dev hd).hd (s.gIdeCh ch).port.chan)) = c
    have phase : c.phase = .reading ⟨hd, 0, 1, 0⟩ := by
      rw [← chan, nr]
      change Phase.reading ⟨(ideSetDrive ⟨hd⟩ (s.gIdeCh ch).port.chan).drive, 0, 1, 0⟩ = _
      rw [drive]
    have same : c.disk = (s.gIdeCh ch).port.chan.disk ∧ c.sema = (s.gIdeCh ch).port.chan.sema + 1 := by
      rw [← chan, nr, ← (disk (s.gIdeCh ch).port.chan).1, ← (disk (s.gIdeCh ch).port.chan).2]
      exact ⟨rfl, rfl⟩
    have selected : c.drive = hd := by
      rw [← chan, nr]
      exact drive
    have polled := waitIdle_present (p := { (s.gIdeCh ch).port with chan := c }) (by rw [selected]; exact there)
      (by rw [Ide.Pending, phase]; exact (by decide : 0 < 512 * 1))
    have down : semaDown { c with busy := 0 } =
        some { c with busy := 0, sema := (s.gIdeCh ch).port.chan.sema } := by
      unfold semaDown
      dsimp only
      rw [same.2]
      exact if_pos (Nat.succ_pos _)
    rw [polled]
    simp only [Option.bind_some]
    rw [if_neg (show ¬0 = STAT_DRQ by decide), down]
    have info := getInfo_probed
      { (s.gIdeCh ch).port with chan := { c with busy := 0, sema := (s.gIdeCh ch).port.chan.sema } } phase rfl
    exact ⟨_, rfl, info.present, info.vector, info.disk.trans same.1, info.sema⟩
  | false =>
    have command : setCmdIdentify ch (s.onCh ch fun c => c.onChan (ideSetDrive (c.dev hd).hd)) =
        some (s.onCh ch fun c => c.onChan (ideSetDrive (c.dev hd).hd)) := by
      unfold setCmdIdentify
      rw [onCh_self]
      dsimp only [IdeCh.onChan]
      rw [nr, drive, if_neg (by rw [there]; decide)]
    have polled := waitIdle_absent (p := ((s.gIdeCh ch).onChan (ideSetDrive ((s.gIdeCh ch).dev hd).hd)).port)
      (by dsimp only [IdeCh.onChan]; rw [nr, drive]; exact there)
    rw [command]
    simp only [Option.bind_eq_bind, Option.bind_some, onCh_self, polled, if_true, onCh_onCh]
    refine ⟨_, rfl, rfl, rfl, ?_, ?_⟩
    · dsimp only [IdeCh.onChan]
      rw [nr]
      exact (disk _).1
    · dsimp only [IdeCh.onChan]
      rw [nr]
      exact (disk _).2

/-! What a start finds on the drives. -/

/-- The drives in the order of the two loops. -/
def drives : List (Fin IDE_CH_NR × Fin 2) := (List.finRange IDE_CH_NR).flatMap fun ch => (List.finRange 2).map (Prod.mk ch)

def Sys.present (s : Sys η) (x : Fin IDE_CH_NR × Fin 2) : Bool := (s.gIdeCh x.1).port.present x.2

def Sys.sector (s : Sys η) (x : Fin IDE_CH_NR × Fin 2) : Word → Buffer := (s.gIdeCh x.1).port.sector x.2

/-- The channels interrupt with the vectors of the PC/AT, and every drive that is there has partition tables whose links
end. -/
structure Readable (s : Sys η) (fuel : Nat) (base : Fin IDE_CH_NR × Fin 2 → Word)
    (offsets : Fin IDE_CH_NR × Fin 2 → List Word) : Prop where
  vectors : ∀ ch, (s.gIdeCh ch).port.vector = irqs ch
  wellFormed : ∀ x, s.present x = true → WellFormed (s.sector x) (base x) (offsets x)
  few : ∀ x, s.present x = true → (logicals (s.sector x) (base x) (offsets x)).length < 995
  enough : ∀ x, (offsets x).length < fuel

/-- The requests to `sys_malloc` of the scans of these drives. -/
def requests (s : Sys η) (fuel : Nat) (xs : List (Fin IDE_CH_NR × Fin 2)) : Nat :=
  (xs.map fun x => if s.present x then calls (s.sector x) fuel 0 0 else 0).sum

/-- The partitions that a drive adds to the list. -/
def partitions (s : Sys η) (found : Fin IDE_CH_NR × Fin 2 → List Found) (x : Fin IDE_CH_NR × Fin 2) :
    List Partition.IdePtn :=
  if s.present x then (found x).map (Found.ptn (s.sector x) ⟨hdName x.1 x.2⟩) else []

/-- The machine is the one that the start began with. -/
structure SameHardware (s₀ s : Sys η) : Prop where
  present : ∀ ch, (s.gIdeCh ch).port.present = (s₀.gIdeCh ch).port.present
  vector : ∀ ch, (s.gIdeCh ch).port.vector = (s₀.gIdeCh ch).port.vector
  disk : ∀ ch, (s.gIdeCh ch).port.chan.disk = (s₀.gIdeCh ch).port.chan.disk

/-- What has been done to the channels and the list when these drives have been looked at, with the heap ready for `left`
requests. -/
structure Done (al : Allocator η) (found : Fin IDE_CH_NR × Fin 2 → List Found) (s₀ s : Sys η)
    (seen : List (Fin IDE_CH_NR × Fin 2)) (new : List Nat) (left : Nat) : Prop where
  hardware : SameHardware s₀ s
  irq : ∀ ch, (s.gIdeCh ch).irq = irqs ch
  valid : ∀ x ∈ seen, ((s.gIdeCh x.1).dev x.2).valid = s₀.present x
  appended : Appended al s₀.scan s.scan new
  ptns : new.map s.scan.ptns = seen.flatMap (partitions s₀ found)
  ready : al.ready s.scan.heap left

/-- Probing a drive leaves the other channels alone, and of its own only the registers and its own entry. -/
structure Looked (s s' : Sys η) (ch : Fin IDE_CH_NR) (hd : Fin 2) : Prop where
  other : ∀ idx, idx ≠ ch → s'.gIdeCh idx = s.gIdeCh idx
  probed : Probed (s.gIdeCh ch).port (s'.gIdeCh ch).port
  irq : (s'.gIdeCh ch).irq = (s.gIdeCh ch).irq
  registered : s'.registered = s.registered
  valid : ((s'.gIdeCh ch).dev hd).valid = (s.gIdeCh ch).port.present hd
  sibling : ∀ d, d ≠ hd → (s'.gIdeCh ch).dev d = (s.gIdeCh ch).dev d

theorem own_of_irqs : ∀ ch, (List.finRange IDE_CH_NR).find? (fun idx => irqs idx = irqs ch) = some ch := by decide

/-- One pass of the inner loop, up to the scan. -/
theorem initHd_looks (al : Allocator η) (fuel : Nat) (hd : Fin 2) (vector : (s.gIdeCh ch).port.vector = irqs ch)
    (irq : ∀ idx, (s.gIdeCh idx).irq = irqs idx) (registered : irqs ch ∈ s.registered) :
    ∃ t, Looked s t ch hd ∧ t.scan = s.scan ∧ initHd al fuel ch s hd =
      if (s.gIdeCh ch).port.present hd then
        (ideGetPartition al (t.sector (ch, hd)) ⟨hdName ch hd⟩ fuel s.scan 0 0).map fun scan => { t with scan }
      else some t := by
  have named := ideGetIdentify_probes
    (s.onCh ch fun c => c.onDev hd fun d => { d with name := hdName ch hd, hd := ⟨hd⟩ }) ch hd
    (by rw [onCh_self, IdeCh.onDev]; dsimp only; rw [Function.update_self])
    (by rw [onCh_self]; exact vector ▸ registered)
    (by
      rw [← own_of_irqs ch]
      congr 1
      funext idx
      have wired : irqs ch =
          ((s.onCh ch fun c => c.onDev hd fun d => { d with name := hdName ch hd, hd := ⟨hd⟩ }).gIdeCh ch).port.vector := by
        rw [onCh_self]
        exact vector.symm
      simp only [onCh_irq (f := fun c => c.onDev hd fun d => { d with name := hdName ch hd, hd := ⟨hd⟩ }) fun c => rfl,
        irq, ← wired])
  obtain ⟨p, identified, probed⟩ := named
  rw [onCh_self] at identified probed
  change ideGetIdentify ch hd _ = some ((s.gIdeCh ch).port.present hd, _) at identified
  have merged : (fun c : IdeCh =>
        ({ (c.onDev hd fun d => { d with name := hdName ch hd, hd := ⟨hd⟩ }) with port := p } : IdeCh).onDev hd
          fun d => { d with valid := (s.gIdeCh ch).port.present hd }) =
      fun c => { (c.onDev hd fun _ => ⟨hdName ch hd, ⟨hd⟩, (s.gIdeCh ch).port.present hd⟩) with port := p } := by
    funext c
    unfold IdeCh.onDev
    dsimp only
    rw [Function.update_self, Function.update_idem]
  unfold initHd
  dsimp only
  rw [identified]
  simp only [Option.bind_eq_bind, Option.bind_some, onCh_onCh, merged]
  generalize looked : (s.onCh ch fun c =>
    { (c.onDev hd fun _ => ⟨hdName ch hd, ⟨hd⟩, (s.gIdeCh ch).port.present hd⟩) with port := p }) = t
  have here : t.gIdeCh ch =
      { ((s.gIdeCh ch).onDev hd fun _ => ⟨hdName ch hd, ⟨hd⟩, (s.gIdeCh ch).port.present hd⟩) with port := p } := by
    rw [← looked, onCh_self]
  have own : (t.gIdeCh ch).dev hd = ⟨hdName ch hd, ⟨hd⟩, (s.gIdeCh ch).port.present hd⟩ := by
    rw [here]
    exact Function.update_self ..
  refine ⟨t, ?_, by rw [← looked]; rfl, ?_⟩
  · constructor
    · intro idx different
      rw [← looked]
      exact onCh_other different ..
    · rw [here]
      exact probed
    · rw [here]
      rfl
    · rw [← looked]
      rfl
    · rw [own]
    · intro d different
      rw [here]
      exact Function.update_of_ne different ..
  · rw [own, IdeHd.drive, driveNr_val]
    cases (s.gIdeCh ch).port.present hd with
    | true =>
      have scan : t.scan = s.scan := by
        rw [← looked]
        rfl
      rw [scan, if_pos rfl, if_pos rfl]
      exact Option.map_eq_bind.symm
    | false => rfl

/-- What is the same on this channel is the same on all of them. -/
theorem Looked.keeps {t : Sys η} (looked : Looked s t ch hd) {γ : Type} (part : IdeCh → γ)
    (same : part (t.gIdeCh ch) = part (s.gIdeCh ch)) (idx : Fin IDE_CH_NR) : part (t.gIdeCh idx) = part (s.gIdeCh idx) := by
  by_cases here : idx = ch
  · rw [here]
    exact same
  · rw [looked.other idx here]

theorem Looked.hardware {t : Sys η} (looked : Looked s t ch hd) (before : SameHardware s₀ s) : SameHardware s₀ t := by
  constructor
  · intro idx
    rw [← before.present idx]
    exact looked.keeps (fun c => c.port.present) looked.probed.present idx
  · intro idx
    rw [← before.vector idx]
    exact looked.keeps (fun c => c.port.vector) looked.probed.vector idx
  · intro idx
    rw [← before.disk idx]
    exact looked.keeps (fun c => c.port.chan.disk) looked.probed.disk idx

/-- What was known of a drive stays, also of this one. -/
theorem Looked.valids {t : Sys η} (looked : Looked s t ch hd) {seen : List (Fin IDE_CH_NR × Fin 2)}
    (before : ∀ x ∈ seen, ((s.gIdeCh x.1).dev x.2).valid = s₀.present x)
    (present : (s.gIdeCh ch).port.present = (s₀.gIdeCh ch).port.present) :
    ∀ x ∈ seen ++ [(ch, hd)], ((t.gIdeCh x.1).dev x.2).valid = s₀.present x := by
  have own : ((t.gIdeCh ch).dev hd).valid = s₀.present (ch, hd) := by
    rw [looked.valid, present]
    rfl
  intro ⟨idx, d⟩ member
  by_cases last : (idx, d) = (ch, hd)
  · rw [last]
    exact own
  · have earlier : (idx, d) ∈ seen := by
      rcases List.mem_append.mp member with earlier | here
      · exact earlier
      · exact absurd (List.mem_singleton.mp here) last
    rw [← before _ earlier]
    by_cases here : idx = ch
    · have other : d ≠ hd := by
        rintro rfl
        exact last (by rw [here])
      subst here
      exact congrArg Dev.valid (looked.sibling d other)
    · rw [looked.other idx here]

/-- The entries of a drive in the order of the scan. -/
def entries (s : Sys η) (base : Fin IDE_CH_NR × Fin 2 → Word) (offsets : Fin IDE_CH_NR × Fin 2 → List Word)
    (x : Fin IDE_CH_NR × Fin 2) : List Found := scanned (s.sector x) (base x) (offsets x)

section Start

variable {base : Fin IDE_CH_NR × Fin 2 → Word} {offsets : Fin IDE_CH_NR × Fin 2 → List Word}
  {seen : List (Fin IDE_CH_NR × Fin 2)} {new : List Nat} {left : Nat}

/-- A drive that is there is scanned to the end. -/
theorem scan_appends (al : Allocator η) (readable : Readable s₀ fuel base offsets) {x : Fin IDE_CH_NR × Fin 2}
    (there : s₀.present x = true) (scan : Scan η) (ready : al.ready scan.heap (calls (s₀.sector x) fuel 0 0 + left)) :
    ∃ scan' new, ideGetPartition al (s₀.sector x) ⟨hdName x.1 x.2⟩ fuel scan 0 0 = some scan' ∧
      Appended al scan scan' new ∧ new.map scan'.ptns = partitions s₀ (entries s₀ base offsets) x ∧
        al.ready scan'.heap left := by
  obtain ⟨nr, visited⟩ := visit_wellFormed (readable.wellFormed x there) (readable.enough x) scan.ptnNr
  have matched : Matches al (s₀.sector x) ⟨hdName x.1 x.2⟩ scan left
      (ideGetPartition al (s₀.sector x) ⟨hdName x.1 x.2⟩ fuel scan 0 0) (visit (s₀.sector x) fuel scan.ptnNr 0 0) :=
    ideGetPartition_matches fuel left scan 0 0 ready
  rw [visited] at matched
  obtain ⟨scan', new, ran, appended, records, -, ready'⟩ := matched
  refine ⟨scan', new, ran, appended, ?_, ready'⟩
  rw [records, partitions, if_pos there]
  rfl

theorem requests_cons (s : Sys η) (fuel : Nat) (x : Fin IDE_CH_NR × Fin 2) (xs : List (Fin IDE_CH_NR × Fin 2)) :
    requests s fuel (x :: xs) = (if s.present x then calls (s.sector x) fuel 0 0 else 0) + requests s fuel xs := by
  unfold requests
  rw [List.map_cons, List.sum_cons]

theorem initHd_done (readable : Readable s₀ fuel base offsets) (hd : Fin 2) (rest : List (Fin IDE_CH_NR × Fin 2))
    (done : Done al (entries s₀ base offsets) s₀ s seen new (requests s₀ fuel ((ch, hd) :: rest) + left))
    (registered : irqs ch ∈ s.registered) :
    ∃ s' new', initHd al fuel ch s hd = some s' ∧
      Done al (entries s₀ base offsets) s₀ s' (seen ++ [(ch, hd)]) new' (requests s₀ fuel rest + left) ∧
        s'.registered = s.registered := by
  have ready := done.ready
  rw [requests_cons, Nat.add_assoc] at ready
  obtain ⟨t, looked, scan, result⟩ := initHd_looks al fuel hd
    ((done.hardware.vector ch).trans (readable.vectors ch)) done.irq registered
  have hardware := looked.hardware done.hardware
  have irq : ∀ idx, (t.gIdeCh idx).irq = irqs idx := by
    intro idx
    rw [← done.irq idx]
    exact looked.keeps IdeCh.irq looked.irq idx
  have valid := looked.valids done.valid (done.hardware.present ch)
  have present : (s.gIdeCh ch).port.present hd = s₀.present (ch, hd) := congrFun (done.hardware.present ch) hd
  rw [present] at result
  cases there : s₀.present (ch, hd) with
  | true =>
    rw [if_pos there] at ready
    obtain ⟨scan', later, ran, appended, records, ready'⟩ := scan_appends al readable there s.scan ready
    have sectors : t.sector (ch, hd) = s₀.sector (ch, hd) := by
      unfold Sys.sector Port.sector
      rw [hardware.disk ch]
    rw [there, if_pos rfl, sectors, ran] at result
    refine ⟨{ t with scan := scan' }, new ++ later, result, ?_, looked.registered⟩
    constructor
    · exact ⟨hardware.present, hardware.vector, hardware.disk⟩
    · exact irq
    · exact valid
    · exact done.appended.trans appended
    · have kept : new.map scan'.ptns = new.map s.scan.ptns := by
        apply List.map_congr_left
        intro a member
        exact appended.ptns a (done.appended.mem_live.mpr (.inr member))
      rw [List.map_append, kept, done.ptns, records, List.flatMap_append, List.flatMap_singleton]
    · exact ready'
  | false =>
    rw [there] at result
    refine ⟨t, new, result, ?_, looked.registered⟩
    constructor
    · exact hardware
    · exact irq
    · exact valid
    · rw [scan]
      exact done.appended
    · rw [scan, done.ptns, List.flatMap_append, List.flatMap_singleton]
      simp [partitions, there]
    · simp only [there, Bool.false_eq_true, if_false, Nat.zero_add] at ready
      rw [scan]
      exact ready

theorem initHds_done (readable : Readable s₀ fuel base offsets) (rest : List (Fin IDE_CH_NR × Fin 2))
    (done : Done al (entries s₀ base offsets) s₀ s seen new
      (requests s₀ fuel ((List.finRange 2).map (Prod.mk ch) ++ rest) + left)) (registered : irqs ch ∈ s.registered) :
    ∃ s' new', (List.finRange 2).foldlM (initHd al fuel ch) s = some s' ∧
      Done al (entries s₀ base offsets) s₀ s' (seen ++ (List.finRange 2).map (Prod.mk ch)) new'
        (requests s₀ fuel rest + left) := by
  have loop := foldlM_keeps (f := initHd al fuel ch) (I := fun hds t => ∃ mid new',
      mid ++ hds.map (Prod.mk ch) = seen ++ (List.finRange 2).map (Prod.mk ch) ∧
      Done al (entries s₀ base offsets) s₀ t mid new' (requests s₀ fuel (hds.map (Prod.mk ch) ++ rest) + left) ∧
        irqs ch ∈ t.registered) (by
    intro hd hds t ⟨mid, new, whole, done, registered⟩
    rw [List.map_cons, List.cons_append] at done
    obtain ⟨t', new', ran, done', same⟩ := initHd_done readable hd _ done registered
    refine ⟨t', ran, _, new', ?_, done', same ▸ registered⟩
    rw [← whole, List.map_cons, List.append_assoc, List.singleton_append])
    (List.finRange 2) (b := s) ⟨seen, new, rfl, done, registered⟩
  obtain ⟨s', ran, mid, new', whole, done', -⟩ := loop
  rw [List.map_nil, List.append_nil] at whole
  rw [whole] at done'
  exact ⟨s', new', ran, done'⟩

theorem initCh_done (readable : Readable s₀ fuel base offsets) (ch : Fin IDE_CH_NR) (rest : List (Fin IDE_CH_NR × Fin 2))
    (done : Done al (entries s₀ base offsets) s₀ s seen new
      (requests s₀ fuel ((List.finRange 2).map (Prod.mk ch) ++ rest) + left)) :
    ∃ s' new', initCh al fuel s ch = some s' ∧
      Done al (entries s₀ base offsets) s₀ s' (seen ++ (List.finRange 2).map (Prod.mk ch)) new'
        (requests s₀ fuel rest + left) := by
  unfold initCh
  apply initHds_done readable rest
  · constructor
    · constructor
      · intro idx
        exact onCh_forall (P := fun idx c => c.port.present = (s₀.gIdeCh idx).port.present) (f := IdeCh.start ch)
          done.hardware.present (done.hardware.present ch) idx
      · intro idx
        exact onCh_forall (P := fun idx c => c.port.vector = (s₀.gIdeCh idx).port.vector) (f := IdeCh.start ch)
          done.hardware.vector (done.hardware.vector ch) idx
      · intro idx
        exact onCh_forall (P := fun idx c => c.port.chan.disk = (s₀.gIdeCh idx).port.chan.disk) (f := IdeCh.start ch)
          done.hardware.disk (done.hardware.disk ch) idx
    · intro idx
      exact onCh_forall (P := fun idx c => c.irq = irqs idx) (f := IdeCh.start ch) done.irq (done.irq ch) idx
    · intro x member
      rw [← done.valid x member]
      exact onCh_forall (P := fun idx c => (c.dev x.2).valid = ((s.gIdeCh idx).dev x.2).valid) (f := IdeCh.start ch)
        (fun _ => rfl) rfl x.1
    · exact done.appended
    · exact done.ptns
    · exact done.ready
  · dsimp only
    rw [onCh_self]
    exact List.mem_cons.mpr (.inl (done.irq ch).symm)

theorem initChs_done (readable : Readable s₀ fuel base offsets)
    (done : Done al (entries s₀ base offsets) s₀ s [] [] (requests s₀ fuel drives + left)) :
    ∃ s' new', (List.finRange IDE_CH_NR).foldlM (initCh al fuel) s = some s' ∧
      Done al (entries s₀ base offsets) s₀ s' drives new' left := by
  have loop := foldlM_keeps (f := initCh al fuel) (I := fun chs t => ∃ mid new',
      mid ++ chs.flatMap (fun ch => (List.finRange 2).map (Prod.mk ch)) = drives ∧
      Done al (entries s₀ base offsets) s₀ t mid new'
        (requests s₀ fuel (chs.flatMap fun ch => (List.finRange 2).map (Prod.mk ch)) + left)) (by
    intro ch chs t ⟨mid, new, whole, done⟩
    rw [List.flatMap_cons] at done whole
    obtain ⟨t', new', ran, done'⟩ := initCh_done readable ch _ done
    exact ⟨t', ran, _, new', by rw [List.append_assoc, whole], done'⟩)
    (List.finRange IDE_CH_NR) (b := s) ⟨[], [], rfl, done⟩
  obtain ⟨s', ran, mid, new', whole, done'⟩ := loop
  rw [List.flatMap_nil, List.append_nil] at whole
  rw [whole] at done'
  have none : requests s₀ fuel (List.flatMap (fun ch => (List.finRange 2).map (Prod.mk ch)) []) + left = left := Nat.zero_add left
  rw [none] at done'
  exact ⟨s', new', ran, done'⟩

end Start

/-! The names of all partitions. -/

theorem hdName_length : ∀ x : Fin IDE_CH_NR × Fin 2, (hdName x.1 x.2).length = 3 := by decide

theorem hdName_injective : ∀ x y : Fin IDE_CH_NR × Fin 2, hdName x.1 x.2 = hdName y.1 y.2 → x = y := by decide

theorem drives_nodup : drives.Nodup := by decide

theorem mem_drives : ∀ x : Fin IDE_CH_NR × Fin 2, x ∈ drives := by decide

/-- A partition's name begins with its drive's. -/
theorem partitions_drive {found : Fin IDE_CH_NR × Fin 2 → List Found} {x : Fin IDE_CH_NR × Fin 2} {name : List UInt8}
    (named : name ∈ (partitions s found x).map Partition.IdePtn.name) : name.take 3 = hdName x.1 x.2 := by
  obtain ⟨ptn, member, rfl⟩ := List.mem_map.mp named
  unfold partitions at member
  split at member
  · obtain ⟨f, -, rfl⟩ := List.mem_map.mp member
    show (ptnName ⟨hdName x.1 x.2⟩ f.nr).take 3 = _
    rw [ptnName_eq, ← hdName_length x, List.take_left]
  · exact absurd member List.not_mem_nil

theorem names_nodup {base : Fin IDE_CH_NR × Fin 2 → Word} {offsets : Fin IDE_CH_NR × Fin 2 → List Word}
    {found : Fin IDE_CH_NR × Fin 2 → List Found} (each : ∀ x, s.present x = true →
      Exact (s.sector x) ⟨hdName x.1 x.2⟩ (base x) (offsets x) (found x)) :
    ((drives.flatMap (partitions s found)).map Partition.IdePtn.name).Nodup := by
  rw [List.map_flatMap, List.nodup_flatMap]
  constructor
  · intro x _
    unfold partitions
    split
    · rename_i there
      rw [List.map_map]
      exact (each x there).names
    · exact List.nodup_nil
  · apply drives_nodup.imp
    intro x y different name left right
    exact different (hdName_injective x y ((partitions_drive left).symm.trans (partitions_drive right)))

theorem ideInit_done {base : Fin IDE_CH_NR × Fin 2 → Word} {offsets : Fin IDE_CH_NR × Fin 2 → List Word}
    (al : Allocator η) (readable : Readable s fuel base offsets) {left : Nat}
    (ready : al.ready s.scan.heap (requests s fuel drives + left)) :
    ∃ s' new, ideInit al fuel s = some s' ∧
      Done al (entries s base offsets) { s with scan := s.unlisted } s' drives new left := by
  have readable' : Readable { s with scan := s.unlisted } fuel base offsets :=
    ⟨readable.vectors, readable.wellFormed, readable.few, readable.enough⟩
  apply initChs_done readable'
  constructor
  · exact ⟨fun _ => rfl, fun _ => rfl, fun _ => rfl⟩
  · intro ch
    rfl
  · intro x none
    exact absurd none List.not_mem_nil
  · exact Appended.refl _
  · rfl
  · exact ready

/-- The list of a start begins empty and ends with the partitions. -/
theorem Done.listed {found : Fin IDE_CH_NR × Fin 2 → List Found} {new : List Nat} {left : Nat}
    (done : Done al found { s with scan := s.unlisted } s' drives new left) : Holds s'.scan.tags ptnList (new.map Tag.ptnTag) :=
  done.appended.list [] (fun a none => absurd none List.not_mem_nil)
    (listInit_holds Tag.null s.scan.tags (show Tag.head ≠ Tag.tail by decide) trivial trivial)

/-- With a stack for `fuel` nested calls of the scan, and every request granted, `ide_init` finds the drives that are
there, and `ptn_list` has their partitions, by drive and then in the order of the tables, under names that are all
different. -/
theorem ideInit_lists {base : Fin IDE_CH_NR × Fin 2 → Word} {offsets : Fin IDE_CH_NR × Fin 2 → List Word}
    (readable : Readable s fuel base offsets) (ready : al.ready s.scan.heap (requests s fuel drives)) :
    ∃ s' new found, ideInit al fuel s = some s' ∧
      (∀ ch hd, ((s'.gIdeCh ch).dev hd).valid = s.present (ch, hd)) ∧
      (∀ x, s.present x = true → Exact (s.sector x) ⟨hdName x.1 x.2⟩ (base x) (offsets x) (found x)) ∧
      Holds s'.scan.tags ptnList (new.map Tag.ptnTag) ∧ new.map s'.scan.ptns = drives.flatMap (partitions s found) ∧
      ((drives.flatMap (partitions s found)).map Partition.IdePtn.name).Nodup ∧
      Appended al s.unlisted s'.scan new := by
  have found : ∀ x, s.present x = true →
      Exact (s.sector x) ⟨hdName x.1 x.2⟩ (base x) (offsets x) (entries s base offsets x) :=
    fun x there => scanned_exact (readable.few x there) (readable.wellFormed x there)
  obtain ⟨s', new, ran, done⟩ := ideInit_done al readable (show al.ready s.scan.heap (requests s fuel drives + 0) from ready)
  refine ⟨s', new, entries s base offsets, ran, ?_, found, done.listed, done.ptns, names_nodup found, done.appended⟩
  intro ch hd
  exact done.valid (ch, hd) (mem_drives (ch, hd))

/-- The two drives of the first channel: one with an extended partition, and one with a single primary one. -/
def sampleSectors : Fin 2 → Nat → Sector := fun d l j =>
  if d.val = 0 then sampleDisk (BitVec.ofNat 32 l) j.val else if l = 0 ∧ j.val = 450 then 0x83 else 0

def sampleStart : Sys HeapRun.Sys where
  gIdeCh ch := ⟨[], fun _ => ⟨[], ⟨0⟩, false⟩, 0,
    ⟨{ countingDrive with disk := sampleSectors, latency := fun n => n + 2 }, fun _ => ch.val = 0, fun _ _ => 0, irqs ch⟩⟩
  registered := []
  scan := empty

/-- The sectors of a drive as the scan sees them. -/
def sampleTables (d : Fin 2) : Word → Buffer := fun lba a =>
  Channel.byteOf sampleSectors d (lba.toNat % 2 ^ 28) (a % 512)

theorem drive_cases : ∀ d : Fin 2, d = driveNr 0 ∨ d = driveNr 1 := by decide

def sampleBase (x : Fin IDE_CH_NR × Fin 2) : Word := if x.2.val = 0 then 63 else 0

def sampleOffsets (x : Fin IDE_CH_NR × Fin 2) : List Word := if x.2.val = 0 then [0, 30] else []

theorem sampleMaster_wellFormed : WellFormed (sampleTables (driveNr 0)) 63 [0, 30] := by
  have mbr : ∀ i < 4, 0x05 = (ptable (sampleTables (driveNr 0) 0) i).type → i = 1 := by decide
  have first : ∀ i < 4, 0x05 = (ptable (sampleTables (driveNr 0) (63 + 0)) i).type → i = 1 := by decide
  have second : ∀ i < 4, 0x05 ≠ (ptable (sampleTables (driveNr 0) (63 + 30)) i).type := by decide
  have base : (ptable (sampleTables (driveNr 0) 0) 1).startLba = 63 := by decide
  have next : (ptable (sampleTables (driveNr 0) (63 + 0)) 1).startLba = 30 := by decide
  have last : EbrChain (sampleTables (driveNr 0)) 63 [30] := .last fun i extended => second i extended.1 extended.2
  have chain : EbrChain (sampleTables (driveNr 0)) 63 [0, 30] := by
    rw [← next] at last ⊢
    exact .next 1 ⟨by decide, by decide⟩ (fun i extended => first i extended.1 extended.2) last
  rw [← base] at chain ⊢
  exact .extended 1 ⟨by decide, by decide⟩ (fun i extended => mbr i extended.1 extended.2) (by decide) chain

theorem sampleStart_readable : Readable sampleStart 3 sampleBase sampleOffsets := by
  have wellFormed : ∀ d,
      WellFormed (sampleTables d) (if d.val = 0 then 63 else 0) (if d.val = 0 then [0, 30] else []) := by
    intro d
    rcases drive_cases d with rfl | rfl
    · exact sampleMaster_wellFormed
    · have none : ∀ i < 4, 0x05 ≠ (ptable (sampleTables (driveNr 1) 0) i).type := by decide
      exact .plain fun i extended => none i extended.1 extended.2
  constructor
  · intro ch
    rfl
  · intro x _
    exact wellFormed x.2
  · have few : ∀ d, (logicals (sampleTables d) (if d.val = 0 then 63 else 0)
        (if d.val = 0 then [0, 30] else [])).length < 995 := by decide
    intro x _
    exact few x.2
  · decide

theorem ideInit_lists_sample :
    ∃ s' new found, ideInit bootedHeap 3 sampleStart = some s' ∧
      (∀ ch hd, ((s'.gIdeCh ch).dev hd).valid = sampleStart.present (ch, hd)) ∧
      (∀ x, sampleStart.present x = true →
        Exact (sampleStart.sector x) ⟨hdName x.1 x.2⟩ (sampleBase x) (sampleOffsets x) (found x)) ∧
      Holds s'.scan.tags ptnList (new.map Tag.ptnTag) ∧
      new.map s'.scan.ptns = drives.flatMap (partitions sampleStart found) ∧
      ((drives.flatMap (partitions sampleStart found)).map Partition.IdePtn.name).Nodup ∧
      Appended bootedHeap sampleStart.unlisted s'.scan new :=
  ideInit_lists sampleStart_readable (empty_ready (by decide +kernel))

end KOS.IdeInit
