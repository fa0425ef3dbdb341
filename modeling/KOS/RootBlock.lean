import KOS.RootDir
import KOS.StringCompare

/-! `root_blk` in byte memory. `root_dir_init` clears a disk block where there are ten entries; `fs_mount` and
`fs_unmount` keep to the entry that they find. -/

namespace KOS.RootBlock
open KOS.ByteMemory KOS.LinkMemory KOS.Stdio KOS.Machine KOS.RootDir
open KOS.Fs (BLOCK_SIZE SIZEOF_DIRENT FT_DIR)

def FILE_NAME_MAX : Nat := 16
def OFF_FILENAME : Nat := 4
def OFF_F_TYPE : Nat := 20

/-- `sizeof(root_blk)`. -/
def rootBlkSize : Nat := SIZEOF_DIRENT * ROOT_DIR_MAX

/-- A byte written; for a copy of a name, with the address of the `filename` it is meant for. -/
structure Write where
  addr : Nat
  field : Option Nat
deriving DecidableEq

/-- Memory, and what has been written so far, the last write first. -/
structure Traced where
  mem : Memory
  log : List Write

def put (s : Traced) (field : Option Nat) (a : Nat) (v : UInt8) : Traced :=
  ⟨store s.mem a v, ⟨a % 2 ^ 32, field⟩ :: s.log⟩

def putWord (s : Traced) (a v : Nat) : Traced :=
  put (put (put (put s none a (byteOf v 0)) none (a + 1) (byteOf v 1)) none (a + 2) (byteOf v 2)) none (a + 3) (byteOf v 3)

/-- `while (n-- > 0) *pStr++ = ch`. -/
def memset : Traced → Nat → UInt8 → Nat → Traced
  | s, _, _, 0 => s
  | s, str, ch, n + 1 => memset (put s none str ch) (str + 1) ch n

/-- `while ((*dst++ = *src++))`. -/
def strcpy (field : Option Nat) : Nat → Traced → Nat → Nat → Option Traced
  | 0, _, _, _ => none
  | fuel + 1, s, dst, src =>
      let c := load s.mem src
      let s := put s field dst c
      if c = 0 then some s else strcpy field fuel s (dst + 1) (src + 1)

/-- The writes of `root_dir_init` to `root_blk`, which is at `blk`. -/
def rootDirInit (blk : Nat) (s : Traced) : Traced :=
  let dir := blk
  let s := memset s dir 0 BLOCK_SIZE
  let s := put s (some (dir + OFF_FILENAME)) (dir + OFF_FILENAME) 0x2E
  let s := putWord s dir 0
  let s := putWord s (dir + OFF_F_TYPE) FT_DIR
  let dir := dir + SIZEOF_DIRENT
  let s := put s (some (dir + OFF_FILENAME)) (dir + OFF_FILENAME) 0x2E
  let s := put s (some (dir + OFF_FILENAME)) (dir + OFF_FILENAME + 1) 0x2E
  let s := putWord s dir 0
  putWord s (dir + OFF_F_TYPE) FT_DIR

/-- `while (dir_idx < ROOT_DIR_MAX)`, with `left` entries to go: the first entry not in use. -/
def findFree (m : Memory) (blk : Nat) : (left dirIdx : Nat) → Option Nat
  | 0, _ => none
  | left + 1, dirIdx =>
      if FT_UNKNOWN = load32 m (blk + SIZEOF_DIRENT * dirIdx + OFF_F_TYPE) then some dirIdx
      else findFree m blk left (dirIdx + 1)

/-- The entry that `fs_mount` makes; `none` if the assertion fails. `name` is the address of `ptn->name`. -/
def fsMount (fuel blk name inodeBase : Nat) (s : Traced) : Option Traced :=
  (findFree s.mem blk ROOT_DIR_MAX 0).bind fun dirIdx =>
    let dir := blk + SIZEOF_DIRENT * dirIdx
    (strcpy (some (dir + OFF_FILENAME)) fuel s (dir + OFF_FILENAME) name).bind fun s =>
      some (putWord (putWord s dir inodeBase) (dir + OFF_F_TYPE) FT_DIR)

def fsUnmount (fuel blk name : Nat) : (left dirIdx : Nat) → Traced → Option Traced
  | 0, _, s => some s
  | left + 1, dirIdx, s =>
      let dir := blk + SIZEOF_DIRENT * dirIdx
      (StringCompare.strcmp s.mem fuel (dir + OFF_FILENAME) name).bind fun r =>
        if r = 0 then some (putWord s (dir + OFF_F_TYPE) FT_UNKNOWN)
        else fsUnmount fuel blk name left (dirIdx + 1) s

inductive Call where
  | mount (name inodeBase : Nat)
  | unmount (name : Nat)

def step (fuel blk : Nat) (s : Traced) : Call → Option Traced
  | .mount name inodeBase => fsMount fuel blk name inodeBase s
  | .unmount name => fsUnmount fuel blk name ROOT_DIR_MAX 0 s

/-- The call is about a partition. -/
def Call.about (ptns : Set Nat) : Call → Prop
  | .mount name _ => name ∈ ptns
  | .unmount name => name ∈ ptns

/-- Every partition has a name of at most seven characters, away from the block that is cleared. -/
def Named (m : Memory) (blk : Nat) (ptns : Set Nat) : Prop :=
  ∀ name ∈ ptns, ∃ text, text.length ≤ 7 ∧ CString (Set.Ico blk (blk + BLOCK_SIZE)) m name text

/-- The write stays inside `root_blk`, and inside the `filename` it is meant for. -/
def Confined (blk : Nat) (w : Write) : Prop :=
  w.addr ∈ Set.Ico blk (blk + rootBlkSize) ∧ ∀ f ∈ w.field, w.addr ∈ Set.Ico f (f + FILE_NAME_MAX)

/-- All writes since `m` are inside, and no other memory has changed. -/
structure StaysInside (blk : Nat) (m : Memory) (s : Traced) : Prop where
  writes : ∀ w ∈ s.log, Confined blk w
  others : ∀ x, x ∉ Set.Ico blk (blk + rootBlkSize) → s.mem x = m x

/-! What a piece of code writes. -/

/-- From `s` to `s'` only `ok` bytes are written, and the log has them. -/
structure Writes (ok : Write → Prop) (s s' : Traced) : Prop where
  log : ∃ later, s'.log = later ++ s.log ∧ ∀ w ∈ later, ok w
  mem : ∀ x, (∀ w, ok w → w.addr ≠ x) → s'.mem x = s.mem x

variable {ok : Write → Prop} {s s' s'' : Traced} {field : Option Nat} {a : Nat}

theorem Writes.refl (ok : Write → Prop) (s : Traced) : Writes ok s s :=
  ⟨⟨[], rfl, fun _ member => absurd member List.not_mem_nil⟩, fun _ _ => rfl⟩

theorem Writes.trans (first : Writes ok s s') (second : Writes ok s' s'') : Writes ok s s'' := by
  obtain ⟨early, same, inside⟩ := first.log
  obtain ⟨later, same', inside'⟩ := second.log
  refine ⟨⟨later ++ early, ?_, ?_⟩, ?_⟩
  · rw [same', same, List.append_assoc]
  · intro w member
    rcases List.mem_append.mp member with last | before
    · exact inside' w last
    · exact inside w before
  · intro x outside
    exact (second.mem x outside).trans (first.mem x outside)

theorem Writes.mono {ok' : Write → Prop} (writes : Writes ok s s') (more : ∀ w, ok w → ok' w) : Writes ok' s s' := by
  obtain ⟨later, same, inside⟩ := writes.log
  exact ⟨⟨later, same, fun w member => more w (inside w member)⟩,
    fun x outside => writes.mem x fun w allowed => outside w (more w allowed)⟩

theorem Writes.kept {w : Write} (writes : Writes ok s s') (member : w ∈ s.log) : w ∈ s'.log := by
  obtain ⟨later, same, -⟩ := writes.log
  rw [same]
  exact List.mem_append_right _ member

theorem put_writes (v : UInt8) (allowed : ok ⟨a % 2 ^ 32, field⟩) : Writes ok s (put s field a v) := by
  refine ⟨⟨[⟨a % 2 ^ 32, field⟩], rfl, ?_⟩, ?_⟩
  · intro w member
    rw [List.mem_singleton.mp member]
    exact allowed
  · intro x outside
    exact if_neg fun same => outside _ allowed same.symm

theorem putWord_writes (v : Nat) (allowed : ∀ i < 4, ok ⟨(a + i) % 2 ^ 32, none⟩) : Writes ok s (putWord s a v) := by
  have first := put_writes (s := s) (byteOf v 0) (allowed 0 (by decide))
  exact ((first.trans (put_writes _ (allowed 1 (by decide)))).trans (put_writes _ (allowed 2 (by decide)))).trans
    (put_writes _ (allowed 3 (by decide)))

theorem memset_writes (ch : UInt8) {n : Nat} (allowed : ∀ i < n, ok ⟨(a + i) % 2 ^ 32, none⟩) :
    Writes ok s (memset s a ch n) := by
  induction n generalizing s a with
  | zero => exact Writes.refl ok s
  | succ n ih =>
    apply (put_writes ch (allowed 0 (Nat.succ_pos n))).trans
    apply ih
    intro i inside
    rw [Nat.add_assoc, Nat.add_comm 1]
    exact allowed (i + 1) (Nat.succ_lt_succ inside)

theorem memset_mem (s : Traced) (a : Nat) (ch : UInt8) (n : Nat) :
    (memset s a ch n).mem = ByteMemory.memset s.mem a ch n := by
  induction n generalizing s a with
  | zero => rfl
  | succ n ih => exact ih (put s none a ch) (a + 1)

theorem strcpy_mem (field : Option Nat) (fuel : Nat) (s : Traced) (dst src : Nat) :
    (strcpy field fuel s dst src).map Traced.mem = Stdio.strcpy fuel s.mem dst src := by
  induction fuel generalizing s dst src with
  | zero => rfl
  | succ fuel ih =>
    rw [strcpy, Stdio.strcpy]
    by_cases last : load s.mem src = 0
    · simp only [if_pos last]
      rfl
    · simp only [if_neg last]
      exact ih (put s field dst (load s.mem src)) (dst + 1) (src + 1)

theorem memset_log (s : Traced) (a : Nat) (ch : UInt8) {n i : Nat} (inside : i < n) :
    ⟨(a + i) % 2 ^ 32, none⟩ ∈ (memset s a ch n).log := by
  induction n generalizing s a i with
  | zero => omega
  | succ n ih =>
    rw [memset]
    cases i with
    | zero =>
      have later : Writes (fun _ => True) (put s none a ch) (memset (put s none a ch) (a + 1) ch n) :=
        memset_writes ch fun _ _ => trivial
      exact later.kept List.mem_cons_self
    | succ i =>
      have next := ih (put s none a ch) (a + 1) (Nat.lt_of_succ_lt_succ inside)
      rw [Nat.add_assoc, Nat.add_comm 1] at next
      exact next

/-- A copy of a string that no write reaches: its characters and the NUL. -/
theorem strcpy_writes {W : Set Nat} {fuel dst src : Nat} {text : List UInt8} (source : CString W s.mem src text)
    (reached : ∀ w, ok w → w.addr ∈ W) (allowed : ∀ i ≤ text.length, ok ⟨(dst + i) % 2 ^ 32, field⟩)
    (copied : strcpy field fuel s dst src = some s') : Writes ok s s' := by
  induction text generalizing fuel s dst src with
  | nil =>
    cases fuel with
    | zero => cases copied
    | succ fuel =>
      rw [strcpy] at copied
      simp only [source.2, if_true] at copied
      rw [← Option.some.inj copied]
      exact put_writes 0 (allowed 0 le_rfl)
  | cons b rest ih =>
    cases fuel with
    | zero => cases copied
    | succ fuel =>
      obtain ⟨-, byte, nonzero, later⟩ := source
      rw [strcpy] at copied
      simp only [byte, if_neg nonzero] at copied
      have first : Writes ok s (put s field dst b) := put_writes b (allowed 0 (Nat.zero_le _))
      have changes : ChangesOnly W s.mem (put s field dst b).mem := by
        intro x outside
        apply first.mem
        intro w permitted same
        rw [← same] at outside
        exact outside (reached w permitted)
      apply first.trans
      apply ih (later.congr changes) _ copied
      intro i inside
      rw [Nat.add_assoc, Nat.add_comm 1]
      exact allowed (i + 1) (Nat.succ_le_succ inside)

/-! The entries. -/

variable {m : Memory} {blk fuel name : Nat} {ptns : Set Nat}

theorem confined_of {x : Nat} (inside : blk ≤ x ∧ x < blk + 240) (meant : ∀ f ∈ field, f ≤ x ∧ x < f + 16) :
    Confined blk ⟨x, field⟩ := ⟨inside, meant⟩

theorem confined_word {dirIdx o : Nat} (fits : blk + BLOCK_SIZE ≤ 2 ^ 32) (entry : dirIdx < ROOT_DIR_MAX)
    (inside : o < SIZEOF_DIRENT) : Confined blk ⟨(blk + SIZEOF_DIRENT * dirIdx + o) % 2 ^ 32, none⟩ := by
  unfold BLOCK_SIZE ROOT_DIR_MAX SIZEOF_DIRENT at *
  rw [Nat.mod_eq_of_lt (by omega)]
  apply confined_of
  · omega
  · exact fun _ none => absurd none.symm (Option.some_ne_none _)

theorem confined_name {dirIdx i : Nat} (fits : blk + BLOCK_SIZE ≤ 2 ^ 32) (entry : dirIdx < ROOT_DIR_MAX) (short : i ≤ 7) :
    Confined blk ⟨(blk + SIZEOF_DIRENT * dirIdx + OFF_FILENAME + i) % 2 ^ 32,
      some (blk + SIZEOF_DIRENT * dirIdx + OFF_FILENAME)⟩ := by
  unfold BLOCK_SIZE ROOT_DIR_MAX SIZEOF_DIRENT OFF_FILENAME at *
  rw [Nat.mod_eq_of_lt (by omega)]
  apply confined_of
  · omega
  · intro f same
    rw [← Option.some.inj same]
    omega

/-- A word of entry `dirIdx`. -/
theorem putWord_confined (s : Traced) (dirIdx o v : Nat) (fits : blk + BLOCK_SIZE ≤ 2 ^ 32) (entry : dirIdx < ROOT_DIR_MAX)
    (inside : o + 4 ≤ SIZEOF_DIRENT) : Writes (Confined blk) s (putWord s (blk + SIZEOF_DIRENT * dirIdx + o) v) := by
  apply putWord_writes
  intro i small
  rw [Nat.add_assoc]
  exact confined_word fits entry (by omega)

theorem findFree_bound {left dirIdx i : Nat} (found : findFree m blk left dirIdx = some i) : i < dirIdx + left := by
  induction left generalizing dirIdx with
  | zero => cases found
  | succ left ih =>
    rw [findFree] at found
    split_ifs at found
    · rw [← Option.some.inj found]
      omega
    · have below := ih found
      omega

theorem Named.congr {m' : Memory} (named : Named m blk ptns) (changes : ChangesOnly (Set.Ico blk (blk + BLOCK_SIZE)) m m') :
    Named m' blk ptns := by
  intro name member
  obtain ⟨text, short, source⟩ := named name member
  exact ⟨text, short, source.congr changes⟩

theorem confined_reached {w : Write} (confined : Confined blk w) : w.addr ∈ Set.Ico blk (blk + BLOCK_SIZE) := by
  have low := confined.1.1
  have high := confined.1.2
  unfold rootBlkSize SIZEOF_DIRENT ROOT_DIR_MAX at high
  unfold BLOCK_SIZE
  exact ⟨low, by omega⟩

theorem Writes.changes (writes : Writes (Confined blk) s s') :
    ChangesOnly (Set.Ico blk (blk + BLOCK_SIZE)) s.mem s'.mem := by
  intro x outside
  apply writes.mem
  intro w confined same
  rw [← same] at outside
  exact outside (confined_reached confined)

theorem fsMount_writes {inodeBase : Nat} (fits : blk + BLOCK_SIZE ≤ 2 ^ 32) (named : Named s.mem blk ptns)
    (member : name ∈ ptns) (mounted : fsMount fuel blk name inodeBase s = some s') : Writes (Confined blk) s s' := by
  obtain ⟨dirIdx, found, copied_rest⟩ := Option.bind_eq_some_iff.mp mounted
  obtain ⟨s1, copied, rest⟩ := Option.bind_eq_some_iff.mp copied_rest
  have entry : dirIdx < ROOT_DIR_MAX := by
    have below := findFree_bound found
    omega
  obtain ⟨text, short, source⟩ := named name member
  have copy : Writes (Confined blk) s s1 := by
    apply strcpy_writes source (fun w confined => confined_reached confined) _ copied
    intro i inside
    exact confined_name fits entry (by omega)
  rw [← Option.some.inj rest]
  apply copy.trans
  have number : Writes (Confined blk) s1 (putWord s1 (blk + SIZEOF_DIRENT * dirIdx) inodeBase) :=
    putWord_confined s1 dirIdx 0 inodeBase fits entry (by decide)
  exact number.trans (putWord_confined _ dirIdx OFF_F_TYPE FT_DIR fits entry (by decide))

theorem fsUnmount_writes {left dirIdx : Nat} (fits : blk + BLOCK_SIZE ≤ 2 ^ 32) (entries : dirIdx + left ≤ ROOT_DIR_MAX)
    (unmounted : fsUnmount fuel blk name left dirIdx s = some s') : Writes (Confined blk) s s' := by
  induction left generalizing dirIdx with
  | zero =>
    rw [← Option.some.inj unmounted]
    exact Writes.refl _ s
  | succ left ih =>
    obtain ⟨r, -, rest⟩ := Option.bind_eq_some_iff.mp unmounted
    split_ifs at rest
    · rw [← Option.some.inj rest]
      exact putWord_confined s dirIdx OFF_F_TYPE _ fits (by omega) (by decide)
    · exact ih (by omega) rest

/-- One call. -/
theorem step_writes {c : Call} (fits : blk + BLOCK_SIZE ≤ 2 ^ 32) (named : Named s.mem blk ptns) (about : c.about ptns)
    (moved : step fuel blk s c = some s') : Writes (Confined blk) s s' := by
  cases c with
  | mount name inodeBase => exact fsMount_writes fits named about moved
  | unmount name => exact fsUnmount_writes fits (by omega) moved

theorem name_writes (s : Traced) (dirIdx i : Nat) (v : UInt8) (fits : blk + BLOCK_SIZE ≤ 2 ^ 32)
    (entry : dirIdx < ROOT_DIR_MAX) (short : i ≤ 7) :
    Writes (Confined blk) s
      (put s (some (blk + SIZEOF_DIRENT * dirIdx + OFF_FILENAME)) (blk + SIZEOF_DIRENT * dirIdx + OFF_FILENAME + i) v) :=
  put_writes v (confined_name fits entry short)

/-- After the block is cleared, `root_dir_init` writes to the first two entries. -/
theorem rootDirInit_writes (s : Traced) (fits : blk + BLOCK_SIZE ≤ 2 ^ 32) :
    Writes (Confined blk) (memset s blk 0 BLOCK_SIZE) (rootDirInit blk s) := by
  unfold rootDirInit
  dsimp only
  generalize memset s blk 0 BLOCK_SIZE = cleared
  apply (name_writes cleared 0 0 0x2E fits (by decide) (by decide)).trans
  apply (putWord_confined _ 0 0 0 fits (by decide) (by decide)).trans
  apply (putWord_confined _ 0 OFF_F_TYPE FT_DIR fits (by decide) (by decide)).trans
  apply (name_writes _ 1 0 0x2E fits (by decide) (by decide)).trans
  apply (name_writes _ 1 1 0x2E fits (by decide) (by decide)).trans
  apply (putWord_confined _ 1 0 0 fits (by decide) (by decide)).trans
  exact putWord_confined _ 1 OFF_F_TYPE FT_DIR fits (by decide) (by decide)

/-! Runs. -/

/-- What `root_dir_init` has written after its first statement. -/
def cleared (blk : Nat) (m : Memory) : Traced := memset ⟨m, []⟩ blk 0 BLOCK_SIZE

/-- `root_dir_init`, at boot. -/
def booted (blk : Nat) (m : Memory) : Traced := rootDirInit blk ⟨m, []⟩

theorem cleared_changes (fits : blk + BLOCK_SIZE ≤ 2 ^ 32) :
    ChangesOnly (Set.Ico blk (blk + BLOCK_SIZE)) m (cleared blk m).mem := by
  unfold cleared
  rw [memset_mem]
  exact memset_changes m 0 fits

/-- Every call keeps to `root_blk`, and leaves the names of the partitions alone. -/
theorem run_writes (fits : blk + BLOCK_SIZE ≤ 2 ^ 32) (named : Named m blk ptns)
    (run : Reach (step fuel blk) (fun _ c => c.about ptns) (booted blk m) s) :
    Writes (Confined blk) (cleared blk m) s := by
  have start : Writes (Confined blk) (cleared blk m) (booted blk m) := rootDirInit_writes ⟨m, []⟩ fits
  apply Reach.invariant _ start run
  intro before c after sofar about moved
  have still : Named before.mem blk ptns := named.congr ((cleared_changes fits).trans sofar.changes)
  exact sofar.trans (step_writes fits still about moved)

/-- The byte behind `root_blk` is cleared with it. -/
theorem overrun (fits : blk + BLOCK_SIZE ≤ 2 ^ 32) (writes : Writes (Confined blk) (cleared blk m) s) :
    ¬StaysInside blk m s := by
  intro stays
  have behind : ⟨(blk + rootBlkSize) % 2 ^ 32, none⟩ ∈ (cleared blk m).log := memset_log ⟨m, []⟩ blk 0 (by decide)
  have high := (stays.writes _ (writes.kept behind)).1.2
  rw [Nat.mod_eq_of_lt (by unfold BLOCK_SIZE at fits; unfold rootBlkSize SIZEOF_DIRENT ROOT_DIR_MAX; omega)] at high
  exact absurd high (Nat.lt_irrefl _)

/-- In every state of every run the writes have left `root_blk`: those of the `memset` in `root_dir_init`. All later
ones are confined, and the rest of the memory is as it was but for the block that was cleared. -/
theorem rootBlk_overrun (m : Memory) (ptns : Set Nat) (fuel : Nat) (fits : blk + BLOCK_SIZE ≤ 2 ^ 32)
    (named : Named m blk ptns) (run : Reach (step fuel blk) (fun _ c => c.about ptns) (booted blk m) s) :
    ¬StaysInside blk m s ∧
      (∃ later, s.log = later ++ (cleared blk m).log ∧ ∀ w ∈ later, Confined blk w) ∧
      ∀ x, x ∉ Set.Ico blk (blk + rootBlkSize) → s.mem x = if x ∈ Set.Ico blk (blk + BLOCK_SIZE) then 0 else m x := by
  have writes := run_writes fits named run
  refine ⟨overrun fits writes, writes.log, ?_⟩
  intro x outside
  have kept : s.mem x = (cleared blk m).mem x := by
    apply writes.mem
    intro w confined same
    rw [← same] at outside
    exact outside confined.1
  rw [kept]
  by_cases inside : x ∈ Set.Ico blk (blk + BLOCK_SIZE)
  · rw [if_pos inside]
    unfold cleared
    rw [memset_mem]
    exact memset_at m 0 fits inside
  · rw [if_neg inside]
    exact cleared_changes fits x inside

/-- The name "sda_1" at 0x100, and ones in every other byte. -/
def oneName : Memory := fun a => if a < 0x106 then ("sda_1".toList.map ch).getD (a - 0x100) 0 else 1

theorem oneName_named : Named oneName 0x2000 {0x100} := by
  intro name member
  rw [Set.mem_singleton_iff.mp member]
  refine ⟨"sda_1".toList.map ch, by decide, ?_⟩
  apply cString_of_bytes
  · intro k within inside
    have low := inside.1
    have length : ("sda_1".toList.map ch).length = 5 := by decide
    omega
  · decide +kernel
  · decide +kernel

theorem oneName_mounts : (step 8 0x2000 (booted 0x2000 oneName) (.mount 0x100 1)).isSome := by decide +kernel

def oneMounted : Traced := (step 8 0x2000 (booted 0x2000 oneName) (.mount 0x100 1)).get oneName_mounts

theorem rootBlk_overrun_oneMounted :
    ¬StaysInside 0x2000 oneName oneMounted ∧
      (∃ later, oneMounted.log = later ++ (cleared 0x2000 oneName).log ∧ ∀ w ∈ later, Confined 0x2000 w) ∧
      ∀ x, x ∉ Set.Ico 0x2000 (0x2000 + rootBlkSize) →
        oneMounted.mem x = if x ∈ Set.Ico 0x2000 (0x2000 + BLOCK_SIZE) then 0 else oneName x :=
  rootBlk_overrun oneName {0x100} 8 (by decide) oneName_named
    (Reach.cons (show Call.about {0x100} (.mount 0x100 1) from Set.mem_singleton 0x100)
      (Option.some_get oneName_mounts).symm (Reach.refl _))

/-- After `root_dir_init` alone, the variable behind `root_blk` has lost its content. -/
theorem boot_clears_behind : ¬StaysInside 0x2000 oneName (booted 0x2000 oneName) :=
  overrun (by decide) (rootDirInit_writes ⟨oneName, []⟩ (by decide))

end KOS.RootBlock
