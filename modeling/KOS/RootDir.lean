import KOS.Fs
import KOS.Machine

/-! The root directory: ten entries in memory, "." and ".." and one for each mounted partition.
`fs_unmount` frees an entry and leaves its name, which the next `fs_unmount` finds again. -/

namespace KOS.RootDir
open KOS.Fs KOS.Machine

def ROOT_DIR_MAX : Nat := 10
def FT_UNKNOWN : Nat := 0

/-- `struct dirent`. The name is what `strcmp` sees of it: the bytes before the first zero. -/
structure Dirent where
  iNo : Nat
  filename : List UInt8
  fType : Nat
deriving DecidableEq

/-- `root_dir.inode->i_size` and `root_blk`. -/
structure Root where
  iSize : Nat
  blk : List Dirent
deriving DecidableEq

def rootDirInit : Root where
  iSize := SIZEOF_DIRENT * 2
  blk := ⟨0, [0x2E], FT_DIR⟩ :: ⟨0, [0x2E, 0x2E], FT_DIR⟩ ::
    List.replicate (ROOT_DIR_MAX - 2) ⟨0, [], FT_UNKNOWN⟩

/-- The loop of `fs_mount`; `none` when it runs off the end, where the assertion fails. -/
def addEntry (name : List UInt8) (iNo : Nat) : List Dirent → Option (List Dirent)
  | [] => none
  | d :: rest =>
      if d.fType = FT_UNKNOWN then some (⟨iNo, name, FT_DIR⟩ :: rest)
      else (addEntry name iNo rest).map (d :: ·)

def addToDir (root : Root) (name : List UInt8) (iNo : Nat) : Option Root :=
  (addEntry name iNo root.blk).map fun blk => ⟨word (root.iSize + SIZEOF_DIRENT), blk⟩

/-- The loop of `fs_unmount`: the first entry of that name, free or not. -/
def clearEntry (name : List UInt8) : List Dirent → Option (List Dirent)
  | [] => none
  | d :: rest =>
      if d.filename = name then some ({ d with fType := FT_UNKNOWN } :: rest)
      else (clearEntry name rest).map (d :: ·)

def fsUnmount (root : Root) (name : List UInt8) : Root :=
  match clearEntry name root.blk with
  | some blk => ⟨wordSub root.iSize SIZEOF_DIRENT, blk⟩
  | none => root

/-- The inode numbers of a partition follow those of the partitions mounted before it. -/
def assignBase (inodeMax inodeBase inodeCnt : Nat) : Nat × Nat :=
  if 0 = inodeBase then (word (inodeMax + 1), word (inodeMax + inodeCnt)) else (inodeBase, inodeMax)

/-- What `fs_mount` and `fs_unmount` know of a partition. -/
structure Ptn where
  name : List UInt8
  inodeBase : Nat
deriving DecidableEq

structure State where
  root : Root
  inodeMax : Nat
  ptns : List Ptn
deriving DecidableEq

/-- A call on the partition at place `k` of `ptn_list`; a mount finds `inodeCnt` in the super block. -/
inductive Call where
  | mount (k inodeCnt : Nat)
  | unmount (k : Nat)

def step (s : State) : Call → Option State
  | .mount k inodeCnt => do
      let ptn ← s.ptns[k]?
      let (inodeBase, inodeMax) := assignBase s.inodeMax ptn.inodeBase inodeCnt
      let root ← addToDir s.root ptn.name inodeBase
      some ⟨root, inodeMax, s.ptns.set k { ptn with inodeBase }⟩
  | .unmount k => do
      let ptn ← s.ptns[k]?
      some { s with root := fsUnmount s.root ptn.name }

/-! Entries in use. -/

def inUse (d : Dirent) : Bool := d.fType ≠ FT_UNKNOWN

/-- The number of entries whose type is not `FT_UNKNOWN`. -/
def live (blk : List Dirent) : Nat := blk.countP inUse

/-- The entry that `fs_unmount` takes. -/
def firstNamed (blk : List Dirent) (name : List UInt8) : Option Dirent := blk.find? (·.filename = name)

theorem addEntry_live {name : List UInt8} {iNo : Nat} {blk blk' : List Dirent}
    (added : addEntry name iNo blk = some blk') : live blk' = live blk + 1 ∧ blk'.length = blk.length := by
  induction blk generalizing blk' with
  | nil => cases added
  | cons d rest ih =>
    unfold addEntry at added
    by_cases free : d.fType = FT_UNKNOWN
    · rw [if_pos free] at added
      cases added
      have used : inUse ⟨iNo, name, FT_DIR⟩ = true := rfl
      have unused : ¬inUse d = true := by simp [inUse, free]
      unfold live
      rw [List.countP_cons_of_pos used, List.countP_cons_of_neg unused]
      exact ⟨rfl, rfl⟩
    · rw [if_neg free] at added
      obtain ⟨rest', later, rfl⟩ := Option.map_eq_some_iff.mp added
      obtain ⟨count, length⟩ := ih later
      unfold live at *
      rw [List.countP_cons, List.countP_cons, count, List.length_cons, List.length_cons, length]
      exact ⟨by omega, rfl⟩

/-- With an entry left to take, `fs_mount` gets past its assertion. -/
theorem addEntry_room (name : List UInt8) (iNo : Nat) {blk : List Dirent} (room : live blk < blk.length) :
    ∃ blk', addEntry name iNo blk = some blk' := by
  induction blk with
  | nil => exact absurd room (Nat.lt_irrefl 0)
  | cons d rest ih =>
    unfold addEntry
    by_cases free : d.fType = FT_UNKNOWN
    · rw [if_pos free]
      exact ⟨_, rfl⟩
    · rw [if_neg free]
      have used : inUse d = true := by simp [inUse, free]
      unfold live at room
      rw [List.countP_cons_of_pos used, List.length_cons] at room
      obtain ⟨rest', added⟩ := ih (by unfold live; omega)
      rw [added]
      exact ⟨_, rfl⟩

theorem addToDir_room (name : List UInt8) (iNo : Nat) {root : Root} (room : live root.blk < root.blk.length) :
    ∃ root', addToDir root name iNo = some root' := by
  obtain ⟨blk, added⟩ := addEntry_room name iNo room
  rw [addToDir, added]
  exact ⟨_, rfl⟩

theorem firstNamed_cons_of_eq {d : Dirent} {rest : List Dirent} {name : List UInt8} (here : d.filename = name) :
    firstNamed (d :: rest) name = some d := List.find?_cons_of_pos (decide_eq_true here)

theorem firstNamed_cons_of_ne {d : Dirent} {rest : List Dirent} {name : List UInt8} (other : d.filename ≠ name) :
    firstNamed (d :: rest) name = firstNamed rest name :=
  List.find?_cons_of_neg (by rw [decide_eq_true_iff]; exact other)

theorem firstNamed_some {name : List UInt8} {blk : List Dirent} {d : Dirent} (found : firstNamed blk name = some d) :
    d ∈ blk ∧ d.filename = name := by
  unfold firstNamed at found
  have named := List.find?_some found
  exact ⟨List.mem_of_find?_eq_some found, of_decide_eq_true named⟩

theorem clearEntry_none {name : List UInt8} {blk : List Dirent} (absent : firstNamed blk name = none) :
    clearEntry name blk = none := by
  induction blk with
  | nil => rfl
  | cons d rest ih =>
    by_cases here : d.filename = name
    · rw [firstNamed_cons_of_eq here] at absent
      cases absent
    · rw [firstNamed_cons_of_ne here] at absent
      rw [clearEntry, if_neg here, ih absent]
      rfl

/-- Clearing an entry takes one from the count when the entry was in use, and nothing otherwise. -/
theorem clearEntry_live {name : List UInt8} {blk : List Dirent} {d : Dirent} (found : firstNamed blk name = some d) :
    ∃ blk', clearEntry name blk = some blk' ∧ blk'.length = blk.length ∧ live blk = live blk' + (inUse d).toNat := by
  induction blk with
  | nil => cases found
  | cons e rest ih =>
    by_cases here : e.filename = name
    · rw [firstNamed_cons_of_eq here] at found
      obtain rfl := Option.some.inj found
      have cleared : ¬inUse { e with fType := FT_UNKNOWN } = true := by simp [inUse]
      refine ⟨{ e with fType := FT_UNKNOWN } :: rest, by rw [clearEntry, if_pos here], rfl, ?_⟩
      unfold live
      rw [List.countP_cons_of_neg cleared, List.countP_cons]
      cases inUse e <;> rfl
    · rw [firstNamed_cons_of_ne here] at found
      obtain ⟨rest', cleared, length, count⟩ := ih found
      refine ⟨e :: rest', ?_, ?_, ?_⟩
      · rw [clearEntry, if_neg here, cleared]
        rfl
      · rw [List.length_cons, length, List.length_cons]
      · unfold live at *
        rw [List.countP_cons, List.countP_cons, count]
        omega

/-! Runs. -/

/-- The size of the directory is that of its entries in use. -/
def Accounted (s : State) : Prop := s.root.iSize = SIZEOF_DIRENT * live s.root.blk

/-- An entry in use carries the name of partition `k`. -/
def Mounted (s : State) (k : Nat) : Prop :=
  ∃ ptn, s.ptns[k]? = some ptn ∧ ∃ d ∈ s.root.blk, d.filename = ptn.name ∧ inUse d = true

/-- The first entry that carries the name of partition `k`, if there is one, is in use. -/
def FirstInUse (s : State) (k : Nat) : Prop :=
  ∀ ptn ∈ s.ptns[k]?, ∀ d ∈ firstNamed s.root.blk ptn.name, inUse d = true

instance (s : State) (k : Nat) : Decidable (FirstInUse s k) :=
  inferInstanceAs (Decidable (∀ ptn ∈ s.ptns[k]?, ∀ d ∈ firstNamed s.root.blk ptn.name, inUse d = true))

/-- Every `fs_unmount` of the run finds an entry in use first, or none of that name. -/
def Met (s : State) : Call → Prop
  | .mount _ _ => True
  | .unmount k => FirstInUse s k

instance (s : State) : DecidablePred (Met s)
  | .mount _ _ => inferInstanceAs (Decidable True)
  | .unmount k => inferInstanceAs (Decidable (FirstInUse s k))

structure Inv (s : State) : Prop where
  size : Accounted s
  length : s.root.blk.length = ROOT_DIR_MAX

theorem Inv.live_le {s : State} (inv : Inv s) : live s.root.blk ≤ 10 := by
  have bound : live s.root.blk ≤ s.root.blk.length := List.countP_le_length
  rwa [inv.length] at bound

theorem Inv.mount {s s' : State} {k inodeCnt : Nat} (inv : Inv s) (moved : step s (.mount k inodeCnt) = some s') :
    Inv s' := by
  simp only [step, addToDir, Option.bind_eq_bind, Option.bind_eq_some_iff, Option.map_eq_some_iff] at moved
  obtain ⟨ptn, -, root, ⟨blk, added, rfl⟩, moved⟩ := moved
  cases moved
  obtain ⟨count, length⟩ := addEntry_live added
  have few := inv.live_le
  have size : s.root.iSize = SIZEOF_DIRENT * live s.root.blk := inv.size
  constructor
  · change word (s.root.iSize + SIZEOF_DIRENT) = SIZEOF_DIRENT * live blk
    rw [count, size]
    unfold word SIZEOF_DIRENT
    omega
  · exact length.trans inv.length

/-- The outcomes of `fs_unmount`: no entry of that name, or the first one is cleared. -/
theorem fsUnmount_cases (root : Root) (name : List UInt8) :
    (firstNamed root.blk name = none ∧ fsUnmount root name = root) ∨
      ∃ d blk, firstNamed root.blk name = some d ∧ fsUnmount root name = ⟨wordSub root.iSize SIZEOF_DIRENT, blk⟩ ∧
        blk.length = root.blk.length ∧ live root.blk = live blk + (inUse d).toNat := by
  unfold fsUnmount
  cases found : firstNamed root.blk name with
  | none =>
    left
    rw [clearEntry_none found]
    exact ⟨rfl, rfl⟩
  | some d =>
    right
    obtain ⟨blk, cleared, length, count⟩ := clearEntry_live found
    rw [cleared]
    exact ⟨d, blk, rfl, rfl, length, count⟩

theorem Inv.unmount {s s' : State} {k : Nat} (inv : Inv s) (moved : step s (.unmount k) = some s') :
    s'.root.blk.length = ROOT_DIR_MAX ∧ (Accounted s' ∧ (¬Mounted s k → s' = s) ↔ FirstInUse s k) := by
  simp only [step, Option.bind_eq_bind, Option.bind_eq_some_iff, Option.some.injEq] at moved
  obtain ⟨ptn, at_, rfl⟩ := moved
  have few := inv.live_le
  have size : s.root.iSize = SIZEOF_DIRENT * live s.root.blk := inv.size
  rcases fsUnmount_cases s.root ptn.name with ⟨absent, same⟩ | ⟨d, blk, found, cleared, length, count⟩
  · have nothing : ({ s with root := fsUnmount s.root ptn.name } : State) = s := by rw [same]
    rw [nothing]
    refine ⟨inv.length, ?_⟩
    constructor
    · intro _ ptn' at' d found
      obtain rfl := Option.some.inj (at'.symm.trans at_)
      rw [absent] at found
      cases found
    · intro _
      exact ⟨inv.size, fun _ => rfl⟩
  · rw [cleared]
    refine ⟨length.trans inv.length, ?_⟩
    constructor
    · intro kept ptn' at' d' found'
      obtain rfl := Option.some.inj (at'.symm.trans at_)
      obtain rfl := Option.some.inj (found'.symm.trans found)
      have smaller : wordSub s.root.iSize SIZEOF_DIRENT = SIZEOF_DIRENT * live blk := kept.1
      by_contra free
      have zero : (inUse d').toNat = 0 := by
        rw [Bool.eq_false_of_not_eq_true free]
        rfl
      rw [size] at smaller
      unfold wordSub SIZEOF_DIRENT at smaller
      omega
    · intro first
      have used := first ptn at_ d found
      rw [used, Bool.toNat_true] at count
      constructor
      · change wordSub s.root.iSize SIZEOF_DIRENT = SIZEOF_DIRENT * live blk
        rw [size]
        unfold wordSub SIZEOF_DIRENT
        omega
      · intro unmounted
        obtain ⟨member, named⟩ := firstNamed_some found
        exact absurd ⟨ptn, at_, d, member, named, used⟩ unmounted

theorem Inv.step {s s' : State} {c : Call} (inv : Inv s) (met : Met s c) (moved : step s c = some s') : Inv s' := by
  cases c with
  | mount k inodeCnt => exact inv.mount moved
  | unmount k =>
    obtain ⟨length, iff⟩ := inv.unmount moved
    exact ⟨(iff.mpr met).1, length⟩

/-- The state `root_dir_init` leaves, with whatever partitions were found. -/
def Start (s : State) : Prop := s.root = rootDirInit ∧ s.inodeMax = 0

theorem Start.inv {s : State} (start : Start s) : Inv s := by
  constructor
  · unfold Accounted
    rw [start.1]
    decide
  · rw [start.1]
    decide

/-- The directory's size fits its entries in every state of a run in which each `fs_unmount` finds an
entry in use first or none; and from there on such calls are the only ones that keep it so and
leave the directory alone when the partition has no entry. -/
theorem reach_accounted {s₀ s : State} (start : Start s₀) (run : Reach step Met s₀ s) :
    Accounted s ∧ ∀ k s', step s (.unmount k) = some s' →
      (Accounted s' ∧ (¬Mounted s k → s' = s) ↔ FirstInUse s k) := by
  have inv : Inv s := Reach.invariant (fun _ _ _ inv met moved => Inv.step inv met moved) start.inv run
  refine ⟨inv.size, ?_⟩
  intro k s' moved
  exact (inv.unmount moved).2

/-- Two partitions, "sda_1" and "sda_2". -/
def twoPtns : State where
  root := rootDirInit
  inodeMax := 0
  ptns := [⟨[0x73, 0x64, 0x61, 0x5F, 0x31], 0⟩, ⟨[0x73, 0x64, 0x61, 0x5F, 0x32], 0⟩]

def cycle : List Call := [.mount 0 4096, .mount 1 4096, .unmount 0, .mount 0 4096, .unmount 1]

theorem cycle_plays : (play step Met twoPtns cycle).isSome := by decide

theorem cycle_accounted :
    Accounted ((play step Met twoPtns cycle).get cycle_plays) ∧ ∀ k s',
      step ((play step Met twoPtns cycle).get cycle_plays) (.unmount k) = some s' →
        (Accounted s' ∧ (¬Mounted ((play step Met twoPtns cycle).get cycle_plays) k →
          s' = (play step Met twoPtns cycle).get cycle_plays) ↔
          FirstInUse ((play step Met twoPtns cycle).get cycle_plays) k) :=
  reach_accounted ⟨rfl, rfl⟩ (reach_of_play (Option.some_get cycle_plays).symm)

def twice : List Call := [.mount 0 4096, .unmount 0, .unmount 0]

theorem twice_plays : (play step (fun _ _ => True) twoPtns twice).isSome := by decide

/-- Unmounted twice: the size is that of one entry, and "." and ".." are two. -/
theorem unmounted_twice :
    Reach step (fun _ _ => True) twoPtns ((play step (fun _ _ => True) twoPtns twice).get twice_plays) ∧
      ¬Accounted ((play step (fun _ _ => True) twoPtns twice).get twice_plays) := by
  constructor
  · exact reach_of_play (Option.some_get twice_plays).symm
  · unfold Accounted
    decide

end KOS.RootDir
