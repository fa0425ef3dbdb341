import KOS.RootDir

/-! The global inode numbers. `fs_mount` takes a base from `inode_max` once and the count from the disk every time. -/

namespace KOS.InodeRanges
open KOS.Fs KOS.Machine KOS.RootDir

/-- The first two words of a super block. -/
structure Head where
  magic : Nat
  inodeCnt : Nat
deriving DecidableEq

/-- The partitions by their places in `ptn_list`. -/
structure State where
  fs : RootDir.State
  /-- `ptn->inode_cnt`. -/
  inodeCnt : Nat → Nat
  disk : Nat → Head
  mounted : Nat → Bool
  /-- The count that `inode_max` grew by at the first mount. -/
  reserved : Nat → Nat

/-- `format` may reach the super blocks of partitions that overlap the one it formats. -/
inductive Event where
  | format (k : Nat) (others : Nat → Head)
  | mount (k : Nat)
  | unmount (k : Nat)

/-- What `fs_format` writes. -/
def formatted : Head := ⟨FS_MAGIC, INODE_CNT_MAX⟩

def step (s : State) : Event → Option State
  | .format k others => do
      let _ ← s.fs.ptns[k]?
      some { s with disk := Function.update others k formatted }
  | .mount k => do
      let ptn ← s.fs.ptns[k]?
      let inodeCnt := (s.disk k).inodeCnt
      let fs ← RootDir.step s.fs (.mount k inodeCnt)
      some
        { fs
          inodeCnt := Function.update s.inodeCnt k inodeCnt
          disk := s.disk
          mounted := Function.update s.mounted k true
          reserved := if 0 = ptn.inodeBase then Function.update s.reserved k inodeCnt else s.reserved }
  | .unmount k => do
      let fs ← RootDir.step s.fs (.unmount k)
      some { s with fs, mounted := Function.update s.mounted k false }

/-- Only partitions with the magic number are mounted. -/
def Called (s : State) : Event → Prop
  | .mount k => (s.disk k).magic = FS_MAGIC
  | _ => True

instance (s : State) : DecidablePred (Called s)
  | .format _ _ => inferInstanceAs (Decidable True)
  | .mount k => inferInstanceAs (Decidable ((s.disk k).magic = FS_MAGIC))
  | .unmount _ => inferInstanceAs (Decidable True)

/-- The first mount finds a count that fits behind `inode_max`, a later one no more than the first. -/
def Met (s : State) : Event → Prop
  | .mount k => (s.disk k).magic = FS_MAGIC ∧ ∀ ptn ∈ s.fs.ptns[k]?,
      if 0 = ptn.inodeBase then s.fs.inodeMax + (s.disk k).inodeCnt < 2 ^ 32
      else (s.disk k).inodeCnt ≤ s.reserved k
  | _ => True

instance (s : State) : DecidablePred (Met s)
  | .format _ _ => inferInstanceAs (Decidable True)
  | .mount k => inferInstanceAs (Decidable ((s.disk k).magic = FS_MAGIC ∧ ∀ ptn ∈ s.fs.ptns[k]?,
      if 0 = ptn.inodeBase then s.fs.inodeMax + (s.disk k).inodeCnt < 2 ^ 32
      else (s.disk k).inodeCnt ≤ s.reserved k))
  | .unmount _ => inferInstanceAs (Decidable True)

/-- `ptn->inode_base`. -/
def base (fs : RootDir.State) (k : Nat) : Nat := (fs.ptns[k]?.map Ptn.inodeBase).getD 0

def range (s : State) (k : Nat) : Set Nat := Set.Ico (base s.fs k) (base s.fs k + s.inodeCnt k)

structure Unique (s : State) : Prop where
  disjoint : ∀ k j, s.mounted k = true → s.mounted j = true → k ≠ j → Disjoint (range s k) (range s j)
  bounded : ∀ k, s.mounted k = true → base s.fs k + s.inodeCnt k ≤ 2 ^ 32
  nonzero : ∀ k, s.mounted k = true → 0 ∉ range s k

/-- Before the first call. -/
structure Start (s : State) : Prop where
  inodeMax : s.fs.inodeMax = 0
  bases : ∀ ptn ∈ s.fs.ptns, ptn.inodeBase = 0
  mounted : ∀ k, s.mounted k = false

/-- The reserved ranges lie below `inode_max`, one behind the other, and a mounted partition keeps to its own. -/
structure Inv (s : State) : Prop where
  inodeMax : s.fs.inodeMax < 2 ^ 32
  below : ∀ k, base s.fs k ≠ 0 → base s.fs k + s.reserved k ≤ s.fs.inodeMax + 1
  apart : ∀ k j, k ≠ j → base s.fs k ≠ 0 → base s.fs j ≠ 0 →
    base s.fs k + s.reserved k ≤ base s.fs j ∨ base s.fs j + s.reserved j ≤ base s.fs k
  within : ∀ k, s.mounted k = true → if base s.fs k = 0 then s.inodeCnt k = 0 else s.inodeCnt k ≤ s.reserved k

variable {s s' : State} {k : Nat}

theorem Start.inv (start : Start s) : Inv s := by
  have none : ∀ k, base s.fs k = 0 := by
    intro k
    unfold base
    cases at_ : s.fs.ptns[k]? with
    | none => rfl
    | some ptn => exact start.bases ptn (List.mem_of_getElem? at_)
  constructor
  · rw [start.inodeMax]
    decide
  · exact fun k some => absurd (none k) some
  · exact fun k j _ some => absurd (none k) some
  · intro k mounted
    rw [start.mounted k] at mounted
    cases mounted

theorem Inv.unique (inv : Inv s) : Unique s := by
  have empty : ∀ k, s.mounted k = true → base s.fs k = 0 → s.inodeCnt k = 0 := by
    intro k mounted zero
    have within := inv.within k mounted
    rw [if_pos zero] at within
    exact within
  have own : ∀ k, s.mounted k = true → base s.fs k ≠ 0 → s.inodeCnt k ≤ s.reserved k := by
    intro k mounted taken
    have within := inv.within k mounted
    rw [if_neg taken] at within
    exact within
  have max := inv.inodeMax
  constructor
  · intro k j mounted mounted' different
    rw [Set.disjoint_left]
    intro number member member'
    obtain ⟨low, high⟩ := member
    obtain ⟨low', high'⟩ := member'
    by_cases zero : base s.fs k = 0
    · have count := empty k mounted zero
      omega
    · by_cases zero' : base s.fs j = 0
      · have count := empty j mounted' zero'
        omega
      · have count := own k mounted zero
        have count' := own j mounted' zero'
        have apart := inv.apart k j different zero zero'
        omega
  · intro k mounted
    by_cases zero : base s.fs k = 0
    · have count := empty k mounted zero
      omega
    · have count := own k mounted zero
      have below := inv.below k zero
      omega
  · intro k mounted member
    have low := member.1
    have high := member.2
    by_cases zero : base s.fs k = 0
    · have count := empty k mounted zero
      omega
    · omega

/-! One call. -/

/-- A mount sets the base of its partition and leaves the others. -/
theorem mount_bases {fs fs' : RootDir.State} {ptn : Ptn} {cnt : Nat} (at_ : fs.ptns[k]? = some ptn)
    (moved : RootDir.step fs (.mount k cnt) = some fs') :
    fs'.inodeMax = (assignBase fs.inodeMax ptn.inodeBase cnt).2 ∧
      base fs' k = (assignBase fs.inodeMax ptn.inodeBase cnt).1 ∧ ∀ j, j ≠ k → base fs' j = base fs j := by
  simp only [RootDir.step, at_, Option.bind_eq_bind, Option.bind_some, Option.bind_eq_some_iff] at moved
  obtain ⟨root, -, moved⟩ := moved
  rw [← Option.some.inj moved]
  have inside : k < fs.ptns.length := (List.getElem?_eq_some_iff.mp at_).1
  refine ⟨rfl, ?_, ?_⟩
  · unfold base
    rw [List.getElem?_set_self inside]
    rfl
  · intro j other
    unfold base
    rw [List.getElem?_set_ne (Ne.symm other)]

theorem unmount_fs {fs fs' : RootDir.State} (moved : RootDir.step fs (.unmount k) = some fs') :
    fs'.inodeMax = fs.inodeMax ∧ fs'.ptns = fs.ptns := by
  simp only [RootDir.step, Option.bind_eq_bind, Option.bind_eq_some_iff] at moved
  obtain ⟨ptn, -, moved⟩ := moved
  rw [← Option.some.inj moved]
  exact ⟨rfl, rfl⟩

/-- Nothing about the other partitions has changed. -/
structure Others (s t : State) (k : Nat) : Prop where
  bases : ∀ j, j ≠ k → base t.fs j = base s.fs j
  inodeCnt : ∀ j, j ≠ k → t.inodeCnt j = s.inodeCnt j
  mounted : ∀ j, j ≠ k → t.mounted j = s.mounted j
  reserved : ∀ j, j ≠ k → t.reserved j = s.reserved j

variable {t : State}

/-- It is enough to look at the partition that the call is about. -/
theorem Inv.of_others (inv : Inv s) (others : Others s t k) (grows : s.fs.inodeMax ≤ t.fs.inodeMax)
    (inodeMax : t.fs.inodeMax < 2 ^ 32) (below : base t.fs k ≠ 0 → base t.fs k + t.reserved k ≤ t.fs.inodeMax + 1)
    (apart : ∀ j, j ≠ k → base t.fs k ≠ 0 → base s.fs j ≠ 0 →
      base t.fs k + t.reserved k ≤ base s.fs j ∨ base s.fs j + s.reserved j ≤ base t.fs k)
    (within : t.mounted k = true → if base t.fs k = 0 then t.inodeCnt k = 0 else t.inodeCnt k ≤ t.reserved k) :
    Inv t := by
  constructor
  · exact inodeMax
  · intro j taken
    by_cases same : j = k
    · rw [same] at taken ⊢
      exact below taken
    · rw [others.bases j same] at taken ⊢
      rw [others.reserved j same]
      have kept := inv.below j taken
      omega
  · intro i j different taken taken'
    by_cases first : i = k
    · have second : j ≠ k := fun same => different (first.trans same.symm)
      rw [others.bases j second] at taken' ⊢
      rw [others.reserved j second]
      rw [first] at taken ⊢
      exact apart j second taken taken'
    · rw [others.bases i first] at taken ⊢
      rw [others.reserved i first]
      by_cases second : j = k
      · rw [second] at taken' ⊢
        exact (apart i first taken' taken).symm
      · rw [others.bases j second] at taken' ⊢
        rw [others.reserved j second]
        exact inv.apart i j different taken taken'
  · intro j mounted
    by_cases same : j = k
    · rw [same] at mounted ⊢
      exact within mounted
    · rw [others.mounted j same] at mounted
      rw [others.bases j same, others.inodeCnt j same, others.reserved j same]
      exact inv.within j mounted

/-- The first mount reserves the numbers behind `inode_max`. -/
theorem Inv.first_mount {cnt : Nat} (inv : Inv s) (others : Others s t k) (room : s.fs.inodeMax + cnt < 2 ^ 32)
    (max : t.fs.inodeMax = word (s.fs.inodeMax + cnt)) (own : base t.fs k = word (s.fs.inodeMax + 1))
    (count : t.inodeCnt k = cnt) (reserved : t.reserved k = cnt) : Inv t := by
  have sum : t.fs.inodeMax = s.fs.inodeMax + cnt := max.trans (Nat.mod_eq_of_lt room)
  have next : base t.fs k = s.fs.inodeMax + 1 ∨ base t.fs k = 0 ∧ cnt = 0 := by
    rw [own]
    unfold word
    omega
  apply inv.of_others others
  · omega
  · omega
  · intro taken
    omega
  · intro j other taken taken'
    have below := inv.below j taken'
    omega
  · intro _
    split_ifs with zero
    · omega
    · omega

/-- A later mount takes a count, and `inode_max` stays. -/
theorem Inv.remount (inv : Inv s) (others : Others s t k) (taken : base s.fs k ≠ 0)
    (short : t.inodeCnt k ≤ s.reserved k) (max : t.fs.inodeMax = s.fs.inodeMax) (own : base t.fs k = base s.fs k)
    (reserved : t.reserved k = s.reserved k) : Inv t := by
  apply inv.of_others others
  · exact max.ge
  · rw [max]
    exact inv.inodeMax
  · intro _
    rw [own, reserved, max]
    exact inv.below k taken
  · intro j other _ taken'
    rw [own, reserved]
    exact inv.apart k j (Ne.symm other) taken taken'
  · intro _
    rw [own, if_neg taken, reserved]
    exact short

theorem Inv.mount (inv : Inv s) (met : Met s (.mount k)) (moved : step s (.mount k) = some t) : Inv t := by
  simp only [step, Option.bind_eq_bind, Option.bind_eq_some_iff] at moved
  obtain ⟨ptn, at_, fs, ran, moved⟩ := moved
  obtain ⟨max, own, bases⟩ := mount_bases at_ ran
  have condition := met.2 ptn at_
  have current : base s.fs k = ptn.inodeBase := by
    unfold base
    rw [at_]
    rfl
  rw [← Option.some.inj moved]
  by_cases fresh : 0 = ptn.inodeBase
  · rw [if_pos fresh] at condition
    rw [assignBase, if_pos fresh] at max own
    rw [if_pos fresh]
    have others : Others s ⟨fs, Function.update s.inodeCnt k (s.disk k).inodeCnt, s.disk, Function.update s.mounted k true,
        Function.update s.reserved k (s.disk k).inodeCnt⟩ k :=
      ⟨bases, fun j other => Function.update_of_ne other .., fun j other => Function.update_of_ne other ..,
        fun j other => Function.update_of_ne other ..⟩
    exact inv.first_mount others condition max own (Function.update_self ..) (Function.update_self ..)
  · rw [if_neg fresh] at condition
    rw [assignBase, if_neg fresh] at max own
    rw [if_neg fresh]
    have others : Others s ⟨fs, Function.update s.inodeCnt k (s.disk k).inodeCnt, s.disk, Function.update s.mounted k true,
        s.reserved⟩ k :=
      ⟨bases, fun j other => Function.update_of_ne other .., fun j other => Function.update_of_ne other ..,
        fun _ _ => rfl⟩
    apply inv.remount others
    · rw [current]
      exact Ne.symm fresh
    · show Function.update s.inodeCnt k (s.disk k).inodeCnt k ≤ s.reserved k
      rw [Function.update_self]
      exact condition
    · exact max
    · exact own.trans current.symm
    · rfl

theorem Inv.step {e : Event} (inv : Inv s) (met : Met s e) (moved : step s e = some t) : Inv t := by
  cases e with
  | format k others =>
    simp only [InodeRanges.step, Option.bind_eq_bind, Option.bind_eq_some_iff] at moved
    obtain ⟨ptn, -, moved⟩ := moved
    rw [← Option.some.inj moved]
    exact ⟨inv.inodeMax, inv.below, inv.apart, inv.within⟩
  | mount k => exact inv.mount met moved
  | unmount k =>
    simp only [InodeRanges.step, Option.bind_eq_bind, Option.bind_eq_some_iff] at moved
    obtain ⟨fs, ran, moved⟩ := moved
    obtain ⟨max, ptns⟩ := unmount_fs ran
    have bases : base fs = base s.fs := by
      funext j
      unfold base
      rw [ptns]
    rw [← Option.some.inj moved]
    constructor
    · show fs.inodeMax < 2 ^ 32
      rw [max]
      exact inv.inodeMax
    · show ∀ j, base fs j ≠ 0 → base fs j + s.reserved j ≤ fs.inodeMax + 1
      rw [max, bases]
      exact inv.below
    · show ∀ i j, i ≠ j → base fs i ≠ 0 → base fs j ≠ 0 →
        base fs i + s.reserved i ≤ base fs j ∨ base fs j + s.reserved j ≤ base fs i
      rw [bases]
      exact inv.apart
    · intro j mounted
      show if base fs j = 0 then s.inodeCnt j = 0 else s.inodeCnt j ≤ s.reserved j
      rw [bases]
      apply inv.within
      by_cases same : j = k
      · subst same
        exact absurd (show Function.update s.mounted j false j = true from mounted) (by rw [Function.update_self]; decide)
      · exact (Function.update_of_ne same _ _).symm.trans mounted

/-- In a run whose mounts meet the condition the numbers are unique in every state. -/
theorem reach_unique {s₀ s : State} (start : Start s₀) (run : Reach step Met s₀ s) : Unique s := by
  have inv : Inv s := Reach.invariant (fun _ _ _ inv met moved => inv.step met moved) start.inv run
  exact inv.unique

/-- "sda_1" and "sda_2", where the first has been formatted elsewhere with a single inode. -/
def foreign : State where
  fs := twoPtns
  inodeCnt := fun _ => 0
  disk := fun k => if k = 0 then ⟨FS_MAGIC, 1⟩ else formatted
  mounted := fun _ => false
  reserved := fun _ => 0

theorem foreign_start : Start foreign := ⟨rfl, by decide, fun _ => rfl⟩

/-- Both are mounted, and the first once more. -/
def remounted : List Event := [.mount 0, .mount 1, .unmount 0, .mount 0]

theorem remounted_plays : (play step Met foreign remounted).isSome := by decide

theorem remounted_unique : Unique ((play step Met foreign remounted).get remounted_plays) :=
  reach_unique foreign_start (reach_of_play (Option.some_get remounted_plays).symm)

/-- The same, with the first partition formatted in between. -/
def reformatted : List Event := [.mount 0, .mount 1, .unmount 0, .format 0 foreign.disk, .mount 0]

theorem reformatted_plays : (play step Called foreign reformatted).isSome := by decide

/-- Inode 2 is then an inode of both partitions. -/
theorem reformatted_overlap :
    Start foreign ∧ Reach step Called foreign ((play step Called foreign reformatted).get reformatted_plays) ∧
      ¬Unique ((play step Called foreign reformatted).get reformatted_plays) := by
  refine ⟨foreign_start, reach_of_play (Option.some_get reformatted_plays).symm, ?_⟩
  intro unique
  have disjoint := unique.disjoint 0 1 (by decide) (by decide) (by decide)
  exact Set.disjoint_left.mp disjoint (show 2 ∈ Set.Ico _ _ from by decide) (show 2 ∈ Set.Ico _ _ from by decide)

end KOS.InodeRanges
