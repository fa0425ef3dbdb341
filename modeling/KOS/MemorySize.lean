import KOS.PoolLayout
import KOS.LinkMemory

/-! The loader's memory size: the descriptors that `int 0x15`, function 0xE820, hands out, and the largest end among them. -/

namespace KOS.MemorySize
open KOS.ByteMemory KOS.LinkMemory KOS.Paging KOS.PoolLayout

def RAM_SIZE : Nat := 0x900
def ARDS_NR : Nat := 0x904
def ARDS_BUF : Nat := 0x908

/-- An address range descriptor, as it lies in the buffer. -/
structure Ards where
  baseLow : BitVec 32
  baseHigh : BitVec 32
  lengthLow : BitVec 32
  lengthHigh : BitVec 32
  kind : BitVec 32
  deriving DecidableEq

def Ards.base (d : Ards) : Nat := d.baseHigh.toNat * 2 ^ 32 + d.baseLow.toNat
def Ards.length (d : Ards) : Nat := d.lengthHigh.toNat * 2 ^ 32 + d.lengthLow.toNat
def Ards.stop (d : Ards) : Nat := d.base + d.length

/-- RAM that the kernel may use. -/
def Ards.Usable (d : Ards) : Prop := d.kind = 1

/-- It ends below 4 GiB. -/
structure Ards.Small (d : Ards) : Prop where
  baseHigh : d.baseHigh = 0
  lengthHigh : d.lengthHigh = 0
  stop : d.stop < 2 ^ 32

instance (d : Ards) : Decidable d.Usable := inferInstanceAs (Decidable (d.kind = 1))

instance (d : Ards) : Decidable d.Small :=
  decidable_of_iff (d.baseHigh = 0 ∧ d.lengthHigh = 0 ∧ d.stop < 2 ^ 32)
    ⟨fun parts => ⟨parts.1, parts.2.1, parts.2.2⟩, fun small => ⟨small.baseHigh, small.lengthHigh, small.stop⟩⟩

theorem Ards.Small.stop_eq {d : Ards} (small : d.Small) : d.stop = d.baseLow.toNat + d.lengthLow.toNat := by
  have baseHigh : d.baseHigh.toNat = 0 := by
    rw [small.baseHigh]
    rfl
  have lengthHigh : d.lengthHigh.toNat = 0 := by
    rw [small.lengthHigh]
    rfl
  rw [Ards.stop, Ards.base, Ards.length, baseHigh, lengthHigh]
  omega

def Ards.words (d : Ards) : List Nat :=
  [d.baseLow.toNat, d.baseHigh.toNat, d.lengthLow.toNat, d.lengthHigh.toNat, d.kind.toNat]

/-! `get_ram_size`. The BIOS is a function of the continuation value in `ebx`: the descriptor it stores at `es:di`, and
the next continuation. It leaves `cx` at 20. -/

def storeWords : Memory → Nat → List Nat → Memory
  | m, _, [] => m
  | m, a, w :: rest => storeWords (store32 m a w) (a + 4) rest

def load16 (m : Memory) (a : Nat) : Nat := word16 (load m) a
def store16 (m : Memory) (a v : Nat) : Memory := fill m a 2 (byteOf v)

def e820 (bios : Nat → Ards × Nat) : Nat → Memory → Nat → Nat → Option Memory
  | 0, _, _, _ => none
  | fuel + 1, m, ebx, di =>
    let m := storeWords m di (bios ebx).1.words
    let ebx := (bios ebx).2
    let di := (di + 20) % 2 ^ 16
    let m := store16 m ARDS_NR ((load16 m ARDS_NR + 1) % 2 ^ 16)
    if ebx ≠ 0 then e820 bios fuel m ebx di else some m

/-- `edx` after so many passes. -/
def findMaxAddrLoop (m : Memory) : Nat → Nat → Nat → Nat
  | 0, _, edx => edx
  | passes + 1, ebx, edx =>
    let eax := (load32 m ebx + load32 m (ebx + 8)) % 2 ^ 32
    let edx := if eax ≤ edx then edx else eax
    findMaxAddrLoop m passes ((ebx + 20) % 2 ^ 32) edx

def getRamSize (bios : Nat → Ards × Nat) (fuel : Nat) (m : Memory) : Option Memory :=
  (e820 bios fuel m 0 ARDS_BUF).map fun m =>
    let cx := load16 m ARDS_NR
    -- `loop` counts down before it tests
    let edx := findMaxAddrLoop m (if cx = 0 then 2 ^ 16 else cx) ARDS_BUF 0
    store32 m RAM_SIZE edx

/-- From this continuation on the BIOS returns these descriptors, and 0 with the last of them. -/
inductive Returns (bios : Nat → Ards × Nat) : Nat → List Ards → Prop
  | last {ebx : Nat} {d : Ards} : bios ebx = (d, 0) → Returns bios ebx [d]
  | more {ebx next : Nat} {d : Ards} {rest : List Ards} :
      bios ebx = (d, next) → next ≠ 0 → Returns bios next rest → Returns bios ebx (d :: rest)

/-! What the size is for. -/

/-- It is where usable memory ends. -/
def Detected (ds : List Ards) (ram : Nat) : Prop := IsGreatest {x | ∃ d ∈ ds, d.Usable ∧ d.stop = x} ram

def FramesBelow (k : Pages) (x : Nat) : Prop := ∀ b : FrameBit k, b.frame ⊆ Set.Iio x

/-! The buffer. -/

def Words (m : Memory) : Nat → List Nat → Prop
  | _, [] => True
  | a, w :: rest => load32 m a = w ∧ Words m (a + 4) rest

def Table (m : Memory) : Nat → List Ards → Prop
  | _, [] => True
  | a, d :: rest => Words m a d.words ∧ Table m (a + 20) rest

section
variable {S : Set Nat} {m m' : Memory} {a : Nat}

theorem Words.congr {ws : List Nat} (words : Words m a ws) (changes : ChangesOnly S m m') (fits : a + 4 * ws.length ≤ 2 ^ 32)
    (outside : ∀ x ∈ Set.Ico a (a + 4 * ws.length), x ∉ S) : Words m' a ws := by
  induction ws generalizing a with
  | nil => trivial
  | cons w rest ih =>
    rw [List.length_cons] at fits outside
    apply And.intro
    · rw [← words.1]
      apply changes.load32 (by omega)
      intro x inside
      exact outside x ⟨inside.1, by have := inside.2; omega⟩
    · apply ih words.2 (by omega)
      intro x inside
      exact outside x ⟨by have := inside.1; omega, by have := inside.2; omega⟩

theorem storeWords_changes {ws : List Nat} (fits : a + 4 * ws.length ≤ 2 ^ 32) :
    ChangesOnly (Set.Ico a (a + 4 * ws.length)) m (storeWords m a ws) := by
  induction ws generalizing m a with
  | nil => exact ChangesOnly.refl _ _
  | cons w rest ih =>
    rw [List.length_cons] at fits ⊢
    have first : ChangesOnly (Set.Ico a (a + 4)) m (store32 m a w) := store32_changes m w (by omega)
    have later : ChangesOnly (Set.Ico (a + 4) (a + 4 + 4 * rest.length)) (store32 m a w) (storeWords m a (w :: rest)) :=
      ih (by omega)
    exact (first.mono (Set.Ico_subset_Ico (by omega) (by omega))).trans (later.mono (Set.Ico_subset_Ico (by omega) (by omega)))

theorem storeWords_words {ws : List Nat} (fits : a + 4 * ws.length ≤ 2 ^ 32) (range : ∀ w ∈ ws, w < 2 ^ 32) :
    Words (storeWords m a ws) a ws := by
  induction ws generalizing m a with
  | nil => trivial
  | cons w rest ih =>
    rw [List.length_cons] at fits
    apply And.intro
    · have later : ChangesOnly (Set.Ico (a + 4) (a + 4 + 4 * rest.length)) (store32 m a w) (storeWords m a (w :: rest)) :=
        storeWords_changes (by omega)
      rw [later.load32 (by omega)]
      · exact load32_store32 m a (range w List.mem_cons_self)
      · intro x inside inside'
        have before := inside.2
        have behind := inside'.1
        omega
    · exact ih (by omega) fun v inside => range v (List.mem_cons_of_mem _ inside)

theorem Ards.words_range {d : Ards} : ∀ w ∈ d.words, w < 2 ^ 32 := by
  intro w inside
  simp only [Ards.words, List.mem_cons, List.not_mem_nil, or_false] at inside
  omega

theorem Table.congr {ds : List Ards} (table : Table m a ds) (changes : ChangesOnly S m m') (fits : a + 20 * ds.length ≤ 2 ^ 32)
    (outside : ∀ x ∈ Set.Ico a (a + 20 * ds.length), x ∉ S) : Table m' a ds := by
  induction ds generalizing a with
  | nil => trivial
  | cons d rest ih =>
    rw [List.length_cons] at fits outside
    apply And.intro
    · apply table.1.congr changes
      · show a + 4 * 5 ≤ 2 ^ 32
        omega
      · intro x inside
        have before : x < a + 4 * 5 := inside.2
        exact outside x ⟨inside.1, by omega⟩
    · apply ih table.2 (by omega)
      intro x inside
      exact outside x ⟨by have := inside.1; omega, by have := inside.2; omega⟩

theorem load16_store16 (m : Memory) {a v : Nat} (range : v < 2 ^ 16) : load16 (store16 m a v) a = v := by
  have at_ : ∀ k, k < 2 → load (store16 m a v) (a + k) = byteOf v k := by
    intro k inside
    rw [store16, load_fill m a 2 (byteOf v) (by decide) k (by omega), if_pos inside]
  have first := at_ 0 (by decide)
  rw [Nat.add_zero] at first
  rw [load16, word16, first, at_ 1 (by decide), byteOf_toNat, byteOf_toNat]
  omega

theorem load16_congr (changes : ChangesOnly S m m') (fits : a + 2 ≤ 2 ^ 32) (outside : ∀ x ∈ Set.Ico a (a + 2), x ∉ S) :
    load16 m' a = load16 m a := by
  have first : load m' a = load m a := by
    apply changes.load
    rw [Nat.mod_eq_of_lt (by omega)]
    exact outside a ⟨le_rfl, by omega⟩
  have second : load m' (a + 1) = load m (a + 1) := by
    apply changes.load
    rw [Nat.mod_eq_of_lt (by omega)]
    exact outside (a + 1) ⟨by omega, by omega⟩
  rw [load16, load16, word16, word16, first, second]

/-- The counter and the rest of the buffer. -/
def Pending (di : Nat) : Set Nat := Set.Ico ARDS_NR (ARDS_NR + 2) ∪ Set.Ico di 0x9D0

theorem pending_mono {di di' : Nat} (le : di ≤ di') : Pending di' ⊆ Pending di :=
  Set.union_subset_union_right _ (Set.Ico_subset_Ico_left le)

/-- One pass: the descriptor and the counter. -/
theorem pass_stores {d : Ards} {di : Nat} (above : ARDS_BUF ≤ di) (fits : di + 20 ≤ 0x9D0) {m1 : Memory}
    (stored : store16 (storeWords m di d.words) ARDS_NR ((load16 (storeWords m di d.words) ARDS_NR + 1) % 2 ^ 16) = m1) :
    Words m1 di d.words ∧ load16 m1 ARDS_NR = (load16 m ARDS_NR + 1) % 2 ^ 16 ∧ ChangesOnly (Pending di) m m1 := by
  unfold ARDS_BUF at above
  have words : Words (storeWords m di d.words) di d.words := by
    apply storeWords_words _ Ards.words_range
    show di + 20 ≤ 2 ^ 32
    omega
  have buffer : ChangesOnly (Set.Ico di (di + 20)) m (storeWords m di d.words) :=
    @storeWords_changes m di d.words (show di + 20 ≤ 2 ^ 32 by omega)
  have count : load16 (storeWords m di d.words) ARDS_NR = load16 m ARDS_NR := by
    apply load16_congr buffer (by decide)
    intro x inside inside'
    have before : x < 0x904 + 2 := inside.2
    have behind := inside'.1
    omega
  have counter : ChangesOnly (Set.Ico ARDS_NR (ARDS_NR + 2)) (storeWords m di d.words) m1 := by
    rw [← stored]
    exact fill_changes _ _ (by decide)
  refine ⟨?_, ?_, ?_⟩
  · apply words.congr counter
    · show di + 20 ≤ 2 ^ 32
      omega
    · intro x inside inside'
      have before : x < 0x904 + 2 := inside'.2
      have behind := inside.1
      omega
  · rw [← stored, load16_store16 _ (Nat.mod_lt _ (Nat.two_pow_pos 16)), count]
  · apply (buffer.mono _).trans (counter.mono Set.subset_union_left)
    apply Set.subset_union_of_subset_right
    exact Set.Ico_subset_Ico_right fits

/-- The descriptors end up in the buffer, and are counted. -/
theorem e820_table {bios : Nat → Ards × Nat} {ebx di fuel : Nat} {ds : List Ards} (returns : Returns bios ebx ds)
    (above : ARDS_BUF ≤ di) (fits : di + 20 * ds.length ≤ 0x9D0) (turns : ds.length ≤ fuel) :
    ∃ m', e820 bios fuel m ebx di = some m' ∧ Table m' di ds ∧
      load16 m' ARDS_NR = (load16 m ARDS_NR + ds.length) % 2 ^ 16 ∧ ChangesOnly (Pending di) m m' := by
  induction returns generalizing m di fuel with
  | @last ebx d answer =>
    obtain ⟨fuel, rfl⟩ := Nat.exists_eq_add_of_le' turns
    rw [List.length_singleton] at fits
    generalize stored : store16 (storeWords m di d.words) ARDS_NR ((load16 (storeWords m di d.words) ARDS_NR + 1) % 2 ^ 16) = m1
    obtain ⟨words, count, changes⟩ := pass_stores above fits stored
    refine ⟨m1, ?_, ⟨words, trivial⟩, count, changes⟩
    rw [List.length_singleton, e820, answer]
    dsimp only
    rw [stored, if_neg (not_not_intro rfl)]
  | @more ebx next d rest answer continues returns ih =>
    rw [List.length_cons] at fits turns
    obtain ⟨fuel, rfl⟩ := Nat.exists_eq_add_of_le' turns
    generalize stored : store16 (storeWords m di d.words) ARDS_NR ((load16 (storeWords m di d.words) ARDS_NR + 1) % 2 ^ 16) = m1
    obtain ⟨words, count, changes⟩ := pass_stores above (by omega) stored
    obtain ⟨m', ran, table, count', changes'⟩ := @ih m1 (di + 20) (fuel + rest.length) (by omega) (by omega) (by omega)
    refine ⟨m', ?_, ⟨?_, table⟩, ?_, ?_⟩
    · have small : (di + 20) % 2 ^ 16 = di + 20 := by omega
      rw [← Nat.add_assoc, e820, answer]
      dsimp only
      rw [stored, small, if_pos continues, ran]
    · apply words.congr changes'
      · show di + 20 ≤ 2 ^ 32
        omega
      · intro x inside inside'
        have before : x < di + 20 := inside.2
        have low := inside.1
        unfold ARDS_BUF at above
        cases inside' with
        | inl counter =>
          have high : x < 0x904 + 2 := counter.2
          omega
        | inr buffer =>
          have behind := buffer.1
          omega
    · rw [count', count, List.length_cons]
      omega
    · exact changes.trans (changes'.mono (pending_mono (by omega)))

/-- The loop over the table takes the largest end. -/
theorem findMaxAddrLoop_greatest {ds : List Ards} {ebx edx : Nat} (table : Table m ebx ds)
    (fits : ebx + 20 * ds.length ≤ 2 ^ 16) (small : ∀ d ∈ ds, d.Small) :
    edx ≤ findMaxAddrLoop m ds.length ebx edx ∧ (∀ d ∈ ds, d.stop ≤ findMaxAddrLoop m ds.length ebx edx) ∧
      (findMaxAddrLoop m ds.length ebx edx = edx ∨ ∃ d ∈ ds, d.stop = findMaxAddrLoop m ds.length ebx edx) := by
  induction ds generalizing ebx edx with
  | nil => exact ⟨le_rfl, fun d inside => absurd inside List.not_mem_nil, .inl rfl⟩
  | cons d rest ih =>
    rw [List.length_cons] at fits
    have first := small d List.mem_cons_self
    have stop : (load32 m ebx + load32 m (ebx + 8)) % 2 ^ 32 = d.stop := by
      rw [table.1.1, table.1.2.2.1, ← first.stop_eq]
      exact Nat.mod_eq_of_lt first.stop
    have next : (ebx + 20) % 2 ^ 32 = ebx + 20 := by omega
    rw [List.length_cons, findMaxAddrLoop, stop, next]
    have best : (if d.stop ≤ edx then edx else d.stop) = max edx d.stop := by
      rw [max_def]
      split_ifs <;> omega
    rw [best]
    obtain ⟨from_, all, one⟩ := @ih (ebx + 20) (max edx d.stop) table.2 (by omega) fun e inside => small e (List.mem_cons_of_mem _ inside)
    refine ⟨(Nat.le_max_left _ _).trans from_, ?_, ?_⟩
    · intro e inside
      cases inside with
      | head => exact (Nat.le_max_right _ _).trans from_
      | tail _ inside => exact all e inside
    · cases one with
      | inl same =>
        rw [same]
        cases Nat.le_total d.stop edx with
        | inl below => exact .inl (Nat.max_eq_left below)
        | inr above => exact .inr ⟨d, List.mem_cons_self, (Nat.max_eq_right above).symm⟩
      | inr found =>
        obtain ⟨e, inside, same⟩ := found
        exact .inr ⟨e, List.mem_cons_of_mem _ inside, same⟩

theorem Returns.nonempty {bios : Nat → Ards × Nat} {ebx : Nat} {ds : List Ards} (returns : Returns bios ebx ds) : 0 < ds.length := by
  cases returns with
  | last answer => exact Nat.succ_pos _
  | more answer continues later => exact Nat.succ_pos _

/-- `ram_size` is the largest end, whatever the types are. -/
theorem getRamSize_greatest {bios : Nat → Ards × Nat} {ds : List Ards} {fuel : Nat} (returns : Returns bios 0 ds)
    (few : ds.length ≤ 10) (small : ∀ d ∈ ds, d.Small) (zeroed : load16 m ARDS_NR = 0) (turns : ds.length ≤ fuel) :
    ∃ m', getRamSize bios fuel m = some m' ∧ IsGreatest {x | ∃ d ∈ ds, d.stop = x} (load32 m' RAM_SIZE) := by
  have positive := returns.nonempty
  have fits : ARDS_BUF + 20 * ds.length ≤ 0x9D0 := by
    unfold ARDS_BUF
    omega
  obtain ⟨m1, ran, table, count, -⟩ := @e820_table m bios 0 ARDS_BUF fuel ds returns le_rfl fits turns
  rw [zeroed, Nat.zero_add, Nat.mod_eq_of_lt (by omega)] at count
  obtain ⟨-, all, one⟩ := @findMaxAddrLoop_greatest m1 ds ARDS_BUF 0 table (by omega) small
  have attained : ∃ d ∈ ds, d.stop = findMaxAddrLoop m1 ds.length ARDS_BUF 0 := by
    cases one with
    | inl zero =>
      have first := all _ (List.getElem_mem positive)
      exact ⟨_, List.getElem_mem positive, by omega⟩
    | inr found => exact found
  refine ⟨store32 m1 RAM_SIZE (findMaxAddrLoop m1 ds.length ARDS_BUF 0), ?_, ?_⟩
  · rw [getRamSize, ran, Option.map_some, count]
    dsimp only
    rw [if_neg positive.ne']
  · obtain ⟨d, inside, same⟩ := attained
    have bound := (small d inside).stop
    rw [load32_store32 m1 RAM_SIZE (by omega)]
    apply And.intro
    · exact ⟨d, inside, same⟩
    · intro x member
      obtain ⟨e, inside', rfl⟩ := member
      exact all e inside'

end

theorem detected_iff {ds : List Ards} {ram : Nat} (greatest : IsGreatest {x | ∃ d ∈ ds, d.stop = x} ram) :
    Detected ds ram ↔ ∃ d ∈ ds, d.Usable ∧ ∀ e ∈ ds, e.stop ≤ d.stop := by
  constructor
  · intro detected
    obtain ⟨d, inside, usable, same⟩ := detected.1
    refine ⟨d, inside, usable, ?_⟩
    intro e inside'
    rw [same]
    exact greatest.2 ⟨e, inside', rfl⟩
  · intro top
    obtain ⟨d, inside, usable, all⟩ := top
    obtain ⟨e, inside', same⟩ := greatest.1
    have top : d.stop = ram := Nat.le_antisymm (greatest.2 ⟨d, inside, rfl⟩) (same ▸ all e inside')
    apply And.intro
    · exact ⟨d, inside, usable, top⟩
    · intro x member
      obtain ⟨f, inside'', -, rfl⟩ := member
      exact greatest.2 ⟨f, inside'', rfl⟩

/-- From 2 MiB on the frames end below the memory size; with less `pool_init` starts them above it. -/
theorem framesBelow_iff (k : Pages) {ram : Nat} (high : ram < 2 ^ 32) :
    FramesBelow (poolInit k ram) ram ↔ 0x200000 ≤ ram := by
  constructor
  · intro below
    by_contra tiny
    have first : 0 < 8 * (poolInit k ram).pp.paddrBitmap.len := by
      show 0 < 8 * ((if (ram + (2 ^ 32 - (4096 * 256 + 0x100000))) % 2 ^ 32 / 4096 / 2 > 0x40000 then 0x40000
        else (ram + (2 ^ 32 - (4096 * 256 + 0x100000))) % 2 ^ 32 / 4096 / 2) / 8)
      rw [if_pos (by omega)]
      decide
    have start : 0x200000 ∈ (FrameBit.kernel 0 first).frame := by
      show 0x200000 ∈ Set.Ico (4096 * 256 + 0x100000 + 4096 * 0) (4096 * 256 + 0x100000 + 4096 * 0 + 4096)
      exact ⟨by decide, by decide⟩
    exact tiny (below _ start).le
  · intro low b
    have holds := @poolInit_holds k ram low high
    obtain ⟨kernelPages, userPages, shares⟩ := @poolVars_shares ram (by omega)
    exact (shares.range holds b).trans fun x inside => inside.2

/-- Right exactly when no other range ends above the usable ones; the frames then lie below, from 2 MiB on. -/
theorem ramSize_iff (bios : Nat → Ards × Nat) (ds : List Ards) (m : Memory) (fuel : Nat) (returns : Returns bios 0 ds)
    (few : ds.length ≤ 10) (small : ∀ d ∈ ds, d.Small) (zeroed : load16 m ARDS_NR = 0) (turns : ds.length ≤ fuel) :
    ∃ m', getRamSize bios fuel m = some m' ∧
      (Detected ds (load32 m' RAM_SIZE) ↔ ∃ d ∈ ds, d.Usable ∧ ∀ e ∈ ds, e.stop ≤ d.stop) ∧
      ∀ k : Pages, Detected ds (load32 m' RAM_SIZE) ∧ FramesBelow (poolInit k (load32 m' RAM_SIZE)) (load32 m' RAM_SIZE) ↔
        ∃ d ∈ ds, d.Usable ∧ 0x200000 ≤ d.stop ∧ ∀ e ∈ ds, e.stop ≤ d.stop := by
  obtain ⟨m', ran, greatest⟩ := getRamSize_greatest returns few small zeroed turns
  refine ⟨m', ran, detected_iff greatest, ?_⟩
  intro k
  obtain ⟨f, inside, same⟩ := greatest.1
  have range := (small f inside).stop
  rw [detected_iff greatest, framesBelow_iff k (by omega)]
  constructor
  · intro both
    obtain ⟨⟨d, inside', usable, all⟩, low⟩ := both
    have above := all f inside
    exact ⟨d, inside', usable, by omega, all⟩
  · intro top
    obtain ⟨d, inside', usable, low, all⟩ := top
    have above := greatest.2 ⟨d, inside', rfl⟩
    exact ⟨⟨d, inside', usable, all⟩, low.trans above⟩

/-! A map with two ranges of RAM up to 32 MiB, and one with a reserved range below 4 GiB behind them. -/

def ram (base length : Nat) : Ards := ⟨BitVec.ofNat 32 base, 0, BitVec.ofNat 32 length, 0, 1⟩
def reserved (base length : Nat) : Ards := ⟨BitVec.ofNat 32 base, 0, BitVec.ofNat 32 length, 0, 2⟩

def plainMap : List Ards := [ram 0 0x9F000, reserved 0x9F000 0x1000, ram 0x100000 0x1F00000]
def reservedMap : List Ards := [ram 0 0x9F000, ram 0x100000 0x1F00000, reserved 0xFEFFC000 0x4000]

/-- The continuation is the number of the next descriptor. -/
def listBios (ds : List Ards) (ebx : Nat) : Ards × Nat := (ds.getD ebx (ram 0 0), if ebx + 1 < ds.length then ebx + 1 else 0)

theorem ramSize_iff_plain :
    ∃ m', getRamSize (listBios plainMap) 10 (fun _ => 0) = some m' ∧ Detected plainMap (load32 m' RAM_SIZE) := by
  have returns : Returns (listBios plainMap) 0 plainMap :=
    .more rfl (by decide) (.more rfl (by decide) (.last rfl))
  obtain ⟨m', ran, right, -⟩ := ramSize_iff (listBios plainMap) plainMap (fun _ => 0) 10 returns (by decide) (by decide)
    (by decide) (by decide)
  exact ⟨m', ran, right.mpr ⟨ram 0x100000 0x1F00000, by decide, rfl, by decide⟩⟩

theorem reservedMap_returns : Returns (listBios reservedMap) 0 reservedMap :=
  .more rfl (by decide) (.more rfl (by decide) (.last rfl))

theorem reservedMap_detected : Detected reservedMap 0x2000000 := by
  apply And.intro
  · exact ⟨ram 0x100000 0x1F00000, by decide, rfl, by decide⟩
  · intro x member
    obtain ⟨d, inside, usable, rfl⟩ := member
    have all : ∀ d ∈ reservedMap, d.Usable → d.stop ≤ 0x2000000 := by decide
    exact all d inside usable

/-- 32 MiB of RAM count as 4080 MiB, and a frame of the kernel pool lies at 0x10200000. -/
theorem reserved_counted :
    Returns (listBios reservedMap) 0 reservedMap ∧ (∀ d ∈ reservedMap, d.Small) ∧ Detected reservedMap 0x2000000 ∧
      ¬FramesBelow (poolInit zeroedPages 0xFF000000) 0x2000000 ∧
      ∃ m', getRamSize (listBios reservedMap) 10 (fun _ => 0) = some m' ∧ load32 m' RAM_SIZE = 0xFF000000 ∧
        ¬Detected reservedMap (load32 m' RAM_SIZE) := by
  obtain ⟨m', ran, greatest⟩ := @getRamSize_greatest (fun _ => 0) (listBios reservedMap) reservedMap 10 reservedMap_returns
    (by decide) (by decide) (by decide) (by decide)
  have top : IsGreatest {x | ∃ d ∈ reservedMap, d.stop = x} 0xFF000000 := by
    apply And.intro
    · exact ⟨reserved 0xFEFFC000 0x4000, by decide, by decide⟩
    · intro x member
      obtain ⟨d, inside, rfl⟩ := member
      have all : ∀ d ∈ reservedMap, d.stop ≤ 0xFF000000 := by decide
      exact all d inside
  have value := greatest.unique top
  refine ⟨reservedMap_returns, by decide, reservedMap_detected, ?_, m', ran, value, ?_⟩
  · intro below
    have inside : 0x10000 < 8 * (poolInit zeroedPages 0xFF000000).pp.paddrBitmap.len := by decide +kernel
    have frame : 0x10200000 ∈ (FrameBit.kernel 0x10000 inside).frame := by
      show 0x10200000 ∈ Set.Ico (4096 * 256 + 0x100000 + 4096 * 0x10000) (4096 * 256 + 0x100000 + 4096 * 0x10000 + 4096)
      exact ⟨by decide, by decide⟩
    have low : 0x10200000 < 0x2000000 := below _ frame
    omega
  · intro detected
    have wrong := detected.unique reservedMap_detected
    omega

end KOS.MemorySize
