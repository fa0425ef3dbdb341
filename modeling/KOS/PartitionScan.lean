import KOS.PartitionEnds

/-! What the scan of the partition tables finds on a well-formed disk. -/

namespace KOS.PartitionScan
open KOS.DoublyLinked KOS.KernelList KOS.Stdio KOS.Partition
open KOS.PartitionEnds (bootedHeap empty empty_ready)

variable {η : Type*} {al : Allocator η} {disk : Word → Buffer} {hd : IdeHd}

/-! Well-formed disks. -/

def Extended (bs : Buffer) (idx : Nat) : Prop := idx < 4 ∧ 0x05 = (ptable bs idx).type

/-- A used entry that is not extended. -/
def Data (bs : Buffer) (idx : Nat) : Prop := idx < 4 ∧ 0 ≠ (ptable bs idx).type ∧ 0x05 ≠ (ptable bs idx).type

/-- The EBRs at these offsets of the extended partition, each linking to the next by its only extended entry. -/
inductive EbrChain (disk : Word → Buffer) (base : Word) : List Word → Prop
  | last {offset : Word} (none : ∀ idx, ¬Extended (disk (base + offset)) idx) : EbrChain disk base [offset]
  | next {offset : Word} {rest : List Word} (idx : Nat) (link : Extended (disk (base + offset)) idx)
      (only : ∀ j, Extended (disk (base + offset)) j → j = idx)
      (later : EbrChain disk base ((ptable (disk (base + offset)) idx).startLba :: rest)) :
      EbrChain disk base (offset :: (ptable (disk (base + offset)) idx).startLba :: rest)

/-- The disk has no extended partition, or one at `base` with EBRs at these offsets. -/
inductive WellFormed (disk : Word → Buffer) : Word → List Word → Prop
  | plain (none : ∀ idx, ¬Extended (disk 0) idx) : WellFormed disk 0 []
  | extended {offsets : List Word} (idx : Nat) (link : Extended (disk 0) idx) (only : ∀ j, Extended (disk 0) j → j = idx)
      (nonzero : 0 ≠ (ptable (disk 0) idx).startLba) (chain : EbrChain disk (ptable (disk 0) idx).startLba (0 :: offsets)) :
      WellFormed disk (ptable (disk 0) idx).startLba (0 :: offsets)

/-! A table's data entries in order, with what the extended entry leads to at its place. -/

section Interleave

variable {γ δ : Type*} {bs : Buffer} {inner : List γ} {single : Nat → γ}

/-- The contribution of one entry. -/
def slot (bs : Buffer) (inner : List γ) (single : Nat → γ) (idx : Nat) : List γ :=
  if 0 = (ptable bs idx).type then [] else if 0x05 = (ptable bs idx).type then inner else [single idx]

def interleave (bs : Buffer) (inner : List γ) (single : Nat → γ) : List γ := [0, 1, 2, 3].flatMap (slot bs inner single)

theorem mem_table {idx : Nat} : idx ∈ [0, 1, 2, 3] ↔ idx < 4 := by
  simp only [List.mem_cons, List.not_mem_nil, or_false]
  omega

theorem slot_extended {idx : Nat} (extended : Extended bs idx) : slot bs inner single idx = inner := by
  unfold slot
  rw [← extended.2]
  rfl

theorem slot_data {idx : Nat} (data : Data bs idx) : slot bs inner single idx = [single idx] := by
  rw [slot, if_neg data.2.1, if_neg data.2.2]

theorem slot_unused {idx : Nat} (unused : 0 = (ptable bs idx).type) : slot bs inner single idx = [] := if_pos unused

theorem entry_cases (bs : Buffer) {idx : Nat} (inside : idx < 4) :
    Extended bs idx ∨ Data bs idx ∨ 0 = (ptable bs idx).type := by
  by_cases unused : 0 = (ptable bs idx).type
  · exact .inr (.inr unused)
  · by_cases extended : 0x05 = (ptable bs idx).type
    · exact .inl ⟨inside, extended⟩
    · exact .inr (.inl ⟨inside, unused, extended⟩)

theorem mem_slot {x : γ} {idx : Nat} (inside : idx < 4) :
    x ∈ slot bs inner single idx ↔ x ∈ inner ∧ Extended bs idx ∨ Data bs idx ∧ x = single idx := by
  rcases entry_cases bs inside with extended | data | unused
  · have notData : ¬Data bs idx := fun data => data.2.2 extended.2
    simp [slot_extended extended, extended, notData]
  · have notExtended : ¬Extended bs idx := fun extended => data.2.2 extended.2
    simp [slot_data data, data, notExtended]
  · have notData : ¬Data bs idx := fun data => data.2.1 unused
    have notExtended : ¬Extended bs idx := by
      intro extended
      exact absurd (unused.trans extended.2.symm) (by decide)
    simp [slot_unused unused, notData, notExtended]

theorem mem_interleave {x : γ} :
    x ∈ interleave bs inner single ↔ (x ∈ inner ∧ ∃ idx, Extended bs idx) ∨ ∃ idx, Data bs idx ∧ x = single idx := by
  rw [interleave, List.mem_flatMap]
  constructor
  · intro ⟨idx, inside, member⟩
    rcases (mem_slot (mem_table.mp inside)).mp member with ⟨later, extended⟩ | ⟨data, same⟩
    · exact .inl ⟨later, idx, extended⟩
    · exact .inr ⟨idx, data, same⟩
  · intro found
    rcases found with ⟨later, idx, extended⟩ | ⟨idx, data, same⟩
    · exact ⟨idx, mem_table.mpr extended.1, (mem_slot extended.1).mpr (.inl ⟨later, extended⟩)⟩
    · exact ⟨idx, mem_table.mpr data.1, (mem_slot data.1).mpr (.inr ⟨data, same⟩)⟩

theorem map_interleave (g : γ → δ) : (interleave bs inner single).map g = interleave bs (inner.map g) (g ∘ single) := by
  rw [interleave, interleave, List.map_flatMap]
  congr 1
  funext idx
  unfold slot
  split_ifs
  · rfl
  · rfl
  · rfl

/-- What is left of the data entries, when the extended entry is the only one that counts. -/
theorem filter_slots_none (p : γ → Bool) (others : ∀ idx < 4, p (single idx) = false) {idxs : List Nat}
    (inside : ∀ idx ∈ idxs, idx < 4) (none : ∀ idx ∈ idxs, ¬Extended bs idx) :
    (idxs.flatMap (slot bs inner single)).filter p = [] := by
  rw [List.filter_eq_nil_iff]
  intro x member
  obtain ⟨idx, listed, found⟩ := List.mem_flatMap.mp member
  rcases (mem_slot (inside idx listed)).mp found with ⟨-, extended⟩ | ⟨-, same⟩
  · exact absurd extended (none idx listed)
  · rw [same, others idx (inside idx listed)]
    exact Bool.false_ne_true

theorem filter_interleave (p : γ → Bool) (others : ∀ idx < 4, p (single idx) = false) (all : ∀ x ∈ inner, p x = true)
    {idx : Nat} (link : Extended bs idx) (only : ∀ j, Extended bs j → j = idx) :
    (interleave bs inner single).filter p = inner := by
  obtain ⟨before, after, split⟩ := List.append_of_mem (mem_table.mpr link.1)
  have distinct : (before ++ idx :: after).Nodup := split ▸ (by decide)
  have inside : ∀ j ∈ before ++ idx :: after, j < 4 := by
    intro j member
    rw [← split] at member
    exact mem_table.mp member
  obtain ⟨outside, -⟩ := List.nodup_cons.mp (List.nodup_middle.mp distinct)
  have front : (before.flatMap (slot bs inner single)).filter p = [] := by
    apply filter_slots_none p others (fun j member => inside j (List.mem_append_left _ member))
    intro j member extended
    exact outside (List.mem_append_left _ (only j extended ▸ member))
  have back : (after.flatMap (slot bs inner single)).filter p = [] := by
    apply filter_slots_none p others (fun j member => inside j (List.mem_append_right _ (List.mem_cons_of_mem idx member)))
    intro j member extended
    exact outside (List.mem_append_right _ (only j extended ▸ member))
  rw [interleave, split, List.flatMap_append, List.flatMap_cons, List.filter_append, List.filter_append, front, back,
    slot_extended link, List.nil_append, List.append_nil, List.filter_eq_self]
  exact all

/-- No repetition, when at most one entry is extended and the parts have none in common. -/
theorem nodup_interleave (only : ∀ i j, Extended bs i → Extended bs j → i = j) (nodup : inner.Nodup)
    (injective : ∀ i < 4, ∀ j < 4, single i = single j → i = j) (apart : ∀ i < 4, single i ∉ inner) :
    (interleave bs inner single).Nodup := by
  rw [interleave, List.nodup_flatMap]
  constructor
  · intro idx inside
    rcases entry_cases bs (mem_table.mp inside) with extended | data | unused
    · rw [slot_extended extended]
      exact nodup
    · rw [slot_data data]
      exact List.nodup_singleton _
    · rw [slot_unused unused]
      exact List.nodup_nil
  · have distinct : [0, 1, 2, 3].Nodup := by decide
    apply List.Pairwise.imp_of_mem _ distinct
    intro i j left right different x first second
    have low := mem_table.mp left
    have low' := mem_table.mp right
    rcases (mem_slot low).mp first with ⟨inside, extended⟩ | ⟨data, same⟩
    · rcases (mem_slot low').mp second with ⟨inside', extended'⟩ | ⟨data', same'⟩
      · exact different (only i j extended extended')
      · exact apart j low' (same' ▸ inside)
    · rcases (mem_slot low').mp second with ⟨inside', extended'⟩ | ⟨data', same'⟩
      · exact apart i low (same ▸ inside')
      · exact different (injective i low j low' (same.symm.trans same'))

end Interleave

/-! What the scan finds. -/

/-- The data entries of a chain of EBRs, each with the offset of its EBR, in the order of the scan. -/
def logicals (disk : Word → Buffer) (base : Word) : List Word → List (Word × Nat)
  | [] => []
  | offset :: rest => interleave (disk (base + offset)) (logicals disk base rest) fun idx => (offset, idx)

def numbered (base : Word) : List (Word × Nat) → Word → List Found
  | [], _ => []
  | (offset, idx) :: rest, nr => ⟨base, offset, idx, nr⟩ :: numbered base rest (nr + 1)

def primary (idx : Nat) : Found := ⟨0, 0, idx, BitVec.ofNat 32 (idx + 1)⟩

/-- Primaries by slot, logicals from 5 on where the extended entry stands. -/
def scanned (disk : Word → Buffer) (base : Word) (offsets : List Word) : List Found :=
  interleave (disk 0) (numbered base (logicals disk base offsets) 5) primary

theorem numbered_append (base : Word) (left right : List (Word × Nat)) (nr : Word) :
    numbered base (left ++ right) nr = numbered base left nr ++ numbered base right (nr + BitVec.ofNat 32 left.length) := by
  induction left generalizing nr with
  | nil => simp [numbered]
  | cons first rest ih =>
    have counted : nr + 1 + BitVec.ofNat 32 rest.length = nr + BitVec.ofNat 32 (first :: rest).length := by
      rw [List.length_cons, BitVec.ofNat_add, add_assoc, add_comm (BitVec.ofNat 32 rest.length)]
      rfl
    rw [List.cons_append, numbered, ih, counted, numbered, List.cons_append]

section Visit

variable {call : Word → Word → Word → Option (List Found × Word)} {base offset : Word}

theorem visitTable_ebr (nonzero : 0 ≠ base) {inner : List (Word × Nat)}
    (calls : ∀ idx, Extended (disk (base + offset)) idx → ∀ nr,
      call nr base (ptable (disk (base + offset)) idx).startLba =
        some (numbered base inner nr, nr + BitVec.ofNat 32 inner.length))
    {idxs : List Nat} (inside : ∀ idx ∈ idxs, idx < 4) (nr : Word) :
    visitTable disk call base offset idxs nr =
      some (numbered base (idxs.flatMap (slot (disk (base + offset)) inner fun idx => (offset, idx))) nr,
        nr + BitVec.ofNat 32 (idxs.flatMap (slot (disk (base + offset)) inner fun idx => (offset, idx))).length) := by
  induction idxs generalizing nr with
  | nil => simp [visitTable, numbered]
  | cons idx rest ih =>
    have here : visitEntry disk call base offset idx nr =
        some (numbered base (slot (disk (base + offset)) inner (fun idx => (offset, idx)) idx) nr,
          nr + BitVec.ofNat 32 (slot (disk (base + offset)) inner (fun idx => (offset, idx)) idx).length) := by
      rcases entry_cases (disk (base + offset)) (inside idx List.mem_cons_self) with extended | data | unused
      · rw [slot_extended extended, visitEntry, ← extended.2, if_neg (by decide), if_pos rfl, if_neg nonzero]
        exact calls idx extended nr
      · rw [slot_data data, visitEntry]
        simp only [if_neg data.2.1, if_neg data.2.2, if_neg nonzero]
        rfl
      · rw [slot_unused unused, visitEntry]
        simp [← unused, numbered]
    rw [visitTable, here, Option.bind_some, ih (fun j member => inside j (List.mem_cons_of_mem idx member)),
      Option.map_some, List.flatMap_cons, numbered_append, List.length_append, BitVec.ofNat_add, add_assoc]

theorem visitTable_mbr {inner : List Found}
    (calls : ∀ idx, Extended (disk 0) idx → ∃ nr, call 5 (ptable (disk 0) idx).startLba 0 = some (inner, nr))
    {idxs : List Nat} (inside : ∀ idx ∈ idxs, idx < 4) (nr : Word) :
    ∃ nr', visitTable disk call 0 0 idxs nr = some (idxs.flatMap (slot (disk 0) inner primary), nr') := by
  induction idxs generalizing nr with
  | nil => exact ⟨nr, rfl⟩
  | cons idx rest ih =>
    have here : ∃ nr', visitEntry disk call 0 0 idx nr = some (slot (disk 0) inner primary idx, nr') := by
      rw [visitEntry, add_zero]
      rcases entry_cases (disk 0) (inside idx List.mem_cons_self) with extended | data | unused
      · rw [slot_extended extended, ← extended.2]
        exact calls idx extended
      · rw [slot_data data]
        simp only [if_neg data.2.1, if_neg data.2.2]
        exact ⟨nr, rfl⟩
      · rw [slot_unused unused]
        exact ⟨nr, if_pos unused⟩
    obtain ⟨nr', here⟩ := here
    obtain ⟨nr'', later⟩ := ih (fun j member => inside j (List.mem_cons_of_mem idx member)) nr'
    refine ⟨nr'', ?_⟩
    rw [visitTable, here, Option.bind_some, later, Option.map_some, List.flatMap_cons]

/-- Down a chain, numbering on. -/
theorem visit_chain (nonzero : 0 ≠ base) {offsets : List Word} (chain : EbrChain disk base offsets) :
    ∀ offset rest, offsets = offset :: rest → ∀ fuel > rest.length, ∀ nr,
      visit disk fuel nr base offset = some (numbered base (logicals disk base offsets) nr,
        nr + BitVec.ofNat 32 (logicals disk base offsets).length) := by
  induction chain with
  | @last offset none =>
    intro offset rest shape fuel enough nr
    obtain ⟨rfl, rfl⟩ := List.cons.inj shape
    obtain ⟨fuel, rfl⟩ := Nat.exists_eq_add_of_lt enough
    exact visitTable_ebr nonzero (fun idx extended => absurd extended (none idx)) (fun idx => mem_table.mp) nr
  | @next offset rest idx link only later ih =>
    intro offset rest shape fuel enough nr
    obtain ⟨rfl, rfl⟩ := List.cons.inj shape
    cases fuel with
    | zero => exact absurd enough (Nat.not_lt_zero _)
    | succ fuel =>
      apply visitTable_ebr nonzero _ (fun idx => mem_table.mp)
      intro j extended nr
      rw [only j extended]
      exact ih _ _ rfl fuel (Nat.lt_of_succ_lt_succ enough) nr

theorem visit_wellFormed {offsets : List Word} (wellFormed : WellFormed disk base offsets) {fuel : Nat}
    (enough : offsets.length < fuel) (nr : Word) :
    ∃ nr', visit disk fuel nr 0 0 = some (scanned disk base offsets, nr') := by
  cases fuel with
  | zero => exact absurd enough (Nat.not_lt_zero _)
  | succ fuel =>
    apply visitTable_mbr _ (fun idx => mem_table.mp)
    intro idx extended
    cases wellFormed with
    | plain none => exact absurd extended (none idx)
    | @extended rest link_idx link only nonzero chain =>
      rw [only idx extended]
      exact ⟨_, visit_chain nonzero chain 0 rest rfl fuel (Nat.lt_of_succ_lt_succ enough) 5⟩

end Visit

/-! The chain comes to no EBR twice. -/

theorem ebrChain_unique {base offset : Word} {left right : List Word} (chain : EbrChain disk base (offset :: left))
    (chain' : EbrChain disk base (offset :: right)) : left = right := by
  induction left generalizing offset right with
  | nil =>
    cases chain with
    | last none =>
      cases chain' with
      | last _ => rfl
      | next idx link _ _ => exact absurd link (none idx)
  | cons next rest ih =>
    cases chain with
    | next idx link only later =>
      cases chain' with
      | last none => exact absurd link (none idx)
      | next idx' link' only' later' =>
        obtain rfl := only idx' link'
        rw [ih later later']

theorem EbrChain.suffix {base offset : Word} {before after : List Word}
    (chain : EbrChain disk base (before ++ offset :: after)) : EbrChain disk base (offset :: after) := by
  induction before with
  | nil => exact chain
  | cons first rest ih =>
    apply ih
    generalize shape : first :: rest ++ offset :: after = offsets at chain
    cases chain with
    | last _ =>
      have length := congrArg List.length shape
      simp at length
    | next idx _ _ later =>
      obtain ⟨-, tail⟩ := List.cons.inj shape
      rw [← tail] at later
      exact later

theorem ebrChain_nodup {base : Word} {offsets : List Word} (chain : EbrChain disk base offsets) : offsets.Nodup := by
  induction chain with
  | last _ => exact List.nodup_singleton _
  | @next offset rest idx link only later ih =>
    apply List.nodup_cons.mpr ⟨?_, ih⟩
    intro again
    obtain ⟨before, after, split⟩ := List.append_of_mem again
    have whole : EbrChain disk base (offset :: (ptable (disk (base + offset)) idx).startLba :: rest) :=
      .next idx link only later
    have same := ebrChain_unique whole (split ▸ later).suffix
    have length := congrArg List.length (same.symm.trans split)
    rw [List.length_append, List.length_cons] at length
    omega

/-! Each data entry once. -/

theorem mem_logicals {base : Word} {offsets : List Word} (chain : EbrChain disk base offsets) (p : Word × Nat) :
    p ∈ logicals disk base offsets ↔ p.1 ∈ offsets ∧ Data (disk (base + p.1)) p.2 := by
  obtain ⟨o, i⟩ := p
  induction chain with
  | @last offset none =>
    rw [logicals, mem_interleave, List.mem_singleton]
    constructor
    · rintro (⟨inner, -⟩ | ⟨idx, data, same⟩)
      · exact absurd inner List.not_mem_nil
      · obtain ⟨rfl, rfl⟩ := Prod.mk.inj same
        exact ⟨rfl, data⟩
    · rintro ⟨rfl, data⟩
      exact .inr ⟨i, data, rfl⟩
  | @next offset rest idx link only later ih =>
    rw [logicals, mem_interleave, ih]
    constructor
    · rintro (⟨⟨inner, data⟩, -⟩ | ⟨j, data, same⟩)
      · exact ⟨List.mem_cons_of_mem offset inner, data⟩
      · obtain ⟨rfl, rfl⟩ := Prod.mk.inj same
        exact ⟨List.mem_cons_self, data⟩
    · intro ⟨member, data⟩
      rcases List.mem_cons.mp member with same | inner
      · obtain rfl : o = offset := same
        exact .inr ⟨i, data, rfl⟩
      · exact .inl ⟨⟨inner, data⟩, idx, link⟩

theorem nodup_logicals {base : Word} {offsets : List Word} (chain : EbrChain disk base offsets) :
    (logicals disk base offsets).Nodup := by
  induction chain with
  | @last offset none =>
    apply nodup_interleave
    · intro i j extended
      exact absurd extended (none i)
    · exact List.nodup_nil
    · intro i _ j _ same
      exact (Prod.mk.inj same).2
    · intro i _
      exact List.not_mem_nil
  | @next offset rest idx link only later ih =>
    have whole : EbrChain disk base (offset :: (ptable (disk (base + offset)) idx).startLba :: rest) :=
      .next idx link only later
    apply nodup_interleave
    · intro i j extended extended'
      exact (only i extended).trans (only j extended').symm
    · exact ih
    · intro i _ j _ same
      exact (Prod.mk.inj same).2
    · intro i _ inner
      exact (List.nodup_cons.mp (ebrChain_nodup whole)).1 ((mem_logicals later _).mp inner).1

/-- Where an entry lies. -/
def Found.place (f : Found) : Word × Word × Nat := (f.base, f.offset, f.idx)

theorem numbered_places (base : Word) (entries : List (Word × Nat)) (nr : Word) :
    (numbered base entries nr).map Found.place = entries.map fun p => (base, p) := by
  induction entries generalizing nr with
  | nil => rfl
  | cons first rest ih =>
    rw [numbered, List.map_cons, ih, List.map_cons]
    rfl

theorem numbered_nrs (base : Word) (entries : List (Word × Nat)) (nr : Nat) (small : nr + entries.length < 2 ^ 32) :
    (numbered base entries (BitVec.ofNat 32 nr)).map (fun f => f.nr.toNat) =
      (List.range entries.length).map fun k => nr + k := by
  induction entries generalizing nr with
  | nil => rfl
  | cons first rest ih =>
    rw [List.length_cons] at small
    have next : BitVec.ofNat 32 nr + 1 = BitVec.ofNat 32 (nr + 1) := (BitVec.ofNat_add nr 1).symm
    have here : (BitVec.ofNat 32 nr).toNat = nr := by
      rw [BitVec.toNat_ofNat, Nat.mod_eq_of_lt (by omega)]
    rw [numbered, List.map_cons, next, ih (nr + 1) (by omega), here, List.length_cons, List.range_succ_eq_map, List.map_cons,
      List.map_map, Nat.add_zero]
    congr 1
    apply List.map_congr_left
    intro k _
    show nr + 1 + k = nr + (k + 1)
    omega

/-! Names. -/

theorem ptnName_eq (hd : IdeHd) (nr : Word) : ptnName hd nr = hd.name ++ (ch '_' :: decimal nr) := by
  have format : nameFormat = [ch '%', ch 's', ch '_', ch '%', ch 'd'] := by decide
  have d : ch 'd' ≠ ch 's' ∧ ch 'd' ≠ ch 'c' := by decide
  have under : ch '_' ≠ ch '%' := by decide
  rw [ptnName, format]
  simp [render, convert, d, under]

theorem decimal_small {nr : Word} (small : nr.toNat < 1000) : decimal nr = numeral 10 nr.toNat := by
  rw [decimal_eq, if_neg (by omega)]

/-- The digit that a character stands for. -/
def digitOf (c : UInt8) : Nat := c.toNat - (ch '0').toNat

theorem digitOf_digitChar : ∀ d < 10, digitOf (digitChar d) = d := by decide

theorem digits_of_numeral {n : Nat} (positive : 0 < n) : (numeral 10 n).map digitOf = (Nat.digits 10 n).reverse := by
  rw [numeral, if_neg (by omega), List.map_map]
  conv_rhs => rw [← List.map_id (Nat.digits 10 n).reverse]
  apply List.map_congr_left
  intro d member
  exact digitOf_digitChar d (Nat.digits_lt_base (by decide) (List.mem_reverse.mp member))

theorem ptnName_injective {nr nr' : Word} (small : nr.toNat < 1000) (small' : nr'.toNat < 1000) (positive : 0 < nr.toNat)
    (positive' : 0 < nr'.toNat) (same : ptnName hd nr = ptnName hd nr') : nr = nr' := by
  rw [ptnName_eq, ptnName_eq, decimal_small small, decimal_small small'] at same
  obtain ⟨-, numerals⟩ := List.cons.inj (List.append_cancel_left same)
  have digits := congrArg (List.map digitOf) numerals
  rw [digits_of_numeral positive, digits_of_numeral positive', List.reverse_inj] at digits
  exact BitVec.eq_of_toNat_eq (Nat.digits_inj_iff.mp digits)

theorem numeral_length {n : Nat} (small : n < 1000) : (numeral 10 n).length ≤ 3 := by
  unfold numeral
  split
  · decide
  · rw [List.length_map, List.length_reverse]
    exact (Nat.digits_length_le_iff (by decide) n).mpr small

/-! The list as a whole. -/

/-- One partition for every data entry of the MBR and of the chain's EBRs, under the name of its slot or of its
place among the logical ones. -/
structure Exact (disk : Word → Buffer) (hd : IdeHd) (base : Word) (offsets : List Word) (found : List Found) : Prop where
  once : (found.map Found.place).Nodup
  entries : ∀ p : Word × Word × Nat, p ∈ found.map Found.place ↔
    Data (disk (p.1 + p.2.1)) p.2.2 ∧ (p.1 = 0 ∧ p.2.1 = 0 ∨ p.1 = base ∧ p.2.1 ∈ offsets)
  primaries : ∀ f ∈ found, f.base = 0 → f.nr.toNat = f.idx + 1
  numbers : (found.filter fun f => f.base ≠ 0).map (fun f => f.nr.toNat) =
    (List.range (found.filter fun f => f.base ≠ 0).length).map fun k => 5 + k
  names : (found.map fun f => ptnName hd f.nr).Nodup
  /-- With a disk name like `sda`, names fit the 8 bytes of the field. -/
  fit : hd.name.length ≤ 3 → ∀ f ∈ found, (ptnName hd f.nr).length < 8

theorem primary_nr {idx : Nat} (inside : idx < 4) : (primary idx).nr.toNat = idx + 1 := by
  show (BitVec.ofNat 32 (idx + 1)).toNat = idx + 1
  rw [BitVec.toNat_ofNat, Nat.mod_eq_of_lt (by omega)]

section Whole

variable {base : Word} {offsets : List Word}

theorem WellFormed.only (wellFormed : WellFormed disk base offsets) :
    ∀ i j, Extended (disk 0) i → Extended (disk 0) j → i = j := by
  intro i j first second
  cases wellFormed with
  | plain none => exact absurd first (none i)
  | extended idx link only _ _ => exact (only i first).trans (only j second).symm

/-- A chain, or no logical partition. -/
theorem WellFormed.logicals_cases (wellFormed : WellFormed disk base offsets) :
    logicals disk base offsets = [] ∧ offsets = [] ∧ (∀ idx, ¬Extended (disk 0) idx) ∨
      0 ≠ base ∧ EbrChain disk base offsets ∧ ∃ idx, Extended (disk 0) idx := by
  cases wellFormed with
  | plain none => exact .inl ⟨rfl, rfl, none⟩
  | extended idx link _ nonzero chain => exact .inr ⟨nonzero, chain, idx, link⟩

theorem scanned_map {γ : Type*} (g : Found → γ) :
    (scanned disk base offsets).map g =
      interleave (disk 0) ((numbered base (logicals disk base offsets) 5).map g) (g ∘ primary) := map_interleave g

theorem scanned_places_nodup (wellFormed : WellFormed disk base offsets) :
    ((scanned disk base offsets).map Found.place).Nodup := by
  rw [scanned_map, numbered_places]
  apply nodup_interleave wellFormed.only
  · rcases wellFormed.logicals_cases with ⟨none, -, -⟩ | ⟨-, chain, -⟩
    · rw [none]
      exact List.nodup_nil
    · apply (nodup_logicals chain).map
      intro p q same
      exact (Prod.mk.inj same).2
  · intro i _ j _ same
    exact (Prod.mk.inj (Prod.mk.inj same).2).2
  · intro i _ inner
    obtain ⟨p, member, same⟩ := List.mem_map.mp inner
    rcases wellFormed.logicals_cases with ⟨none, -, -⟩ | ⟨nonzero, -, -⟩
    · rw [none] at member
      exact absurd member List.not_mem_nil
    · exact nonzero (Prod.mk.inj same).1.symm

theorem mem_scanned_places (wellFormed : WellFormed disk base offsets) (p : Word × Word × Nat) :
    p ∈ (scanned disk base offsets).map Found.place ↔
      Data (disk (p.1 + p.2.1)) p.2.2 ∧ (p.1 = 0 ∧ p.2.1 = 0 ∨ p.1 = base ∧ p.2.1 ∈ offsets) := by
  obtain ⟨b, o, i⟩ := p
  rw [scanned_map, numbered_places, mem_interleave]
  have primaries : (∃ idx, Data (disk 0) idx ∧ (b, o, i) = (Found.place ∘ primary) idx) ↔
      Data (disk (b + o)) i ∧ (b = 0 ∧ o = 0) := by
    constructor
    · intro ⟨idx, data, same⟩
      obtain ⟨rfl, rest⟩ := Prod.mk.inj same
      obtain ⟨rfl, rfl⟩ := Prod.mk.inj rest
      exact ⟨data, rfl, rfl⟩
    · rintro ⟨data, rfl, rfl⟩
      exact ⟨i, data, rfl⟩
  have chained : ((b, o, i) ∈ (logicals disk base offsets).map (fun p => (base, p)) ∧ ∃ idx, Extended (disk 0) idx) ↔
      Data (disk (b + o)) i ∧ (b = base ∧ o ∈ offsets) := by
    rcases wellFormed.logicals_cases with ⟨none, nil, -⟩ | ⟨nonzero, chain, link⟩
    · rw [none, nil]
      simp
    · constructor
      · rintro ⟨member, -⟩
        obtain ⟨p, listed, same⟩ := List.mem_map.mp member
        obtain ⟨rfl, rfl⟩ := Prod.mk.inj same
        obtain ⟨inside, data⟩ := (mem_logicals chain _).mp listed
        exact ⟨data, rfl, inside⟩
      · rintro ⟨data, rfl, inside⟩
        exact ⟨List.mem_map.mpr ⟨(o, i), (mem_logicals chain _).mpr ⟨inside, data⟩, rfl⟩, link⟩
  rw [primaries, chained, ← and_or_left, or_comm]

variable (few : (logicals disk base offsets).length < 995)
include few

theorem logical_nrs : (numbered base (logicals disk base offsets) 5).map (fun f => f.nr.toNat) =
    (List.range (logicals disk base offsets).length).map fun k => 5 + k :=
  numbered_nrs base _ 5 (by omega)

theorem scanned_nrs : (scanned disk base offsets).map (fun f => f.nr.toNat) =
    interleave (disk 0) ((List.range (logicals disk base offsets).length).map fun k => 5 + k)
      ((fun f => f.nr.toNat) ∘ primary) := by
  rw [scanned_map, logical_nrs few]

omit few in
theorem scanned_primaries (wellFormed : WellFormed disk base offsets) :
    ∀ f ∈ scanned disk base offsets, f.base = 0 → f.nr.toNat = f.idx + 1 := by
  intro f member zero
  rcases mem_interleave.mp member with ⟨inner, -⟩ | ⟨idx, data, rfl⟩
  · have place := List.mem_map_of_mem (f := Found.place) inner
    rw [numbered_places] at place
    obtain ⟨p, listed, same⟩ := List.mem_map.mp place
    have here : base = f.base := (Prod.mk.inj same).1
    rcases wellFormed.logicals_cases with ⟨none, -, -⟩ | ⟨nonzero, -, -⟩
    · rw [none] at listed
      exact absurd listed List.not_mem_nil
    · exact absurd (zero.symm.trans here.symm) nonzero
  · exact primary_nr data.1

omit few in
theorem scanned_logicals (wellFormed : WellFormed disk base offsets) :
    (scanned disk base offsets).filter (fun f => f.base ≠ 0) = numbered base (logicals disk base offsets) 5 := by
  have others : ∀ idx < 4, decide ((primary idx).base ≠ 0) = false := fun idx _ => rfl
  cases wellFormed with
  | plain none => exact filter_slots_none _ others (fun idx => mem_table.mp) fun idx _ => none idx
  | extended idx link only nonzero chain =>
    apply filter_interleave _ others _ link only
    intro f inner
    have place := List.mem_map_of_mem (f := Found.place) inner
    rw [numbered_places] at place
    obtain ⟨p, listed, same⟩ := List.mem_map.mp place
    rw [decide_eq_true_iff, ← (Prod.mk.inj same).1]
    exact nonzero.symm

theorem scanned_nr_bounds {n : Nat} (member : n ∈ (scanned disk base offsets).map fun f => f.nr.toNat) : 0 < n ∧ n < 1000 := by
  rw [scanned_nrs few] at member
  rcases mem_interleave.mp member with ⟨inner, -⟩ | ⟨idx, data, same⟩
  · obtain ⟨k, counted, rfl⟩ := List.mem_map.mp inner
    have bound := List.mem_range.mp counted
    omega
  · have bound := data.1
    rw [same, Function.comp_apply, primary_nr bound]
    omega

theorem scanned_nrs_nodup (wellFormed : WellFormed disk base offsets) :
    ((scanned disk base offsets).map fun f => f.nr.toNat).Nodup := by
  rw [scanned_nrs few]
  apply nodup_interleave wellFormed.only
  · apply List.nodup_range.map
    intro k k' same
    exact Nat.add_left_cancel same
  · intro i low j low' same
    rw [Function.comp_apply, Function.comp_apply, primary_nr low, primary_nr low'] at same
    exact Nat.succ.inj same
  · intro i low inner
    obtain ⟨k, -, same⟩ := List.mem_map.mp inner
    rw [Function.comp_apply, primary_nr low] at same
    omega

theorem scanned_exact (wellFormed : WellFormed disk base offsets) :
    Exact disk hd base offsets (scanned disk base offsets) := by
  have bounds : ∀ f ∈ scanned disk base offsets, 0 < f.nr.toNat ∧ f.nr.toNat < 1000 :=
    fun f member => scanned_nr_bounds few (List.mem_map.mpr ⟨f, member, rfl⟩)
  constructor
  · exact scanned_places_nodup wellFormed
  · exact mem_scanned_places wellFormed
  · exact scanned_primaries wellFormed
  · rw [scanned_logicals wellFormed, logical_nrs few, ← List.length_map (f := fun f : Found => f.nr.toNat),
      logical_nrs few, List.length_map, List.length_range]
  · have distinct := scanned_nrs_nodup few wellFormed
    rw [List.Nodup, List.pairwise_map] at distinct ⊢
    apply distinct.imp_of_mem
    intro f g member member' different same
    obtain ⟨positive, small⟩ := bounds f member
    obtain ⟨positive', small'⟩ := bounds g member'
    rw [ptnName_injective small small' positive positive' same] at different
    exact different rfl
  · intro short f member
    obtain ⟨-, small⟩ := bounds f member
    have digits := numeral_length small
    rw [ptnName_eq, decimal_small small, List.length_append, List.length_cons]
    omega

end Whole

/-- With every request granted, the scan of a well-formed disk records exactly its data entries, and keeps no boot
sector. -/
theorem ideGetPartition_exact {base : Word} {offsets : List Word} (wellFormed : WellFormed disk base offsets)
    (few : (logicals disk base offsets).length < 995) (s : Scan η) (old : List Nat)
    (out : ∀ a ∈ old, a ∈ al.live s.heap) (listed : Holds s.tags ptnList (old.map Tag.ptnTag)) (fuel : Nat)
    (enough : offsets.length < fuel) (ready : al.ready s.heap (calls disk fuel 0 0)) :
    ∃ s' new found, ideGetPartition al disk hd fuel s 0 0 = some s' ∧
      Holds s'.tags ptnList ((old ++ new).map Tag.ptnTag) ∧ new.map s'.ptns = found.map (Found.ptn disk hd) ∧
      Exact disk hd base offsets found ∧ Appended al s s' new := by
  obtain ⟨nr, visited⟩ := visit_wellFormed wellFormed enough s.ptnNr
  have matched : Matches al disk hd s 0 (ideGetPartition al disk hd fuel s 0 0) (visit disk fuel s.ptnNr 0 0) :=
    ideGetPartition_matches fuel 0 s 0 0 ready
  rw [visited] at matched
  obtain ⟨s', new, ran, appended, records, -⟩ := matched
  exact ⟨s', new, _, ran, appended.list old out listed, records, scanned_exact few wellFormed, appended⟩

/-- One primary partition and an extended one at 63 with two EBRs, 30 sectors apart. -/
def sampleDisk : Word → Buffer := fun lba a =>
  if lba = 0 then (if a = 450 then 0x83 else if a = 454 then 16 else if a = 458 then 40 else if a = 466 then 0x05
    else if a = 470 then 63 else 0)
  else if lba = 63 then (if a = 450 then 0x83 else if a = 454 then 1 else if a = 458 then 20 else if a = 466 then 0x05
    else if a = 470 then 30 else 0)
  else if lba = 93 then (if a = 450 then 0x83 else if a = 454 then 1 else if a = 458 then 20 else 0)
  else 0

theorem extended_sample {lba : Word} {i : Nat} (at_ : lba = 0 ∨ lba = 63) (extended : Extended (sampleDisk lba) i) : i = 1 := by
  obtain ⟨low, type⟩ := extended
  rcases at_ with rfl | rfl
  · interval_cases i
    · exact absurd type (by decide)
    · rfl
    · exact absurd type (by decide)
    · exact absurd type (by decide)
  · interval_cases i
    · exact absurd type (by decide)
    · rfl
    · exact absurd type (by decide)
    · exact absurd type (by decide)

theorem sampleDisk_wellFormed : WellFormed sampleDisk 63 [0, 30] := by
  have base : (ptable (sampleDisk 0) 1).startLba = 63 := by decide
  have next : (ptable (sampleDisk (63 + 0)) 1).startLba = 30 := by decide
  have last : EbrChain sampleDisk 63 [30] := by
    apply EbrChain.last
    intro idx ⟨low, type⟩
    interval_cases idx
    · exact absurd type (by decide)
    · exact absurd type (by decide)
    · exact absurd type (by decide)
    · exact absurd type (by decide)
  have chain : EbrChain sampleDisk 63 [0, 30] := by
    rw [← next] at last ⊢
    exact .next 1 ⟨by decide, by decide⟩ (fun j => extended_sample (.inr (by decide))) last
  rw [← base] at chain ⊢
  exact .extended 1 ⟨by decide, by decide⟩ (fun j => extended_sample (.inl rfl)) (by decide) chain

theorem ideGetPartition_exact_sample :
    ∃ s' new found, ideGetPartition bootedHeap sampleDisk ⟨"sda".toList.map ch⟩ 3 empty 0 0 = some s' ∧
      Holds s'.tags ptnList (([] ++ new).map Tag.ptnTag) ∧
      new.map s'.ptns = found.map (Found.ptn sampleDisk ⟨"sda".toList.map ch⟩) ∧
      Exact sampleDisk ⟨"sda".toList.map ch⟩ 63 [0, 30] found ∧ Appended bootedHeap empty s' new :=
  ideGetPartition_exact sampleDisk_wellFormed (by decide) empty [] (fun a none => absurd none List.not_mem_nil)
    (listInit_holds Tag.null _ (show Tag.head ≠ Tag.tail by decide) trivial trivial) 3 (by decide)
    (empty_ready (by decide +kernel))

end KOS.PartitionScan
