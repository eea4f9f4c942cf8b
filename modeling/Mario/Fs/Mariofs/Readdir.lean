import Mario.Fs.Readdir

/-!
# Reading a directory of a MarioFS

`mario_readdir` of `dir.c`, on the slots of the blocks. The position is the offset of a slot, as if the slots of all
blocks were one array. The blocks can be read.
-/

namespace Mario.Fs.Mariofs.Names

def blockSize : ℕ := 512
def entrySize : ℕ := 54

/-- The entries that a block contains. -/
def perBlock : ℕ := (blockSize - 4) / entrySize

def marioFreeEntry : ℕ := 0xffffffff

/-- The number of the inode of a slot. -/
def inodeNumber (number i : ℕ) : ℕ := number * blockSize + i * entrySize

end Mario.Fs.Mariofs.Names

namespace Mario.Fs.Mariofs.DirList

open Mario.Lib.Listing Mario.Fs.Readdir
open Mario.Fs.Mariofs.Names (entrySize perBlock marioFreeEntry inodeNumber)

/-- What `mario_readdir` reads of a `struct mario_dir_entry`. -/
structure Slot where
  data : ℕ
  mode : BitVec 16
  name : Readdir.Name

structure Block where
  number : ℕ
  slots : List Slot

def iftodt (mode : BitVec 16) : Byte := (mode >>> 12 &&& 0xf).setWidth 8

/-- What a slot says about an entry. -/
def slotEntry (number i : ℕ) (s : Slot) : Entry := ⟨inodeNumber number i, iftodt s.mode, s.name⟩

/-- The loop of `mario_readdir` over the slots of a block: whether an entry was refused, and `start`. The position is
that of the slot `start`. -/
def readdirSlots (f : Format) (number : ℕ) : List Slot → ℕ → ℕ → Callback → Bool × ℕ × Callback
  | [], _, start, b => (false, start, b)
  | s :: rest, i, start, b =>
      if s.data = 0 then (false, start, b)
      else if s.data = marioFreeEntry then readdirSlots f number rest (i + 1) (start + 1) b
      else
        match filldir f b (slotEntry number i s) (start * entrySize) with
        | (true, b) => (true, start, b)
        | (false, b) => readdirSlots f number rest (i + 1) (start + 1) b

/-- The loop of `mario_readdir` over the blocks. -/
def readdirBlocks (f : Format) : List Block → ℕ → Callback → ℕ × Callback
  | [], start, b => (start, b)
  | blk :: rest, start, b =>
      match readdirSlots f blk.number (blk.slots.drop (start % perBlock)) (start % perBlock) start b with
      | (true, start, b) => (start, b)
      | (false, start, b) => readdirBlocks f rest start b

def marioReaddir (f : Format) (dir : List Block) (pos : ℕ) (b : Callback) : ℤ × ℕ × Callback :=
  if pos % entrySize ≠ 0 then (einval, pos, b)
  else
    let start := pos / entrySize
    let r := readdirBlocks f (dir.drop (start / perBlock)) start b
    (0, r.1 * entrySize, r.2)

/-- The calls of a reader: the position is all that the file keeps. -/
def marioGetdents (f : Format) (dir : List Block) (pos : ℕ) (count : BitVec 32) : Reply Entry ℕ :=
  entries (doGetdents (marioReaddir f dir) id pos count)

/-! ## The live entries -/

/-- The entries of the slots of a block, up to the end of the directory. -/
def liveSlots (number : ℕ) : List Slot → ℕ → List Entry
  | [], _ => []
  | s :: rest, i =>
      if s.data = 0 then []
      else if s.data = marioFreeEntry then liveSlots number rest (i + 1)
      else slotEntry number i s :: liveSlots number rest (i + 1)

/-- The entries of a block from a slot on. -/
def liveBlock (i : ℕ) (blk : Block) : List Entry := liveSlots blk.number (blk.slots.drop i) i

/-- The slots of a block are used, or free. -/
def Full (blk : Block) : Prop := ∀ s ∈ blk.slots, s.data ≠ 0

/-- A directory: its blocks have their slots, it ends in its last block, its positions are positive numbers of type `off_t`,
and its entries have names. -/
structure Directory where
  blocks : List Block
  small : blocks.length * perBlock * entrySize < 2 ^ 31
  named : ∀ blk ∈ blocks, ∀ e ∈ liveBlock 0 blk, e.name ≠ []
  sized : ∀ blk ∈ blocks, blk.slots.length = perBlock
  full : ∀ blk ∈ blocks.dropLast, Full blk

/-- The entries of a directory. -/
def liveEntries (d : Directory) : List Entry := d.blocks.flatMap (liveBlock 0)

/-- The entries of some blocks from a slot of the first one on. -/
def entriesFrom (blocks : List Block) (start : ℕ) : List Entry :=
  match blocks with
  | [] => []
  | blk :: rest => liveBlock (start % perBlock) blk ++ rest.flatMap (liveBlock 0)

/-- A position is at a slot, with some entries from there on. -/
def AtSlot (d : Directory) (pos : ℕ) (l : List Entry) : Prop :=
  ∃ start, pos = start * entrySize ∧ l = entriesFrom (d.blocks.drop (start / perBlock)) start

/-! ## A call -/

section Call

variable {f : Format} {number i start : ℕ} {slots : List Slot} {b : Callback} {blocks : List Block}

/-- The loop over the slots of a block goes through all of them, or stops at the end of the directory or at an entry
that is refused. -/
theorem readdirSlots_puts (f : Format) (number : ℕ) (slots : List Slot) (i start : ℕ) (b : Callback) :
    ∃ rest c, Puts f b (liveSlots number slots i) rest (readdirSlots f number slots i start b).2.2 ∧
      (readdirSlots f number slots i start b).2.1 = start + c ∧ rest = liveSlots number (slots.drop c) (i + c) ∧
      c ≤ slots.length ∧
      ((readdirSlots f number slots i start b).1 = true → rest ≠ [] ∧ c < slots.length) ∧
      ((readdirSlots f number slots i start b).1 = false →
        rest = [] ∧ ((∀ s ∈ slots, s.data ≠ 0) → c = slots.length)) := by
  induction slots generalizing i start b with
  | nil =>
    exact ⟨[], 0, Puts.nil f b, rfl, rfl, le_rfl, fun h => absurd h Bool.false_ne_true, fun _ => ⟨rfl, fun _ => rfl⟩⟩
  | cons s slots ih =>
    rw [liveSlots, readdirSlots]
    by_cases hend : s.data = 0
    · rw [if_pos hend, if_pos hend]
      refine ⟨[], 0, Puts.nil f b, rfl, ?_, Nat.zero_le _, fun h => absurd h Bool.false_ne_true,
        fun _ => ⟨rfl, fun hfull => ?_⟩⟩
      · rw [List.drop_zero, liveSlots, if_pos hend]
      · exact absurd hend (hfull s List.mem_cons_self)
    · have htail : (∀ x ∈ s :: slots, x.data ≠ 0) → ∀ x ∈ slots, x.data ≠ 0 :=
        fun h x hx => h x (List.mem_cons_of_mem s hx)
      have hdrop : ∀ c, liveSlots number ((s :: slots).drop (c + 1)) (i + (c + 1)) =
          liveSlots number (slots.drop c) (i + 1 + c) := by
        intro c
        rw [List.drop_succ_cons, Nat.add_right_comm, Nat.add_assoc]
      rw [if_neg hend, if_neg hend]
      by_cases hfree : s.data = marioFreeEntry
      · obtain ⟨rest, c, hputs, hstart, hrest, hc, hrefused, hdone⟩ := ih (i + 1) (start + 1) b
        rw [if_pos hfree, if_pos hfree]
        refine ⟨rest, c + 1, hputs, by rw [hstart]; omega, by rw [hdrop]; exact hrest, ?_, fun h => ?_, fun h => ?_⟩
        · rw [List.length_cons]
          omega
        · rw [List.length_cons]
          exact ⟨(hrefused h).1, Nat.succ_lt_succ (hrefused h).2⟩
        · refine ⟨(hdone h).1, fun hfull => ?_⟩
          rw [(hdone h).2 (htail hfull), List.length_cons]
      · rw [if_neg hfree, if_neg hfree]
        rcases hfill : filldir f b (slotEntry number i s) (start * entrySize) with ⟨refused, b'⟩
        cases refused with
        | true =>
          refine ⟨_, 0, Puts.refused _ hfill, rfl, ?_, Nat.zero_le _, fun _ => ⟨List.cons_ne_nil _ _, ?_⟩,
            fun h => absurd h.symm Bool.false_ne_true⟩
          · rw [List.drop_zero, liveSlots, if_neg hend, if_neg hfree]
            rfl
          · exact Nat.succ_pos _
        | false =>
          obtain ⟨rest, c, hputs, hstart, hrest, hc, hrefused, hdone⟩ := ih (i + 1) (start + 1) b'
          refine ⟨rest, c + 1, Puts.cons hfill hputs, by rw [hstart]; omega, by rw [hdrop]; exact hrest, ?_,
            fun h => ?_, fun h => ?_⟩
          · rw [List.length_cons]
            omega
          · rw [List.length_cons]
            exact ⟨(hrefused h).1, Nat.succ_lt_succ (hrefused h).2⟩
          · refine ⟨(hdone h).1, fun hfull => ?_⟩
            rw [(hdone h).2 (htail hfull), List.length_cons]

theorem entriesFrom_of_mod (h : start % perBlock = 0) : entriesFrom blocks start = blocks.flatMap (liveBlock 0) := by
  cases blocks with
  | nil => rfl
  | cons blk rest => rw [entriesFrom, h, List.flatMap_cons]

theorem perBlock_eq : perBlock = 9 := rfl

theorem readdirBlocks_puts (f : Format) (start : ℕ) (b : Callback) (hsized : ∀ blk ∈ blocks, blk.slots.length = perBlock)
    (hfull : ∀ blk ∈ blocks.dropLast, Full blk) :
    ∃ rest c, Puts f b (entriesFrom blocks start) rest (readdirBlocks f blocks start b).2 ∧
      (readdirBlocks f blocks start b).1 = start + c ∧
      rest = entriesFrom (blocks.drop ((start % perBlock + c) / perBlock)) (start + c) := by
  induction blocks generalizing start b with
  | nil => exact ⟨[], 0, Puts.nil f b, rfl, by rw [List.drop_nil]; rfl⟩
  | cons blk blocks ih =>
    have hlen := hsized blk List.mem_cons_self
    have hmod : start % perBlock < perBlock := Nat.mod_lt _ (by decide)
    obtain ⟨rest, c, hputs, hstart, hrest, hc, hrefused, hdone⟩ :=
      readdirSlots_puts f blk.number (blk.slots.drop (start % perBlock)) (start % perBlock) start b
    rw [List.length_drop, hlen] at hc hrefused hdone
    rw [List.drop_drop] at hrest
    rw [readdirBlocks, entriesFrom]
    generalize readdirSlots f blk.number (blk.slots.drop (start % perBlock)) (start % perBlock) start b = r
      at hputs hstart hrefused hdone ⊢
    obtain ⟨refused, start', b'⟩ := r
    simp only at hputs hstart hrefused hdone
    subst hstart
    have hhere : start % perBlock + c < perBlock →
        liveBlock ((start + c) % perBlock) blk = rest ∧ (start % perBlock + c) / perBlock = 0 := by
      intro hlt
      have hslot : (start + c) % perBlock = start % perBlock + c := by
        rw [perBlock_eq] at *
        omega
      rw [liveBlock, hslot]
      exact ⟨hrest.symm, Nat.div_eq_of_lt hlt⟩
    cases refused with
    | true =>
      obtain ⟨hne, hlt⟩ := hrefused rfl
      obtain ⟨hlive, hblock⟩ := hhere (by omega)
      refine ⟨rest ++ blocks.flatMap (liveBlock 0), c, hputs.stopped hne _, rfl, ?_⟩
      rw [hblock, List.drop_zero, entriesFrom, hlive]
    | false =>
      obtain ⟨rfl, hall⟩ := hdone rfl
      cases hblocks : blocks with
      | nil =>
        refine ⟨[], c, hputs.append (Puts.nil f b'), rfl, ?_⟩
        by_cases hlt : start % perBlock + c < perBlock
        · obtain ⟨hlive, hblock⟩ := hhere hlt
          rw [hblock, List.drop_zero, entriesFrom, hlive]
          rfl
        · have hone : (start % perBlock + c) / perBlock = 1 := by
            rw [perBlock_eq] at *
            omega
          rw [hone]
          rfl
      | cons blk' blocks' =>
        rw [← hblocks]
        have hlast : (blk :: blocks).dropLast = blk :: blocks.dropLast :=
          List.dropLast_cons_of_ne_nil (by rw [hblocks]; exact List.cons_ne_nil _ _)
        rw [hlast] at hfull
        have hblk : Full blk := hfull blk List.mem_cons_self
        have hc' := hall fun s hs => hblk s (List.mem_of_mem_drop hs)
        have hnext : (start + c) % perBlock = 0 := by
          rw [perBlock_eq] at *
          omega
        obtain ⟨rest, c', hputs', hstart', hrest'⟩ := ih (start + c) b'
          (fun x hx => hsized x (List.mem_cons_of_mem _ hx)) fun x hx => hfull x (List.mem_cons_of_mem _ hx)
        rw [entriesFrom_of_mod hnext] at hputs'
        rw [hnext, Nat.zero_add] at hrest'
        refine ⟨rest, c + c', hputs.append hputs', by rw [← Nat.add_assoc]; exact hstart', ?_⟩
        have hblock : (start % perBlock + (c + c')) / perBlock = c' / perBlock + 1 := by
          rw [perBlock_eq] at *
          omega
        rw [hblock, List.drop_succ_cons, ← Nat.add_assoc]
        exact hrest'

theorem marioGetdents_resumes (f : Format) (d : Directory) :
    Resumes f.reclen BitVec.toInt (marioGetdents f d.blocks) (AtSlot d) := by
  rintro pos l count ⟨start, rfl, rfl⟩
  have hsized : ∀ blk ∈ d.blocks.drop (start / perBlock), blk.slots.length = perBlock :=
    fun blk h => d.sized blk (List.mem_of_mem_drop h)
  have hfull : ∀ blk ∈ (d.blocks.drop (start / perBlock)).dropLast, Full blk := by
    intro blk h
    rw [List.dropLast_drop_eq_drop_dropLast] at h
    exact d.full blk (List.mem_of_mem_drop h)
  obtain ⟨rest, c, hputs, hstart, hrest⟩ :=
    readdirBlocks_puts f start ⟨[], count.toInt, 0⟩ hsized hfull
  have hdiv : start * entrySize / entrySize = start := Nat.mul_div_cancel _ (by decide)
  have hmod : start * entrySize % entrySize = 0 := Nat.mul_mod_left _ _
  have hcall : marioReaddir f d.blocks (start * entrySize) ⟨[], count.toInt, 0⟩ =
      (0, (start + c) * entrySize, (readdirBlocks f (d.blocks.drop (start / perBlock)) start
        ⟨[], count.toInt, 0⟩).2) := by
    rw [marioReaddir, if_neg (not_not.mpr hmod)]
    simp only
    rw [hdiv, hstart]
  obtain ⟨hfills, hret, hpos⟩ := doGetdents_fills (marioReaddir f d.blocks) id
    (start * entrySize) count (by rw [hcall]) (by rw [hcall]; exact hputs)
  refine ⟨rest, hfills, hret, start + c, ?_, ?_⟩
  · rw [marioGetdents, hpos, hcall]
  · have hblock : (start + c) / perBlock = start / perBlock + (start % perBlock + c) / perBlock := by
      rw [perBlock_eq]
      omega
    rw [hblock, ← List.drop_drop]
    exact hrest

theorem atSlot_start (d : Directory) : AtSlot d 0 (liveEntries d) :=
  ⟨0, rfl, (entriesFrom_of_mod rfl).symm⟩

end Call

end Mario.Fs.Mariofs.DirList
