import Mario.Fs.Ext2.DirLookup
import Mario.Fs.Readdir

/-!
# Reading a directory of ext2

`ext2_readdir` of `dir.c`, on the records of the blocks. The position is the offset of a record in the directory.
There is memory for a block.
-/

namespace Mario.Fs.Ext2

open Mario.Lib Mario.Lib.Listing Mario.Fs.Readdir

/-- The number of an error. -/
def Errno.code : Errno → ℤ
  | .eperm => -1
  | .enoent => -2
  | .eio => -5
  | .enomem => -12
  | .ebusy => -16
  | .eexist => -17
  | .enotdir => -20
  | .eisdir => -21
  | .einval => -22
  | .enospc => -28
  | .erofs => -30
  | .emlink => -31
  | .enametoolong => -36
  | .enotempty => -39
  | .enotsup => -95

/-- A directory, and whether its records have the type of the file. -/
structure ListDir extends Dir where
  blockSize_pos : 0 < blockSize
  fileType : Bool

/-- What a record says about an entry. -/
def recEntry (d : ListDir) (buf : Buffer) (o : ℕ) : Entry :=
  ⟨(recInode buf o).toNat, if d.fileType then buf (o + 7) else 0, recName buf o⟩

/-- The loop of `ext2_readdir` over the records of a block: what the function returns from it, if it does, and
`f_pos`. -/
def readdirRecords (f : Format) (d : ListDir) (buf : Buffer) (blockStart limit offset pos : ℕ) (b : Callback) :
    Option ℤ × ℕ × Callback :=
  if offset < limit then
    if _h : recLen buf offset < 8 ∨ limit < offset + recLen buf offset then (some Readdir.eio, pos, b)
    else
      let next := blockStart + offset + recLen buf offset
      if recInode buf offset ≠ 0 then
        match filldir f b (recEntry d buf offset) next with
        | (true, b) => (some 0, pos, b)
        | (false, b) => readdirRecords f d buf blockStart limit (offset + recLen buf offset) next b
      else readdirRecords f d buf blockStart limit (offset + recLen buf offset) next b
  else (none, pos, b)
  termination_by limit - offset
  decreasing_by all_goals omega

theorem readdirRecords_pos {f : Format} {d : ListDir} {buf : Buffer} {blockStart limit offset pos : ℕ} {b : Callback}
    (hnone : (readdirRecords f d buf blockStart limit offset pos b).1 = none) (hpos : pos = blockStart + offset) :
    (readdirRecords f d buf blockStart limit offset pos b).2.1 = blockStart + max offset limit := by
  fun_induction readdirRecords f d buf blockStart limit offset pos b with
  | case1 => cases hnone
  | case2 => cases hnone
  | case3 offset pos b hlt hbad next hused b' hfill ih =>
    rw [ih hnone (Nat.add_assoc ..)]
    omega
  | case4 offset pos b hlt hbad next hfree ih =>
    rw [ih hnone (Nat.add_assoc ..)]
    omega
  | case5 offset pos b hend =>
    show pos = _
    omega

def ext2Readdir (f : Format) (d : ListDir) (pos : ℕ) (b : Callback) : ℤ × ℕ × Callback :=
  if _h : pos < d.size then
    let i := pos / d.blockSize
    if d.bmap i = 0 then (Readdir.eio, pos, b)
    else
      match d.read (d.bmap i) with
      | .error e => (e.code, pos, b)
      | .ok buf =>
          match _hr : readdirRecords f d buf (i * d.blockSize) (d.limit i) (pos % d.blockSize) pos b with
          | (some ret, pos', b') => (ret, pos', b')
          | (none, pos', b') => ext2Readdir f d pos' b'
  else (0, pos, b)
  termination_by d.size - pos
  decreasing_by
    have hmod := Nat.mod_lt pos d.blockSize_pos
    have hdiv := Nat.div_add_mod' pos d.blockSize
    have hlimit : pos % d.blockSize < d.limit (pos / d.blockSize) := by
      unfold Dir.limit
      split_ifs <;> omega
    have hnext := readdirRecords_pos (congrArg Prod.fst _hr) hdiv.symm
    rw [congrArg (fun r => r.2.1) _hr] at hnext
    have hi : i = pos / d.blockSize := rfl
    simp only [hi] at hnext
    omega

/-! ## The live entries -/

/-- The entries of the records in use from an offset of a block on. -/
def liveRecords (d : ListDir) (buf : Buffer) (limit offset : ℕ) : List Entry :=
  if offset < limit then
    if _h : recLen buf offset < 8 then []
    else
      let rest := liveRecords d buf limit (offset + recLen buf offset)
      if recInode buf offset ≠ 0 then recEntry d buf offset :: rest else rest
  else []
  termination_by limit - offset
  decreasing_by omega

/-- The entries of a block. -/
def liveBlock (d : ListDir) (i : ℕ) : List Entry := liveRecords d (d.block i) (d.limit i) 0

/-- The blocks that begin before the end of the directory. -/
def ListDir.nrBlocks (d : ListDir) : ℕ := (d.size + d.blockSize - 1) / d.blockSize

/-- The entries of a directory. -/
def liveEntries (d : ListDir) : List Entry := (List.range d.nrBlocks).flatMap (liveBlock d)

/-- A directory whose blocks can be read and have records that cover them. Its size is a positive `off_t`, and the records in
use have names: `filldir` copies a name with `memcpy_tofs`, which for a length of 0 copies 2 ^ 32 bytes. -/
structure RecordDir extends ListDir where
  small : size < 2 ^ 31
  named : ∀ e ∈ liveEntries toListDir, e.name ≠ []
  mapped : ∀ i, i * blockSize < size → bmap i ≠ 0
  readable : ∀ i, i * blockSize < size → ∃ buf, read (bmap i) = .ok buf
  chained : ∀ i, i * blockSize < size → Chain (toDir.block i) (toDir.limit i) 0

/-- A position is at a record, with some entries from there on, or at the end. -/
def AtRecord (d : ListDir) (pos : ℕ) (l : List Entry) : Prop :=
  if pos < d.size then
    Chain (d.block (pos / d.blockSize)) (d.limit (pos / d.blockSize)) (pos % d.blockSize) ∧
      l = liveRecords d (d.block (pos / d.blockSize)) (d.limit (pos / d.blockSize)) (pos % d.blockSize) ++
        ((List.range d.nrBlocks).drop (pos / d.blockSize + 1)).flatMap (liveBlock d)
  else l = []

/-! ## A call -/

section Call

variable {f : Format} {d : ListDir} {buf : Buffer} {blockStart limit offset pos : ℕ} {b : Callback}

theorem liveRecords_used (hlt : offset < limit) (hlen : 8 ≤ recLen buf offset) (hused : recInode buf offset ≠ 0) :
    liveRecords d buf limit offset = recEntry d buf offset :: liveRecords d buf limit (offset + recLen buf offset) := by
  rw [liveRecords, if_pos hlt, dif_neg (by omega)]
  simp only
  rw [if_pos hused]

theorem liveRecords_free (hlt : offset < limit) (hlen : 8 ≤ recLen buf offset) (hfree : ¬ recInode buf offset ≠ 0) :
    liveRecords d buf limit offset = liveRecords d buf limit (offset + recLen buf offset) := by
  rw [liveRecords, if_pos hlt, dif_neg (by omega)]
  simp only
  rw [if_neg hfree]

/-- The loop over the records of a block goes through all of them, or stops at an entry that is refused, with the
position at its record. -/
theorem readdirRecords_puts (hc : Chain buf limit offset) (hpos : pos = blockStart + offset) :
    ∃ rest, Puts f b (liveRecords d buf limit offset) rest
        (readdirRecords f d buf blockStart limit offset pos b).2.2 ∧
      ((rest = [] ∧ (readdirRecords f d buf blockStart limit offset pos b).1 = none ∧
          (readdirRecords f d buf blockStart limit offset pos b).2.1 = blockStart + limit) ∨
        ∃ o, rest ≠ [] ∧ (readdirRecords f d buf blockStart limit offset pos b).1 = some 0 ∧
          (readdirRecords f d buf blockStart limit offset pos b).2.1 = blockStart + o ∧ o < limit ∧
            Chain buf limit o ∧ rest = liveRecords d buf limit o) := by
  induction hc generalizing pos b with
  | done =>
    refine ⟨[], ?_, Or.inl ⟨rfl, ?_, ?_⟩⟩
    · rw [liveRecords, readdirRecords, if_neg (Nat.lt_irrefl _), if_neg (Nat.lt_irrefl _)]
      exact Puts.nil f b
    · rw [readdirRecords, if_neg (Nat.lt_irrefl _)]
    · rw [readdirRecords, if_neg (Nat.lt_irrefl _)]
      exact hpos
  | next hlt hlen hend hchain ih =>
    rename_i o
    have hbad : ¬ (recLen buf o < 8 ∨ limit < o + recLen buf o) := by omega
    have hnext : blockStart + o + recLen buf o = blockStart + (o + recLen buf o) := Nat.add_assoc ..
    rw [readdirRecords, if_pos hlt, dif_neg hbad]
    simp only
    by_cases hused : recInode buf o ≠ 0
    · rw [if_pos hused, liveRecords_used hlt hlen hused]
      rcases hfill : filldir f b (recEntry d buf o) (blockStart + o + recLen buf o) with ⟨refused, b'⟩
      cases refused with
      | true =>
        refine ⟨_, Puts.refused _ hfill, Or.inr ⟨o, List.cons_ne_nil _ _, rfl, hpos, hlt, ?_, ?_⟩⟩
        · exact Chain.next hlt hlen hend hchain
        · exact (liveRecords_used hlt hlen hused).symm
      | false =>
        obtain ⟨rest, hputs, hcases⟩ := ih (b := b') hnext
        exact ⟨rest, Puts.cons hfill hputs, hcases⟩
    · rw [if_neg hused, liveRecords_free hlt hlen hused]
      exact ih hnext

theorem ListDir.lt_nrBlocks (d : ListDir) (i : ℕ) : i < d.nrBlocks ↔ i * d.blockSize < d.size := by
  have hpos := d.blockSize_pos
  rw [ListDir.nrBlocks, Nat.lt_iff_add_one_le, Nat.le_div_iff_mul_le hpos, Nat.succ_mul]
  omega

theorem ext2Readdir_eq (hpos : pos < d.size) (hmapped : d.bmap (pos / d.blockSize) ≠ 0)
    (hread : d.read (d.bmap (pos / d.blockSize)) = .ok buf) {r : Option ℤ × ℕ × Callback}
    (hr : readdirRecords f d buf (pos / d.blockSize * d.blockSize) (d.limit (pos / d.blockSize))
      (pos % d.blockSize) pos b = r) :
    ext2Readdir f d pos b =
      match r.1 with
      | some ret => (ret, r.2.1, r.2.2)
      | none => ext2Readdir f d r.2.1 r.2.2 := by
  rw [ext2Readdir, dif_pos hpos, if_neg hmapped, hread]
  simp only
  split
  · rename_i heq
    rw [heq] at hr
    rw [← hr]
  · rename_i heq
    rw [heq] at hr
    rw [← hr]

/-- The entries of a block are those of the records from its start on. -/
theorem atRecord_start (d : RecordDir) {i : ℕ} (hpos : pos = i * d.blockSize) :
    AtRecord d.toListDir pos (((List.range d.nrBlocks).drop i).flatMap (liveBlock d.toListDir)) := by
  have hblock := d.blockSize_pos
  unfold AtRecord
  by_cases hin : pos < d.size
  · have hlt : i < (List.range d.nrBlocks).length := by
      rw [List.length_range, d.lt_nrBlocks, ← hpos]
      exact hin
    have hdiv : pos / d.blockSize = i := by rw [hpos, Nat.mul_div_cancel _ hblock]
    have hmod : pos % d.blockSize = 0 := by rw [hpos, Nat.mul_mod_left]
    rw [if_pos hin, hdiv, hmod, List.drop_eq_getElem_cons hlt, List.getElem_range, List.flatMap_cons]
    exact ⟨d.chained i (hpos ▸ hin), rfl⟩
  · rw [if_neg hin]
    have hle : (List.range d.nrBlocks).length ≤ i := by
      rw [List.length_range]
      by_contra hlt
      exact hin (hpos ▸ (d.lt_nrBlocks i).mp (by omega))
    rw [List.drop_eq_nil_of_le hle]
    rfl

theorem ext2Readdir_puts (d : RecordDir) {l : List Entry} (hat : AtRecord d.toListDir pos l) :
    (ext2Readdir f d.toListDir pos b).1 = 0 ∧
      ∃ rest, Puts f b l rest (ext2Readdir f d.toListDir pos b).2.2 ∧
        AtRecord d.toListDir (ext2Readdir f d.toListDir pos b).2.1 rest := by
  induction hn : d.size - pos using Nat.strongRecOn generalizing pos b l with
  | ind n ih =>
    by_cases hpos : pos < d.size
    · have hblock := d.blockSize_pos
      have hmod := Nat.mod_lt pos hblock
      have hdiv := Nat.div_add_mod' pos d.blockSize
      have hin : pos / d.blockSize * d.blockSize < d.size := by omega
      obtain ⟨buf, hread⟩ := d.readable _ hin
      have hbuf : d.block (pos / d.blockSize) = buf := by rw [Dir.block, hread]
      have hlimit : d.limit (pos / d.blockSize) ≤ d.blockSize ∧
          pos / d.blockSize * d.blockSize + d.limit (pos / d.blockSize) ≤ d.size ∧
          (pos / d.blockSize * d.blockSize + d.limit (pos / d.blockSize) < d.size →
            d.limit (pos / d.blockSize) = d.blockSize) ∧ pos % d.blockSize < d.limit (pos / d.blockSize) := by
        unfold Dir.limit
        split_ifs <;> omega
      unfold AtRecord at hat
      rw [if_pos hpos] at hat
      obtain ⟨hchain, hl⟩ := hat
      obtain ⟨rest, hputs, hcases⟩ := readdirRecords_puts (f := f) (d := d.toListDir) (b := b) hchain hdiv.symm
      rw [hbuf] at hputs hcases
      generalize hr : readdirRecords f d.toListDir buf (pos / d.blockSize * d.blockSize) (d.limit (pos / d.blockSize))
        (pos % d.blockSize) pos b = r at hputs hcases
      rw [ext2Readdir_eq hpos (d.mapped _ hin) hread hr]
      rcases hcases with ⟨rfl, hnone, hend⟩ | ⟨o, hne, hsome, hend, ho, hchain', hrest⟩
      · rw [hnone]
        simp only
        have hnext : AtRecord d.toListDir r.2.1
            (((List.range d.nrBlocks).drop (pos / d.blockSize + 1)).flatMap (liveBlock d.toListDir)) := by
          by_cases hmore : r.2.1 < d.size
          · refine atRecord_start d ?_
            rw [hend, Nat.succ_mul]
            omega
          · unfold AtRecord
            rw [if_neg hmore, List.drop_eq_nil_of_le]
            · rfl
            · rw [List.length_range]
              by_contra hlt
              have := (d.lt_nrBlocks _).mp (Nat.lt_of_not_le hlt)
              rw [Nat.succ_mul] at this
              omega
        obtain ⟨hok, rest, hputs', hat'⟩ := ih (d.size - r.2.1) (by omega) (b := r.2.2) hnext rfl
        refine ⟨hok, rest, ?_, hat'⟩
        rw [hl, hbuf]
        exact hputs.append hputs'
      · rw [hsome]
        simp only
        refine ⟨trivial, rest ++ ((List.range d.nrBlocks).drop (pos / d.blockSize + 1)).flatMap
          (liveBlock d.toListDir), ?_, ?_⟩
        · rw [hl, hbuf]
          exact hputs.stopped hne _
        · have hdiv' : r.2.1 / d.blockSize = pos / d.blockSize := by
            have hzero : o / d.blockSize = 0 := Nat.div_eq_of_lt (by omega)
            rw [hend, Nat.mul_comm, Nat.mul_add_div hblock, hzero, Nat.add_zero]
          have hmod' : r.2.1 % d.blockSize = o := by
            rw [hend, Nat.mul_comm, Nat.mul_add_mod, Nat.mod_eq_of_lt (by omega)]
          unfold AtRecord
          rw [if_pos (by omega), hdiv', hmod', hbuf]
          exact ⟨hchain', by rw [hrest]⟩
    · unfold AtRecord at hat
      rw [if_neg hpos] at hat
      rw [ext2Readdir, dif_neg hpos, hat]
      refine ⟨rfl, [], Puts.nil f b, ?_⟩
      unfold AtRecord
      rw [if_neg hpos]

/-- The calls of a reader: the position is all that the file keeps. -/
def ext2Getdents (f : Format) (d : ListDir) (pos : ℕ) (count : BitVec 32) : Reply Entry ℕ :=
  entries (doGetdents (ext2Readdir f d) id pos count)

theorem ext2Getdents_resumes (f : Format) (d : RecordDir) :
    Resumes f.reclen BitVec.toInt (ext2Getdents f d.toListDir) (AtRecord d.toListDir) := by
  intro pos l count hat
  obtain ⟨hok, rest, hputs, hnext⟩ := ext2Readdir_puts (f := f) (b := ⟨[], count.toInt, 0⟩) d hat
  obtain ⟨hfills, hret, hpos⟩ := doGetdents_fills (ext2Readdir f d.toListDir) id pos count hok hputs
  exact ⟨rest, hfills, hret, by rw [ext2Getdents, hpos]; exact hnext⟩

end Call

end Mario.Fs.Ext2
