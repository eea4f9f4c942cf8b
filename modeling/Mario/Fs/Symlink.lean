import Mario.Lib.Circular
import Mario.Lib.LittleEndian

/-!
# Targets of symbolic links

How ext2 and mariofs store the target of a symbolic link, `readlink` and the path that `follow_link` opens: the
functions of `fs/ext2/dir.c`, `fs/ext2/file.c`, `fs/mariofs/dir.c` and `fs/mariofs/file.c`. What the directory,
the allocators, `kmalloc` and the disk answer is an argument. A block is a function on offsets, of which the first
`block_size` values are meant.
-/

namespace Mario.Fs.Symlink

open Mario.Lib Function

abbrev Byte := BitVec 8

def enoent : ℤ := -2

def eio : ℤ := -5

def enomem : ℤ := -12

def eexist : ℤ := -17

def enospc : ℤ := -28

def enametoolong : ℤ := -36

/-- A target that `getname` accepts. -/
structure Target where
  bytes : List Byte
  nonempty : bytes ≠ []
  noNul : ∀ b ∈ bytes, b ≠ 0
  length_lt : bytes.length < 4096

/-- The size of a buffer of the user; user addresses end at 2 ^ 31. -/
structure Size where
  count : ℕ
  count_lt : count < 2147483648

/-- What `readlink` leaves: its result and the bytes that have been stored from the start of the buffer on. -/
structure ReadResult where
  ret : ℤ
  stored : List Byte
  deriving DecidableEq

/-- The number of bytes before the first NUL byte, of the bytes that are left. -/
def scanNul (data : ℕ → Byte) : ℕ → ℕ → ℕ
  | 0, n => n
  | left + 1, n => if data n = 0 then n else scanNul data left (n + 1)

/-- `memcpy_tofs`: the loop instruction takes the count 0 for 2 ^ 32. -/
def memcpyTofs (data : ℕ → Byte) (n : ℕ) : List Byte := slice data 0 (if n = 0 then 4294967296 else n)

/-! ## ext2 -/

/-- The inode of a link, and the blocks of the disk. -/
structure Ext2Link where
  iSize : ℕ
  iNrBlock : ℕ
  iBlock : ℕ → Byte
  disk : ℕ → ℕ → Byte

/-- The block sizes that `ext2_read_super` accepts. -/
def ext2BlockSize (logBlockSize : Fin 3) : ℕ := 1024 <<< logBlockSize.val

/-- `sizeof(raw->i_block)`. -/
def iBlockSize : ℕ := 60

/-- The answers that `ext2_symlink` gets: of `ext2_find_entry`, `ext2_alloc_inode`, `ext2_bmap`, `kmalloc`,
`ext2_write_block` and `ext2_add_entry`. -/
structure Ext2Make where
  nameLen : ℕ
  find : Except ℤ Unit
  allocInode : Except ℤ Unit
  physical : BitVec 32
  bufMem : Bool
  write : Except ℤ Unit
  addEntry : Except ℤ Unit
  disk : ℕ → ℕ → Byte

/-- The part of `ext2_symlink` that stores the target, in an inode that has been zeroed. -/
def ext2StoreTarget (blockSize : ℕ) (target : List Byte) (a : Ext2Make) : Except ℤ Ext2Link :=
  if target.length < iBlockSize then
    .ok ⟨target.length, 0, copy (fun _ => 0) 0 target, a.disk⟩
  else if a.physical = 0 then .error enospc
  else if !a.bufMem then .error enomem
  else
    match a.write with
    | .error e => .error e
    | .ok _ =>
        .ok ⟨target.length, blockSize / 512, copy (fun _ => 0) 0 (toLe 4 a.physical.toNat),
          update a.disk a.physical.toNat (copy (fun _ => 0) 0 target)⟩

def ext2Symlink (blockSize : ℕ) (target : List Byte) (a : Ext2Make) : Except ℤ Ext2Link :=
  if 255 < a.nameLen then .error enametoolong
  else
    match a.find with
    | .ok _ => .error eexist
    | .error e =>
        if e ≠ enoent then .error e
        else
          match a.allocInode with
          | .error e => .error e
          | .ok _ =>
              match ext2StoreTarget blockSize target a with
              | .error e => .error e
              | .ok link =>
                  match a.addEntry with
                  | .error e => .error e
                  | .ok _ => .ok link

/-- The answers that a reader of the target gets: of `kmalloc` for the target, and of `kmalloc` and
`ext2_read_block` for each block. -/
structure Ext2Read where
  targetMem : Bool
  blockMem : ℕ → Bool
  readBlock : ℕ → Except ℤ Unit

/-- `ext2_bmap` without `create` for the direct blocks. -/
def Ext2Link.bmap (l : Ext2Link) (block : ℕ) : ℕ := ofLe (slice l.iBlock (4 * block) 4)

/-- The loop of `ext2_read_symlink_target`, with the number of rounds that are left. -/
def readBlocks (blockSize : ℕ) (l : Ext2Link) (a : Ext2Read) (size : ℕ) :
    ℕ → List Byte → Except ℤ (List Byte)
  | 0, buf => .ok buf
  | left + 1, buf =>
      if size ≤ buf.length then .ok buf
      else
        let blockIndex := buf.length / blockSize
        let offset := buf.length % blockSize
        let chunk := min (blockSize - offset) (size - buf.length)
        let physical := l.bmap blockIndex
        if physical = 0 then .error eio
        else if !a.blockMem blockIndex then .error enomem
        else
          match a.readBlock blockIndex with
          | .error e => .error e
          | .ok _ => readBlocks blockSize l a size left (buf ++ slice (l.disk physical) offset chunk)

def ext2ReadSymlinkTarget (blockSize : ℕ) (l : Ext2Link) (a : Ext2Read) (size : ℕ) : Except ℤ (List Byte) :=
  let size := min size l.iSize
  if l.iNrBlock = 0 then .ok (slice l.iBlock 0 (min size iBlockSize))
  else readBlocks blockSize l a size size []

/-- The bytes of a buffer with a NUL byte at the end. -/
def buffer (l : List Byte) : ℕ → Byte := copy (fun _ => 0) 0 l

def ext2Readlink (blockSize : ℕ) (l : Ext2Link) (a : Ext2Read) (count : ℕ) : ReadResult :=
  if !a.targetMem then ⟨enomem, []⟩
  else
    match ext2ReadSymlinkTarget blockSize l a (l.iSize + 1) with
    | .error e => ⟨e, []⟩
    | .ok target => ⟨target.length, memcpyTofs (buffer target) (min count target.length)⟩

/-- The path that `ext2_follow_link` opens. -/
def ext2FollowTarget (blockSize : ℕ) (l : Ext2Link) (a : Ext2Read) : Except ℤ (List Byte) :=
  if !a.targetMem then .error enomem
  else
    match ext2ReadSymlinkTarget blockSize l a (l.iSize + 1) with
    | .error e => .error e
    | .ok target => .ok (slice (buffer target) 0 (scanNul (buffer target) target.length 0))

/-- `sys_readlinkat` on the link. -/
def ext2SysReadlink (blockSize : ℕ) (l : Ext2Link) (a : Ext2Read) (count : ℕ) : ReadResult :=
  if count = 0 then ⟨0, []⟩ else ext2Readlink blockSize l a count

/-! ## mariofs -/

def marioNameLen : ℕ := 30

/-- The inode of a link: the block that `i_rdev` names, and its data. -/
structure MarioLink where
  data : ℕ → Byte

/-- The answers that `mario_symlink` gets: of `mario_find_entry`, `mario_add_entry`, `mario_get_block` and
`bread`. -/
structure MarioMake where
  nameLen : ℕ
  found : Bool
  addEntry : Except ℤ Unit
  getBlock : Except ℤ Unit
  bread : Option (ℕ → Byte)

/-- `mario_symlink`; the entry is deleted again where the link is `none`, and a block that cannot be read is no
error. -/
def marioSymlink (blockSize : ℕ) (target : List Byte) (a : MarioMake) : Except ℤ (Option MarioLink) :=
  if blockSize - 4 < target.length + 1 then .error enametoolong
  else if marioNameLen - 1 < a.nameLen then .error enametoolong
  else if a.found then .error eexist
  else
    match a.addEntry with
    | .error e => .error e
    | .ok _ =>
        match a.getBlock with
        | .error e => .error e
        | .ok _ =>
            match a.bread with
            | none => .ok none
            | some data => .ok (some ⟨copy (copy data 0 target) target.length [0]⟩)

/-- `mario_readlink`; `none` is an assertion that does not hold. -/
def marioReadlink (blockSize : ℕ) (l : MarioLink) (bread : Bool) (count : ℕ) : Option ReadResult :=
  if !bread then some ⟨0, []⟩
  else
    let n := scanNul l.data (blockSize - 4) 0
    if l.data n ≠ 0 then none else some ⟨n, memcpyTofs l.data (min count n)⟩

/-- The path that `mario_follow_link` opens. -/
def marioFollowTarget (blockSize : ℕ) (l : MarioLink) (bread : Bool) : Except ℤ (List Byte) :=
  if !bread then .error eio else .ok (slice l.data 0 (scanNul l.data blockSize 0))

/-- `sys_readlinkat` on the name of the link. -/
def marioSysReadlink (blockSize : ℕ) (l : Option MarioLink) (bread : Bool) (count : ℕ) :
    Option ReadResult :=
  if count = 0 then some ⟨0, []⟩
  else
    match l with
    | none => some ⟨enoent, []⟩
    | some l => marioReadlink blockSize l bread count

/-- The path that is opened for the name of the link. -/
def marioSysFollow (blockSize : ℕ) (l : Option MarioLink) (bread : Bool) : Except ℤ (List Byte) :=
  match l with
  | none => .error enoent
  | some l => marioFollowTarget blockSize l bread

/-! ## The target comes back -/

/-- What `readlink` should leave. -/
def wanted (target : List Byte) (count : ℕ) : ReadResult :=
  ⟨(min count target.length : ℕ), target.take (min count target.length)⟩

/-- For ext2: what is accepted is read back, and followed. -/
def Ext2Exact (blockSize : ℕ) (t : Target) (a : Ext2Make) (r f : Ext2Read) (size : Size) : Prop :=
  ∀ l, ext2Symlink blockSize t.bytes a = .ok l →
    ext2SysReadlink blockSize l r size.count = wanted t.bytes size.count ∧
      ext2FollowTarget blockSize l f = .ok t.bytes

/-- For mariofs. -/
def MarioExact (blockSize : ℕ) (t : Target) (a : MarioMake) (r f : Bool) (size : Size) : Prop :=
  ∀ l, marioSymlink blockSize t.bytes a = .ok l →
    marioSysReadlink blockSize l r size.count = some (wanted t.bytes size.count) ∧
      marioSysFollow blockSize l f = .ok t.bytes

/-- A reader gets the memory and the block that it needs, and the target fits into one block. -/
def Ext2Read.Enough (a : Ext2Read) (blockSize : ℕ) (t : Target) : Prop :=
  a.targetMem = true ∧ (iBlockSize ≤ t.bytes.length →
    t.bytes.length ≤ blockSize ∧ a.blockMem 0 = true ∧ a.readBlock 0 = .ok ())

variable {α : Type*} {blockSize : ℕ} {t : Target}

theorem slice_copy (d : ℕ → α) (l : List α) {n : ℕ} (h : n ≤ l.length) : slice (copy d 0 l) 0 n = l.take n := by
  apply List.ext_getElem
  · simp [slice, h]
  · intro i hi hi'
    have hin : i < n := by simpa [slice] using hi
    simp only [slice, List.getElem_map, List.getElem_range, Nat.zero_add, List.getElem_take, copy,
      Nat.zero_le, if_true, Nat.sub_zero]
    rw [List.getElem?_eq_getElem (by omega), Option.getD_some]

theorem scanNul_eq {data : ℕ → Byte} {left n k : ℕ} (hk : n ≤ k) (hle : k ≤ n + left)
    (hne : ∀ i, n ≤ i → i < k → data i ≠ 0) (hend : k = n + left ∨ data k = 0) : scanNul data left n = k := by
  induction left generalizing n with
  | zero =>
    rw [scanNul]
    omega
  | succ left ih =>
    rw [scanNul]
    by_cases heq : n = k
    · subst heq
      have hzero := hend.resolve_left (by omega)
      rw [if_pos hzero]
    · rw [if_neg (hne n (Nat.le_refl n) (by omega))]
      exact ih (by omega) (by omega) (fun i hi => hne i (by omega)) (hend.imp (fun h => by omega) id)

theorem Target.length_pos (t : Target) : 0 < t.bytes.length := List.length_pos_of_ne_nil t.nonempty

theorem Target.copy_ne_zero (t : Target) (d : ℕ → Byte) {i : ℕ} (h : i < t.bytes.length) : copy d 0 t.bytes i ≠ 0 := by
  simp only [copy, Nat.zero_le, if_true, Nat.sub_zero]
  rw [List.getElem?_eq_getElem h, Option.getD_some]
  exact t.noNul _ (List.getElem_mem h)

theorem wanted_ne {count : ℕ} (hcount : count ≠ 0) (e : ℤ) : (⟨e, []⟩ : ReadResult) ≠ wanted t.bytes count := by
  intro h
  have hpos := t.length_pos
  have hlen := congrArg (fun r => r.stored.length) h
  simp only [wanted, List.length_nil, List.length_take] at hlen
  omega

theorem readResult_eq_wanted {data : ℕ → Byte} {count : ℕ} (hcount : count ≠ 0)
    (hdata : ∀ n ≤ t.bytes.length, slice data 0 n = t.bytes.take n) :
    (⟨t.bytes.length, memcpyTofs data (min count t.bytes.length)⟩ : ReadResult) = wanted t.bytes count ↔
      t.bytes.length ≤ count := by
  have hpos := t.length_pos
  have hstored : memcpyTofs data (min count t.bytes.length) = t.bytes.take (min count t.bytes.length) := by
    unfold memcpyTofs
    rw [if_neg (by omega), hdata _ (by omega)]
  unfold wanted
  rw [hstored, ReadResult.mk.injEq]
  constructor
  · rintro ⟨h, -⟩
    omega
  · intro h
    exact ⟨by omega, rfl⟩

theorem ext2StoreTarget_of_symlink {a : Ext2Make} {l : Ext2Link}
    (h : ext2Symlink blockSize t.bytes a = .ok l) : ext2StoreTarget blockSize t.bytes a = .ok l := by
  unfold ext2Symlink at h
  split at h
  · cases h
  · split at h
    · cases h
    · split at h
      · cases h
      · split at h
        · cases h
        · split at h
          · cases h
          · rename_i link hstore
            split at h
            · cases h
            · cases h
              exact hstore

/-- The words of `i_block`, of which only the first one is set. -/
theorem bmap_stored {l : Ext2Link} {p : BitVec 32} (h : l.iBlock = copy (fun _ => 0) 0 (toLe 4 p.toNat)) :
    l.bmap 0 = p.toNat ∧ l.bmap 1 = 0 := by
  unfold Ext2Link.bmap
  rw [h]
  constructor
  · rw [Nat.mul_zero, slice_copy _ _ (by rw [toLe_length]), List.take_of_length_le (by rw [toLe_length])]
    exact ofLe_toLe_of_lt p.isLt
  · have hzero : ∀ i, 4 ≤ i → copy (fun _ => (0 : Byte)) 0 (toLe 4 p.toNat) i = 0 := by
      intro i hi
      exact copy_outside (Or.inr (by rw [toLe_length]; omega))
    have hslice : slice (copy (fun _ => (0 : Byte)) 0 (toLe 4 p.toNat)) (4 * 1) 4 = [0, 0, 0, 0] := by
      have hcells : ∀ d : ℕ → Byte, slice d (4 * 1) 4 = [d 4, d 5, d 6, d 7] := fun d => rfl
      rw [hcells, hzero 4 (by decide), hzero 5 (by decide), hzero 6 (by decide), hzero 7 (by decide)]
    rw [hslice]
    rfl

/-- The target is read back exactly when it fits into one block that can be read. -/
theorem ext2ReadSymlinkTarget_spec {a : Ext2Make} {l : Ext2Link} (r : Ext2Read) (hblock : 512 ≤ blockSize)
    (h : ext2StoreTarget blockSize t.bytes a = .ok l) :
    ((iBlockSize ≤ t.bytes.length →
        t.bytes.length ≤ blockSize ∧ r.blockMem 0 = true ∧ r.readBlock 0 = .ok ()) ∧
      ext2ReadSymlinkTarget blockSize l r (l.iSize + 1) = .ok t.bytes) ∨
    (¬ (iBlockSize ≤ t.bytes.length →
        t.bytes.length ≤ blockSize ∧ r.blockMem 0 = true ∧ r.readBlock 0 = .ok ()) ∧
      ∃ e, ext2ReadSymlinkTarget blockSize l r (l.iSize + 1) = .error e) := by
  unfold ext2StoreTarget at h
  by_cases hfast : t.bytes.length < iBlockSize
  · rw [if_pos hfast] at h
    cases h
    left
    refine ⟨fun hle => by omega, ?_⟩
    unfold ext2ReadSymlinkTarget
    simp only [if_true]
    rw [slice_copy _ _ (by omega), List.take_of_length_le (by omega)]
  · rw [if_neg hfast] at h
    by_cases hphys : a.physical = 0
    · rw [if_pos hphys] at h
      cases h
    · rw [if_neg hphys] at h
      split at h
      · cases h
      · split at h
        · cases h
        · cases h
          have hbmap := bmap_stored (l := ⟨t.bytes.length, blockSize / 512,
            copy (fun _ => 0) 0 (toLe 4 a.physical.toNat),
            update a.disk a.physical.toNat (copy (fun _ => 0) 0 t.bytes)⟩) rfl
          have hne : a.physical.toNat ≠ 0 := fun h0 => hphys (BitVec.eq_of_toNat_eq h0)
          have hlen : 60 ≤ t.bytes.length := by
            unfold iBlockSize at hfast
            omega
          unfold ext2ReadSymlinkTarget
          simp only
          rw [if_neg (by omega), Nat.min_eq_right (by omega)]
          obtain ⟨k, hk⟩ : ∃ k, t.bytes.length = k + 2 := ⟨t.bytes.length - 2, by omega⟩
          have hround : readBlocks blockSize ⟨t.bytes.length, blockSize / 512,
              copy (fun _ => 0) 0 (toLe 4 a.physical.toNat),
              update a.disk a.physical.toNat (copy (fun _ => 0) 0 t.bytes)⟩ r t.bytes.length
              (k + 2) [] =
            if !r.blockMem 0 then .error enomem
            else
              match r.readBlock 0 with
              | .error e => .error e
              | .ok _ => readBlocks blockSize ⟨t.bytes.length, blockSize / 512,
                  copy (fun _ => 0) 0 (toLe 4 a.physical.toNat),
                  update a.disk a.physical.toNat (copy (fun _ => 0) 0 t.bytes)⟩ r t.bytes.length
                  (k + 1) (t.bytes.take (min blockSize t.bytes.length)) := by
            rw [readBlocks]
            simp only [List.length_nil, Nat.zero_div, Nat.zero_mod, Nat.sub_zero, hbmap.1, if_neg hne,
              List.nil_append, update_self]
            rw [if_neg (by omega), slice_copy _ _ (by omega)]
          rw [← hk] at hround
          rw [hround]
          cases hmem : r.blockMem 0 with
          | false =>
            right
            refine ⟨fun hcond => ?_, enomem, rfl⟩
            have := (hcond (by unfold iBlockSize; omega)).2.1
            cases this
          | true =>
            simp only [Bool.not_true, Bool.false_eq_true, if_false]
            cases hread : r.readBlock 0 with
            | error e =>
              right
              refine ⟨fun hcond => ?_, e, rfl⟩
              have := (hcond (by unfold iBlockSize; omega)).2.2
              cases this
            | ok u =>
              simp only
              by_cases hfit : t.bytes.length ≤ blockSize
              · left
                refine ⟨fun _ => ⟨hfit, by trivial, by trivial⟩, ?_⟩
                rw [Nat.min_eq_right hfit, List.take_of_length_le (Nat.le_refl _), readBlocks, if_pos (Nat.le_refl _)]
              · right
                refine ⟨fun hcond => hfit (hcond (by unfold iBlockSize; omega)).1, eio, ?_⟩
                have htake : (t.bytes.take blockSize).length = blockSize := by
                  rw [List.length_take]
                  omega
                rw [Nat.min_eq_left (by omega), readBlocks]
                simp only [htake, Nat.div_self (by omega : 0 < blockSize), hbmap.2, if_true]
                rw [if_neg hfit]

theorem ext2_readers {a : Ext2Make} {l : Ext2Link} (r : Ext2Read) (hblock : 512 ≤ blockSize)
    (h : ext2StoreTarget blockSize t.bytes a = .ok l) (count : ℕ) (hcount : count ≠ 0) :
    (ext2Readlink blockSize l r count = wanted t.bytes count ↔
        t.bytes.length ≤ count ∧ r.Enough blockSize t) ∧
      (ext2FollowTarget blockSize l r = .ok t.bytes ↔ r.Enough blockSize t) := by
  unfold ext2Readlink ext2FollowTarget Ext2Read.Enough
  cases hmem : r.targetMem with
  | false => simp [wanted_ne hcount]
  | true =>
    simp only [Bool.not_true, Bool.false_eq_true, if_false, true_and]
    rcases ext2ReadSymlinkTarget_spec r hblock h with ⟨hcond, hread⟩ | ⟨hcond, e, hread⟩
    · have hpath : scanNul (buffer t.bytes) t.bytes.length 0 = t.bytes.length :=
        scanNul_eq (Nat.zero_le _) (by omega) (fun i _ hi => t.copy_ne_zero _ hi) (Or.inl (by omega))
      have hslice : ∀ n ≤ t.bytes.length, slice (buffer t.bytes) 0 n = t.bytes.take n :=
        fun n hn => slice_copy _ _ hn
      simp only [hread]
      constructor
      · rw [readResult_eq_wanted hcount hslice]
        exact ⟨fun hle => ⟨hle, hcond⟩, fun hle => hle.1⟩
      · rw [hpath, hslice _ (Nat.le_refl _), List.take_of_length_le (Nat.le_refl _)]
        exact ⟨fun _ => hcond, fun _ => rfl⟩
    · simp only [hread]
      constructor
      · exact ⟨fun heq => absurd heq (wanted_ne hcount e), fun hall => absurd hall.2 hcond⟩
      · exact ⟨fun heq => (by cases heq), fun hall => absurd hall hcond⟩

theorem marioSymlink_cases {a : MarioMake} {l : Option MarioLink} (h : marioSymlink blockSize t.bytes a = .ok l) :
    t.bytes.length + 1 ≤ blockSize - 4 ∧
      (a.bread = none ∧ l = none ∨
        ∃ data, a.bread = some data ∧ l = some ⟨copy (copy data 0 t.bytes) t.bytes.length [0]⟩) := by
  unfold marioSymlink at h
  split at h
  · cases h
  · rename_i hlen
    refine ⟨by omega, ?_⟩
    split at h
    · cases h
    · split at h
      · cases h
      · split at h
        · cases h
        · split at h
          · cases h
          · split at h
            · rename_i hbread
              exact Or.inl ⟨hbread, (Except.ok.inj h).symm⟩
            · rename_i data hbread
              exact Or.inr ⟨data, hbread, (Except.ok.inj h).symm⟩

theorem mario_readers (data : ℕ → Byte) (hlen : t.bytes.length + 1 ≤ blockSize - 4) (bread : Bool)
    (count : ℕ) (hcount : count ≠ 0) :
    (marioReadlink blockSize ⟨copy (copy data 0 t.bytes) t.bytes.length [0]⟩ bread count =
        some (wanted t.bytes count) ↔ t.bytes.length ≤ count ∧ bread = true) ∧
      (marioFollowTarget blockSize ⟨copy (copy data 0 t.bytes) t.bytes.length [0]⟩ bread =
        .ok t.bytes ↔ bread = true) := by
  have hinside : ∀ i, i < t.bytes.length →
      copy (copy data 0 t.bytes) t.bytes.length [0] i = copy data 0 t.bytes i := by
    intro i hi
    exact copy_outside (Or.inl hi)
  have hne : ∀ i, 0 ≤ i → i < t.bytes.length →
      copy (copy data 0 t.bytes) t.bytes.length [0] i ≠ 0 := by
    intro i _ hi
    rw [hinside i hi]
    exact t.copy_ne_zero data hi
  have hzero : copy (copy data 0 t.bytes) t.bytes.length [0] t.bytes.length = 0 := by
    rw [copy_inside (Nat.le_refl _) (by simp)]
    simp
  have hslice : ∀ n ≤ t.bytes.length,
      slice (copy (copy data 0 t.bytes) t.bytes.length [0]) 0 n = t.bytes.take n := by
    intro n hn
    rw [← slice_copy data t.bytes hn]
    refine List.map_congr_left fun i hi => hinside _ ?_
    have := List.mem_range.mp hi
    omega
  unfold marioReadlink marioFollowTarget
  cases bread with
  | false => simp [wanted_ne hcount]
  | true =>
    simp only [Bool.not_true, Bool.false_eq_true, if_false, and_true]
    rw [scanNul_eq (Nat.zero_le _) (by omega) hne (Or.inr hzero),
      scanNul_eq (Nat.zero_le _) (by omega) hne (Or.inr hzero), hzero]
    constructor
    · simp only [ne_eq, not_true_eq_false, if_false, Option.some.injEq]
      exact readResult_eq_wanted hcount hslice
    · rw [hslice _ (Nat.le_refl _), List.take_of_length_le (Nat.le_refl _)]
      exact ⟨fun _ => trivial, fun _ => rfl⟩

/-- A target that has been accepted comes back exactly when the buffer is empty or holds all of it, the blocks and
the memory for it can be had, and, for ext2, it fits into one block. On mariofs the block must also have been there
when the link was made. -/
theorem symlink_exact_iff (t : Target) (size : Size) :
    (∀ (k : Fin 3) (a : Ext2Make) (r f : Ext2Read),
      Ext2Exact (ext2BlockSize k) t a r f size ↔
        ∀ l, ext2Symlink (ext2BlockSize k) t.bytes a = .ok l →
          (size.count = 0 ∨ t.bytes.length ≤ size.count ∧ r.Enough (ext2BlockSize k) t) ∧
            f.Enough (ext2BlockSize k) t) ∧
    ∀ (blockSize : ℕ) (a : MarioMake) (r f : Bool),
      MarioExact blockSize t a r f size ↔
        ∀ l, marioSymlink blockSize t.bytes a = .ok l → a.bread ≠ none ∧
          (size.count = 0 ∨ t.bytes.length ≤ size.count ∧ r = true) ∧ f = true := by
  constructor
  · intro k a r f
    have hblock : 512 ≤ ext2BlockSize k := by
      have hpos := Nat.one_le_two_pow (n := k.val)
      rw [ext2BlockSize, Nat.shiftLeft_eq]
      omega
    refine forall_congr' fun l => imp_congr_right fun hl => ?_
    have hstore := ext2StoreTarget_of_symlink hl
    have hfollow := (ext2_readers f hblock hstore 1 (by decide)).2
    unfold ext2SysReadlink
    rw [hfollow]
    by_cases hcount : size.count = 0
    · rw [if_pos hcount, hcount]
      simp [wanted]
    · rw [if_neg hcount, (ext2_readers r hblock hstore size.count hcount).1]
      simp [hcount]
  · intro blockSize a r f
    refine forall_congr' fun l => imp_congr_right fun hl => ?_
    obtain ⟨hlen, ⟨hbread, rfl⟩ | ⟨data, hbread, rfl⟩⟩ := marioSymlink_cases hl
    · simp [marioSysFollow, hbread]
    · have hfollow := (mario_readers data hlen f 1 (by decide)).2
      unfold marioSysReadlink marioSysFollow
      simp only
      rw [hfollow]
      by_cases hcount : size.count = 0
      · rw [if_pos hcount, hcount]
        simp [wanted, hbread]
      · rw [if_neg hcount, (mario_readers data hlen r size.count hcount).1]
        simp [hcount, hbread]

/-! ## A short buffer -/

/-- The target `ab`. -/
def shortTarget : Target where
  bytes := [0x61, 0x62]
  nonempty := by decide
  noNul := by decide
  length_lt := by decide

def made : Ext2Make where
  nameLen := 1
  find := .error enoent
  allocInode := .ok ()
  physical := 0
  bufMem := true
  write := .ok ()
  addEntry := .ok ()
  disk _ _ := 0

def allRead : Ext2Read := ⟨true, fun _ => true, fun _ => .ok ()⟩

/-- With room for one byte the result is 2. -/
theorem ext2_readlink_not_exact : ¬ Ext2Exact (ext2BlockSize 0) shortTarget made allRead allRead ⟨1, by decide⟩ := by
  intro h
  have hread := (h ⟨2, 0, copy (fun _ => 0) 0 [0x61, 0x62], fun _ _ => 0⟩ rfl).1
  exact absurd hread (by decide)

end Mario.Fs.Symlink
