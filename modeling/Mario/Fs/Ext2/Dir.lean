import Mario.Fs.Ext2.Alloc
import Mario.Lib.IndexSearch

/-!
# Looking up a name in a directory of ext2

The records of a directory block, the half-MD4 hash of a name and the two ways to look up a name:
`ext2_dx_find_entry` walks the index of a directory down to one leaf block, and the second part of
`ext2_find_entry` scans all blocks. Lookups only read, so a directory is given by what `ext2_bmap`
and `ext2_read_block` answer; memory allocation answers per place.
-/

namespace Mario.Fs.Ext2

open Mario.Lib

/-- A name, without a terminating zero. -/
abbrev Name := List Byte

/-! ## Records -/

/-- The fields of `struct ext2_dir_entry_2` at an offset of a block. -/
def recInode (buf : Buffer) (o : ℕ) : BitVec 32 := read32 buf o

def recLen (buf : Buffer) (o : ℕ) : ℕ := (read16 buf (o + 4)).toNat

def recNameLen (buf : Buffer) (o : ℕ) : ℕ := (buf (o + 6)).toNat

def recName (buf : Buffer) (o : ℕ) : Name :=
  (List.range (recNameLen buf o)).map fun i => buf (o + 8 + i)

/-- The record is in use and has the name. -/
def Matches (buf : Buffer) (name : Name) (o : ℕ) : Prop := recInode buf o ≠ 0 ∧ recName buf o = name

instance (buf : Buffer) (name : Name) (o : ℕ) : Decidable (Matches buf name o) :=
  inferInstanceAs (Decidable (_ ∧ _))

/-- How the scan of a block ends. -/
inductive Scan
  | found (offset : ℕ)
  | finished
  | malformed
  deriving DecidableEq

/-- The loop over the records of a block. -/
def scan (buf : Buffer) (name : Name) (limit o : ℕ) : Scan :=
  if o < limit then
    if _h : recLen buf o < 8 ∨ limit < o + recLen buf o then .malformed
    else if Matches buf name o then .found o
    else scan buf name limit (o + recLen buf o)
  else .finished
  termination_by limit - o
  decreasing_by omega

/-! ## The hash of a name -/

/-- The rounds of `half_md4_transform`: the function, the word that goes in and the rotation. -/
def md4Rounds : List ((BitVec 32 → BitVec 32 → BitVec 32 → BitVec 32) × BitVec 32 × ℕ × ℕ) :=
  let f x y z : BitVec 32 := z ^^^ (x &&& (y ^^^ z))
  let g x y z : BitVec 32 := (x &&& y) + ((x ^^^ y) &&& z)
  let h x y z : BitVec 32 := x ^^^ y ^^^ z
  [(f, 0, 0, 3), (f, 0, 1, 7), (f, 0, 2, 11), (f, 0, 3, 19),
   (f, 0, 4, 3), (f, 0, 5, 7), (f, 0, 6, 11), (f, 0, 7, 19),
   (g, 0x5a827999, 1, 3), (g, 0x5a827999, 3, 5), (g, 0x5a827999, 5, 9), (g, 0x5a827999, 7, 13),
   (g, 0x5a827999, 0, 3), (g, 0x5a827999, 2, 5), (g, 0x5a827999, 4, 9), (g, 0x5a827999, 6, 13),
   (h, 0x6ed9eba1, 3, 3), (h, 0x6ed9eba1, 7, 9), (h, 0x6ed9eba1, 2, 11), (h, 0x6ed9eba1, 6, 15),
   (h, 0x6ed9eba1, 1, 3), (h, 0x6ed9eba1, 5, 9), (h, 0x6ed9eba1, 0, 11), (h, 0x6ed9eba1, 4, 15)]

/-- The four words of a hash. -/
structure Md4 where
  a : BitVec 32
  b : BitVec 32
  c : BitVec 32
  d : BitVec 32

/-- `ROUND`. The next round has the four words one place further. -/
def md4Round (w : List (BitVec 32)) (r : Md4)
    (x : (BitVec 32 → BitVec 32 → BitVec 32 → BitVec 32) × BitVec 32 × ℕ × ℕ) : Md4 :=
  ⟨r.d, (r.a + (x.1 r.b r.c r.d + (w.getD x.2.2.1 0 + x.2.1))).rotateLeft x.2.2.2, r.b, r.c⟩

def halfMd4Transform (r : Md4) (w : List (BitVec 32)) : Md4 :=
  let t := md4Rounds.foldl (md4Round w) r
  ⟨r.a + t.a, r.b + t.b, r.c + t.c, r.d + t.d⟩

/-- `str2hashbuf`, with eight words: the bytes of four places each, and the padding. -/
def str2hashbuf (name : Name) : List (BitVec 32) :=
  let len := BitVec.ofNat 32 name.length
  let half := len ||| len <<< 8
  let pad := half ||| half <<< 16
  let r := (name.take 32).foldl
    (fun (r : List (BitVec 32) × BitVec 32 × ℕ) c =>
      let val := c.signExtend 32 + r.2.1 <<< 8
      if r.2.2 % 4 = 3 then (r.1 ++ [val], pad, r.2.2 + 1) else (r.1, val, r.2.2 + 1))
    ([], pad, 0)
  (r.1 ++ r.2.1 :: List.replicate 8 pad).take 8

/-- The loop of `ext2_dirhash`. -/
def dirhashLoop (r : Md4) (name : Name) : Md4 :=
  if _h : name = [] then r
  else dirhashLoop (halfMd4Transform r (str2hashbuf name)) (name.drop 32)
  termination_by name.length
  decreasing_by
    have hpos : 0 < name.length := List.length_pos_of_ne_nil _h
    rw [List.length_drop]
    omega

/-- `EXT2_HASH_HALF_MD4`. -/
def hashHalfMd4 : ℕ := 1

/-- What the hash depends on. -/
structure HashInfo where
  /-- `hash_version` of the superblock. -/
  version : ℕ
  /-- `hash_seed`. -/
  seed : Md4

/-- The words a hash starts with. -/
def HashInfo.start (i : HashInfo) : Md4 :=
  if i.seed.a = 0 ∧ i.seed.b = 0 ∧ i.seed.c = 0 ∧ i.seed.d = 0 then
    ⟨0x67452301, 0xefcdab89, 0x98badcfe, 0x10325476⟩
  else i.seed

/-- The hash of a name, with the low bit cleared. -/
def HashInfo.hash (i : HashInfo) (name : Name) : ℕ :=
  ((dirhashLoop i.start name).b &&& ~~~1#32).toNat

/-- `ext2_dirhash`. -/
def dirhash (i : HashInfo) (name : Name) : Outcome ℕ :=
  if name = [] ∨ i.version ≠ hashHalfMd4 then .error .enotsup else .ok (i.hash name)

/-! ## The index -/

/-- A directory, as a lookup sees it. -/
structure Dir where
  blockSize : ℕ
  /-- `i_size`. -/
  size : ℕ
  hashInfo : HashInfo
  /-- `ext2_bmap`: the physical block, zero for a hole. -/
  bmap : ℕ → ℕ
  /-- `ext2_read_block`. -/
  read : ℕ → Outcome Buffer

/-- The entries of an index block start at an offset of it. -/
def dxCount (e : Buffer) : ℕ := (read16 e 2).toNat

def dxLimit (e : Buffer) : ℕ := (read16 e 0).toNat

def dxEntryHash (e : Buffer) (i : ℕ) : ℕ := (read32 e (i * 8)).toNat

def dxEntryBlock (e : Buffer) (i : ℕ) : ℕ := (read32 e (i * 8 + 4)).toNat

/-- `ext2_dx_probe`. -/
def dxProbe (e : Buffer) (available h : ℕ) : Outcome ℕ :=
  if dxLimit e = 0 ∨ available / 8 < dxLimit e ∨ dxCount e < 1 ∨ dxLimit e < dxCount e then
    .error .eio
  else if dxCount e = 1 then .ok (dxEntryBlock e 0)
  else .ok (dxEntryBlock e (bisect (dxEntryHash e) h 1 (dxCount e - 1) - 1))

/-- `EXT2_DX_ROOT_ENTRIES_OFFSET` and `EXT2_DX_NODE_ENTRIES_OFFSET`. -/
def rootEntries : ℕ := 32
def nodeEntries : ℕ := 8

/-- The fields of `struct ext2_dx_root_info` in the root block. -/
def infoVersion (root : Buffer) : ℕ := (root 28).toNat
def infoLength (root : Buffer) : ℕ := (root 29).toNat
def infoLevels (root : Buffer) : ℕ := (root 30).toNat

/-- The loop of `ext2_dx_find_entry`, with the number of levels that are left: the logical block of
the leaf. `seen` are the blocks of the levels above. -/
def dxWalk (d : Dir) (mem : ℕ → Bool) (h : ℕ) :
    (level : ℕ) → (buf : Buffer) → (entries : ℕ) → (seen : List ℕ) → Outcome ℕ
  | level, buf, entries, seen =>
      match dxProbe (fun o => buf (entries + o)) (d.blockSize - entries) h with
      | .error e => .error e
      | .ok target =>
          if target = 0 ∨ d.size ≤ target * d.blockSize then .error .eio
          else if target ∈ seen then .error .eio
          else
            match level with
            | 0 => .ok target
            | level + 1 =>
                if d.bmap target = 0 then .error .eio
                else if !mem level then .error .enomem
                else
                  match d.read (d.bmap target) with
                  | .error e => .error e
                  | .ok buf => dxWalk d mem h level buf nodeEntries (seen ++ [target])

/-- The bytes of a block that belong to the directory. -/
def Dir.limit (d : Dir) (i : ℕ) : ℕ :=
  if d.size < i * d.blockSize + d.blockSize then d.size - i * d.blockSize else d.blockSize

/-- The places where a lookup allocates memory. -/
inductive Place
  | root
  | node (level : ℕ)
  | leaf
  | block (i : ℕ)

/-- `ext2_dx_find_entry`: the physical block and the offset of the record. -/
def dxFindEntry (d : Dir) (mem : Place → Bool) (name : Name) : Outcome (ℕ × ℕ) :=
  match dirhash d.hashInfo name with
  | .error e => .error e
  | .ok h =>
      if d.bmap 0 = 0 then .error .eio
      else if !mem .root then .error .enomem
      else
        match d.read (d.bmap 0) with
        | .error e => .error e
        | .ok root =>
            if infoVersion root ≠ hashHalfMd4 ∨ infoLength root ≠ 8 ∨ 2 < infoLevels root then
              .error .enotsup
            else
              match dxWalk d (fun level => mem (.node level)) h (infoLevels root) root rootEntries
                  [] with
              | .error e => .error e
              | .ok target =>
                  if d.bmap target = 0 then .error .eio
                  else if !mem .leaf then .error .enomem
                  else
                    match d.read (d.bmap target) with
                    | .error e => .error e
                    | .ok buf =>
                        match scan buf name (d.limit target) 0 with
                        | .found o => .ok (d.bmap target, o)
                        | .finished => .error .enoent
                        | .malformed => .error .eio

/-! ## All blocks -/

/-- The loop of `ext2_find_entry` over the blocks. -/
def findBlocks (d : Dir) (mem : Place → Bool) (name : Name) : List ℕ → Outcome (ℕ × ℕ)
  | [] => .error .enoent
  | i :: is =>
      if d.bmap i = 0 then findBlocks d mem name is
      else if !mem (.block i) then .error .enomem
      else
        match d.read (d.bmap i) with
        | .error e => .error e
        | .ok buf =>
            match scan buf name (d.limit i) 0 with
            | .found o => .ok (d.bmap i, o)
            | .finished => findBlocks d mem name is
            | .malformed => findBlocks d mem name is

/-- The second part of `ext2_find_entry`: the blocks that begin before the end of the
directory. -/
def linearFindEntry (d : Dir) (mem : Place → Bool) (name : Name) : Outcome (ℕ × ℕ) :=
  findBlocks d mem name (List.range ((d.size + d.blockSize - 1) / d.blockSize))

end Mario.Fs.Ext2
