import Mathlib.Data.BitVec

/-!
# GUID partition tables

`crc32` of `lib/crc32.c` and the parser of `fs/block/gpt.c`. A buffer is a function from offsets to bytes. The
sectors are read by a function that may fail, and `kmalloc` is the answer of the allocator for a size. The
64-bit sums of the source are of numbers that it has bounded before.
-/

namespace Mario.Fs.Gpt

abbrev Byte := BitVec 8

abbrev Buffer := ℕ → Byte

/-! ## CRC32 -/

/-- One bit of the loop of `crc32`. -/
def crcBit (crc : BitVec 32) : BitVec 32 := crc >>> 1 ^^^ (0xedb88320#32 &&& (0 - (crc &&& 1)))

def crcByte (crc : BitVec 32) (b : Byte) : BitVec 32 := crcBit^[8] (crc ^^^ b.setWidth 32)

def crc32 (crc : BitVec 32) (bytes : List Byte) : BitVec 32 := ~~~bytes.foldl crcByte (~~~crc)

/-! ## Headers -/

/-- What `gpt_parse` ends with when it does not succeed. -/
inductive Failure
  | einval
  | eio
  | enoent
  | enomem
  /-- No error number: sectors were read over the end of the buffer for the entries, and the machine stops
  when `kfree` finds the bytes behind the buffer changed. -/
  | overrun
  deriving DecidableEq

/-- `GPT_SECTOR_SIZE`. -/
def sectorSize : ℕ := 512

/-- `GPT_MAX_PARTITION_ENTRIES`. -/
def maxPartitionEntries : ℕ := 256

/-- `GPT_MAX_ENTRY_SIZE`. -/
def maxEntrySize : ℕ := 4096

def readLe32 (p : Buffer) (o : ℕ) : ℕ := (p (o + 3) ++ p (o + 2) ++ p (o + 1) ++ p o).toNat

def readLe64 (p : Buffer) (o : ℕ) : ℕ := readLe32 p o + readLe32 p (o + 4) * 2 ^ 32

/-- The first bytes of a buffer. -/
def bytes (p : Buffer) (n : ℕ) : List Byte := (List.range n).map p

/-- `struct gpt_header_info`. -/
structure HeaderInfo where
  headerSize : ℕ
  headerCrc : ℕ
  currentLba : ℕ
  backupLba : ℕ
  firstUsableLba : ℕ
  lastUsableLba : ℕ
  entriesLba : ℕ
  numEntries : ℕ
  entrySize : ℕ
  entriesCrc : ℕ
  deriving DecidableEq

/-- The fields of a header. -/
def headerInfo (sector : Buffer) : HeaderInfo where
  headerSize := readLe32 sector 12
  headerCrc := readLe32 sector 16
  currentLba := readLe64 sector 24
  backupLba := readLe64 sector 32
  firstUsableLba := readLe64 sector 40
  lastUsableLba := readLe64 sector 48
  entriesLba := readLe64 sector 72
  numEntries := readLe32 sector 80
  entrySize := readLe32 sector 84
  entriesCrc := readLe32 sector 88

def HeaderInfo.entriesBytes (hdr : HeaderInfo) : ℕ := hdr.numEntries * hdr.entrySize

def HeaderInfo.entriesSectors (hdr : HeaderInfo) : ℕ := (hdr.entriesBytes + sectorSize - 1) / sectorSize

/-- The bytes `EFI PART`. -/
def signature : List Byte := [0x45, 0x46, 0x49, 0x20, 0x50, 0x41, 0x52, 0x54]

/-- The CRC of a header, with zeros where the CRC stands. -/
def headerCrc (sector : Buffer) (size : ℕ) : ℕ :=
  (crc32 0 (bytes (fun i => if 16 ≤ i ∧ i < 20 then 0 else sector i) size)).toNat

def gptParseHeader (sector : Buffer) (headerLba diskSectors : ℕ) : Except Failure HeaderInfo :=
  let hdr := headerInfo sector
  if bytes sector 8 ≠ signature then .error .einval
  else if hdr.headerSize < 92 ∨ sectorSize < hdr.headerSize then .error .einval
  else if hdr.currentLba ≠ headerLba then .error .einval
  else if hdr.backupLba ≤ hdr.currentLba ∨ diskSectors ≤ hdr.backupLba then .error .einval
  else if hdr.firstUsableLba < 1 ∨ hdr.lastUsableLba < hdr.firstUsableLba then .error .einval
  else if diskSectors ≤ hdr.lastUsableLba then .error .einval
  else if hdr.numEntries = 0 ∨ maxPartitionEntries < hdr.numEntries then .error .einval
  else if hdr.entrySize < 128 ∨ maxEntrySize < hdr.entrySize then .error .einval
  else if diskSectors ≤ hdr.entriesLba ∨ diskSectors - hdr.entriesLba < hdr.entriesSectors then .error .einval
  else if headerCrc sector hdr.headerSize ≠ hdr.headerCrc then .error .einval
  else .ok hdr

/-! ## Partitions -/

/-- `struct gpt_partition`. -/
structure Partition where
  firstLba : ℕ := 0
  lastLba : ℕ := 0
  typeGuid : List Byte := List.replicate 16 0
  uniqueGuid : List Byte := List.replicate 16 0
  attrs : ℕ := 0
  present : Bool := false
  deriving DecidableEq

/-- A pass of the loop of `gpt_parse` over the entries. -/
def parseEntry (hdr : HeaderInfo) (diskSectors maxParts : ℕ) (entries : Buffer) (st : List Partition × ℕ) (i : ℕ) :
    List Partition × ℕ :=
  let entry : Buffer := fun o => entries (i * hdr.entrySize + o)
  let firstLba := readLe64 entry 32
  let lastLba := readLe64 entry 40
  if firstLba = 0 ∧ lastLba = 0 then st
  else if lastLba < firstLba then st
  else if firstLba < hdr.firstUsableLba ∨ hdr.lastUsableLba < lastLba then st
  else if diskSectors ≤ lastLba then st
  else if 0xffffffff < lastLba ∨ 0x7fffffff < lastLba - firstLba + 1 then st
  else if maxParts ≤ i then (st.1, st.2 + 1)
  else
    (st.1.set i
      { firstLba, lastLba, typeGuid := bytes entry 16, uniqueGuid := bytes (fun o => entry (16 + o)) 16
        attrs := readLe64 entry 48, present := true }, st.2 + 1)

/-- The partitions that a header and its array describe, and their number. -/
def partitions (hdr : HeaderInfo) (diskSectors maxParts : ℕ) (entries : Buffer) : List Partition × ℕ :=
  (List.range hdr.numEntries).foldl (parseEntry hdr diskSectors maxParts entries) (List.replicate maxParts {}, 0)

section

variable (readSectors : ℕ → ℕ → Option Buffer) (kmalloc : ℕ → Bool)

def gptLoadHeader (lba diskSectors : ℕ) : Except Failure HeaderInfo :=
  match readSectors lba 1 with
  | none => .error .eio
  | some sector => gptParseHeader sector lba diskSectors

/-- `gpt_parse` after a header was found. -/
def gptReadEntries (hdr : HeaderInfo) (diskSectors maxParts : ℕ) : Except Failure (List Partition × ℕ) :=
  if kmalloc hdr.entriesBytes then
    match readSectors hdr.entriesLba hdr.entriesSectors with
    | none => .error .eio
    | some entries =>
        if hdr.entriesBytes < hdr.entriesSectors * sectorSize then .error .overrun
        else if (crc32 0 (bytes entries hdr.entriesBytes)).toNat ≠ hdr.entriesCrc then .error .enoent
        else .ok (partitions hdr diskSectors maxParts entries)
  else .error .enomem

def gptHasProtectiveMbr (sector : Buffer) : Bool := (List.range 4).any fun i => sector (446 + i * 16 + 4) == 0xee

def gptParse (diskSectors maxParts : ℕ) : Except Failure (List Partition × ℕ) :=
  if diskSectors < 2 then .error .einval
  else
    match readSectors 0 1 with
    | none => .error .eio
    | some sector =>
        if sector 510 ≠ 0x55 ∨ sector 511 ≠ 0xaa then .error .enoent
        else if !gptHasProtectiveMbr sector then .error .enoent
        else
          match gptLoadHeader readSectors 1 diskSectors with
          | .ok hdr => gptReadEntries readSectors kmalloc hdr diskSectors maxParts
          | .error _ =>
              match gptLoadHeader readSectors (diskSectors - 1) diskSectors with
              | .ok hdr => gptReadEntries readSectors kmalloc hdr diskSectors maxParts
              | .error _ => .error .enoent

end

/-! ## Disks -/

/-- The buffer that starts at a sector. -/
def sectorAt (disk : Buffer) (lba : ℕ) : Buffer := fun i => disk (lba * sectorSize + i)

/-- The sectors of a disk. -/
def readDisk (disk : Buffer) (diskSectors lba nr : ℕ) : Option Buffer :=
  if lba + nr ≤ diskSectors then some (sectorAt disk lba) else none

/-- A header as the format has it, at one of the two places, and the CRC of its array. -/
structure ValidAt (disk : Buffer) (lba alternateLba : ℕ) : Prop where
  signature : bytes (sectorAt disk lba) 8 = signature
  size : 92 ≤ (headerInfo (sectorAt disk lba)).headerSize ∧ (headerInfo (sectorAt disk lba)).headerSize ≤ sectorSize
  headerCrc : headerCrc (sectorAt disk lba) (headerInfo (sectorAt disk lba)).headerSize =
    (headerInfo (sectorAt disk lba)).headerCrc
  myLba : (headerInfo (sectorAt disk lba)).currentLba = lba
  alternateLba : (headerInfo (sectorAt disk lba)).backupLba = alternateLba
  entriesCrc : (crc32 0 (bytes (sectorAt disk (headerInfo (sectorAt disk lba)).entriesLba)
    (headerInfo (sectorAt disk lba)).entriesBytes)).toNat = (headerInfo (sectorAt disk lba)).entriesCrc

/-- The header in the last sector. -/
def backupInfo (disk : Buffer) (diskSectors : ℕ) : HeaderInfo := headerInfo (sectorAt disk (diskSectors - 1))

def primaryInfo (disk : Buffer) : HeaderInfo := headerInfo (sectorAt disk 1)

/-- The array of a header. -/
def arrayOf (disk : Buffer) (hdr : HeaderInfo) : Buffer := sectorAt disk hdr.entriesLba

/-- A disk with the protective partition table in its first sector. -/
def Protected (disk : Buffer) : Prop := disk 510 = 0x55 ∧ disk 511 = 0xaa ∧ gptHasProtectiveMbr disk = true

/-- What the parser requires of the fields that the two headers share. -/
structure WithinLimits (hdr : HeaderInfo) (diskSectors : ℕ) : Prop where
  usable : 1 ≤ hdr.firstUsableLba ∧ hdr.firstUsableLba ≤ hdr.lastUsableLba ∧ hdr.lastUsableLba < diskSectors
  entries : 0 < hdr.numEntries ∧ hdr.numEntries ≤ maxPartitionEntries
  entrySize : 128 ≤ hdr.entrySize ∧ hdr.entrySize ≤ maxEntrySize

/-- The disk `disk'` has a valid primary header and array that match the backup of `disk`, and the first sector of
`disk`. -/
structure MatchingPrimary (disk disk' : Buffer) (diskSectors : ℕ) : Prop where
  first : ∀ i < sectorSize, disk' i = disk i
  valid : ValidAt disk' 1 (diskSectors - 1)
  inside : (primaryInfo disk').entriesLba < diskSectors ∧
    (primaryInfo disk').entriesLba + (primaryInfo disk').entriesSectors ≤ diskSectors
  firstUsableLba : (primaryInfo disk').firstUsableLba = (backupInfo disk diskSectors).firstUsableLba
  lastUsableLba : (primaryInfo disk').lastUsableLba = (backupInfo disk diskSectors).lastUsableLba
  numEntries : (primaryInfo disk').numEntries = (backupInfo disk diskSectors).numEntries
  entrySize : (primaryInfo disk').entrySize = (backupInfo disk diskSectors).entrySize
  array : ∀ i < (backupInfo disk diskSectors).entriesBytes,
    arrayOf disk' (primaryInfo disk') i = arrayOf disk (backupInfo disk diskSectors) i

end Mario.Fs.Gpt
