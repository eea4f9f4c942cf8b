import Mario.Fs.Block.GptBounds

/-!
# Partitions of a disk, and transfers to them

The driver of `fs/block/ahci.c`: what `hd_init` reads off a disk, and the commands of `hd_read` and `hd_write`. Commands
succeed. A disk that is found is given by its size, by the reads of its sectors, which may fail, and by the
allocator. The sums of the parsers are of 32-bit numbers and do not wrap in 64 bits.
-/

namespace Mario.Fs.Ahci

open Mario.Fs.Gpt

/-! ## Partitions -/

/-- `HD_MAX_PARTITIONS`. -/
def maxPartitions : ℕ := 16

/-- `struct hd_partition`, of a partition that is present. -/
structure HdPartition where
  startSector : ℕ
  nrSectors : ℕ

/-- The partitions of a disk, from 0. -/
abbrev Table := ℕ → Option HdPartition

/-- A disk that `hd_init` finds and reads to the end: the array of a table with GUIDs does not overrun its buffer. -/
structure Disk where
  totalSectors : ℕ
  readSectors : ℕ → ℕ → Option Buffer
  kmalloc : ℕ → Bool
  parsed : gptParse readSectors kmalloc totalSectors maxPartitions ≠ .error .overrun

def hdAddPartition (total minor start nr : ℕ) (t : Table) : Table :=
  if minor = 0 ∨ maxPartitions < minor then t
  else if (t (minor - 1)).isSome then t
  else if total ≤ start ∨ total - start < nr then t
  else Function.update t (minor - 1) (some ⟨start, nr⟩)

/-- The signature of a boot record. -/
def Signed (sector : Buffer) : Prop := sector 510 = 0x55 ∧ sector 511 = 0xaa

instance (sector : Buffer) : Decidable (Signed sector) := inferInstanceAs (Decidable (_ ∧ _))

/-- An entry of a boot record: its type, its first sector and its length. -/
def entryType (sector : Buffer) (i : ℕ) : Byte := sector (446 + i * 16 + 4)

def entryStart (sector : Buffer) (i : ℕ) : ℕ := readLe32 sector (446 + i * 16 + 8)

def entryNr (sector : Buffer) (i : ℕ) : ℕ := readLe32 sector (446 + i * 16 + 12)

/-- The first entry of the boot record in a sector is taken for a logical partition. -/
def Logical (d : Disk) (ebr : ℕ) (sector : Buffer) : Prop :=
  entryType sector 0 ≠ 0 ∧ entryStart sector 0 ≠ 0 ∧ entryNr sector 0 ≠ 0 ∧
    ebr + entryStart sector 0 < d.totalSectors ∧ entryNr sector 0 ≤ d.totalSectors - (ebr + entryStart sector 0)

instance (d : Disk) (ebr : ℕ) (sector : Buffer) : Decidable (Logical d ebr sector) :=
  inferInstanceAs (Decidable (_ ∧ _))

/-- The rounds of `hd_parse_ebr` that are left. -/
def hdParseEbr (d : Disk) (base : ℕ) : ℕ → ℕ → ℕ → Table → Table
  | 0, _, _, t => t
  | n + 1, ebr, logicalMinor, t =>
      if maxPartitions < logicalMinor ∨ d.totalSectors ≤ ebr then t
      else
        match d.readSectors ebr 1 with
        | none => t
        | some sector =>
            if Signed sector then
              let next := if Logical d ebr sector then
                (logicalMinor + 1, hdAddPartition d.totalSectors logicalMinor (ebr + entryStart sector 0)
                  (entryNr sector 0) t) else (logicalMinor, t)
              if entryType sector 1 = 0 ∨ entryStart sector 1 = 0 then next.2
              else if d.totalSectors ≤ base + entryStart sector 1 then next.2
              else hdParseEbr d base n (base + entryStart sector 1) next.1 next.2
            else t

/-- The type of an extended partition. -/
def Extended (type : Byte) : Prop := type = 0x05 ∨ type = 0x0f ∨ type = 0x85

instance (type : Byte) : Decidable (Extended type) := inferInstanceAs (Decidable (_ ∨ _))

/-- An entry of the first sector that is not passed over. -/
def Primary (d : Disk) (sector : Buffer) (i : ℕ) : Prop :=
  entryType sector i ≠ 0 ∧ entryStart sector i ≠ 0 ∧ entryNr sector i ≠ 0 ∧
    entryStart sector i + entryNr sector i ≤ d.totalSectors ∧ entryType sector i ≠ 0xee

instance (d : Disk) (sector : Buffer) (i : ℕ) : Decidable (Primary d sector i) :=
  inferInstanceAs (Decidable (_ ∧ _))

/-- A pass of the loop of `hd_parse_mbr`, with the table and `extended_base`. -/
def mbrEntry (d : Disk) (sector : Buffer) (st : Table × ℕ) (i : ℕ) : Table × ℕ :=
  if Primary d sector i then
    if Extended (entryType sector i) then (st.1, if st.2 = 0 then entryStart sector i else st.2)
    else (hdAddPartition d.totalSectors (i + 1) (entryStart sector i) (entryNr sector i) st.1, st.2)
  else st

def hdParseMbr (d : Disk) (t : Table) : Table :=
  match d.readSectors 0 1 with
  | none => t
  | some sector =>
      if Signed sector then
        let st := (List.range 4).foldl (mbrEntry d sector) (t, 0)
        if st.2 = 0 then st.1 else hdParseEbr d st.2 maxPartitions st.2 5 st.1
      else t

/-- A pass of the loop of `hd_parse_gpt`. -/
def gptEntry (d : Disk) (parts : List Partition) (t : Table) (i : ℕ) : Table :=
  let part := parts.getD i {}
  if part.present then hdAddPartition d.totalSectors (i + 1) part.firstLba (part.lastLba - part.firstLba + 1) t else t

/-- The partitions after `hd_parse_gpt` and, if it fails, `hd_parse_mbr`. -/
def Disk.partitions (d : Disk) : Table :=
  match gptParse d.readSectors d.kmalloc d.totalSectors maxPartitions with
  | .ok r => (List.range maxPartitions).foldl (gptEntry d r.1) fun _ => none
  | .error _ => hdParseMbr d fun _ => none

/-! ## Commands -/

/-- `AHCI_MAX_SECTORS_PER_COMMAND`. -/
def maxSectorsPerCommand : ℕ := 2 ^ 22 / sectorSize

/-- A command: its port, its FIS, and where its data is in the buffer of the request. -/
structure Command where
  port : ℕ
  cfis : List ℕ
  buf : Option ℕ

inductive Refusal
  | enodev
  | enoent
  | einval

/-- The sectors of a part of a disk, which is the whole disk for 0. -/
def Disk.part (d : Disk) (part : ℕ) : Option HdPartition :=
  if part = 0 then some ⟨0, d.totalSectors⟩ else if maxPartitions < part then none else d.partitions (part - 1)

/-- `hd_get_disk`, with the port of the disk and the number of the part. -/
def hdGetDisk (disks : List Disk) (minor : ℕ) : Option (Disk × ℕ × ℕ) :=
  if 6 ≤ minor / (maxPartitions + 1) then none
  else disks[minor / (maxPartitions + 1)]?.map fun d => (d, minor / (maxPartitions + 1), minor % (maxPartitions + 1))

/-- The commands of a request, and how it ends. -/
structure Outcome where
  commands : List Command
  result : Except Refusal Unit

/-- The disk has a table with GUIDs, with a header that is accepted and an array that has its CRC. -/
structure Disk.Gpt (d : Disk) (hdr : HeaderInfo) (entries : Buffer) : Prop where
  header : headerFound d.readSectors d.totalSectors = some hdr
  memory : d.kmalloc hdr.entriesBytes = true
  array : d.readSectors hdr.entriesLba hdr.entriesSectors = some entries
  crc : (crc32 0 (bytes entries hdr.entriesBytes)).toNat = hdr.entriesCrc

/-- There is no such table, and the boot record in the first sector counts. -/
structure Disk.Mbr (d : Disk) (sector : Buffer) : Prop where
  noGpt : ∀ hdr entries, ¬ d.Gpt hdr entries
  read : d.readSectors 0 1 = some sector
  signed : Signed sector

/-- An entry of the boot record is the first one of an extended partition. -/
structure FirstExtended (d : Disk) (sector : Buffer) (i : ℕ) : Prop where
  lt : i < 4
  primary : Primary d sector i
  extended : Extended (entryType sector i)
  first : ∀ j < i, Primary d sector j → ¬ Extended (entryType sector j)

/-- The chain of the extended boot records has one in a sector, behind so many links and so many logical partitions. -/
inductive EbrAt (d : Disk) (base : ℕ) : ℕ → ℕ → ℕ → Prop
  | first : EbrAt d base 0 0 base
  | next {links logicals ebr : ℕ} {sector : Buffer} : EbrAt d base links logicals ebr →
      d.readSectors ebr 1 = some sector → Signed sector → entryType sector 1 ≠ 0 → entryStart sector 1 ≠ 0 →
      base + entryStart sector 1 < d.totalSectors →
      EbrAt d base (links + 1) (if Logical d ebr sector then logicals + 1 else logicals) (base + entryStart sector 1)

/-- The sectors of a part, as they stand on the disk: the whole of it is part 0, an entry `i` of a table with GUIDs or of
the boot record is part `i + 1`, and the logical partitions are the parts from 5 on in the order of the chain. There are
16 parts at most, and 16 boot records in the chain. -/
inductive Described (d : Disk) : ℕ → HdPartition → Prop
  | disk : Described d 0 ⟨0, d.totalSectors⟩
  | gpt {hdr : HeaderInfo} {entries : Buffer} {i : ℕ} : d.Gpt hdr entries → i < maxPartitions → i < hdr.numEntries →
      ValidEntry hdr d.totalSectors entries i →
      Described d (i + 1) ⟨(entryPart hdr entries i).firstLba,
        (entryPart hdr entries i).lastLba - (entryPart hdr entries i).firstLba + 1⟩
  | primary {sector : Buffer} {i : ℕ} : d.Mbr sector → i < 4 → Primary d sector i → ¬ Extended (entryType sector i) →
      Described d (i + 1) ⟨entryStart sector i, entryNr sector i⟩
  | logical {sector sector' : Buffer} {i links logicals ebr : ℕ} : d.Mbr sector → FirstExtended d sector i →
      EbrAt d (entryStart sector i) links logicals ebr → links < maxPartitions → 5 + logicals ≤ maxPartitions →
      d.readSectors ebr 1 = some sector' → Signed sector' → Logical d ebr sector' →
      Described d (5 + logicals) ⟨ebr + entryStart sector' 0, entryNr sector' 0⟩

/-- The sector that the FIS of a command addresses. -/
def Command.lba (c : Command) : ℕ :=
  let byte := fun i => c.cfis.getD i 0
  byte 4 + byte 5 * 2 ^ 8 + byte 6 * 2 ^ 16 + byte 8 * 2 ^ 24 + byte 9 * 2 ^ 32 + byte 10 * 2 ^ 40

def Command.count (c : Command) : ℕ := c.cfis.getD 12 0 + c.cfis.getD 13 0 * 2 ^ 8

/-- The sectors of a command, each with its place in the buffer. -/
def Command.sectors (c : Command) : List (ℕ × ℕ) :=
  (List.range c.count).map fun i => (c.lba + i, c.buf.getD 0 + i * sectorSize)

/-- A request is for sectors of a part. -/
structure InRange (disks : List Disk) (dev sector nr : ℕ) (port : ℕ) (p : HdPartition) : Prop where
  part : ∃ d part, hdGetDisk disks (dev % 2 ^ 8) = some (d, port, part) ∧ d.part part = some p
  first : sector < p.nrSectors
  last : nr ≤ p.nrSectors - sector

/-- A transfer stays in a part. -/
structure Command.Inside (c : Command) (port command : ℕ) (p : HdPartition) : Prop where
  port : c.port = port
  command : c.cfis.getD 2 0 = command
  count : 0 < c.count ∧ c.count ≤ maxSectorsPerCommand
  first : p.startSector ≤ c.lba
  last : c.lba + c.count ≤ p.startSector + p.nrSectors

/-- A request transfers its sectors, each once and in order, or it is refused. -/
structure Exact (disks : List Disk) (command dev sector nr : ℕ) (o : Outcome) : Prop where
  served : ∀ port p, InRange disks dev sector nr port p → o.result = .ok () ∧
    (o.commands.filter fun c => c.buf.isSome).flatMap Command.sectors =
      (List.range nr).map (fun i => (p.startSector + sector + i, i * sectorSize)) ∧
    ∀ c ∈ o.commands, c.buf.isSome = true → c.Inside port command p
  refused : (∀ port p, ¬ InRange disks dev sector nr port p) → o.commands = [] ∧ o.result ≠ .ok ()

variable {d : Disk} {t : Table} {p : HdPartition} {sector : Buffer}
  {minor start nr base ebr n i links logicals lba buf : ℕ} {hdr : HeaderInfo} {entries : Buffer}

/-! ## Adding a partition -/

theorem hdAddPartition_ne {j : ℕ} (h : j + 1 ≠ minor) : hdAddPartition d.totalSectors minor start nr t j = t j := by
  unfold hdAddPartition
  split_ifs
  · rfl
  · rfl
  · rfl
  · exact Function.update_of_ne (by omega) _ _

theorem readLe32_lt (sector : Buffer) (o : ℕ) : readLe32 sector o < 2 ^ 32 := BitVec.isLt _

theorem EbrAt.lt (h : EbrAt d base links logicals ebr) (hbase : base < 2 ^ 32) : ebr < 2 ^ 33 := by
  cases h with
  | first => omega
  | @next _ _ _ sector _ _ _ _ _ _ =>
    have hstart : entryStart sector 1 < 2 ^ 32 := readLe32_lt _ _
    omega

theorem EbrAt.inside (h : EbrAt d base links logicals ebr) (hbase : base < d.totalSectors) : ebr < d.totalSectors := by
  cases h with
  | first => exact hbase
  | next _ _ _ _ _ hlt => exact hlt

/-- The table and the number of the next logical partition after a boot record of the chain. -/
def ebrEntry (d : Disk) (ebr : ℕ) (sector : Buffer) (st : ℕ × Table) : ℕ × Table :=
  if Logical d ebr sector then
    (st.1 + 1, hdAddPartition d.totalSectors st.1 (ebr + entryStart sector 0) (entryNr sector 0) st.2)
  else st

/-- A round of `hd_parse_ebr` that reads a boot record. -/
theorem hdParseEbr_succ (hminor : minor ≤ maxPartitions) (hebr : ebr < d.totalSectors)
    (hread : d.readSectors ebr 1 = some sector) (hsigned : Signed sector) : hdParseEbr d base (n + 1) ebr minor t =
      if entryType sector 1 = 0 ∨ entryStart sector 1 = 0 ∨ d.totalSectors ≤ base + entryStart sector 1 then
        (ebrEntry d ebr sector (minor, t)).2
      else hdParseEbr d base n (base + entryStart sector 1) (ebrEntry d ebr sector (minor, t)).1
        (ebrEntry d ebr sector (minor, t)).2 := by
  rw [hdParseEbr, if_neg (by omega), hread]
  dsimp only
  rw [if_pos hsigned]
  change (if _ then (ebrEntry d ebr sector (minor, t)).2 else if _ then (ebrEntry d ebr sector (minor, t)).2 else
    hdParseEbr d base n _ (ebrEntry d ebr sector (minor, t)).1 (ebrEntry d ebr sector (minor, t)).2) = _
  by_cases hlast : entryType sector 1 = 0 ∨ entryStart sector 1 = 0
  · rw [if_pos hlast, if_pos (hlast.imp_right Or.inl)]
  · by_cases hbehind : d.totalSectors ≤ base + entryStart sector 1
    · rw [if_neg hlast, if_pos hbehind, if_pos (Or.inr (Or.inr hbehind))]
    · rw [if_neg hlast, if_neg hbehind, if_neg fun h => (or_assoc.mpr h).elim hlast hbehind]

/-- The parser comes to every boot record of the chain that is not too far, with its number for the next logical
partition, which is not taken. -/
theorem EbrAt.reached (h : EbrAt d base links logicals ebr) (hbase : base < d.totalSectors)
    (hlinks : links ≤ maxPartitions) (hlogicals : 5 + logicals ≤ maxPartitions) (hfree : ∀ j, 4 ≤ j → t j = none) :
    ∃ t', (∀ j, 4 + logicals ≤ j → t' j = none) ∧
      hdParseEbr d base maxPartitions base 5 t = hdParseEbr d base (maxPartitions - links) ebr (5 + logicals) t' := by
  induction h with
  | first => exact ⟨t, hfree, rfl⟩
  | @next links logicals ebr sector hebr hread hsigned htype hstart hlt ih =>
    have hbefore : 5 + logicals ≤ maxPartitions := by split_ifs at hlogicals <;> omega
    obtain ⟨t', hnone, heq⟩ := ih (by omega) hbefore
    obtain ⟨n, hn⟩ : ∃ n, maxPartitions - links = n + 1 := ⟨maxPartitions - links - 1, by omega⟩
    refine ⟨(ebrEntry d ebr sector (5 + logicals, t')).2, fun j hj => ?_, ?_⟩
    · unfold ebrEntry
      split_ifs at hj ⊢
      · exact (hdAddPartition_ne (by omega)).trans (hnone j (by omega))
      · exact hnone j hj
    · rw [heq, hn, hdParseEbr_succ hbefore (hebr.inside hbase) hread hsigned,
        if_neg fun h => h.elim htype fun h => h.elim hstart (Nat.not_le_of_lt hlt),
        show maxPartitions - (links + 1) = n by omega]
      unfold ebrEntry
      split_ifs <;> rfl

/-! ## The parts of a disk -/

/-- A part is described by the disk, ends on it, and begins at a sector that a FIS can address. -/
structure Sound (d : Disk) (part : ℕ) (p : HdPartition) : Prop where
  described : Described d part p
  inside : p.startSector + p.nrSectors ≤ d.totalSectors
  small : p.startSector < 2 ^ 34

/-- All partitions of a table are sound. -/
def Table.Sound (d : Disk) (t : Table) : Prop := ∀ i p, t i = some p → Ahci.Sound d (i + 1) p

theorem Table.Sound.add (h : t.Sound d) (hnew : Described d minor ⟨start, nr⟩) (hsmall : start < 2 ^ 34) :
    (hdAddPartition d.totalSectors minor start nr t).Sound d := by
  unfold hdAddPartition
  split_ifs with hminor hpresent hrange
  · exact h
  · exact h
  · exact h
  · intro i p hp
    rw [Function.update_apply] at hp
    split_ifs at hp with hi
    · cases hp
      have hpart : i + 1 = minor := by omega
      exact ⟨hpart ▸ hnew, by dsimp only; omega, hsmall⟩
    · exact h i p hp

end Mario.Fs.Ahci
