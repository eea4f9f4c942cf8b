import Mario.Fs.Block.Gpt

/-!
# The backup partition table

A backup header lies behind the header that it names as its alternate, and the parser accepts only headers that
lie before it. So the backup is read and never used.
-/

namespace Mario.Fs.Gpt

variable {disk disk' sector entries entries' : Buffer} {kmalloc : ℕ → Bool} {lba n maxParts : ℕ}
  {hdr hdr' : HeaderInfo}

/-! ## The header check -/

theorem of_check {α : Type} {c : Prop} [Decidable c] {e : Failure} {x : Except Failure α} {r : α}
    (h : (if c then .error e else x) = .ok r) : ¬ c ∧ x = .ok r := by
  by_cases hc : c
  · rw [if_pos hc] at h
    cases h
  · rw [if_neg hc] at h
    exact ⟨hc, h⟩

theorem gptParseHeader_ok (h : gptParseHeader sector lba n = .ok hdr) :
    hdr = headerInfo sector ∧ hdr.currentLba = lba ∧ hdr.currentLba < hdr.backupLba ∧
      hdr.entriesLba + hdr.entriesSectors ≤ n := by
  unfold gptParseHeader at h
  dsimp only at h
  obtain ⟨-, h⟩ := of_check h
  obtain ⟨-, h⟩ := of_check h
  obtain ⟨hcurrent, h⟩ := of_check h
  obtain ⟨hbackup, h⟩ := of_check h
  obtain ⟨-, h⟩ := of_check h
  obtain ⟨-, h⟩ := of_check h
  obtain ⟨-, h⟩ := of_check h
  obtain ⟨-, h⟩ := of_check h
  obtain ⟨hentries, h⟩ := of_check h
  obtain ⟨-, h⟩ := of_check h
  cases h
  have hcurrent := not_not.mp hcurrent
  refine ⟨rfl, hcurrent, ?_, ?_⟩
  · omega
  · omega

theorem gptParseHeader_behind (h : (headerInfo sector).backupLba ≤ lba) : gptParseHeader sector lba n ≠ .ok hdr := by
  intro hok
  obtain ⟨rfl, hcurrent, hlt, -⟩ := gptParseHeader_ok hok
  omega

theorem gptParseHeader_of_valid {alternate : ℕ} (h : ValidAt disk lba alternate) (hlt : lba < alternate)
    (halternate : alternate < n) (hlimits : WithinLimits (headerInfo (sectorAt disk lba)) n)
    (hinside : (headerInfo (sectorAt disk lba)).entriesLba < n ∧
      (headerInfo (sectorAt disk lba)).entriesLba + (headerInfo (sectorAt disk lba)).entriesSectors ≤ n) :
    gptParseHeader (sectorAt disk lba) lba n = .ok (headerInfo (sectorAt disk lba)) := by
  obtain ⟨hfirst, hlast, hend⟩ := hlimits.usable
  obtain ⟨hnum, hnumMax⟩ := hlimits.entries
  obtain ⟨hsize, hsizeMax⟩ := hlimits.entrySize
  obtain ⟨hheader, hheaderMax⟩ := h.size
  have hcurrent := h.myLba
  have hbackup := h.alternateLba
  unfold gptParseHeader
  dsimp only
  rw [if_neg (not_not.mpr h.signature), if_neg (by omega), if_neg (not_not.mpr hcurrent), if_neg (by omega),
    if_neg (by omega), if_neg (by omega), if_neg (by omega), if_neg (by omega), if_neg (by omega),
    if_neg (not_not.mpr h.headerCrc)]

/-! ## The partitions -/

/-- Only the entries and the fields that both headers share matter. -/
theorem partitions_congr (hfirst : hdr.firstUsableLba = hdr'.firstUsableLba)
    (hlast : hdr.lastUsableLba = hdr'.lastUsableLba) (hnum : hdr.numEntries = hdr'.numEntries)
    (hsize : hdr.entrySize = hdr'.entrySize) (hlarge : 128 ≤ hdr'.entrySize)
    (h : ∀ i < hdr'.entriesBytes, entries i = entries' i) :
    partitions hdr n maxParts entries = partitions hdr' n maxParts entries' := by
  have hentry : ∀ st, ∀ i ∈ List.range hdr'.numEntries,
      parseEntry hdr n maxParts entries st i = parseEntry hdr' n maxParts entries' st i := by
    intro st i hi
    have hbyte : ∀ o < 128, entries (i * hdr'.entrySize + o) = entries' (i * hdr'.entrySize + o) := by
      intro o ho
      apply h
      have hrow : (i + 1) * hdr'.entrySize ≤ hdr'.numEntries * hdr'.entrySize :=
        Nat.mul_le_mul_right _ (List.mem_range.mp hi)
      rw [Nat.succ_mul] at hrow
      unfold HeaderInfo.entriesBytes
      omega
    have hword : ∀ o, o + 8 ≤ 128 → readLe64 (fun o => entries (i * hdr'.entrySize + o)) o =
        readLe64 (fun o => entries' (i * hdr'.entrySize + o)) o := by
      intro o ho
      unfold readLe64 readLe32
      dsimp only
      rw [hbyte o (by omega), hbyte (o + 1) (by omega), hbyte (o + 2) (by omega), hbyte (o + 3) (by omega),
        hbyte (o + 4) (by omega), hbyte (o + 4 + 1) (by omega), hbyte (o + 4 + 2) (by omega),
        hbyte (o + 4 + 3) (by omega)]
    have htype : bytes (fun o => entries (i * hdr'.entrySize + o)) 16 =
        bytes (fun o => entries' (i * hdr'.entrySize + o)) 16 :=
      List.map_congr_left fun o ho => hbyte o (by have := List.mem_range.mp ho; omega)
    have hunique : bytes (fun o => entries (i * hdr'.entrySize + (16 + o))) 16 =
        bytes (fun o => entries' (i * hdr'.entrySize + (16 + o))) 16 :=
      List.map_congr_left fun o ho => hbyte (16 + o) (by have := List.mem_range.mp ho; omega)
    unfold parseEntry
    dsimp only
    rw [hsize, hfirst, hlast, hword 32 (by omega), hword 40 (by omega), hword 48 (by omega), htype, hunique]
  unfold partitions
  rw [hnum]
  exact List.foldl_ext _ _ _ hentry

/-! ## The whole parser -/

theorem sectorAt_zero (disk : Buffer) : sectorAt disk 0 = disk := by
  funext i
  unfold sectorAt
  rw [Nat.zero_mul, Nat.zero_add]

theorem gptLoadHeader_readDisk (h : lba < n) :
    gptLoadHeader (readDisk disk n) lba n = gptParseHeader (sectorAt disk lba) lba n := by
  unfold gptLoadHeader readDisk
  rw [if_pos (by omega)]

/-- Whole sectors hold more than the entries unless the entries fill them. -/
theorem overrun_iff : hdr.entriesBytes < hdr.entriesSectors * sectorSize ↔ hdr.entriesBytes % sectorSize ≠ 0 := by
  unfold HeaderInfo.entriesSectors sectorSize
  omega

/-- When the entries were read, they fill whole sectors, the CRC is theirs, and the result is the partitions that
they describe. -/
theorem gptReadEntries_ok {readSectors : ℕ → ℕ → Option Buffer} {r : List Partition × ℕ}
    (h : gptReadEntries readSectors kmalloc hdr n maxParts = .ok r) :
    kmalloc hdr.entriesBytes = true ∧ hdr.entriesBytes % sectorSize = 0 ∧
      ∃ entries, readSectors hdr.entriesLba hdr.entriesSectors = some entries ∧
        (crc32 0 (bytes entries hdr.entriesBytes)).toNat = hdr.entriesCrc ∧
        r = partitions hdr n maxParts entries := by
  unfold gptReadEntries at h
  by_cases hmemory : kmalloc hdr.entriesBytes = true
  · rw [if_pos hmemory] at h
    cases hread : readSectors hdr.entriesLba hdr.entriesSectors with
    | none =>
      rw [hread] at h
      cases h
    | some entries =>
      rw [hread] at h
      obtain ⟨hwhole, h⟩ := of_check h
      obtain ⟨hcrc, h⟩ := of_check h
      rw [overrun_iff, not_not] at hwhole
      exact ⟨hmemory, hwhole, entries, rfl, not_not.mp hcrc, (Except.ok.inj h).symm⟩
  · rw [if_neg hmemory] at h
    cases h

theorem gptReadEntries_readDisk (h : hdr.entriesLba + hdr.entriesSectors ≤ n) :
    gptReadEntries (readDisk disk n) kmalloc hdr n maxParts =
      if kmalloc hdr.entriesBytes then
        if hdr.entriesBytes % sectorSize ≠ 0 then .error .overrun
        else if (crc32 0 (bytes (arrayOf disk hdr) hdr.entriesBytes)).toNat ≠ hdr.entriesCrc then .error .enoent
        else .ok (partitions hdr n maxParts (arrayOf disk hdr))
      else .error .enomem := by
  unfold gptReadEntries readDisk
  rw [if_pos h]
  simp only [overrun_iff]
  rfl

theorem gptParse_of_primary (hn : 2 ≤ n) (hmbr : Protected disk)
    (hheader : gptParseHeader (sectorAt disk 1) 1 n = .ok hdr) :
    gptParse (readDisk disk n) kmalloc n maxParts = gptReadEntries (readDisk disk n) kmalloc hdr n maxParts := by
  obtain ⟨h510, h511, hpmbr⟩ := hmbr
  have hread : readDisk disk n 0 1 = some disk := by
    rw [readDisk, if_pos (by omega), sectorAt_zero]
  unfold gptParse
  rw [if_neg (by omega), hread]
  dsimp only
  rw [h510, h511, hpmbr, if_neg (by decide), if_neg (by decide), gptLoadHeader_readDisk (by omega), hheader]

/-- The parser on a disk whose backup header is valid: nothing succeeds but what the primary header gives. -/
theorem gptParse_ok {r : List Partition × ℕ} (hn : 2 ≤ n) (hbackup : ValidAt disk (n - 1) 1)
    (h : gptParse (readDisk disk n) kmalloc n maxParts = .ok r) :
    Protected disk ∧ gptParseHeader (sectorAt disk 1) 1 n = .ok (primaryInfo disk) ∧
      gptReadEntries (readDisk disk n) kmalloc (primaryInfo disk) n maxParts = .ok r := by
  have hread : readDisk disk n 0 1 = some disk := by
    rw [readDisk, if_pos (by omega), sectorAt_zero]
  unfold gptParse at h
  rw [if_neg (by omega), hread] at h
  dsimp only at h
  obtain ⟨hmagic, h⟩ := of_check h
  obtain ⟨hmbr, h⟩ := of_check h
  have hprotected : Protected disk := by
    obtain ⟨h510, h511⟩ := not_or.mp hmagic
    exact ⟨not_not.mp h510, not_not.mp h511, by simpa using hmbr⟩
  rw [gptLoadHeader_readDisk (by omega), gptLoadHeader_readDisk (by omega)] at h
  cases hprimary : gptParseHeader (sectorAt disk 1) 1 n with
  | ok hdr =>
    obtain ⟨rfl, -⟩ := gptParseHeader_ok hprimary
    rw [hprimary] at h
    exact ⟨hprotected, rfl, h⟩
  | error e =>
    rw [hprimary] at h
    dsimp only at h
    cases hlast : gptParseHeader (sectorAt disk (n - 1)) (n - 1) n with
    | ok hdr =>
      have hbehind : (headerInfo (sectorAt disk (n - 1))).backupLba ≤ n - 1 := by
        rw [hbackup.alternateLba]
        omega
      exact absurd hlast (gptParseHeader_behind hbehind)
    | error e =>
      rw [hlast] at h
      cases h

/-- The first sector protects the table, and the primary header and its array are valid and describe the same
partitions as the backup. -/
structure PrimaryDescribes (kmalloc : ℕ → Bool) (disk : Buffer) (n maxParts : ℕ) : Prop where
  first : Protected disk
  header : gptParseHeader (sectorAt disk 1) 1 n = .ok (primaryInfo disk)
  memory : kmalloc (primaryInfo disk).entriesBytes = true
  whole : (primaryInfo disk).entriesBytes % sectorSize = 0
  array : (crc32 0 (bytes (arrayOf disk (primaryInfo disk)) (primaryInfo disk).entriesBytes)).toNat =
    (primaryInfo disk).entriesCrc
  same : partitions (primaryInfo disk) n maxParts (arrayOf disk (primaryInfo disk)) =
    partitions (backupInfo disk n) n maxParts (arrayOf disk (backupInfo disk n))

/-- With a valid backup whose entries fill whole sectors, the partitions of the backup are those of every disk
that has a valid primary header matching it. The disk itself gives them if and only if it does not need the
backup. -/
theorem gpt_backup_redundant_iff (kmalloc : ℕ → Bool) (disk : Buffer) (n maxParts : ℕ) (hn : 2 ≤ n)
    (hbackup : ValidAt disk (n - 1) 1) :
    (∀ disk', MatchingPrimary disk disk' n → Protected disk → WithinLimits (backupInfo disk n) n → 2 < n →
      kmalloc (backupInfo disk n).entriesBytes = true → (backupInfo disk n).entriesBytes % sectorSize = 0 →
      gptParse (readDisk disk' n) kmalloc n maxParts =
        .ok (partitions (backupInfo disk n) n maxParts (arrayOf disk (backupInfo disk n)))) ∧
    (gptParse (readDisk disk n) kmalloc n maxParts =
        .ok (partitions (backupInfo disk n) n maxParts (arrayOf disk (backupInfo disk n))) ↔
      PrimaryDescribes kmalloc disk n maxParts) := by
  constructor
  · intro disk' hmatch hfirst hlimits hthree hmemory hwhole
    have hbytes : (primaryInfo disk').entriesBytes = (backupInfo disk n).entriesBytes := by
      rw [HeaderInfo.entriesBytes, hmatch.numEntries, hmatch.entrySize, HeaderInfo.entriesBytes]
    have hlimits' : WithinLimits (primaryInfo disk') n := by
      obtain ⟨husable, hentries, hsize⟩ := hlimits
      rw [← hmatch.firstUsableLba, ← hmatch.lastUsableLba] at husable
      rw [← hmatch.numEntries] at hentries
      rw [← hmatch.entrySize] at hsize
      exact ⟨husable, hentries, hsize⟩
    have hfirst' : Protected disk' := by
      obtain ⟨h510, h511, hpmbr⟩ := hfirst
      refine ⟨(hmatch.first 510 (by decide)).trans h510, (hmatch.first 511 (by decide)).trans h511, ?_⟩
      rw [← hpmbr]
      have hrange : List.range 4 = [0, 1, 2, 3] := rfl
      unfold gptHasProtectiveMbr
      simp only [hrange, List.any_cons, List.any_nil]
      rw [hmatch.first (446 + 0 * 16 + 4) (by decide), hmatch.first (446 + 1 * 16 + 4) (by decide),
        hmatch.first (446 + 2 * 16 + 4) (by decide), hmatch.first (446 + 3 * 16 + 4) (by decide)]
    have hheader : gptParseHeader (sectorAt disk' 1) 1 n = .ok (primaryInfo disk') :=
      gptParseHeader_of_valid hmatch.valid (by omega) (by omega) hlimits' hmatch.inside
    rw [gptParse_of_primary hn hfirst' hheader, gptReadEntries_readDisk hmatch.inside.2]
    have harray : (crc32 0 (bytes (arrayOf disk' (primaryInfo disk')) (primaryInfo disk').entriesBytes)).toNat =
        (primaryInfo disk').entriesCrc := hmatch.valid.entriesCrc
    rw [if_pos (by rw [hbytes]; exact hmemory), if_neg (by rw [hbytes]; exact not_not.mpr hwhole),
      if_neg (not_not.mpr harray)]
    rw [partitions_congr hmatch.firstUsableLba hmatch.lastUsableLba hmatch.numEntries hmatch.entrySize
      hlimits.entrySize.1 hmatch.array]
  · constructor
    · intro h
      obtain ⟨hfirst, hheader, hentries⟩ := gptParse_ok hn hbackup h
      rw [gptReadEntries_readDisk (gptParseHeader_ok hheader).2.2.2] at hentries
      split_ifs at hentries with hmemory hwhole hcrc
      exact ⟨hfirst, hheader, hmemory, not_not.mp hwhole, not_not.mp hcrc, Except.ok.inj hentries⟩
    · rintro ⟨hfirst, hheader, hmemory, hwhole, harray, hsame⟩
      rw [gptParse_of_primary hn hfirst hheader, gptReadEntries_readDisk (gptParseHeader_ok hheader).2.2.2,
        if_pos hmemory, if_neg (not_not.mpr hwhole), if_neg (not_not.mpr harray), hsame]

/-! ## A disk of eight sectors -/

/-- A small number as a 64-bit field. -/
def field64 (v : Byte) : List Byte := [v, 0, 0, 0, 0, 0, 0, 0]

/-- A header with entries of 128 bytes, for the usable sectors three to five. -/
def headerBytes (crc : List Byte) (myLba alternateLba entriesLba numEntries : Byte) (entriesCrc : List Byte) : List Byte :=
  signature ++ [0, 0, 1, 0, 92, 0, 0, 0] ++ crc ++ [0, 0, 0, 0] ++ field64 myLba ++ field64 alternateLba ++ field64 3 ++
    field64 5 ++ List.replicate 16 0 ++ field64 entriesLba ++ [numEntries, 0, 0, 0, 128, 0, 0, 0] ++ entriesCrc

/-- The partition from sector three to five; the entries behind it are not used. -/
def entryBytes : List Byte :=
  1 :: List.replicate 15 0 ++ 2 :: List.replicate 15 0 ++ field64 3 ++ field64 5 ++ List.replicate 80 0

def protectiveMbr : List Byte := List.replicate 450 0 ++ [0xee] ++ List.replicate 59 0 ++ [0x55, 0xaa]

/-- The sectors of a disk with given bytes in the first ones, and a backup at its end, with an array of four
entries. -/
def smallSectors (primary array : List Byte) : ℕ → List Byte
  | 0 => protectiveMbr
  | 1 => primary
  | 2 => array
  | 6 => entryBytes
  | 7 => headerBytes [187, 62, 169, 113] 7 1 6 4 [242, 61, 61, 197]
  | _ => []

def smallDisk (primary array : List Byte) : Buffer := fun x =>
  (smallSectors primary array (x / sectorSize)).getD (x % sectorSize) 0

def wholeDisk : Buffer := smallDisk (headerBytes [142, 174, 194, 105] 1 7 2 4 [242, 61, 61, 197]) entryBytes

theorem smallDisk_crc : (crc32 0 (bytes (fun i => entryBytes.getD i 0) 512)).toNat = 3309125106 := by
  decide +kernel

theorem sectorAt_smallDisk {primary array : List Byte} {i : ℕ} (lba : ℕ) (hi : i < sectorSize) :
    sectorAt (smallDisk primary array) lba i = (smallSectors primary array lba).getD i 0 := by
  have hdiv : (lba * sectorSize + i) / sectorSize = lba := by
    unfold sectorSize at *
    omega
  rw [sectorAt, smallDisk, hdiv, Nat.mul_add_mod_of_lt hi]

/-- The CRC of an array with the entries. -/
theorem smallDisk_array {primary array : List Byte} (lba : ℕ) (h : smallSectors primary array lba = entryBytes) :
    (crc32 0 (bytes (sectorAt (smallDisk primary array) lba) 512)).toNat = 3309125106 := by
  have hbytes : bytes (sectorAt (smallDisk primary array) lba) 512 = bytes (fun i => entryBytes.getD i 0) 512 := by
    refine List.map_congr_left fun i hi => ?_
    rw [sectorAt_smallDisk lba (List.mem_range.mp hi), h]
  rw [hbytes]
  exact smallDisk_crc

theorem wholeDisk_valid : ValidAt wholeDisk 7 1 := by
  refine ⟨?_, ?_, ?_, ?_, ?_, smallDisk_array 6 rfl⟩
  all_goals decide +kernel

theorem wholeDisk_describes : PrimaryDescribes (fun _ => true) wholeDisk 8 4 := by
  refine ⟨⟨?_, ?_, ?_⟩, ?_, ?_, ?_, smallDisk_array 2 rfl, ?_⟩
  all_goals decide +kernel

theorem gpt_backup_redundant_whole :
    gptParse (readDisk wholeDisk 8) (fun _ => true) 8 4 =
      .ok (partitions (backupInfo wholeDisk 8) 8 4 (arrayOf wholeDisk (backupInfo wholeDisk 8))) :=
  (gpt_backup_redundant_iff (fun _ => true) wholeDisk 8 4 (by decide) wholeDisk_valid).2.mpr wholeDisk_describes

/-- The primary header and its array were overwritten. -/
def damagedDisk : Buffer := smallDisk [] []

theorem damagedDisk_valid : ValidAt damagedDisk 7 1 := by
  refine ⟨?_, ?_, ?_, ?_, ?_, smallDisk_array 6 rfl⟩
  all_goals decide +kernel

theorem wholeDisk_primary : ValidAt wholeDisk 1 7 := by
  refine ⟨?_, ?_, ?_, ?_, ?_, smallDisk_array 2 rfl⟩
  all_goals decide +kernel

/-- The backup is valid, and the parser asks of it what only a primary header has. -/
theorem damagedDisk_refused :
    ValidAt damagedDisk 7 1 ∧ WithinLimits (backupInfo damagedDisk 8) 8 ∧
      (backupInfo damagedDisk 8).entriesBytes % sectorSize = 0 ∧ MatchingPrimary damagedDisk wholeDisk 8 ∧
      gptParse (readDisk damagedDisk 8) (fun _ => true) 8 4 = .error .enoent ∧
      ∃ r, gptParse (readDisk wholeDisk 8) (fun _ => true) 8 4 = .ok r := by
  refine ⟨damagedDisk_valid, ?_, by decide +kernel, ⟨?_, wholeDisk_primary, ?_, ?_, ?_, ?_, ?_, ?_⟩, by decide +kernel,
    _, gpt_backup_redundant_whole⟩
  · constructor
    all_goals decide +kernel
  · intro i hi
    have hdisk : ∀ primary array, smallDisk primary array i = protectiveMbr.getD i 0 := by
      intro primary array
      rw [smallDisk, Nat.div_eq_of_lt hi, Nat.mod_eq_of_lt hi]
      rfl
    rw [wholeDisk, damagedDisk, hdisk, hdisk]
  rotate_right
  · intro i hi
    have hlt : i < sectorSize := Nat.lt_of_lt_of_le hi (by decide +kernel)
    exact (sectorAt_smallDisk 2 hlt).trans (sectorAt_smallDisk 6 hlt).symm
  all_goals decide +kernel

end Mario.Fs.Gpt
