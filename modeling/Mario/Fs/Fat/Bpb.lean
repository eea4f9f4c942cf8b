import Mathlib.Algebra.Group.Nat.Defs
import Mathlib.Tactic.Common

/-!
# The boot sector of a FAT volume

`fat_parse_bpb` of `super.c` computes the layout of a volume from the fields of its boot sector, in words of 32 bits.
The sectors of `fat_read_fat_entry` and `fat_read_cluster` and the numbers of inodes follow from it.
-/

namespace Mario.Fs.Fat.Bpb

abbrev Word := BitVec 32

/-- The bytes of the boot sector. -/
abbrev Buffer := ℕ → BitVec 8

/-- `fat_read16`. -/
def read16 (p : Buffer) (o : ℕ) : BitVec 16 := p (o + 1) ++ p o

/-- `fat_read32`. -/
def read32 (p : Buffer) (o : ℕ) : Word := p (o + 3) ++ p (o + 2) ++ p (o + 1) ++ p o

/-- The fields of `struct fat_sb_info` that `fat_parse_bpb` sets. -/
structure SbInfo where
  bytesPerSector : BitVec 16
  sectorsPerCluster : BitVec 8
  numFats : BitVec 8
  reservedSectors : Word
  fatSize32 : Word
  totalSectors : Word
  rootCluster : Word
  fsinfoSector : Word
  firstDataSector : Word
  dataSectors : Word
  totalClusters : Word
  clusterSize : Word

/-- The sectors of the volume: the 16-bit field if it is used. -/
def statedSectors (buf : Buffer) : Word :=
  if read16 buf 19 ≠ 0 then (read16 buf 19).setWidth 32 else read32 buf 32

def fatParseBpb (buf : Buffer) : Option SbInfo :=
  let bytesPerSector := read16 buf 11
  let sectorsPerCluster := buf 13
  let reservedSectors := (read16 buf 14).setWidth 32
  let numFats := buf 16
  let fatSize32 := read32 buf 36
  let rootCluster := read32 buf 44
  let fsinfoSector := (read16 buf 48).setWidth 32
  if bytesPerSector ≠ 512 then none
  else if sectorsPerCluster = 0 ∨ 128 < sectorsPerCluster ∨ sectorsPerCluster &&& (sectorsPerCluster - 1) ≠ 0 then none
  else if reservedSectors = 0 ∨ fatSize32 = 0 then none
  else if numFats < 1 ∨ 2 < numFats then none
  else if rootCluster < 2 then none
  else
    let totalSectors := statedSectors buf
    if totalSectors = 0 then none
    else if fsinfoSector ≠ 0 ∧ totalSectors ≤ fsinfoSector then none
    else
      let firstDataSector := reservedSectors + numFats.setWidth 32 * fatSize32
      if totalSectors ≤ firstDataSector then none
      else
        let dataSectors := totalSectors - firstDataSector
        let totalClusters := dataSectors / sectorsPerCluster.setWidth 32
        if totalClusters < 2 then none
        else
          some {
            bytesPerSector := bytesPerSector
            sectorsPerCluster := sectorsPerCluster
            numFats := numFats
            reservedSectors := reservedSectors
            fatSize32 := fatSize32
            totalSectors := totalSectors
            rootCluster := rootCluster
            fsinfoSector := fsinfoSector
            firstDataSector := firstDataSector
            dataSectors := dataSectors
            totalClusters := totalClusters
            clusterSize := bytesPerSector.setWidth 32 * sectorsPerCluster.setWidth 32 }

/-- `cluster * 4`, the offset of an entry in the FAT. -/
def entryOffset (cluster : Word) : Word := cluster * 4

/-- The sector that `fat_read_fat_entry` reads. -/
def entrySector (s : SbInfo) (cluster : Word) : Word :=
  s.reservedSectors + entryOffset cluster / s.bytesPerSector.setWidth 32

/-- The sector that `fat_write_fat_entry` reads and writes in a copy of the FAT. -/
def copySector (s : SbInfo) (i : ℕ) (cluster : Word) : Word :=
  s.reservedSectors + BitVec.ofNat 32 i * s.fatSize32 + entryOffset cluster / s.bytesPerSector.setWidth 32

/-- The first sector that `fat_read_cluster` reads. -/
def clusterSector (s : SbInfo) (cluster : Word) : Word :=
  s.firstDataSector + (cluster - 2) * s.sectorsPerCluster.setWidth 32

/-- The clusters that the functions accept: from 2 to the computed maximum. -/
def SbInfo.Valid (s : SbInfo) (cluster : Word) : Prop :=
  2 ≤ cluster.toNat ∧ cluster.toNat - 2 < s.totalClusters.toNat

def fatRootIno : Word := 1

def fatEntryIno (s : SbInfo) (cluster offset : Word) : Word :=
  fatRootIno + 1 + (cluster - 2) * s.clusterSize + offset

def fatInoLocation (s : SbInfo) (ino : Word) : Option (Word × Word) :=
  if ino ≤ fatRootIno then none
  else
    let physical := ino - fatRootIno - 1
    if physical % 32 ≠ 0 then none
    else
      let cluster := physical / s.clusterSize + 2
      let offset := physical % s.clusterSize
      if s.totalClusters ≤ cluster - 2 ∨ s.clusterSize < offset + 32 then none
      else some (cluster, offset)

/-! ## What an accepted boot sector says -/

section Parse

variable {buf : Buffer} {s : SbInfo} {cluster offset : Word}

/-- The fields of an accepted boot sector, as numbers. -/
structure Accepted (buf : Buffer) (s : SbInfo) : Prop where
  bytesPerSector : s.bytesPerSector = 512
  sectorsPerCluster : s.sectorsPerCluster = buf 13 ∧ ∃ k ≤ 7, s.sectorsPerCluster.toNat = 2 ^ k
  reservedSectors : s.reservedSectors.toNat = (read16 buf 14).toNat ∧ s.reservedSectors.toNat < 2 ^ 16
  reserved_pos : 0 < s.reservedSectors.toNat
  numFats : s.numFats = buf 16 ∧ s.numFats.toNat ≤ 2
  one_le : 1 ≤ s.numFats.toNat
  fatSize32 : s.fatSize32 = read32 buf 36
  totalSectors : s.totalSectors = statedSectors buf
  firstDataSector : s.firstDataSector.toNat =
    (s.reservedSectors.toNat + s.numFats.toNat * s.fatSize32.toNat) % 2 ^ 32
  data : s.firstDataSector.toNat < s.totalSectors.toNat
  totalClusters : s.totalClusters.toNat =
    (s.totalSectors.toNat - s.firstDataSector.toNat) / s.sectorsPerCluster.toNat
  two_le : 2 ≤ s.totalClusters.toNat
  clusterSize : s.clusterSize.toNat = 512 * s.sectorsPerCluster.toNat

theorem exists_pow {x : BitVec 8} (h : ¬ (x = 0 ∨ 128 < x ∨ x &&& (x - 1) ≠ 0)) : ∃ k ≤ 7, x.toNat = 2 ^ k := by
  have hall : ∀ x : BitVec 8, ¬ (x = 0 ∨ 128 < x ∨ x &&& (x - 1) ≠ 0) → ∃ k < 8, x.toNat = 2 ^ k := by
    decide +kernel
  obtain ⟨k, hk, hx⟩ := hall x h
  exact ⟨k, by omega, hx⟩

theorem fatParseBpb_accepted (h : fatParseBpb buf = some s) : Accepted buf s := by
  unfold fatParseBpb at h
  simp only at h
  split_ifs at h with hbytes hspc hres hfats hroot htotal hinfo hfirst hclusters
  cases h
  obtain ⟨k, hk, hpow⟩ := exists_pow hspc
  have hle : 2 ^ k ≤ 2 ^ 7 := Nat.pow_le_pow_right (by decide) hk
  have hpos : 0 < 2 ^ k := Nat.pow_pos (by decide)
  have hwide : ((buf 13).setWidth 32).toNat = (buf 13).toNat := BitVec.toNat_setWidth_of_le (by decide)
  have hfatsWide : ((buf 16).setWidth 32).toNat = (buf 16).toNat := BitVec.toNat_setWidth_of_le (by decide)
  have hreserved : ((read16 buf 14).setWidth 32).toNat = (read16 buf 14).toNat := BitVec.toNat_setWidth_of_le (by decide)
  have hread := (read16 buf 14).isLt
  have hdataStart : ((read16 buf 14).setWidth 32 + (buf 16).setWidth 32 * read32 buf 36).toNat =
      (((read16 buf 14).setWidth 32).toNat + (buf 16).toNat * (read32 buf 36).toNat) % 2 ^ 32 := by
    rw [BitVec.toNat_add, BitVec.toNat_mul, Nat.add_mod_mod, hfatsWide]
  have hlt := BitVec.lt_def.mp (BitVec.not_le.mp hfirst)
  have hcount : 2 ≤ ((statedSectors buf - ((read16 buf 14).setWidth 32 + (buf 16).setWidth 32 * read32 buf 36)) /
      (buf 13).setWidth 32).toNat := BitVec.le_def.mp (BitVec.not_lt.mp hclusters)
  exact {
    bytesPerSector := not_not.mp hbytes
    sectorsPerCluster := ⟨rfl, k, hk, hpow⟩
    reservedSectors := ⟨hreserved, hreserved ▸ hread⟩
    reserved_pos := Nat.pos_of_ne_zero fun hzero => hres (Or.inl (BitVec.eq_of_toNat_eq hzero))
    numFats := ⟨rfl, BitVec.le_def.mp (BitVec.not_lt.mp (not_or.mp hfats).2)⟩
    one_le := BitVec.le_def.mp (BitVec.not_lt.mp (not_or.mp hfats).1)
    fatSize32 := rfl
    totalSectors := rfl
    firstDataSector := hdataStart
    data := hlt
    totalClusters := by
      show ((statedSectors buf - _) / _).toNat = _
      rw [BitVec.toNat_udiv, BitVec.toNat_sub_of_le (BitVec.le_def.mpr (Nat.le_of_lt hlt)), hwide]
    two_le := hcount
    clusterSize := by
      show ((read16 buf 11).setWidth 32 * (buf 13).setWidth 32).toNat = 512 * (buf 13).toNat
      rw [not_not.mp hbytes, BitVec.toNat_mul, hwide, hpow]
      show 512 * 2 ^ k % 2 ^ 32 = 512 * 2 ^ k
      omega }

theorem Accepted.sector_pos (h : Accepted buf s) : 0 < s.sectorsPerCluster.toNat := by
  obtain ⟨-, k, -, hpow⟩ := h.sectorsPerCluster
  rw [hpow]
  exact Nat.pow_pos (by decide)

theorem Accepted.cluster_le (h : Accepted buf s) {n : ℕ} (hn : n < s.totalClusters.toNat) :
    s.firstDataSector.toNat + n * s.sectorsPerCluster.toNat + s.sectorsPerCluster.toNat ≤ s.totalSectors.toNat := by
  have hdata := h.data
  have hmul : (n + 1) * s.sectorsPerCluster.toNat ≤ s.totalSectors.toNat - s.firstDataSector.toNat := by
    refine (Nat.le_div_iff_mul_le h.sector_pos).mp ?_
    rw [← h.totalClusters]
    exact hn
  rw [Nat.succ_mul] at hmul
  omega

/-! ## Sectors -/

/-- What `fat_read_fat_entry` and `fat_read_cluster` compute for a cluster is right: no computation overflows, the
sector of the entry is in one of the FATs, and the sectors of the cluster are in the volume. -/
structure Covered (s : SbInfo) (cluster : Word) : Prop where
  firstDataSector : s.firstDataSector.toNat = s.reservedSectors.toNat + s.numFats.toNat * s.fatSize32.toNat
  totalClusters : s.totalClusters.toNat =
    (s.totalSectors.toNat - s.firstDataSector.toNat) / s.sectorsPerCluster.toNat
  entryOffset : (entryOffset cluster).toNat = cluster.toNat * 4
  entrySector : (entrySector s cluster).toNat = s.reservedSectors.toNat + cluster.toNat * 4 / 512
  in_fat : s.reservedSectors.toNat ≤ (Bpb.entrySector s cluster).toNat ∧
    (Bpb.entrySector s cluster).toNat < s.reservedSectors.toNat + s.numFats.toNat * s.fatSize32.toNat
  clusterSector : (clusterSector s cluster).toNat =
    s.firstDataSector.toNat + (cluster.toNat - 2) * s.sectorsPerCluster.toNat
  in_data : s.firstDataSector.toNat ≤ (Bpb.clusterSector s cluster).toNat ∧
    (Bpb.clusterSector s cluster).toNat + s.sectorsPerCluster.toNat ≤ s.totalSectors.toNat

/-- The sectors before the data, the FATs and the clusters behind them, from the fields of the boot sector. -/
def bpbFatSectors (buf : Buffer) : ℕ := (buf 16).toNat * (read32 buf 36).toNat

def bpbDataStart (buf : Buffer) : ℕ := (read16 buf 14).toNat + bpbFatSectors buf

def bpbClusters (buf : Buffer) : ℕ := ((statedSectors buf).toNat - bpbDataStart buf) / (buf 13).toNat

/-- The data do not start behind 32 bits, the offset of the entry of the last cluster has 32 bits, and the FATs have a
sector for it. -/
def BpbFits (buf : Buffer) : Prop :=
  bpbDataStart buf < 2 ^ 32 ∧ bpbClusters buf + 1 < 2 ^ 30 ∧ (bpbClusters buf + 1) * 4 / 512 < bpbFatSectors buf

/-- The entry of a cluster is in every copy of the FAT. -/
def InCopies (s : SbInfo) (cluster : Word) : Prop :=
  ∀ i < s.numFats.toNat, s.reservedSectors.toNat + i * s.fatSize32.toNat ≤ (copySector s i cluster).toNat ∧
    (copySector s i cluster).toNat < s.reservedSectors.toNat + (i + 1) * s.fatSize32.toNat

/-- As `BpbFits`, and one FAT alone has the sector. -/
def BpbFitsCopies (buf : Buffer) : Prop :=
  bpbDataStart buf < 2 ^ 32 ∧ bpbClusters buf + 1 < 2 ^ 30 ∧ (bpbClusters buf + 1) * 4 / 512 < (read32 buf 36).toNat

instance (buf : Buffer) : Decidable (BpbFits buf) := inferInstanceAs (Decidable (_ ∧ _ ∧ _))

instance (buf : Buffer) : Decidable (BpbFitsCopies buf) := inferInstanceAs (Decidable (_ ∧ _ ∧ _))

theorem Accepted.entrySector_eq (h : Accepted buf s) (c : Word) :
    (entrySector s c).toNat = (s.reservedSectors.toNat + (entryOffset c).toNat / 512) % 2 ^ 32 := by
  rw [entrySector, BitVec.toNat_add, BitVec.toNat_udiv, h.bytesPerSector]
  rfl

theorem entryOffset_eq (c : Word) : (entryOffset c).toNat = c.toNat * 4 % 2 ^ 32 := by
  rw [entryOffset, BitVec.toNat_mul]
  rfl

theorem Accepted.covered (h : Accepted buf s)
    (hstart : s.firstDataSector.toNat = s.reservedSectors.toNat + s.numFats.toNat * s.fatSize32.toNat)
    (hoffset : cluster.toNat * 4 < 2 ^ 32)
    (hfat : cluster.toNat * 4 / 512 < s.numFats.toNat * s.fatSize32.toNat) (hvalid : s.Valid cluster) :
    Covered s cluster := by
  obtain ⟨htwo, hlt⟩ := hvalid
  have hword := s.totalSectors.isLt
  have hdata := h.data
  have hcluster := h.cluster_le hlt
  have hoff : (entryOffset cluster).toNat = cluster.toNat * 4 := by
    rw [entryOffset_eq, Nat.mod_eq_of_lt hoffset]
  have hentry : (entrySector s cluster).toNat = s.reservedSectors.toNat + cluster.toNat * 4 / 512 := by
    rw [h.entrySector_eq, hoff, Nat.mod_eq_of_lt (by omega)]
  have hsub : (cluster - 2).toNat = cluster.toNat - 2 := BitVec.toNat_sub_of_le (BitVec.le_def.mpr htwo)
  have hsector : (clusterSector s cluster).toNat =
      s.firstDataSector.toNat + (cluster.toNat - 2) * s.sectorsPerCluster.toNat := by
    have hwide : (s.sectorsPerCluster.setWidth 32).toNat = s.sectorsPerCluster.toNat :=
      BitVec.toNat_setWidth_of_le (by decide)
    rw [clusterSector, BitVec.toNat_add, BitVec.toNat_mul, hsub, hwide, Nat.add_mod_mod, Nat.mod_eq_of_lt (by omega)]
  exact {
    firstDataSector := hstart
    totalClusters := h.totalClusters
    entryOffset := hoff
    entrySector := hentry
    in_fat := by
      rw [hentry]
      omega
    clusterSector := hsector
    in_data := by
      rw [hsector]
      omega }

theorem Accepted.fatSectors_eq (h : Accepted buf s) : s.numFats.toNat * s.fatSize32.toNat = bpbFatSectors buf := by
  rw [h.numFats.1, h.fatSize32]
  rfl

theorem Accepted.dataStart_eq (h : Accepted buf s) :
    s.reservedSectors.toNat + s.numFats.toNat * s.fatSize32.toNat = bpbDataStart buf := by
  rw [h.fatSectors_eq, h.reservedSectors.1]
  rfl

theorem Accepted.clusters_eq (h : Accepted buf s) (hfirst : s.firstDataSector.toNat = bpbDataStart buf) :
    s.totalClusters.toNat = bpbClusters buf := by
  rw [h.totalClusters, hfirst, h.totalSectors, h.sectorsPerCluster.1]
  rfl

theorem Accepted.valid_last (h : Accepted buf s) (hfirst : s.firstDataSector.toNat = bpbDataStart buf) :
    (s.totalClusters + 1).toNat = bpbClusters buf + 1 ∧ s.Valid (s.totalClusters + 1) := by
  have hdiv := Nat.div_le_self (s.totalSectors.toNat - s.firstDataSector.toNat) s.sectorsPerCluster.toNat
  have hsectors := s.totalSectors.isLt
  have hpos := h.reserved_pos
  have hstart := h.dataStart_eq
  have htwo := h.two_le
  rw [← h.totalClusters] at hdiv
  have hnat : (s.totalClusters + 1).toNat = s.totalClusters.toNat + 1 := by
    rw [BitVec.toNat_add]
    have hone : (1 : Word).toNat = 1 := rfl
    exact Nat.mod_eq_of_lt (by omega)
  exact ⟨by rw [hnat, h.clusters_eq hfirst], by rw [hnat]; omega, by rw [hnat]; omega⟩

/-- The start of the data does not overflow when any cluster is covered. -/
theorem Accepted.first_of_covered (h : Accepted buf s) (hall : ∀ cluster, s.Valid cluster → Covered s cluster) :
    s.firstDataSector.toNat = bpbDataStart buf := by
  have htwo := h.two_le
  rw [← h.dataStart_eq]
  exact (hall 2 ⟨Nat.le_refl 2, by show 2 - 2 < _; omega⟩).firstDataSector

theorem Accepted.fits (h : Accepted buf s) (hall : ∀ cluster, s.Valid cluster → Covered s cluster) : BpbFits buf := by
  have hfirst := h.first_of_covered hall
  obtain ⟨hnat, hvalid⟩ := h.valid_last hfirst
  have hcov := hall _ hvalid
  have hword := s.firstDataSector.isLt
  have hoffset := hcov.entryOffset
  have hentry := hcov.entrySector
  have hin := hcov.in_fat
  have hlt := (entryOffset (s.totalClusters + 1)).isLt
  rw [hnat] at hoffset hentry
  rw [hentry, h.fatSectors_eq] at hin
  exact ⟨by omega, by omega, by omega⟩

theorem Accepted.covered_of_fits (h : Accepted buf s) (hfits : BpbFits buf) (hvalid : s.Valid cluster) :
    Covered s cluster := by
  obtain ⟨hwords, hclusters, hsectors⟩ := hfits
  have hfirst : s.firstDataSector.toNat = bpbDataStart buf := by
    rw [h.firstDataSector, h.dataStart_eq, Nat.mod_eq_of_lt hwords]
  have hle := hvalid.2
  rw [h.clusters_eq hfirst] at hle
  refine h.covered (hfirst.trans h.dataStart_eq.symm) (by omega) ?_ hvalid
  rw [h.fatSectors_eq]
  omega

theorem copySector_zero (s : SbInfo) (cluster : Word) : copySector s 0 cluster = entrySector s cluster := by
  rw [copySector, entrySector, BitVec.zero_mul, BitVec.add_zero]

theorem BpbFitsCopies.fits (h : Accepted buf s) (hfits : BpbFitsCopies buf) : BpbFits buf := by
  obtain ⟨hwords, hclusters, hsectors⟩ := hfits
  refine ⟨hwords, hclusters, Nat.lt_of_lt_of_le hsectors ?_⟩
  rw [← h.fatSectors_eq, h.fatSize32]
  exact Nat.le_mul_of_pos_left _ h.one_le

theorem Accepted.inCopies (h : Accepted buf s) (hfits : BpbFitsCopies buf) (hvalid : s.Valid cluster) :
    InCopies s cluster := by
  intro i hi
  have hcov := h.covered_of_fits (hfits.fits h) hvalid
  have hle := hvalid.2
  rw [h.clusters_eq (hcov.firstDataSector.trans h.dataStart_eq)] at hle
  obtain ⟨hwords, hclusters, hsectors⟩ := hfits
  rw [← h.fatSize32] at hsectors
  rw [← h.dataStart_eq] at hwords
  have hcopy : (i + 1) * s.fatSize32.toNat ≤ s.numFats.toNat * s.fatSize32.toNat := Nat.mul_le_mul_right _ hi
  have hsucc : (i + 1) * s.fatSize32.toNat = i * s.fatSize32.toNat + s.fatSize32.toNat := Nat.succ_mul ..
  have hsmall : i < 2 ^ 32 := by
    have htwo := h.numFats.2
    omega
  have hsector : (copySector s i cluster).toNat =
      s.reservedSectors.toNat + i * s.fatSize32.toNat + cluster.toNat * 4 / 512 := by
    have hdiv : (entryOffset cluster / s.bytesPerSector.setWidth 32).toNat = cluster.toNat * 4 / 512 := by
      rw [BitVec.toNat_udiv, hcov.entryOffset, h.bytesPerSector]
      rfl
    rw [copySector, BitVec.toNat_add, BitVec.toNat_add, BitVec.toNat_mul, BitVec.toNat_ofNat,
      Nat.mod_eq_of_lt hsmall, hdiv, Nat.add_mod_mod, Nat.mod_add_mod, Nat.mod_eq_of_lt (by omega)]
  rw [hsector]
  omega

/-- The entry and the sectors of every cluster are where they should be exactly when the FATs have room for the entry
of the last one and the sums and products of the layout have 32 bits. Every copy of the FAT has the entries exactly when
one of them alone has the room. -/
theorem fatParseBpb_covered_iff (h : fatParseBpb buf = some s) :
    ((∀ cluster, s.Valid cluster → Covered s cluster) ↔ BpbFits buf) ∧
      ((∀ cluster, s.Valid cluster → Covered s cluster ∧ InCopies s cluster) ↔ BpbFitsCopies buf) := by
  have hok := fatParseBpb_accepted h
  refine ⟨⟨hok.fits, fun hfits cluster hvalid => hok.covered_of_fits hfits hvalid⟩, fun hall => ?_, fun hfits cluster hvalid =>
    ⟨hok.covered_of_fits (hfits.fits hok) hvalid, hok.inCopies hfits hvalid⟩⟩
  have hcov : ∀ cluster, s.Valid cluster → Covered s cluster := fun cluster hvalid => (hall cluster hvalid).1
  obtain ⟨hwords, hclusters, -⟩ := hok.fits hcov
  obtain ⟨hnat, hvalid⟩ := hok.valid_last (hok.first_of_covered hcov)
  have hin := ((hall _ hvalid).2 0 hok.one_le).2
  rw [copySector_zero, (hcov _ hvalid).entrySector, hnat, hok.fatSize32] at hin
  exact ⟨hwords, hclusters, by omega⟩

/-! ## Inode numbers -/

/-- The places of entries of 32 bytes: a cluster and an offset in it. -/
structure Place (s : SbInfo) (cluster offset : Word) : Prop where
  valid : s.Valid cluster
  aligned : offset.toNat % 32 = 0
  inside : offset.toNat < s.clusterSize.toNat

/-- The numbers of the places can be read back, differ and are not that of the root directory. -/
structure Faithful (s : SbInfo) : Prop where
  location : ∀ cluster offset, Place s cluster offset →
    fatInoLocation s (fatEntryIno s cluster offset) = some (cluster, offset)
  injective : ∀ cluster offset cluster' offset', Place s cluster offset → Place s cluster' offset' →
    fatEntryIno s cluster offset = fatEntryIno s cluster' offset' → cluster = cluster' ∧ offset = offset'
  root : ∀ cluster offset, Place s cluster offset → fatEntryIno s cluster offset ≠ fatRootIno

/-- The number of clusters that `fat_parse_bpb` computes, with the start of the data in 32 bits. -/
def bpbTotalClusters (buf : Buffer) : ℕ :=
  ((statedSectors buf).toNat - bpbDataStart buf % 2 ^ 32) / (buf 13).toNat

/-- The bytes of all clusters have 32-bit numbers. -/
def InoFits (buf : Buffer) : Prop := bpbTotalClusters buf * (512 * (buf 13).toNat) ≤ 2 ^ 32

instance (buf : Buffer) : Decidable (InoFits buf) := inferInstanceAs (Decidable (_ ≤ _))

theorem Accepted.inoFits_iff (h : Accepted buf s) :
    InoFits buf ↔ s.totalClusters.toNat * s.clusterSize.toNat ≤ 2 ^ 32 := by
  have hcount : s.totalClusters.toNat = bpbTotalClusters buf := by
    rw [h.totalClusters, h.firstDataSector, h.dataStart_eq, h.totalSectors, h.sectorsPerCluster.1]
    rfl
  rw [InoFits, hcount, h.clusterSize, h.sectorsPerCluster.1]

theorem Accepted.clusterSize_dvd (h : Accepted buf s) : s.clusterSize.toNat ∣ 2 ^ 32 ∧ 32 ∣ s.clusterSize.toNat ∧
    0 < s.clusterSize.toNat := by
  obtain ⟨-, k, hk, hpow⟩ := h.sectorsPerCluster
  rw [h.clusterSize, hpow]
  refine ⟨?_, ⟨16 * 2 ^ k, by omega⟩, Nat.mul_pos (by decide) (Nat.pow_pos (by decide))⟩
  have hexp : 512 * 2 ^ k = 2 ^ (9 + k) := by rw [Nat.pow_add]
  rw [hexp]
  exact Nat.pow_dvd_pow 2 (by omega)

/-- The number of an entry is its offset in the volume, in 32 bits and after the first two numbers. -/
theorem Place.toNat_fatEntryIno (hplace : Place s cluster offset) (h : Accepted buf s) :
    (fatEntryIno s cluster offset).toNat = ((cluster.toNat - 2) * s.clusterSize.toNat + offset.toNat) % 2 ^ 32 + 2 := by
  obtain ⟨m, hm⟩ : 32 ∣ (cluster.toNat - 2) * s.clusterSize.toNat := Nat.dvd_mul_left_of_dvd h.clusterSize_dvd.2.1 _
  have haligned := hplace.aligned
  have hsub : (cluster - 2).toNat = cluster.toNat - 2 := BitVec.toNat_sub_of_le (BitVec.le_def.mpr hplace.valid.1)
  have htwo : (fatRootIno + 1).toNat = 2 := rfl
  rw [fatEntryIno, BitVec.toNat_add, BitVec.toNat_add, BitVec.toNat_mul, hsub, htwo, hm]
  omega

theorem Place.offset_lt (hplace : Place s cluster offset) :
    (cluster.toNat - 2) * s.clusterSize.toNat + offset.toNat < s.totalClusters.toNat * s.clusterSize.toNat := by
  have hle : (cluster.toNat - 2 + 1) * s.clusterSize.toNat ≤ s.totalClusters.toNat * s.clusterSize.toNat :=
    Nat.mul_le_mul_right _ hplace.valid.2
  have hinside := hplace.inside
  rw [Nat.succ_mul] at hle
  omega

theorem Place.location (hplace : Place s cluster offset) (h : Accepted buf s)
    (hfits : s.totalClusters.toNat * s.clusterSize.toNat ≤ 2 ^ 32) :
    fatInoLocation s (fatEntryIno s cluster offset) = some (cluster, offset) := by
  have hlt := hplace.offset_lt
  have hino := hplace.toNat_fatEntryIno h
  rw [Nat.mod_eq_of_lt (by omega)] at hino
  obtain ⟨-, ⟨m, hm⟩, hpos⟩ := h.clusterSize_dvd
  obtain ⟨⟨htwo, hvalid⟩, haligned, hinside⟩ := hplace
  have hphysical : (fatEntryIno s cluster offset - fatRootIno - 1).toNat =
      (cluster.toNat - 2) * s.clusterSize.toNat + offset.toNat := by
    have hone : fatRootIno.toNat = 1 := rfl
    have hone' : (1 : Word).toNat = 1 := rfl
    rw [BitVec.toNat_sub_of_le, BitVec.toNat_sub_of_le, hino, hone, hone']
    · omega
    · rw [BitVec.le_def, hino, hone]
      omega
    · rw [BitVec.le_def, BitVec.toNat_sub_of_le (by rw [BitVec.le_def, hino, hone]; omega), hino, hone, hone']
      omega
  have hword := cluster.isLt
  have hcluster : (fatEntryIno s cluster offset - fatRootIno - 1) / s.clusterSize + 2 = cluster := by
    refine BitVec.eq_of_toNat_eq ?_
    have htwo' : (2 : Word).toNat = 2 := rfl
    rw [BitVec.toNat_add, BitVec.toNat_udiv, hphysical, Nat.add_comm ((cluster.toNat - 2) * s.clusterSize.toNat),
      Nat.add_mul_div_right _ _ hpos, Nat.div_eq_of_lt hinside, htwo']
    omega
  have hoffset : (fatEntryIno s cluster offset - fatRootIno - 1) % s.clusterSize = offset := by
    refine BitVec.eq_of_toNat_eq ?_
    rw [BitVec.toNat_umod, hphysical, Nat.add_comm ((cluster.toNat - 2) * s.clusterSize.toNat),
      Nat.add_mul_mod_self_right, Nat.mod_eq_of_lt hinside]
  have hroot : ¬ fatEntryIno s cluster offset ≤ fatRootIno := by
    rw [BitVec.le_def, hino]
    show ¬ _ ≤ 1
    omega
  have hmod : ¬ (fatEntryIno s cluster offset - fatRootIno - 1) % 32 ≠ 0 := by
    refine not_not.mpr (BitVec.eq_of_toNat_eq ?_)
    rw [BitVec.toNat_umod, hphysical, hm]
    show ((cluster.toNat - 2) * (32 * m) + offset.toNat) % 32 = 0
    rw [Nat.mul_left_comm, Nat.mul_add_mod]
    exact haligned
  have hsub : (cluster - 2).toNat = cluster.toNat - 2 := BitVec.toNat_sub_of_le (BitVec.le_def.mpr htwo)
  have hroom : ¬ (s.totalClusters ≤ cluster - 2 ∨ s.clusterSize < offset + 32) := by
    rintro (hle | hlt')
    · rw [BitVec.le_def, hsub] at hle
      omega
    · have hsize := s.clusterSize.isLt
      have hend : (32 : Word).toNat = 32 := rfl
      rw [BitVec.lt_def, BitVec.toNat_add, hend] at hlt'
      omega
  unfold fatInoLocation
  rw [if_neg hroot]
  dsimp only
  rw [if_neg hmod, hcluster, hoffset, if_neg hroom]

/-- The first cluster whose bytes have no number of their own has the number of the first one. -/
theorem Accepted.collision (h : Accepted buf s) (hmany : 2 ^ 32 < s.totalClusters.toNat * s.clusterSize.toNat) :
    ∃ cluster, cluster ≠ 2 ∧ Place s cluster 0 ∧ Place s 2 0 ∧ fatEntryIno s cluster 0 = fatEntryIno s 2 0 := by
  obtain ⟨⟨q, hq⟩, -, hpos⟩ := h.clusterSize_dvd
  have hlt : q < s.totalClusters.toNat := by
    rw [hq, Nat.mul_comm] at hmany
    exact Nat.lt_of_mul_lt_mul_right hmany
  have htwo := h.two_le
  have hqpos : 0 < q := by
    rcases Nat.eq_zero_or_pos q with rfl | hqpos
    · omega
    · exact hqpos
  have hsize : 512 ≤ s.clusterSize.toNat := by
    have hsector := h.sector_pos
    rw [h.clusterSize]
    omega
  have hsmall : q + 2 < 2 ^ 32 := by
    have hle : q * 512 ≤ q * s.clusterSize.toNat := Nat.mul_le_mul_left q hsize
    rw [Nat.mul_comm q s.clusterSize.toNat] at hle
    omega
  have hnat : (BitVec.ofNat 32 (q + 2)).toNat = q + 2 := BitVec.toNat_ofNat .. |>.trans (Nat.mod_eq_of_lt hsmall)
  have hfar : Place s (BitVec.ofNat 32 (q + 2)) 0 := ⟨⟨by omega, by omega⟩, rfl, hpos⟩
  have hnear : Place s 2 0 := ⟨⟨Nat.le_refl 2, by show 2 - 2 < _; omega⟩, rfl, hpos⟩
  refine ⟨_, fun heq => ?_, hfar, hnear, BitVec.eq_of_toNat_eq ?_⟩
  · have heq' := congrArg BitVec.toNat heq
    rw [hnat] at heq'
    have htwo' : (2 : Word).toNat = 2 := rfl
    omega
  · rw [hfar.toNat_fatEntryIno h, hnear.toNat_fatEntryIno h, hnat]
    have hzero : (0 : Word).toNat = 0 := rfl
    have htwo' : (2 : Word).toNat = 2 := rfl
    have hprod : (q + 2 - 2) * s.clusterSize.toNat = 2 ^ 32 := by
      rw [Nat.add_sub_cancel, Nat.mul_comm]
      exact hq.symm
    rw [hprod, hzero, htwo', Nat.sub_self, Nat.zero_mul]
    rfl

/-- The numbers of the entries of an accepted volume are faithful exactly when the bytes of its clusters have 32-bit
numbers. -/
theorem fatEntryIno_faithful_iff (h : fatParseBpb buf = some s) : Faithful s ↔ InoFits buf := by
  have hok := fatParseBpb_accepted h
  rw [hok.inoFits_iff]
  constructor
  · intro hfaithful
    by_contra hmany
    obtain ⟨cluster, hne, hfar, hnear, heq⟩ := hok.collision (Nat.not_le.mp hmany)
    exact hne (hfaithful.injective _ _ _ _ hfar hnear heq).1
  · intro hfits
    refine ⟨fun cluster offset hplace => hplace.location hok hfits, ?_, ?_⟩
    · intro cluster offset cluster' offset' hplace hplace' heq
      have hlocation := hplace.location hok hfits
      rw [heq, hplace'.location hok hfits] at hlocation
      have hpair := Option.some.inj hlocation
      exact ⟨(congrArg Prod.fst hpair).symm, (congrArg Prod.snd hpair).symm⟩
    · intro cluster offset hplace heq
      have hino := hplace.toNat_fatEntryIno hok
      have hone : fatRootIno.toNat = 1 := rfl
      rw [heq] at hino
      omega

end Parse

/-- A boot sector with some bytes set. -/
def bootSector (bytes : List (ℕ × BitVec 8)) : Buffer := fun o => (bytes.lookup o).getD 0

/-- A volume of 70000 sectors, one sector in a cluster, and two FATs of 600 sectors. -/
def smallVolume : Buffer :=
  bootSector [(12, 2), (13, 1), (14, 32), (16, 2), (33, 0x11), (32, 0x70), (34, 1), (36, 0x58), (37, 2), (44, 2)]

theorem fatParseBpb_covered_iff_small : ∃ s, fatParseBpb smallVolume = some s ∧
    ((∀ cluster, s.Valid cluster → Covered s cluster) ↔ BpbFits smallVolume) ∧ BpbFits smallVolume ∧
      BpbFitsCopies smallVolume := by
  obtain ⟨s, hs⟩ := Option.isSome_iff_exists.mp (show (fatParseBpb smallVolume).isSome = true by decide +kernel)
  exact ⟨s, hs, (fatParseBpb_covered_iff hs).1, by decide +kernel, by decide +kernel⟩

/-- A volume of 1000 sectors whose only FAT has one sector, with 128 entries for 998 clusters. -/
def shortFat : Buffer := bootSector [(12, 2), (13, 1), (14, 1), (16, 1), (32, 0xe8), (33, 3), (36, 1), (44, 2)]

/-- The entry of the cluster 999 is read from the data. -/
theorem shortFat_not_covered : ∃ s, fatParseBpb shortFat = some s ∧ s.Valid 999 ∧ ¬ Covered s 999 ∧
    entrySector s 999 = 8 ∧ s.firstDataSector = 2 := by
  obtain ⟨s, hs⟩ := Option.isSome_iff_exists.mp (show (fatParseBpb shortFat).isSome = true by decide +kernel)
  have hget : s = (fatParseBpb shortFat).get (by decide +kernel) := by simp only [hs, Option.get_some]
  have hvalid : s.Valid 999 := by
    rw [hget]
    exact ⟨by decide, by decide +kernel⟩
  have hentry : entrySector s 999 = 8 := by rw [hget]; decide +kernel
  have hfirst : s.firstDataSector = 2 := by rw [hget]; decide +kernel
  refine ⟨s, hs, hvalid, fun hcov => ?_, hentry, hfirst⟩
  have hin := hcov.in_fat.2
  rw [← hcov.firstDataSector, hentry, hfirst] at hin
  exact absurd hin (by decide)

theorem fatEntryIno_faithful_iff_small : ∃ s, fatParseBpb smallVolume = some s ∧ (Faithful s ↔ InoFits smallVolume) ∧
    InoFits smallVolume := by
  obtain ⟨s, hs⟩ := Option.isSome_iff_exists.mp (show (fatParseBpb smallVolume).isSome = true by decide +kernel)
  exact ⟨s, hs, fatEntryIno_faithful_iff hs, by decide +kernel⟩

/-- A volume of 9437184 sectors with 64 KiB in a cluster. -/
def largeVolume : Buffer := bootSector [(12, 2), (13, 128), (14, 32), (16, 1), (34, 0x90), (36, 0x58), (37, 2), (44, 2)]

/-- The first entries of the clusters 2 and 65538 have the number 2. -/
theorem largeVolume_collision : ∃ s, fatParseBpb largeVolume = some s ∧ Place s 2 0 ∧ Place s 65538 0 ∧
    fatEntryIno s 2 0 = 2 ∧ fatEntryIno s 65538 0 = 2 ∧ ¬ Faithful s := by
  obtain ⟨s, hs⟩ := Option.isSome_iff_exists.mp (show (fatParseBpb largeVolume).isSome = true by decide +kernel)
  have hget : s = (fatParseBpb largeVolume).get (by decide +kernel) := by simp only [hs, Option.get_some]
  have hnear : Place s 2 0 := by
    rw [hget]
    exact ⟨⟨by decide, by decide +kernel⟩, by decide, by decide +kernel⟩
  have hfar : Place s 65538 0 := by
    rw [hget]
    exact ⟨⟨by decide, by decide +kernel⟩, by decide, by decide +kernel⟩
  have hino : fatEntryIno s 2 0 = 2 := by rw [hget]; decide +kernel
  have hino' : fatEntryIno s 65538 0 = 2 := by rw [hget]; decide +kernel
  refine ⟨s, hs, hnear, hfar, hino, hino', fun hfaithful => ?_⟩
  exact absurd (hfaithful.injective _ _ _ _ hnear hfar (hino.trans hino'.symm)).1 (by decide)

end Mario.Fs.Fat.Bpb
