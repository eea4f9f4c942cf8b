import Mario.Fs.Block.GptBackup

/-!
# The buffer of the partition entries

What `gpt_parse` does to the buffer that it allocates for the entries. The size of the allocation is that of
the entries, and whole sectors are read into it. What the partitions are that the parser reports is said
next to it.
-/

namespace Mario.Fs.Gpt

/-- What is done to the buffer. -/
inductive Access
  /-- `read_sectors` is to store the first bytes. -/
  | fill (n : ℕ)
  /-- Bytes behind an offset are read. -/
  | look (offset n : ℕ)
  deriving DecidableEq

/-- The bounds of a partition, as the loop of `gpt_parse` tests them. -/
structure ValidBounds (hdr : HeaderInfo) (diskSectors firstLba lastLba : ℕ) : Prop where
  used : ¬(firstLba = 0 ∧ lastLba = 0)
  order : firstLba ≤ lastLba
  first : hdr.firstUsableLba ≤ firstLba
  last : lastLba ≤ hdr.lastUsableLba
  disk : lastLba < diskSectors
  lba : lastLba ≤ 0xffffffff
  sectors : lastLba - firstLba + 1 ≤ 0x7fffffff

instance (hdr : HeaderInfo) (n firstLba lastLba : ℕ) : Decidable (ValidBounds hdr n firstLba lastLba) :=
  decidable_of_iff (¬(firstLba = 0 ∧ lastLba = 0) ∧ firstLba ≤ lastLba ∧ hdr.firstUsableLba ≤ firstLba ∧
      lastLba ≤ hdr.lastUsableLba ∧ lastLba < n ∧ lastLba ≤ 0xffffffff ∧ lastLba - firstLba + 1 ≤ 0x7fffffff)
    ⟨fun h => ⟨h.1, h.2.1, h.2.2.1, h.2.2.2.1, h.2.2.2.2.1, h.2.2.2.2.2.1, h.2.2.2.2.2.2⟩,
      fun h => ⟨h.used, h.order, h.first, h.last, h.disk, h.lba, h.sectors⟩⟩

/-- An entry of the array. -/
def entryOf (hdr : HeaderInfo) (entries : Buffer) (i : ℕ) : Buffer := fun o => entries (i * hdr.entrySize + o)

/-- An entry that describes a partition. -/
def ValidEntry (hdr : HeaderInfo) (diskSectors : ℕ) (entries : Buffer) (i : ℕ) : Prop :=
  ValidBounds hdr diskSectors (readLe64 (entryOf hdr entries i) 32) (readLe64 (entryOf hdr entries i) 40)

instance (hdr : HeaderInfo) (n : ℕ) (entries : Buffer) (i : ℕ) : Decidable (ValidEntry hdr n entries i) :=
  inferInstanceAs (Decidable (ValidBounds hdr n _ _))

/-- The partition that an entry describes. -/
def entryPart (hdr : HeaderInfo) (entries : Buffer) (i : ℕ) : Partition where
  firstLba := readLe64 (entryOf hdr entries i) 32
  lastLba := readLe64 (entryOf hdr entries i) 40
  typeGuid := bytes (entryOf hdr entries i) 16
  uniqueGuid := bytes (fun o => entryOf hdr entries i (16 + o)) 16
  attrs := readLe64 (entryOf hdr entries i) 48
  present := true

/-- The bytes that a pass of the loop reads. -/
def entryAccess (hdr : HeaderInfo) (diskSectors maxParts : ℕ) (entries : Buffer) (i : ℕ) : List Access :=
  let entry := i * hdr.entrySize
  [.look (entry + 32) 8, .look (entry + 40) 8] ++
    if ValidEntry hdr diskSectors entries i ∧ i < maxParts then
      [.look entry 16, .look (entry + 16) 16, .look (entry + 48) 8]
    else []

section

variable (readSectors : ℕ → ℕ → Option Buffer) (kmalloc : ℕ → Bool)

/-- What is done to the buffer after a header was found and the buffer was allocated. -/
def readEntriesAccess (hdr : HeaderInfo) (diskSectors maxParts : ℕ) : List Access :=
  .fill (hdr.entriesSectors * sectorSize) ::
    match readSectors hdr.entriesLba hdr.entriesSectors with
    | none => []
    | some entries =>
        .look 0 hdr.entriesBytes ::
          if (crc32 0 (bytes entries hdr.entriesBytes)).toNat ≠ hdr.entriesCrc then []
          else (List.range hdr.numEntries).flatMap (entryAccess hdr diskSectors maxParts entries)

/-- The header with which `gpt_parse` goes on, if it does. -/
def headerFound (diskSectors : ℕ) : Option HeaderInfo :=
  if diskSectors < 2 then none
  else
    match readSectors 0 1 with
    | none => none
    | some sector =>
        if sector 510 ≠ 0x55 ∨ sector 511 ≠ 0xaa then none
        else if !gptHasProtectiveMbr sector then none
        else
          match gptLoadHeader readSectors 1 diskSectors with
          | .ok hdr => some hdr
          | .error _ => (gptLoadHeader readSectors (diskSectors - 1) diskSectors).toOption

/-- The size of the buffer that `gpt_parse` allocates, if it does, and what it does to the buffer. -/
def gptParseAccess (diskSectors maxParts : ℕ) : Option (ℕ × List Access) :=
  match headerFound readSectors diskSectors with
  | none => none
  | some hdr =>
      if kmalloc hdr.entriesBytes then
        some (hdr.entriesBytes, readEntriesAccess readSectors hdr diskSectors maxParts)
      else none

end

/-- An access stays within the bytes of the buffer. -/
def Access.Within (size : ℕ) : Access → Prop
  | .fill n => n ≤ size
  | .look offset n => offset + n ≤ size

/-- A partition as the header and the disk allow it. -/
structure Partition.Inside (p : Partition) (hdr : HeaderInfo) (diskSectors : ℕ) : Prop where
  order : p.firstLba ≤ p.lastLba
  first : hdr.firstUsableLba ≤ p.firstLba
  last : p.lastLba ≤ hdr.lastUsableLba
  disk : p.lastLba < diskSectors

/-- What `gpt_parse` is to do on a disk. -/
structure ParsesSafely (readSectors : ℕ → ℕ → Option Buffer) (kmalloc : ℕ → Bool)
    (diskSectors maxParts : ℕ) : Prop where
  within : ∀ size accesses, gptParseAccess readSectors kmalloc diskSectors maxParts = some (size, accesses) →
    ∀ a ∈ accesses, a.Within size
  reports : ∀ r, gptParse readSectors kmalloc diskSectors maxParts = .ok r →
    ∃ hdr entries, headerFound readSectors diskSectors = some hdr ∧
      readSectors hdr.entriesLba hdr.entriesSectors = some entries ∧
      (∀ p ∈ r.1, p.present = true → p.Inside hdr diskSectors) ∧
      r.2 = ((List.range hdr.numEntries).filter (ValidEntry hdr diskSectors entries)).length

variable {readSectors : ℕ → ℕ → Option Buffer} {kmalloc : ℕ → Bool} {sector entries : Buffer}
  {hdr : HeaderInfo} {lba n maxParts i : ℕ} {st : List Partition × ℕ}

/-! ## Headers -/

theorem gptParseHeader_entrySize (h : gptParseHeader sector lba n = .ok hdr) : 128 ≤ hdr.entrySize := by
  unfold gptParseHeader at h
  dsimp only at h
  iterate 7 obtain ⟨-, h⟩ := of_check h
  obtain ⟨hsize, h⟩ := of_check h
  obtain ⟨-, h⟩ := of_check h
  obtain ⟨-, h⟩ := of_check h
  cases h
  omega

theorem gptLoadHeader_entrySize (h : gptLoadHeader readSectors lba n = .ok hdr) : 128 ≤ hdr.entrySize := by
  unfold gptLoadHeader at h
  cases hread : readSectors lba 1 with
  | none =>
    rw [hread] at h
    cases h
  | some sector =>
    rw [hread] at h
    exact gptParseHeader_entrySize h

theorem headerFound_entrySize (h : headerFound readSectors n = some hdr) : 128 ≤ hdr.entrySize := by
  unfold headerFound at h
  split_ifs at h
  split at h
  · cases h
  · split_ifs at h
    split at h
    · next hdr' hload =>
      cases h
      exact gptLoadHeader_entrySize hload
    · cases hload : gptLoadHeader readSectors (n - 1) n with
      | error e =>
        rw [hload] at h
        cases h
      | ok hdr' =>
        rw [hload] at h
        cases h
        exact gptLoadHeader_entrySize hload

/-- The parser goes on with the header that was found. -/
theorem gptParse_ok_found {r : List Partition × ℕ} (h : gptParse readSectors kmalloc n maxParts = .ok r) :
    ∃ hdr, headerFound readSectors n = some hdr ∧ gptReadEntries readSectors kmalloc hdr n maxParts = .ok r := by
  unfold gptParse at h
  unfold headerFound
  split_ifs at h ⊢
  cases hmbr : readSectors 0 1 with
  | none =>
    rw [hmbr] at h
    cases h
  | some sector =>
    rw [hmbr] at h
    dsimp only at h ⊢
    split_ifs at h ⊢
    cases hload : gptLoadHeader readSectors 1 n with
    | ok hdr =>
      rw [hload] at h
      exact ⟨hdr, rfl, h⟩
    | error e =>
      rw [hload] at h
      cases hlast : gptLoadHeader readSectors (n - 1) n with
      | ok hdr =>
        rw [hlast] at h
        exact ⟨hdr, rfl, h⟩
      | error e =>
        rw [hlast] at h
        cases h

/-! ## Entries -/

theorem entry_le (hi : i < hdr.numEntries) : i * hdr.entrySize + hdr.entrySize ≤ hdr.entriesBytes := by
  have hrow : (i + 1) * hdr.entrySize ≤ hdr.numEntries * hdr.entrySize := Nat.mul_le_mul_right _ hi
  rwa [Nat.succ_mul] at hrow

theorem entryAccess_within (hlarge : 128 ≤ hdr.entrySize) (hi : i < hdr.numEntries) :
    ∀ a ∈ entryAccess hdr n maxParts entries i, a.Within hdr.entriesBytes := by
  have hend := entry_le hi
  intro a ha
  unfold entryAccess at ha
  dsimp only at ha
  split_ifs at ha <;> simp only [List.mem_append, List.mem_cons, List.not_mem_nil, or_false] at ha
  · rcases ha with (rfl | rfl) | rfl | rfl | rfl <;> unfold Access.Within <;> omega
  · rcases ha with rfl | rfl <;> unfold Access.Within <;> omega

theorem tests_eq {α : Type} (hdr : HeaderInfo) (n firstLba lastLba : ℕ) (x y : α) :
    (if firstLba = 0 ∧ lastLba = 0 then x
      else if lastLba < firstLba then x
      else if firstLba < hdr.firstUsableLba ∨ hdr.lastUsableLba < lastLba then x
      else if n ≤ lastLba then x
      else if 0xffffffff < lastLba ∨ 0x7fffffff < lastLba - firstLba + 1 then x
      else y) = if ValidBounds hdr n firstLba lastLba then y else x := by
  by_cases hvalid : ValidBounds hdr n firstLba lastLba
  · obtain ⟨hused, horder, hfirst, hlast, hdisk, hlba, hsectors⟩ := hvalid
    rw [if_neg hused, if_neg (by omega), if_neg (by omega), if_neg (by omega), if_neg (by omega),
      if_pos ⟨hused, horder, hfirst, hlast, hdisk, hlba, hsectors⟩]
  · rw [if_neg hvalid]
    split_ifs with hused horder husable hdisk hlimits
    all_goals try rfl
    exact absurd ⟨hused, by omega, by omega, by omega, by omega, by omega, by omega⟩ hvalid

theorem parseEntry_eq : parseEntry hdr n maxParts entries st i =
    if ValidEntry hdr n entries i then
      if maxParts ≤ i then (st.1, st.2 + 1) else (st.1.set i (entryPart hdr entries i), st.2 + 1)
    else st :=
  tests_eq hdr n _ _ st _

/-- A valid entry is inside what the header allows, and so is the partition that is made from it. -/
theorem parseEntry_inside (h : ∀ p ∈ st.1, p.present = true → p.Inside hdr n) :
    ∀ p ∈ (parseEntry hdr n maxParts entries st i).1, p.present = true → p.Inside hdr n := by
  rw [parseEntry_eq]
  split_ifs with hvalid hi
  · exact h
  · intro p hp
    rcases List.mem_or_eq_of_mem_set hp with hold | rfl
    · exact h p hold
    · exact fun _ => ⟨hvalid.order, hvalid.first, hvalid.last, hvalid.disk⟩
  · exact h

theorem partitions_inside : ∀ p ∈ (partitions hdr n maxParts entries).1, p.present = true → p.Inside hdr n := by
  unfold partitions
  refine List.foldlRecOn (motive := fun st : List Partition × ℕ =>
    ∀ p ∈ st.1, p.present = true → p.Inside hdr n) _ _ ?_ ?_
  · intro p hp hpresent
    rw [List.eq_of_mem_replicate hp] at hpresent
    cases hpresent
  · intro st h i _
    exact parseEntry_inside h

theorem foldl_parseEntry_count (l : List ℕ) : (l.foldl (parseEntry hdr n maxParts entries) st).2 =
    st.2 + (l.filter (ValidEntry hdr n entries)).length := by
  induction l generalizing st with
  | nil => rfl
  | cons i l ih =>
    rw [List.foldl_cons, ih, parseEntry_eq, List.filter_cons]
    by_cases hvalid : ValidEntry hdr n entries i
    · rw [if_pos hvalid, if_pos (decide_eq_true hvalid), List.length_cons]
      split_ifs
      all_goals dsimp only; omega
    · rw [if_neg hvalid, if_neg (by simp [hvalid])]

theorem gptParse_reports {r : List Partition × ℕ} (h : gptParse readSectors kmalloc n maxParts = .ok r) :
    ∃ hdr entries, headerFound readSectors n = some hdr ∧
      readSectors hdr.entriesLba hdr.entriesSectors = some entries ∧
      (∀ p ∈ r.1, p.present = true → p.Inside hdr n) ∧
      r.2 = ((List.range hdr.numEntries).filter (ValidEntry hdr n entries)).length := by
  obtain ⟨hdr, hfound, hread⟩ := gptParse_ok_found h
  obtain ⟨-, -, entries, hentries, -, rfl⟩ := gptReadEntries_ok hread
  refine ⟨hdr, entries, hfound, hentries, partitions_inside, ?_⟩
  rw [partitions, foldl_parseEntry_count, Nat.zero_add]

theorem readEntriesAccess_within (hlarge : 128 ≤ hdr.entrySize)
    (hfill : hdr.entriesSectors * sectorSize ≤ hdr.entriesBytes) :
    ∀ a ∈ readEntriesAccess readSectors hdr n maxParts, a.Within hdr.entriesBytes := by
  intro a ha
  unfold readEntriesAccess at ha
  rcases List.mem_cons.mp ha with rfl | htail
  · exact hfill
  · split at htail
    · cases htail
    · rcases List.mem_cons.mp htail with rfl | hloop
      · exact Nat.le_of_eq (Nat.zero_add _)
      · split_ifs at hloop
        · cases hloop
        · obtain ⟨i, hi, hentry⟩ := List.mem_flatMap.mp hloop
          exact entryAccess_within hlarge (List.mem_range.mp hi) a hentry

/-- Whole sectors hold no more than the entries exactly when the entries fill them. -/
theorem fill_le_iff : hdr.entriesSectors * sectorSize ≤ hdr.entriesBytes ↔ hdr.entriesBytes % sectorSize = 0 := by
  rw [← Nat.not_lt, overrun_iff, not_not]

/-- A parser that keeps to its buffer reads entries that fill whole sectors. -/
theorem ParsesSafely.whole (h : ParsesSafely readSectors kmalloc n maxParts)
    (hfound : headerFound readSectors n = some hdr) (halloc : kmalloc hdr.entriesBytes = true) :
    hdr.entriesBytes % sectorSize = 0 := by
  have haccess : gptParseAccess readSectors kmalloc n maxParts =
      some (hdr.entriesBytes, readEntriesAccess readSectors hdr n maxParts) := by
    rw [gptParseAccess, hfound]
    exact if_pos halloc
  have hfill := h.within _ _ haccess _ List.mem_cons_self
  exact fill_le_iff.mp hfill

/-- On every disk and for every answer of the allocator, the parser keeps to its buffer, and reports the
partitions that are there, exactly when the entries of the header that it goes on with, where the buffer for
them is allocated, fill whole sectors. -/
theorem gpt_parse_safe_iff (readSectors : ℕ → ℕ → Option Buffer) (kmalloc : ℕ → Bool) (n maxParts : ℕ) :
    ParsesSafely readSectors kmalloc n maxParts ↔
      ∀ hdr, headerFound readSectors n = some hdr → kmalloc hdr.entriesBytes = true →
        hdr.entriesBytes % sectorSize = 0 := by
  constructor
  · intro h hdr hfound halloc
    exact h.whole hfound halloc
  · intro h
    constructor
    · intro size accesses haccess
      unfold gptParseAccess at haccess
      cases hfound : headerFound readSectors n with
      | none =>
        rw [hfound] at haccess
        cases haccess
      | some hdr =>
        rw [hfound] at haccess
        dsimp only at haccess
        split_ifs at haccess with halloc
        cases haccess
        have hfill := fill_le_iff.mpr (h hdr hfound halloc)
        exact readEntriesAccess_within (headerFound_entrySize hfound) hfill
    · intro r hr
      exact gptParse_reports hr

/-- A disk whose array has one entry of 128 bytes. -/
def shortArrayDisk : Buffer := smallDisk (headerBytes [96, 6, 17, 36] 1 7 2 1 [235, 145, 124, 251]) entryBytes

/-- A sector is read into a buffer of 128 bytes. -/
theorem small_array_overflows : ¬ ParsesSafely (readDisk shortArrayDisk 8) (fun _ => true) 8 4 := by
  intro h
  have hfound : headerFound (readDisk shortArrayDisk 8) 8 = some (primaryInfo shortArrayDisk) := by decide +kernel
  have hwhole := h.whole hfound rfl
  exact absurd hwhole (by decide +kernel)

end Mario.Fs.Gpt
