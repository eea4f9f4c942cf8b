import Mario.Fs.Ext2.Readdir
import Mario.Fs.Fat.Readdir
import Mario.Fs.Mariofs.Readdir

/-!
# Listings of directories

A reader calls `getdents` on a directory from its start until it gets zero. On ext2 and on a MarioFS it gets the
entries of the directory. On FAT an entry that does not fit is lost: `ext2_readdir` and `mario_readdir` leave `f_pos`
at the entry that `filldir` refuses, and `fat_readdir` sets it behind that entry.
-/

namespace Mario.Fs.Readdir

open Mario.Lib.Listing

/-! ## Small directories -/

/-- Two files in a directory of FAT. -/
def fatPair : Fat.DirList.ChainDir where
  table := { total := 4, entry := fun c => if c = 2 then 0x0fffffff else 0, nextFree := 3, freeClusters := 3 }
  start := 2
  perCluster := 4
  read _ i :=
    if 64 ≤ i then 0 else if i % 32 = 0 then if i = 0 then 0x41 else 0x42
    else if i % 32 ≤ 11 then 0x20 else 0
  chain := [2]
  isChain := ⟨⟨rfl, by decide, rfl⟩, fun c hc => by
    obtain rfl : c = 2 := by simpa using hc
    exact ⟨by decide, by decide⟩⟩
  small := by decide
  short := by decide
  named := by decide +kernel
  perCluster_pos := by decide

/-- The inode does not yet remember a cluster. -/
def noCache : Fat.Clusters.Cache := ⟨false, 0, 0, 0⟩

theorem noCache_ok (d : Fat.DirList.ChainDir) : noCache.Ok d.start d.chain :=
  ⟨fun h => absurd h Bool.false_ne_true, fun h => absurd h Bool.false_ne_true, fun h => absurd h Bool.false_ne_true⟩

/-- Two files in a directory of a MarioFS, with a free slot between them. -/
def marioPair : Mariofs.DirList.Directory where
  blocks := [⟨1, [⟨5, 0x81ff, [0x41]⟩, ⟨0xffffffff, 0, []⟩, ⟨6, 0x81ff, [0x42]⟩] ++ List.replicate 6 ⟨0, 0, []⟩⟩]
  small := by decide
  named := by decide +kernel
  sized blk hblk := by
    obtain rfl := List.mem_singleton.mp hblk
    rfl
  full blk hblk := by cases hblk

/-- The records of two files with a free one between them. -/
def pairRecords : Ext2.Buffer := fun i =>
  [11, 0, 0, 0, 12, 0, 1, 1, 0x41, 0, 0, 0, 0, 0, 0, 0, 12, 0, 0, 0, 0, 0, 0, 0, 12, 0, 0, 0, 40, 0, 1, 1, 0x42].getD i 0

/-- Two files in a directory of ext2. -/
def ext2Pair : Ext2.RecordDir where
  blockSize := 64
  size := 64
  hashInfo := ⟨0, ⟨0, 0, 0, 0⟩⟩
  bmap _ := 1
  read _ := .ok pairRecords
  blockSize_pos := by decide
  fileType := true
  small := by decide
  named := by decide +kernel
  mapped _ _ := by decide
  readable _ _ := ⟨pairRecords, rfl⟩
  chained i hi := by
    have hlimit : i = 0 := by omega
    subst hlimit
    refine .next ?_ ?_ ?_ (.next ?_ ?_ ?_ (.next ?_ ?_ ?_ .done))
    all_goals decide +kernel

/-! ## The listings -/

/-- All entries are listed, each once and in their order: on ext2 and on a MarioFS whatever the sizes of the buffers
are, and on FAT exactly when the first buffer has room for the whole directory. -/
theorem getdents_lists_all_iff (f : Format) (count : BitVec 32) (counts : List (BitVec 32)) :
    (∀ d : Ext2.RecordDir, Ends (Ext2.ext2Getdents f d.toListDir) 0 (count :: counts) →
        listing (Ext2.ext2Getdents f d.toListDir) 0 (count :: counts) = Ext2.liveEntries d.toListDir) ∧
      (∀ d : Mariofs.DirList.Directory, Ends (Mariofs.DirList.marioGetdents f d.blocks) 0 (count :: counts) →
        listing (Mariofs.DirList.marioGetdents f d.blocks) 0 (count :: counts) = Mariofs.DirList.liveEntries d) ∧
      ∀ (d : Fat.DirList.ChainDir) (cache : Fat.Clusters.Cache), cache.Ok d.start d.chain →
        Ends (Fat.DirList.fatGetdents f d.toDir) (0, cache) (count :: counts) →
          (listing (Fat.DirList.fatGetdents f d.toDir) (0, cache) (count :: counts) = Fat.DirList.liveEntries d ↔
            Fat.DirList.liveEntries d = [] ∨ (total f.reclen (Fat.DirList.liveEntries d) : ℤ) ≤ count.toInt) := by
  refine ⟨fun d hends => ?_, fun d hends => ?_, fun d cache hcache _ => ?_⟩
  · have hat := Ext2.atRecord_start d (i := 0) (Nat.zero_mul _).symm
    exact (Ext2.ext2Getdents_resumes f d).listing_eq hat hends
  · exact (Mariofs.DirList.marioGetdents_resumes f d).listing_eq (Mariofs.DirList.atSlot_start d) hends
  · exact (Fat.DirList.fatGetdents_skips f d).listing_eq_iff (Fat.DirList.atSlot_start d hcache)

/-- Three calls list two entries in a directory of ext2 and in one of a MarioFS, but not in one of FAT. -/
theorem getdents_lists_pairs :
    listing (Ext2.ext2Getdents .dirent ext2Pair.toListDir) 0 [16, 16, 16] = [⟨11, 1, [0x41]⟩, ⟨12, 1, [0x42]⟩] ∧
      listing (Mariofs.DirList.marioGetdents .dirent marioPair.blocks) 0 [16, 16, 16] =
        [⟨512, 8, [0x41]⟩, ⟨620, 8, [0x42]⟩] ∧
      listing (Fat.DirList.fatGetdents .dirent fatPair.toDir) (0, noCache) [16, 16, 16] ≠
        Fat.DirList.liveEntries fatPair := by
  obtain ⟨hext2, hmario, hfat⟩ := getdents_lists_all_iff .dirent 16 [16, 16]
  refine ⟨?_, ?_, ?_⟩
  · rw [hext2 ext2Pair (by decide +kernel)]
    decide +kernel
  · rw [hmario marioPair (by decide +kernel)]
    decide +kernel
  · rw [Ne, hfat fatPair noCache (noCache_ok fatPair) (by decide +kernel)]
    decide +kernel

/-- Each buffer has room for an entry and not for both, and the second one of a directory of FAT is lost. -/
theorem fatGetdents_loses_entry :
    (∀ e ∈ Fat.DirList.liveEntries fatPair, (Format.dirent.reclen e : ℤ) ≤ (16 : BitVec 32).toInt) ∧
      Ends (Fat.DirList.fatGetdents .dirent fatPair.toDir) (0, noCache) [16, 16] ∧
      listing (Fat.DirList.fatGetdents .dirent fatPair.toDir) (0, noCache) [16, 16] ≠
        Fat.DirList.liveEntries fatPair := by
  decide +kernel

end Mario.Fs.Readdir
