import Mario.Fs.InodeCache

/-!
# Superblocks and the inode cache

Filesystems are mounted into slots of a table and unmounted again, and tasks get and put inodes
between that. An operation is one step; one that has to sleep is made later. What `read_inode`
fills in is kept as where it comes from: the device, and the filesystem type that read it.
-/

namespace Mario.Fs.SuperBlock

open Mario.Lib Mario.Fs.InodeCache Function

def nrSuper : ℕ := 32

def maxBlkdev : ℕ := 64

/-- The registered filesystems. -/
inductive FsType
  | ext2
  | mariofs
  | vfat
  | proc
  | sysfs
  | debugfs
  deriving DecidableEq

/-- `FS_NODEV` is not set. -/
def FsType.onDevice : FsType → Bool
  | .ext2 | .mariofs | .vfat => true
  | .proc | .sysfs | .debugfs => false

/-- The number of the root inode. -/
def FsType.rootIno : FsType → UInt32
  | .ext2 => 2
  | .mariofs => 32
  | .vfat | .proc | .sysfs | .debugfs => 1

/-- Where the contents of an inode come from. -/
abbrev Origin := UInt16 × FsType

/-- `struct super_block`. -/
structure Super where
  dev : UInt16
  op : Option FsType
  covered : Option ℕ
  mounted : Option ℕ
  /-- `s_fsname`. -/
  fs : Option FsType
  deriving DecidableEq

/-- The superblocks and the inodes. -/
structure State where
  supers : ℕ → Super
  cache : Cache Origin

/-- A superblock changes. -/
def setSuper (k : ℕ) (x : Super) (s : State) : State :=
  { s with supers := update s.supers k x }

/-- What `read_inode` of a superblock reads. -/
def origin (supers : ℕ → Super) (sb : Option ℕ) : Option Origin :=
  sb.bind fun k => (supers k).op.map fun ty => ((supers k).dev, ty)

/-- `__iget` before it looks for a mount. -/
def igetNear (supers : ℕ → Super) (k : ℕ) (ino : UInt32) (c : Cache Origin) :
    Option (ℕ × Cache Origin) :=
  (iget k (supers k).dev ino c).map fun r =>
    (r.1, refresh r.1 (origin supers (r.2.all r.1).sb) r.2)

/-- The end of `__iget`: a mount is crossed. -/
def cross (r : ℕ × Cache Origin) : ℕ × Cache Origin :=
  match (r.2.all r.1).mount with
  | some m => (m, iput r.1 (iref m r.2))
  | none => r

/-- `proc_alloc_inode`, `sysfs_alloc_inode` and `debugfs_alloc_inode`. -/
def allocInode (supers : ℕ → Super) (k : ℕ) (ino : UInt32) (c : Cache Origin) :
    Option (ℕ × Cache Origin) :=
  (getEmptyInode c).map fun r =>
    (r.1, InodeCache.set r.1 { r.2.all r.1 with
      dev := (supers k).dev, ino := ino, sb := some k, mount := none, dirty := false
      upToDate := false, pipe := false, hashed := false, socket := false } r.2)

/-- The root inode, as the `read_super` of a filesystem gets it. -/
def rootInode (supers : ℕ → Super) (k : ℕ) (ty : FsType) (c : Cache Origin) :
    Option (ℕ × Cache Origin) :=
  if ty.onDevice then (igetNear supers k ty.rootIno c).map cross
  else allocInode supers k ty.rootIno c

def getSuper (dev : UInt16) (s : State) : Option ℕ :=
  (List.range nrSuper).find? fun k => dev ≠ 0 && (s.supers k).dev = dev

def getSuperByType (ty : FsType) (s : State) : Option ℕ :=
  (List.range nrSuper).find? fun k => (s.supers k).fs = some ty

/-- The slot that `read_super` takes. -/
def freeSuper (s : State) : Option ℕ :=
  (List.range nrSuper).find? fun k => (s.supers k).dev = 0 && (s.supers k).fs = none

/-- What the `read_super` of a filesystem finds. -/
inductive Probe
  /-- It is not the filesystem, or something fails. -/
  | refused
  /-- `fat_read_super` fails when it has the root inode already. -/
  | late
  | accepted
  deriving DecidableEq

/-- `read_super` in a free slot. -/
def newSuper (k : ℕ) (dev : UInt16) (ty : FsType) (probe : Probe) (s : State) :
    Option (Option ℕ × State) :=
  let x := { s.supers k with dev := dev, op := some ty }
  if probe = .refused ∨ ty.onDevice ∧ dev = 0 then some (none, s)
  else (rootInode (update s.supers k x) k ty s.cache).map fun r =>
    if probe = .late ∧ ty = .vfat then
      (none, setSuper k { x with dev := 0, mounted := none } { s with cache := iput r.1 r.2 })
    else (some k, setSuper k { x with fs := some ty, mounted := some r.1 } { s with cache := r.2 })

def readSuper (dev : UInt16) (ty : FsType) (probe : Probe) (s : State) :
    Option (Option ℕ × State) :=
  match if dev ≠ 0 then getSuper dev s else getSuperByType ty s with
  | some k => some (some k, s)
  | none =>
      match freeSuper s with
      | none => some (none, s)
      | some k => newSuper k dev ty probe s

/-- A reference is dropped. -/
def put (i : ℕ) (s : State) : State := { s with cache := iput i s.cache }

def fsMayMount (dev : UInt16) (s : State) : Bool :=
  s.cache.lru.all fun i => (s.cache.all i).dev ≠ dev || (s.cache.all i).count = 0 &&
    !((s.cache.all i).upToDate && (s.cache.all i).dirty)

def fsMayUmount (k : ℕ) (root : Option ℕ) (s : State) : Bool :=
  s.cache.lru.all fun i => (s.cache.all i).sb ≠ some k || (s.cache.all i).count = 0 ||
    some i = root && (s.cache.all i).count = 1

/-- A directory becomes a mount point, or none. -/
def setMount (dir : ℕ) (m : Option ℕ) (s : State) : State :=
  { s with cache := InodeCache.set dir { s.cache.all dir with mount := m } s.cache }

/-- `do_mount` after `namei`; `room` tells whether `kmalloc` succeeds. -/
def doMount (dir : ℕ) (isDir : Bool) (dev : UInt16) (ty : FsType) (probe : Probe) (room : Bool)
    (s : State) : Option State :=
  if !isDir ∨ (s.cache.all dir).count ≠ 1 ∨ (s.cache.all dir).mount ≠ none then some (put dir s)
  else if dev ≠ 0 ∧ !fsMayMount dev s then some (put dir s)
  else (readSuper dev ty probe s).map fun r =>
    match r.1 with
    | none => put dir r.2
    | some k =>
        if (r.2.supers k).covered ≠ none then put dir r.2
        else if !room then put dir r.2
        else setMount dir (r.2.supers k).mounted
          (setSuper k { r.2.supers k with covered := some dir } r.2)

def doUmountSb (k : ℕ) (s : State) : State :=
  match (s.supers k).covered with
  | none => s
  | some dir =>
      if !fsMayUmount k (s.supers k).mounted s then s
      else
        let s := put dir (setMount dir none s)
        let s := match (s.supers k).mounted with
          | some root => put root s
          | none => s
        setSuper k { s.supers k with covered := none, mounted := none, fs := none, dev := 0 } s

/-- A round of `mount_root`. -/
def mountRoot (dev : UInt16) (ty : FsType) (probe : Probe) (s : State) : Option State :=
  (readSuper dev ty probe s).map fun r =>
    match r.1.bind fun k => (r.2.supers k).mounted with
    | none => r.2
    | some i => { r.2 with cache := iref i (iref i r.2.cache) }

/-- Does a superblock keep the inode? -/
def kept (s : State) (i : ℕ) : Bool :=
  (List.range nrSuper).any fun k => (s.supers k).mounted = some i || (s.supers k).covered = some i

/-- The operations. -/
inductive Label
  | mountRoot (dev : UInt16) (ty : FsType) (probe : Probe)
  | mount (dir : ℕ) (isDir : Bool) (dev : UInt16) (ty : FsType) (probe : Probe) (room : Bool)
  | umount (k : ℕ)
  | iget (k : ℕ) (ino : UInt32)
  | iref (i : ℕ)
  | iput (i : ℕ)
  | setDirty (i : ℕ)
  | inodeInvalidate (k : ℕ) (ino : UInt32)
  | getEmptyInode
  | getPipeInode
  | getSocketInode
  /-- A lookup in a pseudo filesystem. -/
  | allocInode (k : ℕ) (ino : UInt32)
  deriving DecidableEq

/-- What an operation on the cache leaves, if it does not sleep. -/
def withCache (r : Option (ℕ × Cache Origin)) (s : State) : Option State :=
  r.map fun p => { s with cache := p.2 }

/-- Is a filesystem on a device mounted in the slot? -/
def onDevice (s : State) (k : ℕ) : Bool := ((s.supers k).fs.map FsType.onDevice).getD false

/-- The next state. `sys_mount` gives `do_mount` the device 0 for a pseudo filesystem, only the
filesystems on devices call `iget`, and a task that drops a reference has one of its own. -/
def exec (s : State) : Label → Option State
  | .mountRoot dev ty probe => if ty.onDevice then mountRoot dev ty probe s else none
  | .mount dir isDir dev ty probe room =>
      if 0 < (s.cache.all dir).count - (if kept s dir then 1 else 0) ∧
        (if ty.onDevice then dev.toNat / 256 < maxBlkdev else dev = 0) then
        doMount dir isDir dev ty probe room s
      else none
  | .umount k => some (doUmountSb k s)
  | .iget k ino =>
      if onDevice s k then withCache ((igetNear s.supers k ino s.cache).map cross) s else none
  | .iref i => if 0 < (s.cache.all i).count then some { s with cache := iref i s.cache } else none
  | .iput i =>
      if 0 < (s.cache.all i).count - (if kept s i then 1 else 0) then some (put i s) else none
  | .setDirty i =>
      if 0 < (s.cache.all i).count then
        some { s with cache := InodeCache.set i { s.cache.all i with dirty := true } s.cache }
      else none
  | .inodeInvalidate k ino =>
      if onDevice s k then
        some { s with cache := inodeInvalidate (s.supers k).dev ino s.cache }
      else none
  | .getEmptyInode => withCache (getEmptyInode s.cache) s
  | .getPipeInode => withCache (getPipeInode s.cache) s
  | .getSocketInode => withCache (getSocketInode s.cache) s
  | .allocInode k ino =>
      if ((s.supers k).fs.map FsType.onDevice) = some false then
        withCache (allocInode s.supers k ino s.cache) s
      else none

def Step (s : State) (a : Label) (s' : State) : Prop := exec s a = some s'

/-- After `sb_init` and `inode_init`. -/
structure Initial (s : State) : Prop where
  supers : ∀ k, s.supers k = ⟨0, none, none, none, none⟩
  cache : InodeCache.Initial s.cache

/-- The inodes of a device that are still in the cache fit the slot and the type of the filesystem
that is now mounted on it. -/
def Fits (s : State) (dev : UInt16) (ty : FsType) (k : ℕ) : Prop :=
  ∀ i, i < nrInode → (s.cache.all i).hashed = true → (s.cache.all i).dev = dev →
    (s.cache.all i).sb = some k ∧
      ((s.cache.all i).upToDate = true → (s.cache.all i).contents = some (dev, ty))

/-- A device takes a slot only if the inodes that are left of it fit. -/
def Good (s : State) : Label → Prop
  | .mountRoot dev ty _ | .mount _ _ dev ty _ _ =>
      dev ≠ 0 → getSuper dev s = none → ∀ k ∈ freeSuper s, Fits s dev ty k
  | _ => True

/-- `Fits` as a test. -/
def fits (s : State) (dev : UInt16) (ty : FsType) (k : ℕ) : Bool :=
  (List.range nrInode).all fun i => !(s.cache.all i).hashed || (s.cache.all i).dev ≠ dev ||
    (s.cache.all i).sb = some k &&
      (!(s.cache.all i).upToDate || (s.cache.all i).contents = some (dev, ty))

theorem fits_iff (s : State) (dev : UInt16) (ty : FsType) (k : ℕ) : fits s dev ty k = true ↔ Fits s dev ty k := by
  simp only [fits, Fits, List.all_eq_true, List.mem_range, Bool.or_eq_true, Bool.and_eq_true,
    Bool.not_eq_true', decide_eq_true_eq, Bool.eq_false_iff, ne_eq, or_assoc, imp_iff_not_or]

instance (s : State) (dev : UInt16) (ty : FsType) (k : ℕ) : Decidable (Fits s dev ty k) :=
  decidable_of_iff (fits s dev ty k = true) (fits_iff s dev ty k)

instance (s : State) (a : Label) : Decidable (Good s a) := by
  cases a <;> unfold Good <;> infer_instance

/-- The inode is one of the superblock. -/
def InCore (s : State) (k i : ℕ) : Prop :=
  (s.supers k).mounted = some i ∨ ∃ ino, findInode (s.supers k).dev ino s.cache = some i

/-- `iget` gives an inode of the superblock, and superblocks share no inode. -/
structure Separate (s : State) : Prop where
  iget : ∀ k ty ino i c, (s.supers k).fs = some ty → ty.onDevice = true →
    igetNear s.supers k ino s.cache = some (i, c) → (c.all i).mount = none →
    (c.all i).sb = some k ∧ (c.all i).ino = ino ∧ (c.all i).contents = some ((s.supers k).dev, ty)
  share : ∀ k l i, (s.supers k).fs ≠ none → (s.supers l).fs ≠ none → InCore s k i → InCore s l i →
    k = l

/-! ## The invariant -/

/-- The slots of the superblocks. -/
structure Table (supers : ℕ → Super) : Prop where
  free : ∀ k, (supers k).fs = none →
    (supers k).dev = 0 ∧ (supers k).mounted = none ∧ (supers k).covered = none
  live : ∀ k ty, (supers k).fs = some ty →
    k < nrSuper ∧ (supers k).op = some ty ∧ ((supers k).dev ≠ 0 ↔ ty.onDevice = true)
  devs : ∀ k l, (supers k).dev ≠ 0 → (supers k).dev = (supers l).dev → k = l

/-- A hashed inode is one of the superblock that its device has. -/
def InodeOk (supers : ℕ → Super) (x : InodeCache.Inode Origin) : Prop :=
  x.hashed = true → x.dev ≠ 0 ∧ (x.count ≠ 0 → ∃ k, (supers k).dev = x.dev) ∧
    ∀ k ty, (supers k).fs = some ty → (supers k).dev = x.dev →
      x.sb = some k ∧ (x.upToDate = true → x.contents = some (x.dev, ty))

/-- A superblock has a reference to the inode. -/
def Keeps (supers : ℕ → Super) (i : ℕ) : Prop :=
  ∃ k, (supers k).mounted = some i ∨ (supers k).covered = some i

/-- The inodes that the superblocks refer to. -/
structure Refs (supers : ℕ → Super) (all : ℕ → InodeCache.Inode Origin) : Prop where
  kept : ∀ i, Keeps supers i → (all i).count ≠ 0
  root : ∀ k i, (supers k).mounted = some i → (all i).sb = some k
  mount : ∀ i m, (all i).mount = some m →
    ∃ k, (supers k).covered = some i ∧ (supers k).mounted = some m
  apart : ∀ k l i, (supers k).covered = some i → (supers l).covered = some i → k = l
  never : ∀ k l i, (supers k).covered = some i → (supers l).mounted ≠ some i

/-- The cache and the superblocks agree. -/
structure Inv (s : State) : Prop where
  cache : InodeCache.Inv s.cache
  table : Table s.supers
  ok : ∀ i, InodeOk s.supers (s.cache.all i)
  refs : Refs s.supers s.cache.all

variable {s s' : State} {i j k : ℕ} {dev : UInt16} {ino : UInt32} {ty : FsType}
  {x y : InodeCache.Inode Origin} {c : Cache Origin} {supers supers' : ℕ → Super}

/-- The inode stays on its device, and less is claimed about it. -/
theorem InodeOk.mono (h : InodeOk supers x) (hhashed : y.hashed = true → x.hashed = true)
    (hdev : y.dev = x.dev) (hsb : y.sb = x.sb) (hcount : y.count ≠ 0 → x.count ≠ 0)
    (hcontents : y.upToDate = true → x.upToDate = true ∧ y.contents = x.contents) : InodeOk supers y := by
  intro hy
  obtain ⟨hne, hlive, hown⟩ := h (hhashed hy)
  rw [hdev, hsb]
  refine ⟨hne, fun hcount' => hlive (hcount hcount'), ?_⟩
  intro k ty hfs hk
  obtain ⟨hsb', hup⟩ := hown k ty hfs hk
  refine ⟨hsb', fun hup' => ?_⟩
  rw [(hcontents hup').2]
  exact hup (hcontents hup').1

theorem Inv.change (h : Inv s) (hcache : InodeCache.Inv c)
    (hall : ∀ j, c.all j = if j = i then x else s.cache.all j) (hx : InodeOk s.supers x)
    (hkeeps : Keeps s.supers i → x.count ≠ 0 ∧ x.sb = (s.cache.all i).sb)
    (hmount : ∀ m, x.mount = some m → (s.cache.all i).mount = some m) : Inv { s with cache := c } := by
  refine ⟨hcache, h.table, ?_, ?_⟩
  · intro j
    change InodeOk s.supers (c.all j)
    rw [hall]
    split_ifs
    · exact hx
    · exact h.ok j
  · constructor
    · intro j hj
      change (c.all j).count ≠ 0
      rw [hall]
      split_ifs with hji
      · rw [hji] at hj
        exact (hkeeps hj).1
      · exact h.refs.kept j hj
    · intro k j hk
      change (c.all j).sb = some k
      rw [hall]
      split_ifs with hji
      · rw [hji] at hk
        rw [(hkeeps ⟨k, Or.inl hk⟩).2]
        exact h.refs.root k i hk
      · exact h.refs.root k j hk
    · intro j m hj
      change (c.all j).mount = some m at hj
      rw [hall] at hj
      split_ifs at hj with hji
      · rw [hji]
        exact h.refs.mount i m (hmount m hj)
      · exact h.refs.mount j m hj
    · exact h.refs.apart
    · exact h.refs.never

theorem Inv.not_keeps (h : Inv s) (hcount : (s.cache.all i).count = 0) : ¬ Keeps s.supers i :=
  fun hkeeps => h.refs.kept i hkeeps hcount

theorem Inv.keeps_iff (h : Inv s) : kept s i = true ↔ Keeps s.supers i := by
  unfold kept Keeps
  simp only [List.any_eq_true, List.mem_range, Bool.or_eq_true, decide_eq_true_eq]
  constructor
  · rintro ⟨k, -, hk⟩
    exact ⟨k, hk⟩
  · rintro ⟨k, hk⟩
    refine ⟨k, ?_, hk⟩
    cases hfs : (s.supers k).fs with
    | none =>
      obtain ⟨-, hmounted, hcovered⟩ := h.table.free k hfs
      simp [hmounted, hcovered] at hk
    | some ty => exact (h.table.live k ty hfs).1

theorem Inv.iref (h : Inv s) (hcount : 0 < (s.cache.all i).count) : Inv { s with cache := iref i s.cache } := by
  refine h.change (h.cache.iref hcount) (set_all i _ s.cache) ?_ ?_ ?_
  · exact (h.ok i).mono id rfl rfl (fun _ => Nat.ne_of_gt hcount) fun hup => ⟨hup, rfl⟩
  · exact fun _ => ⟨Nat.succ_ne_zero _, rfl⟩
  · exact fun _ hm => hm

theorem putInode_fields (x : InodeCache.Inode Origin) :
    (putInode x).hashed = x.hashed ∧ (putInode x).dev = x.dev ∧ (putInode x).sb = x.sb ∧
      (putInode x).count = x.count - 1 ∧ (putInode x).mount = x.mount ∧
      ((putInode x).upToDate = true → x.upToDate = true) ∧ (putInode x).contents = x.contents := by
  unfold putInode retire writeInode
  split_ifs <;> simp_all

theorem putInode_ok (h : InodeOk supers x) : InodeOk supers (putInode x) := by
  obtain ⟨hhashed, hdev, hsb, hcount, -, hup, hcontents⟩ := putInode_fields x
  refine h.mono (fun hy => hhashed ▸ hy) hdev hsb ?_ fun hy => ⟨hup hy, hcontents⟩
  rw [hcount]
  omega

/-- A task drops a reference that is not one of a superblock. -/
theorem Inv.put (h : Inv s) (hcount : 0 < (s.cache.all i).count)
    (hkeeps : Keeps s.supers i → 1 < (s.cache.all i).count) : Inv (put i s) := by
  obtain ⟨-, -, hsb, hput, hmount, -, -⟩ := putInode_fields (s.cache.all i)
  refine h.change (h.cache.iput hcount) (iput_all i s.cache) (putInode_ok (h.ok i)) ?_ ?_
  · intro hi
    have := hkeeps hi
    rw [hput]
    exact ⟨by omega, hsb⟩
  · intro m hm
    rw [hmount] at hm
    exact hm

theorem Inv.fresh {r : ℕ × Cache Origin} (h : Inv s) (hget : getEmptyInode s.cache = some r)
    (hcache : InodeCache.Inv c) (hall : ∀ j, c.all j = if j = r.1 then x else r.2.all j)
    (hhashed : x.hashed = false) (hmount : x.mount = none) : Inv { s with cache := c } := by
  have hzero := (h.cache.getEmptyInode hget).2.2
  refine h.change (i := r.1) (x := x) hcache ?_ ?_ ?_ ?_
  · intro j
    rw [hall, getEmptyInode_all hget]
    split_ifs <;> rfl
  · intro hx
    rw [hhashed] at hx
    cases hx
  · exact fun hi => absurd hi (h.not_keeps hzero)
  · intro m hm
    rw [hmount] at hm
    cases hm

/-- An inode of the superblock, whether it has been read or not. -/
structure Mine (supers : ℕ → Super) (k : ℕ) (ty : FsType) (ino : UInt32)
    (x : InodeCache.Inode Origin) : Prop where
  hashed : x.hashed = true
  dev : x.dev = (supers k).dev
  ino : x.ino = ino
  sb : x.sb = some k
  count : x.count ≠ 0
  read : x.upToDate = true → x.contents = some ((supers k).dev, ty)

/-- `__iget` reads the inode from the filesystem of the superblock. -/
theorem Mine.refreshed (hx : Mine supers k ty ino x) (hop : (supers k).op = some ty) :
    Mine supers k ty ino (readInode (origin supers x.sb) (writeInode x)) ∧
      (readInode (origin supers x.sb) (writeInode x)).mount = x.mount ∧
      (readInode (origin supers x.sb) (writeInode x)).contents = some ((supers k).dev, ty) := by
  have horigin : origin supers x.sb = some ((supers k).dev, ty) := by
    rw [hx.sb]
    simp [origin, hop]
  have hup : (writeInode x).upToDate = x.upToDate ∧ (writeInode x).contents = x.contents ∧
      SameInode x (writeInode x) ∧ (writeInode x).count = x.count := by
    refine ⟨?_, ?_, writeInode_same x, writeInode_count x⟩
    · unfold writeInode
      split_ifs <;> rfl
    · unfold writeInode
      split_ifs <;> rfl
  obtain ⟨hup, hcontents, ⟨hdev, hino, hsb, hmount, hhashed, -⟩, hcount⟩ := hup
  rw [horigin]
  unfold readInode
  by_cases hread : x.upToDate = true
  · rw [hup, if_pos hread]
    refine ⟨⟨?_, ?_, ?_, ?_, ?_, ?_⟩, hmount, ?_⟩
    · rw [hhashed, hx.hashed]
    · rw [hdev, hx.dev]
    · rw [hino, hx.ino]
    · rw [hsb, hx.sb]
    · rw [hcount]
      exact hx.count
    · intro _
      rw [hcontents, hx.read hread]
    · rw [hcontents, hx.read hread]
  · rw [hup, if_neg hread]
    refine ⟨⟨?_, ?_, ?_, ?_, ?_, fun _ => rfl⟩, hmount, rfl⟩
    · exact hhashed.trans hx.hashed
    · exact hdev.trans hx.dev
    · exact hino.trans hx.ino
    · exact hsb.trans hx.sb
    · exact fun hzero => hx.count (hcount.symm.trans hzero)

theorem Mine.ok (hx : Mine supers k ty ino x) (htable : Table supers)
    (hfs : (supers k).fs = some ty) (hdev : ty.onDevice = true) : InodeOk supers x := by
  have hne : (supers k).dev ≠ 0 := (htable.live k ty hfs).2.2.mpr hdev
  intro _
  rw [hx.dev]
  refine ⟨hne, fun _ => ⟨k, rfl⟩, ?_⟩
  intro l ty' hl hlk
  obtain rfl := htable.devs k l hne hlk.symm
  rw [hfs, Option.some.injEq] at hl
  rw [← hl]
  exact ⟨hx.sb, hx.read⟩

theorem Inv.igetNear (h : Inv s) (hfs : (s.supers k).fs = some ty) (hdev : ty.onDevice = true)
    {r : ℕ × Cache Origin} (hget : igetNear s.supers k ino s.cache = some r) :
    Inv { s with cache := r.2 } ∧ Mine s.supers k ty ino (r.2.all r.1) ∧
      (r.2.all r.1).contents = some ((s.supers k).dev, ty) ∧
      (∀ m, (r.2.all r.1).mount = some m → (s.cache.all r.1).mount = some m) ∧
      (∀ j, j ≠ r.1 → r.2.all j = s.cache.all j) ∧
      (r.2.all r.1).count = (s.cache.all r.1).count + 1 := by
  have hop := (h.table.live k ty hfs).2.1
  obtain ⟨r, hr, rfl⟩ := Option.map_eq_some_iff.mp hget
  obtain ⟨y, hall, hcase⟩ := h.cache.iget_all hr
  have hmine : Mine s.supers k ty ino y := by
    obtain ⟨hkey, rfl⟩ | ⟨-, -, rfl⟩ := hcase
    · obtain ⟨hhashed, hkey⟩ := keyOf_eq_some.mp hkey
      rw [Prod.mk.injEq] at hkey
      obtain ⟨hsb, hread⟩ := (h.ok r.1 hhashed).2.2 k ty hfs hkey.1.symm
      rw [hkey.1] at hread
      exact ⟨hhashed, hkey.1, hkey.2, hsb, Nat.succ_ne_zero _, hread⟩
    · exact ⟨rfl, rfl, rfl, rfl, Nat.one_ne_zero, by simp [blank]⟩
  have hmore : y.count = (s.cache.all r.1).count + 1 := by
    obtain ⟨-, rfl⟩ | ⟨hzero, -, rfl⟩ := hcase
    · rfl
    · rw [hzero]
  have hkept : Keeps s.supers r.1 → y.sb = (s.cache.all r.1).sb := by
    intro hkeeps
    obtain ⟨-, rfl⟩ | ⟨hzero, -⟩ := hcase
    · rfl
    · exact absurd hzero (h.refs.kept r.1 hkeeps)
  have hmount : ∀ m, y.mount = some m → (s.cache.all r.1).mount = some m := by
    intro m hm
    obtain ⟨-, rfl⟩ | ⟨-, -, rfl⟩ := hcase
    · exact hm
    · cases hm
  have hself : r.2.all r.1 = y := (hall r.1).trans (if_pos rfl)
  obtain ⟨hread, hsame, hcontents⟩ := hmine.refreshed hop
  have hcount : (readInode (origin s.supers y.sb) (writeInode y)).count = y.count := by
    rw [readInode_count, writeInode_count]
  have hafter : ∀ j, (refresh r.1 (origin s.supers (r.2.all r.1).sb) r.2).all j =
      if j = r.1 then readInode (origin s.supers y.sb) (writeInode y) else s.cache.all j := by
    intro j
    unfold refresh
    rw [set_all, hself]
    split_ifs with hj
    · rfl
    · rw [hall, if_neg hj]
  have hr1 := (hafter r.1).trans (if_pos rfl)
  refine ⟨?_, ?_, ?_, ?_, ?_, ?_⟩
  · refine h.change ((h.cache.iget hr).refresh _ _) hafter (hread.ok h.table hfs hdev) ?_ ?_
    · exact fun hkeeps => ⟨hread.count, hread.sb.trans (hmine.sb.symm.trans (hkept hkeeps))⟩
    · intro m hm
      rw [hsame] at hm
      exact hmount m hm
  · rw [hr1]
    exact hread
  · rw [hr1]
    exact hcontents
  · intro m hm
    rw [hr1, hsame] at hm
    exact hmount m hm
  · exact fun j hj => (hafter j).trans (if_neg hj)
  · rw [hr1, hcount, hmore]

theorem Inv.cross {r : ℕ × Cache Origin} (h : Inv { s with cache := r.2 })
    (hcount : (r.2.all r.1).count ≠ 0) (hkeeps : Keeps s.supers r.1 → 1 < (r.2.all r.1).count) :
    Inv { s with cache := (cross r).2 } := by
  unfold SuperBlock.cross
  split
  · rename_i m hm
    obtain ⟨k, -, hmounted⟩ := h.refs.mount r.1 m hm
    have hpos := h.refs.kept m ⟨k, Or.inl hmounted⟩
    have href := h.iref (i := m) (Nat.pos_of_ne_zero hpos)
    have hmore : (r.2.all r.1).count ≤ ((InodeCache.iref m r.2).all r.1).count := by
      unfold InodeCache.iref
      rw [set_all]
      split_ifs with heq
      · rw [heq]
        exact Nat.le_succ _
      · exact le_rfl
    refine href.put (i := r.1) ?_ ?_
    · change 0 < ((InodeCache.iref m r.2).all r.1).count
      omega
    · intro hk
      have hone := hkeeps hk
      change 1 < ((InodeCache.iref m r.2).all r.1).count
      omega
  · exact h

theorem Inv.iget (h : Inv s) (hfs : (s.supers k).fs = some ty) (hdev : ty.onDevice = true)
    {r : ℕ × Cache Origin} (hget : SuperBlock.igetNear s.supers k ino s.cache = some r) :
    Inv { s with cache := (SuperBlock.cross r).2 } := by
  obtain ⟨hinv, hmine, -, -, -, hcount⟩ := h.igetNear hfs hdev hget
  refine hinv.cross hmine.count fun hkeeps => ?_
  have hpos := h.refs.kept r.1 hkeeps
  omega

theorem igetNear_congr (hdev : ∀ l, (supers' l).dev = (supers l).dev)
    (hop : ∀ l, (supers' l).op = (supers l).op) (k : ℕ) (ino : UInt32) (c : Cache Origin) :
    igetNear supers' k ino c = igetNear supers k ino c := by
  have horigin : origin supers' = origin supers := by
    funext sb
    simp only [origin, hdev, hop]
  unfold igetNear
  rw [hdev, horigin]

theorem getSuper_none (h : getSuper dev s = none) (hdev : dev ≠ 0) (htable : Table s.supers)
    (k : ℕ) : (s.supers k).dev ≠ dev := by
  intro hk
  have hlt : k < nrSuper := by
    cases hfs : (s.supers k).fs with
    | none => exact absurd ((htable.free k hfs).1.symm.trans hk).symm hdev
    | some ty => exact (htable.live k ty hfs).1
  have hfalse := List.find?_eq_none.mp h k (List.mem_range.mpr hlt)
  simp [hdev, hk] at hfalse

theorem freeSuper_some (h : freeSuper s = some k) : k < nrSuper ∧ (s.supers k).dev = 0 ∧ (s.supers k).fs = none := by
  have hmem := List.mem_of_find?_eq_some h
  have htrue := List.find?_some h
  simp only [Bool.and_eq_true, decide_eq_true_eq] at htrue
  exact ⟨List.mem_range.mp hmem, htrue⟩

theorem Inv.fits (h : Inv s) (hfits : Fits s dev ty k) (hhashed : (s.cache.all i).hashed = true)
    (hdev : (s.cache.all i).dev = dev) : (s.cache.all i).sb = some k ∧
      ((s.cache.all i).upToDate = true → (s.cache.all i).contents = some (dev, ty)) :=
  hfits i (h.cache.lt_of_hashed hhashed) hhashed hdev

theorem setSuper_supers (k : ℕ) (x : Super) (s : State) (l : ℕ) :
    (setSuper k x s).supers l = if l = k then x else s.supers l := update_apply ..

theorem Refs.congr {all : ℕ → InodeCache.Inode Origin} (h : Refs supers all)
    (hmounted : ∀ l, (supers' l).mounted = (supers l).mounted)
    (hcovered : ∀ l, (supers' l).covered = (supers l).covered) : Refs supers' all := by
  constructor
  · rintro i ⟨l, hl⟩
    rw [hmounted, hcovered] at hl
    exact h.kept i ⟨l, hl⟩
  · intro l i hl
    rw [hmounted] at hl
    exact h.root l i hl
  · intro i m hi
    obtain ⟨l, hl⟩ := h.mount i m hi
    refine ⟨l, ?_⟩
    rw [hmounted, hcovered]
    exact hl
  · intro l m i hl hm
    rw [hcovered] at hl hm
    exact h.apart l m i hl hm
  · intro l m i hl
    rw [hcovered] at hl
    rw [hmounted]
    exact h.never l m i hl

theorem Inv.occupy (h : Inv s) (hfree : freeSuper s = some k)
    (hty : dev ≠ 0 ↔ ty.onDevice = true) (hnew : dev ≠ 0 → getSuper dev s = none)
    (hfits : dev ≠ 0 → Fits s dev ty k) : Inv (setSuper k ⟨dev, some ty, none, none, some ty⟩ s) := by
  obtain ⟨hk, hdev, hfs⟩ := freeSuper_some hfree
  obtain ⟨-, hmounted, hcovered⟩ := h.table.free k hfs
  have hsupers := setSuper_supers k ⟨dev, some ty, none, none, some ty⟩ s
  have hmount : ∀ l, ((setSuper k ⟨dev, some ty, none, none, some ty⟩ s).supers l).mounted =
      (s.supers l).mounted := by
    intro l
    rw [hsupers]
    split_ifs with hl
    · rw [hl, hmounted]
    · rfl
  have hcover : ∀ l, ((setSuper k ⟨dev, some ty, none, none, some ty⟩ s).supers l).covered =
      (s.supers l).covered := by
    intro l
    rw [hsupers]
    split_ifs with hl
    · rw [hl, hcovered]
    · rfl
  refine ⟨h.cache, ⟨?_, ?_, ?_⟩, ?_, h.refs.congr hmount hcover⟩
  · intro l hl
    rw [hsupers] at hl ⊢
    split_ifs at hl ⊢
    exact h.table.free l hl
  · intro l ty' hl
    rw [hsupers] at hl ⊢
    split_ifs at hl ⊢ with hlk
    · rw [Option.some.injEq] at hl
      rw [hlk, ← hl]
      exact ⟨hk, rfl, hty⟩
    · exact h.table.live l ty' hl
  · intro l m hl hlm
    rw [hsupers] at hl hlm
    rw [hsupers] at hlm
    split_ifs at hl hlm with hlk hmk hmk
    · rw [hlk, hmk]
    · exact absurd hlm.symm (getSuper_none (hnew hl) hl h.table m)
    · rw [hlm] at hl
      exact absurd hlm (getSuper_none (hnew hl) hl h.table l)
    · exact h.table.devs l m hl hlm
  · intro i hi
    obtain ⟨hne, hlive, hown⟩ := h.ok i hi
    refine ⟨hne, ?_, ?_⟩
    · intro hcount
      obtain ⟨l, hl⟩ := hlive hcount
      refine ⟨l, ?_⟩
      rw [hsupers, if_neg]
      · exact hl
      · rintro rfl
        rw [hdev] at hl
        exact hne hl.symm
    · intro l ty' hl hldev
      rw [hsupers] at hl hldev
      split_ifs at hl hldev with hlk
      · rw [Option.some.injEq] at hl
        obtain rfl : dev = (s.cache.all i).dev := hldev
        rw [hlk, ← hl]
        exact h.fits (hfits hne) hi rfl
      · exact hown l ty' hl hldev

/-- A filesystem none of whose inodes is in use leaves its slot. -/
theorem Inv.vacate (h : Inv s) (hk : (s.supers k).mounted = none ∧ (s.supers k).covered = none)
    (hunused : ∀ i, (s.cache.all i).hashed = true → (s.cache.all i).count ≠ 0 →
      (s.cache.all i).dev ≠ (s.supers k).dev) (op : Option FsType) : Inv (setSuper k ⟨0, op, none, none, none⟩ s) := by
  have hsupers := setSuper_supers k ⟨0, op, none, none, none⟩ s
  have hmount : ∀ l, ((setSuper k ⟨0, op, none, none, none⟩ s).supers l).mounted =
      (s.supers l).mounted := by
    intro l
    rw [hsupers]
    split_ifs with hl
    · rw [hl, hk.1]
    · rfl
  have hcover : ∀ l, ((setSuper k ⟨0, op, none, none, none⟩ s).supers l).covered =
      (s.supers l).covered := by
    intro l
    rw [hsupers]
    split_ifs with hl
    · rw [hl, hk.2]
    · rfl
  refine ⟨h.cache, ⟨?_, ?_, ?_⟩, ?_, h.refs.congr hmount hcover⟩
  · intro l hl
    rw [hsupers] at hl ⊢
    split_ifs at hl ⊢
    · exact ⟨rfl, rfl, rfl⟩
    · exact h.table.free l hl
  · intro l ty' hl
    rw [hsupers] at hl ⊢
    split_ifs at hl ⊢
    exact h.table.live l ty' hl
  · intro l m hl hlm
    rw [hsupers] at hl hlm
    rw [hsupers] at hlm
    split_ifs at hl hlm with hlk hmk hmk
    · exact absurd rfl hl
    · exact absurd rfl hl
    · exact absurd hlm hl
    · exact h.table.devs l m hl hlm
  · intro i hi
    obtain ⟨hne, hlive, hown⟩ := h.ok i hi
    refine ⟨hne, ?_, ?_⟩
    · intro hcount
      obtain ⟨l, hl⟩ := hlive hcount
      refine ⟨l, ?_⟩
      rw [hsupers, if_neg]
      · exact hl
      · rintro rfl
        exact hunused i hi hcount hl.symm
    · intro l ty' hl hldev
      rw [hsupers] at hl hldev
      split_ifs at hl hldev
      exact hown l ty' hl hldev

theorem Inv.relink {x : Super} (h : Inv s) (hcache : InodeCache.Inv c)
    (hok : ∀ j, InodeOk s.supers (c.all j)) (hfs : (s.supers k).fs ≠ none)
    (hx : x.dev = (s.supers k).dev ∧ x.op = (s.supers k).op ∧ x.fs = (s.supers k).fs)
    (hrefs : Refs (update s.supers k x) c.all) : Inv (setSuper k x { s with cache := c }) := by
  have hsupers := setSuper_supers k x { s with cache := c }
  have hdev : ∀ l, ((setSuper k x { s with cache := c }).supers l).dev = (s.supers l).dev := by
    intro l
    rw [hsupers]
    split_ifs with hl
    · rw [hl, hx.1]
    · rfl
  have hfss : ∀ l, ((setSuper k x { s with cache := c }).supers l).fs = (s.supers l).fs := by
    intro l
    rw [hsupers]
    split_ifs with hl
    · rw [hl, hx.2.2]
    · rfl
  refine ⟨hcache, ⟨?_, ?_, ?_⟩, ?_, hrefs⟩
  · intro l hl
    rw [hfss] at hl
    have hlk : l ≠ k := by
      rintro rfl
      exact hfs hl
    rw [hsupers, if_neg hlk]
    exact h.table.free l hl
  · intro l ty hl
    rw [hfss] at hl
    obtain ⟨hlt, hop, hty⟩ := h.table.live l ty hl
    rw [hdev]
    refine ⟨hlt, ?_, hty⟩
    rw [hsupers]
    split_ifs with hlk
    · rw [hx.2.1, ← hlk]
      exact hop
    · exact hop
  · intro l m hl hlm
    rw [hdev] at hl hlm
    rw [hdev] at hlm
    exact h.table.devs l m hl hlm
  · intro i hi
    obtain ⟨hne, hlive, hown⟩ := hok i hi
    refine ⟨hne, ?_, ?_⟩
    · intro hcount
      obtain ⟨l, hl⟩ := hlive hcount
      exact ⟨l, (hdev l).trans hl⟩
    · intro l ty hl hldev
      rw [hfss] at hl
      rw [hdev] at hldev
      exact hown l ty hl hldev

theorem Inv.setRoot (h : Inv s) (hfs : (s.supers k).fs ≠ none)
    (hcovered : (s.supers k).covered = none) (hcount : (s.cache.all i).count ≠ 0)
    (hsb : (s.cache.all i).sb = some k) (hnever : ∀ l, (s.supers l).covered ≠ some i) :
    Inv (setSuper k { s.supers k with mounted := some i } s) := by
  have hsupers := setSuper_supers k { s.supers k with mounted := some i } s
  refine h.relink h.cache h.ok hfs ⟨rfl, rfl, rfl⟩ ⟨?_, ?_, ?_, ?_, ?_⟩
  · rintro j ⟨l, hl⟩
    change ((setSuper k _ s).supers l).mounted = _ ∨ ((setSuper k _ s).supers l).covered = _ at hl
    rw [hsupers] at hl
    split_ifs at hl
    · rcases hl with hl | hl
      · rw [Option.some.injEq] at hl
        rw [← hl]
        exact hcount
      · exact h.refs.kept j ⟨k, Or.inr hl⟩
    · exact h.refs.kept j ⟨l, hl⟩
  · intro l j hl
    change ((setSuper k _ s).supers l).mounted = _ at hl
    rw [hsupers] at hl
    split_ifs at hl with hlk
    · rw [Option.some.injEq] at hl
      rw [← hl, hlk]
      exact hsb
    · exact h.refs.root l j hl
  · intro j m hj
    obtain ⟨l, hl, hm⟩ := h.refs.mount j m hj
    have hlk : l ≠ k := by
      rintro rfl
      rw [hcovered] at hl
      cases hl
    refine ⟨l, ?_⟩
    change ((setSuper k _ s).supers l).covered = _ ∧ ((setSuper k _ s).supers l).mounted = _
    rw [hsupers, if_neg hlk]
    exact ⟨hl, hm⟩
  all_goals
    have hcover : ∀ l, ((setSuper k { s.supers k with mounted := some i } s).supers l).covered =
        (s.supers l).covered := by
      intro l
      rw [hsupers]
      split_ifs with hlk
      · rw [hlk]
      · rfl
  · intro l m j hl hm
    change ((setSuper k _ s).supers _).covered = _ at hl hm
    rw [hcover] at hl hm
    exact h.refs.apart l m j hl hm
  · intro l m j hl
    change ((setSuper k _ s).supers _).covered = _ at hl
    rw [hcover] at hl
    change ((setSuper k _ s).supers m).mounted ≠ _
    rw [hsupers]
    split_ifs
    · rw [ne_eq, Option.some.injEq]
      rintro rfl
      exact hnever l hl
    · exact h.refs.never l m j hl

/-- A superblock that covers nothing gives up its root inode. -/
theorem Inv.clearRoot (h : Inv s) (hfs : (s.supers k).fs ≠ none) (hcovered : (s.supers k).covered = none) :
    Inv (setSuper k { s.supers k with mounted := none } s) := by
  have hsupers := setSuper_supers k { s.supers k with mounted := none } s
  have hcover : ∀ l, ((setSuper k { s.supers k with mounted := none } s).supers l).covered =
      (s.supers l).covered := by
    intro l
    rw [hsupers]
    split_ifs with hlk
    · rw [hlk]
    · rfl
  have hmounted : ∀ l j, ((setSuper k { s.supers k with mounted := none } s).supers l).mounted =
      some j → (s.supers l).mounted = some j := by
    intro l j hl
    rw [hsupers] at hl
    split_ifs at hl
    exact hl
  refine h.relink h.cache h.ok hfs ⟨rfl, rfl, rfl⟩ ⟨?_, ?_, ?_, ?_, ?_⟩
  · rintro j ⟨l, hl | hl⟩
    · exact h.refs.kept j ⟨l, Or.inl (hmounted l j hl)⟩
    · exact h.refs.kept j ⟨l, Or.inr ((hcover l).symm.trans hl)⟩
  · exact fun l j hl => h.refs.root l j (hmounted l j hl)
  · intro j m hj
    obtain ⟨l, hl, hm⟩ := h.refs.mount j m hj
    refine ⟨l, (hcover l).trans hl, ?_⟩
    change ((setSuper k _ s).supers l).mounted = _
    rw [hsupers, if_neg]
    · exact hm
    · rintro rfl
      rw [hcovered] at hl
      cases hl
  · exact fun l m j hl hm => h.refs.apart l m j ((hcover l).symm.trans hl) ((hcover m).symm.trans hm)
  · exact fun l m j hl hm => h.refs.never l m j ((hcover l).symm.trans hl) (hmounted m j hm)

/-- The mount point of a directory changes nothing else of it. -/
theorem Inv.setMount_cache (h : Inv s) (dir : ℕ) (m : Option ℕ) :
    InodeCache.Inv (setMount dir m s).cache ∧ ∀ j, InodeOk s.supers ((setMount dir m s).cache.all j) := by
  refine ⟨h.cache.set_same rfl Iff.rfl, fun j => ?_⟩
  unfold setMount
  rw [set_all]
  split_ifs with hj
  · exact (h.ok dir).mono id rfl rfl id fun hup => ⟨hup, rfl⟩
  · exact h.ok j

theorem setMount_all (dir : ℕ) (m : Option ℕ) (s : State) (j : ℕ) :
    (setMount dir m s).cache.all j =
      if j = dir then { s.cache.all dir with mount := m } else s.cache.all j := set_all ..

theorem setMount_others (dir : ℕ) (m : Option ℕ) (s : State) (j : ℕ) :
    ((setMount dir m s).cache.all j).count = (s.cache.all j).count ∧
      ((setMount dir m s).cache.all j).sb = (s.cache.all j).sb := by
  rw [setMount_all]
  split_ifs with hj
  · rw [hj]
    exact ⟨rfl, rfl⟩
  · exact ⟨rfl, rfl⟩

/-- A superblock is mounted on a directory that no superblock refers to. -/
theorem Inv.cover {dir : ℕ} (h : Inv s) (hfs : (s.supers k).fs ≠ none)
    (hcovered : (s.supers k).covered = none) (hcount : (s.cache.all dir).count ≠ 0) (hdir : ¬ Keeps s.supers dir) :
    Inv (setMount dir (s.supers k).mounted (setSuper k { s.supers k with covered := some dir } s)) := by
  have hsupers := setSuper_supers k { s.supers k with covered := some dir } s
  have hmount : ∀ l, ((setSuper k { s.supers k with covered := some dir } s).supers l).mounted =
      (s.supers l).mounted := by
    intro l
    rw [hsupers]
    split_ifs with hlk
    · rw [hlk]
    · rfl
  have hcases : ∀ l j, ((setSuper k { s.supers k with covered := some dir } s).supers l).covered =
      some j → l = k ∧ j = dir ∨ l ≠ k ∧ (s.supers l).covered = some j := by
    intro l j hl
    rw [hsupers] at hl
    split_ifs at hl with hlk
    · rw [Option.some.injEq] at hl
      exact Or.inl ⟨hlk, hl.symm⟩
    · exact Or.inr ⟨hlk, hl⟩
  obtain ⟨hcache, hok⟩ := h.setMount_cache dir (s.supers k).mounted
  refine h.relink hcache hok hfs ⟨rfl, rfl, rfl⟩ ⟨?_, ?_, ?_, ?_, ?_⟩
  · intro j hj
    rw [(setMount_others dir _ s j).1]
    obtain ⟨l, hl | hl⟩ := hj
    · exact h.refs.kept j ⟨l, Or.inl ((hmount l).symm.trans hl)⟩
    · obtain ⟨-, rfl⟩ | ⟨-, hl⟩ := hcases l j hl
      · exact hcount
      · exact h.refs.kept j ⟨l, Or.inr hl⟩
  · intro l j hl
    rw [(setMount_others dir _ s j).2]
    exact h.refs.root l j ((hmount l).symm.trans hl)
  · intro j m hj
    rw [setMount_all] at hj
    split_ifs at hj with hjd
    · refine ⟨k, ?_, (hmount k).trans hj⟩
      change ((setSuper k _ s).supers k).covered = _
      rw [hsupers, if_pos rfl, hjd]
    · obtain ⟨l, hl, hm⟩ := h.refs.mount j m hj
      refine ⟨l, ?_, (hmount l).trans hm⟩
      change ((setSuper k _ s).supers l).covered = _
      rw [hsupers, if_neg]
      · exact hl
      · rintro rfl
        rw [hcovered] at hl
        cases hl
  · intro l m j hl hm
    obtain ⟨rfl, rfl⟩ | ⟨-, hl'⟩ := hcases l j hl
    · obtain ⟨rfl, -⟩ | ⟨-, hm'⟩ := hcases m j hm
      · rfl
      · exact absurd ⟨m, Or.inr hm'⟩ hdir
    · obtain ⟨-, rfl⟩ | ⟨-, hm'⟩ := hcases m j hm
      · exact absurd ⟨l, Or.inr hl'⟩ hdir
      · exact h.refs.apart l m j hl' hm'
  · intro l m j hl hm
    have hm' := (hmount m).symm.trans hm
    obtain ⟨-, rfl⟩ | ⟨-, hl⟩ := hcases l j hl
    · exact hdir ⟨m, Or.inl hm'⟩
    · exact h.refs.never l m j hl hm'

theorem Inv.uncover {dir : ℕ} (h : Inv s) (hcovered : (s.supers k).covered = some dir) :
    Inv (setMount dir none (setSuper k { s.supers k with covered := none } s)) := by
  have hfs : (s.supers k).fs ≠ none := by
    intro hnone
    rw [(h.table.free k hnone).2.2] at hcovered
    cases hcovered
  have hsupers := setSuper_supers k { s.supers k with covered := none } s
  have hmount : ∀ l, ((setSuper k { s.supers k with covered := none } s).supers l).mounted =
      (s.supers l).mounted := by
    intro l
    rw [hsupers]
    split_ifs with hlk
    · rw [hlk]
    · rfl
  have hcover : ∀ l j, ((setSuper k { s.supers k with covered := none } s).supers l).covered =
      some j → (s.supers l).covered = some j := by
    intro l j hl
    rw [hsupers] at hl
    split_ifs at hl
    exact hl
  obtain ⟨hcache, hok⟩ := h.setMount_cache dir none
  refine h.relink hcache hok hfs ⟨rfl, rfl, rfl⟩ ⟨?_, ?_, ?_, ?_, ?_⟩
  · intro j hj
    rw [(setMount_others dir _ s j).1]
    obtain ⟨l, hl | hl⟩ := hj
    · exact h.refs.kept j ⟨l, Or.inl ((hmount l).symm.trans hl)⟩
    · exact h.refs.kept j ⟨l, Or.inr (hcover l j hl)⟩
  · intro l j hl
    rw [(setMount_others dir _ s j).2]
    exact h.refs.root l j ((hmount l).symm.trans hl)
  · intro j m hj
    rw [setMount_all] at hj
    split_ifs at hj with hjd
    obtain ⟨l, hl, hm⟩ := h.refs.mount j m hj
    refine ⟨l, ?_, (hmount l).trans hm⟩
    change ((setSuper k _ s).supers l).covered = _
    rw [hsupers, if_neg]
    · exact hl
    · rintro rfl
      rw [hcovered, Option.some.injEq] at hl
      exact hjd hl.symm
  · exact fun l m j hl hm => h.refs.apart l m j (hcover l j hl) (hcover m j hm)
  · exact fun l m j hl hm => h.refs.never l m j (hcover l j hl) ((hmount m).symm.trans hm)

/-- The inodes in use, and those that superblocks refer to, stay as they are. -/
def Undisturbed (s s' : State) : Prop :=
  ∀ j, (s.cache.all j).count ≠ 0 →
    s'.cache.all j = s.cache.all j ∧ (Keeps s'.supers j → Keeps s.supers j)

theorem undisturbed_refl (s : State) : Undisturbed s s := fun _ _ => ⟨rfl, id⟩

theorem Inv.rootInode (h : Inv s) (hfs : (s.supers k).fs = some ty)
    (hnew : ∀ j, (s.cache.all j).hashed = true → (s.cache.all j).dev = (s.supers k).dev →
      (s.cache.all j).count = 0) {r : ℕ × Cache Origin}
    (hroot : rootInode s.supers k ty s.cache = some r) :
    Inv { s with cache := r.2 } ∧ (s.cache.all r.1).count = 0 ∧ (r.2.all r.1).count = 1 ∧
      (r.2.all r.1).sb = some k ∧ ∀ j, j ≠ r.1 → r.2.all j = s.cache.all j := by
  unfold SuperBlock.rootInode at hroot
  split_ifs at hroot with hdev
  · obtain ⟨r, hget, rfl⟩ := Option.map_eq_some_iff.mp hroot
    obtain ⟨hinv, hmine, -, hmount, hothers, hmore⟩ := h.igetNear hfs hdev hget
    have hzero : (s.cache.all r.1).count = 0 := by
      obtain ⟨r', hr', rfl⟩ := Option.map_eq_some_iff.mp hget
      obtain ⟨y, -, hcase⟩ := h.cache.iget_all hr'
      obtain ⟨hkey, -⟩ | ⟨hzero, -⟩ := hcase
      · obtain ⟨hhashed, hkey⟩ := keyOf_eq_some.mp hkey
        rw [Prod.mk.injEq] at hkey
        exact hnew r'.1 hhashed hkey.1
      · exact hzero
    -- the inode was not in use, so nothing is mounted on it
    have hnone : (r.2.all r.1).mount = none := by
      by_contra hsome
      obtain ⟨m, hm⟩ := Option.ne_none_iff_exists'.mp hsome
      obtain ⟨l, hl, -⟩ := h.refs.mount r.1 m (hmount m hm)
      exact h.refs.kept r.1 ⟨l, Or.inr hl⟩ hzero
    have hcross : SuperBlock.cross r = r := by
      unfold SuperBlock.cross
      rw [hnone]
    rw [hcross]
    rw [hzero] at hmore
    exact ⟨hinv, hzero, hmore, hmine.sb, hothers⟩
  · obtain ⟨r, hget, rfl⟩ := Option.map_eq_some_iff.mp hroot
    have hself := (getEmptyInode_all hget r.1).trans (if_pos rfl)
    refine ⟨?_, (h.cache.getEmptyInode hget).2.2, ?_, ?_, ?_⟩
    · refine h.fresh hget (h.cache.mark hget ?_ rfl) (set_all r.1 _ r.2) rfl rfl
      rw [hself]
      rfl
    · change ((InodeCache.set r.1 _ r.2).all r.1).count = 1
      rw [set_all, if_pos rfl, hself]
    · change ((InodeCache.set r.1 _ r.2).all r.1).sb = some k
      rw [set_all, if_pos rfl]
    · intro j hj
      change (InodeCache.set r.1 _ r.2).all j = _
      rw [set_all, if_neg hj, getEmptyInode_all hget, if_neg hj]

theorem rootInode_congr (hdev : ∀ l, (supers' l).dev = (supers l).dev)
    (hop : ∀ l, (supers' l).op = (supers l).op) (k : ℕ) (ty : FsType) (c : Cache Origin) :
    rootInode supers' k ty c = rootInode supers k ty c := by
  unfold rootInode allocInode
  rw [igetNear_congr hdev hop, hdev]

/-- A filesystem has taken a slot and has its root inode, which was not in use before. -/
theorem Inv.newRoot (h : Inv s) (hfree : freeSuper s = some k) (hty : dev ≠ 0 ↔ ty.onDevice = true)
    (hnew : dev ≠ 0 → getSuper dev s = none) (hfits : dev ≠ 0 → Fits s dev ty k)
    {r : ℕ × Cache Origin}
    (hroot : SuperBlock.rootInode
      (update s.supers k { s.supers k with dev := dev, op := some ty }) k ty s.cache =
        some r) :
    Inv (setSuper k ⟨dev, some ty, none, none, some ty⟩ { s with cache := r.2 }) ∧
      (s.cache.all r.1).count = 0 ∧ (r.2.all r.1).count = 1 ∧ (r.2.all r.1).sb = some k ∧
      (∀ j, j ≠ r.1 → r.2.all j = s.cache.all j) ∧
      ∀ j, j ≠ r.1 → (s.cache.all j).hashed = true → (s.cache.all j).count ≠ 0 → (s.cache.all j).dev ≠ dev := by
  have hocc := h.occupy hfree hty hnew hfits
  have hslot := setSuper_supers k ⟨dev, some ty, none, none, some ty⟩ s
  have hself := (hslot k).trans (if_pos rfl)
  -- the type is written down after the root inode has been got, which does not look at it
  have hroot' : SuperBlock.rootInode (setSuper k ⟨dev, some ty, none, none, some ty⟩ s).supers k ty
      s.cache = some r := by
    rw [← hroot]
    refine rootInode_congr (fun l => ?_) (fun l => ?_) k ty s.cache
    · rw [hslot, update_apply]
      split_ifs <;> rfl
    · rw [hslot, update_apply]
      split_ifs <;> rfl
  have hunused : ∀ j, (s.cache.all j).hashed = true → (s.cache.all j).dev = dev →
      (s.cache.all j).count = 0 := by
    intro j hj hjdev
    obtain ⟨hne, hlive, -⟩ := h.ok j hj
    by_contra hcount
    obtain ⟨l, hl⟩ := hlive hcount
    rw [hjdev] at hl hne
    exact getSuper_none (hnew hne) hne h.table l hl
  obtain ⟨hinv, hcount, hcount', hsb, hothers⟩ :=
    hocc.rootInode (by rw [hself]) (by rw [hself]; exact hunused) hroot'
  exact ⟨hinv, hcount, hcount', hsb, hothers, fun j _ hj hjcount hjdev => hjcount (hunused j hj hjdev)⟩

theorem Inv.newSuper {probe : Probe} (h : Inv s) (hfree : freeSuper s = some k)
    (hty : ty.onDevice = false → dev = 0) (hnew : dev ≠ 0 → getSuper dev s = none)
    (hfits : dev ≠ 0 → Fits s dev ty k) {r : Option ℕ × State} (hsuper : newSuper k dev ty probe s = some r) :
    Inv r.2 ∧ Undisturbed s r.2 ∧ ∀ l, r.1 = some l → (r.2.supers l).fs ≠ none := by
  obtain ⟨hk, hdevk, hfs⟩ := freeSuper_some hfree
  obtain ⟨-, hmountedk, hcoveredk⟩ := h.table.free k hfs
  unfold SuperBlock.newSuper at hsuper
  by_cases hrefused : probe = .refused ∨ ty.onDevice ∧ dev = 0
  · rw [if_pos hrefused] at hsuper
    cases hsuper
    exact ⟨h, undisturbed_refl s, fun l hl => absurd hl (by simp)⟩
  rw [if_neg hrefused] at hsuper
  obtain ⟨-, hzero⟩ := not_or.mp hrefused
  have hiff : dev ≠ 0 ↔ ty.onDevice = true := by
    constructor
    · intro hdev
      by_contra hpseudo
      exact hdev (hty (by simpa using hpseudo))
    · exact fun hdev hz => hzero ⟨hdev, hz⟩
  obtain ⟨p, hroot, hr⟩ := Option.map_eq_some_iff.mp hsuper
  obtain ⟨hinv, hcount, hcount', hsb, hothers, hunused⟩ :=
    h.newRoot hfree hiff hnew hfits hroot
  have hne : ∀ j, (s.cache.all j).count ≠ 0 → j ≠ p.1 := by
    rintro j hj rfl
    exact hj hcount
  have hslot := setSuper_supers k ⟨dev, some ty, none, none, some ty⟩ { s with cache := p.2 }
  have hself := (hslot k).trans (if_pos rfl)
  have hnot : ¬ Keeps (setSuper k ⟨dev, some ty, none, none, some ty⟩
      { s with cache := p.2 }).supers p.1 := by
    rintro ⟨l, hl⟩
    rw [hslot] at hl
    split_ifs at hl
    · simp at hl
    · exact h.not_keeps hcount ⟨l, hl⟩
  split_ifs at hr with hlate
  · obtain rfl := hr
    have hput := hinv.put (i := p.1) (by change 0 < (p.2.all p.1).count; omega) fun hkeeps => absurd hkeeps hnot
    have hvacate := hput.vacate (k := k) (by constructor <;> rw [SuperBlock.put, hself]) ?_ (some ty)
    · have heq : setSuper k ⟨0, some ty, none, none, none⟩ (SuperBlock.put p.1
          (setSuper k ⟨dev, some ty, none, none, some ty⟩ { s with cache := p.2 })) =
          setSuper k { s.supers k with op := some ty, dev := 0, mounted := none }
            { s with cache := InodeCache.iput p.1 p.2 } := by
        unfold setSuper SuperBlock.put
        dsimp only
        rw [update_idem, hcoveredk, hfs]
      rw [heq] at hvacate
      refine ⟨hvacate, ?_, fun l hl => absurd hl (by simp)⟩
      intro j hj
      refine ⟨?_, ?_⟩
      · change (InodeCache.iput p.1 p.2).all j = _
        rw [iput_all, if_neg (hne j hj), hothers j (hne j hj)]
      · rintro ⟨l, hl⟩
        refine ⟨l, ?_⟩
        rw [setSuper_supers] at hl
        split_ifs at hl with hlk
        · rw [hcoveredk] at hl
          simp at hl
        · exact hl
    · intro j hj hjcount
      change ((InodeCache.iput p.1 p.2).all j).hashed = true at hj
      change ((InodeCache.iput p.1 p.2).all j).count ≠ 0 at hjcount
      change ((InodeCache.iput p.1 p.2).all j).dev ≠ _
      rw [iput_all] at hj hjcount ⊢
      split_ifs at hj hjcount ⊢ with hjp
      · rw [(putInode_fields _).2.2.2.1, hcount'] at hjcount
        exact absurd rfl hjcount
      · rw [hothers j hjp] at hj hjcount ⊢
        rw [SuperBlock.put, hself]
        exact hunused j hjp hj hjcount
  · obtain rfl := hr
    have hset := hinv.setRoot (k := k) (i := p.1) (by simp [hself]) (by rw [hself])
      (by change (p.2.all p.1).count ≠ 0; omega) hsb fun l hl => hnot ⟨l, Or.inr hl⟩
    have heq : setSuper k { (setSuper k ⟨dev, some ty, none, none, some ty⟩
        { s with cache := p.2 }).supers k with mounted := some p.1 }
        (setSuper k ⟨dev, some ty, none, none, some ty⟩ { s with cache := p.2 }) =
        setSuper k { s.supers k with dev := dev, op := some ty, fs := some ty, mounted := some p.1 }
          { s with cache := p.2 } := by
      rw [hself]
      unfold setSuper
      dsimp only
      rw [update_idem, hcoveredk]
    rw [heq] at hset
    refine ⟨hset, ?_, ?_⟩
    · intro j hj
      refine ⟨hothers j (hne j hj), ?_⟩
      rintro ⟨l, hl⟩
      refine ⟨l, ?_⟩
      rw [setSuper_supers] at hl
      split_ifs at hl with hlk
      · rw [hcoveredk] at hl
        rcases hl with hl | hl
        · exact absurd (Option.some.inj hl).symm (hne j hj)
        · cases hl
      · exact hl
    · intro l hl
      obtain rfl : k = l := Option.some.inj hl
      rw [setSuper_supers, if_pos rfl]
      simp

theorem Inv.readSuper {probe : Probe} (h : Inv s) (hty : ty.onDevice = false → dev = 0)
    (hgood : dev ≠ 0 → getSuper dev s = none → ∀ k, freeSuper s = some k → Fits s dev ty k)
    {r : Option ℕ × State} (hread : readSuper dev ty probe s = some r) :
    Inv r.2 ∧ Undisturbed s r.2 ∧ ∀ l, r.1 = some l → (r.2.supers l).fs ≠ none := by
  unfold SuperBlock.readSuper at hread
  split at hread
  · rename_i k hfound
    cases hread
    refine ⟨h, undisturbed_refl s, ?_⟩
    intro l hl
    cases hl
    split_ifs at hfound with hdev
    · have htrue := List.find?_some hfound
      simp only [ne_eq, hdev, not_false_eq_true, decide_true, Bool.true_and, decide_eq_true_eq] at htrue
      intro hfs
      exact hdev (htrue.symm.trans (h.table.free k hfs).1)
    · have htrue := List.find?_some hfound
      simp only [decide_eq_true_eq] at htrue
      simp [htrue]
  · rename_i hfound
    split at hread
    · cases hread
      exact ⟨h, undisturbed_refl s, fun l hl => absurd hl (by simp)⟩
    · rename_i k hfree
      have hnew : dev ≠ 0 → getSuper dev s = none := by
        intro hdev
        rw [if_pos hdev] at hfound
        exact hfound
      exact h.newSuper hfree hty hnew (fun hdev => hgood hdev (hnew hdev) k hfree) hread

theorem Inv.mountRoot {probe : Probe} (h : Inv s) (hty : ty.onDevice = true)
    (hgood : dev ≠ 0 → getSuper dev s = none → ∀ k, freeSuper s = some k → Fits s dev ty k)
    (hmount : mountRoot dev ty probe s = some s') : Inv s' := by
  obtain ⟨r, hread, rfl⟩ := Option.map_eq_some_iff.mp hmount
  obtain ⟨hinv, -, -⟩ := h.readSuper (by simp [hty]) hgood hread
  split
  · exact hinv
  · rename_i i hi
    obtain ⟨k, -, hk⟩ := Option.bind_eq_some_iff.mp hi
    have hcount := hinv.refs.kept i ⟨k, Or.inl hk⟩
    have hone := hinv.iref (Nat.pos_of_ne_zero hcount)
    refine hone.iref (i := i) ?_
    change 0 < ((InodeCache.iref i r.2.cache).all i).count
    unfold InodeCache.iref
    rw [set_all, if_pos rfl]
    exact Nat.succ_pos _

theorem Inv.doMount {dir : ℕ} {isDir room : Bool} {probe : Probe} (h : Inv s)
    (hdir : 0 < (s.cache.all dir).count - (if kept s dir then 1 else 0))
    (hty : ty.onDevice = false → dev = 0)
    (hgood : dev ≠ 0 → getSuper dev s = none → ∀ k, freeSuper s = some k → Fits s dev ty k)
    (hmount : doMount dir isDir dev ty probe room s = some s') : Inv s' := by
  have hpos : 0 < (s.cache.all dir).count := by omega
  have hput : Inv (SuperBlock.put dir s) := by
    refine h.put hpos fun hkeeps => ?_
    rw [if_pos (h.keeps_iff.mpr hkeeps)] at hdir
    omega
  unfold SuperBlock.doMount at hmount
  by_cases hbusy : !isDir ∨ (s.cache.all dir).count ≠ 1 ∨ (s.cache.all dir).mount ≠ none
  · rw [if_pos hbusy] at hmount
    cases hmount
    exact hput
  rw [if_neg hbusy] at hmount
  -- the only reference to the directory is the one of the caller
  have hone : (s.cache.all dir).count = 1 := by
    by_contra hne
    exact hbusy (Or.inr (Or.inl hne))
  have hfree : ¬ Keeps s.supers dir := by
    intro hkeeps
    rw [if_pos (h.keeps_iff.mpr hkeeps), hone] at hdir
    exact absurd hdir (by simp)
  by_cases hmay : dev ≠ 0 ∧ !fsMayMount dev s
  · rw [if_pos hmay] at hmount
    cases hmount
    exact hput
  rw [if_neg hmay] at hmount
  obtain ⟨r, hread, hs'⟩ := Option.map_eq_some_iff.mp hmount
  obtain ⟨hinv, hsame, hfs⟩ := h.readSuper hty hgood hread
  obtain ⟨hdir', hkeeps'⟩ := hsame dir (Nat.ne_of_gt hpos)
  have hfree' : ¬ Keeps r.2.supers dir := fun hkeeps => hfree (hkeeps' hkeeps)
  have hput' : Inv (SuperBlock.put dir r.2) := by
    refine hinv.put ?_ fun hkeeps => absurd hkeeps hfree'
    rw [hdir']
    exact hpos
  split at hs'
  · obtain rfl := hs'
    exact hput'
  · rename_i k hk
    split_ifs at hs' with hcovered
    · obtain rfl := hs'
      exact hput'
    · obtain rfl := hs'
      exact hput'
    · obtain rfl := hs'
      refine hinv.cover (hfs k hk) (by simpa using hcovered) ?_ hfree'
      rw [hdir']
      exact Nat.ne_of_gt hpos

theorem fsMayUmount_spec (h : Inv s) (hmay : fsMayUmount k (s.supers k).mounted s = true)
    (hsb : (s.cache.all i).sb = some k) (hcount : (s.cache.all i).count ≠ 0) :
    (s.supers k).mounted = some i ∧ (s.cache.all i).count = 1 := by
  have hmem : i ∈ s.cache.lru := h.cache.mem_lru.mpr (h.cache.lt_of_count hcount)
  have htrue := List.all_eq_true.mp hmay i hmem
  simp only [ne_eq, hsb, not_true_eq_false, decide_false, hcount, Bool.false_or, Bool.and_eq_true,
    decide_eq_true_eq] at htrue
  exact ⟨htrue.1.symm, htrue.2⟩

/-- The directory is given back when the superblock has been taken off it. -/
theorem Inv.uncoverPut {dir : ℕ} (h : Inv s) (hcovered : (s.supers k).covered = some dir) :
    Inv (SuperBlock.put dir (setMount dir none (setSuper k { s.supers k with covered := none } s))) := by
  have hoff := h.uncover hcovered
  have hcount := h.refs.kept dir ⟨k, Or.inr hcovered⟩
  have hsame := (setMount_others dir none (setSuper k { s.supers k with covered := none } s) dir).1
  refine hoff.put ?_ ?_
  · rw [hsame]
    exact Nat.pos_of_ne_zero hcount
  · rintro ⟨l, hl⟩
    change ((setSuper k _ s).supers l).mounted = _ ∨ ((setSuper k _ s).supers l).covered = _ at hl
    rw [setSuper_supers] at hl
    split_ifs at hl with hlk
    · rcases hl with hl | hl
      · exact absurd hl (h.refs.never k k dir hcovered)
      · cases hl
    · rcases hl with hl | hl
      · exact absurd hl (h.refs.never k l dir hcovered)
      · exact absurd (h.refs.apart k l dir hcovered hl).symm hlk

/-- The directory is given back. -/
def uncovered (k dir : ℕ) (s : State) : State :=
  SuperBlock.put dir (setMount dir none (setSuper k { s.supers k with covered := none } s))

theorem uncovered_supers (k dir : ℕ) (s : State) (l : ℕ) : (uncovered k dir s).supers l =
    if l = k then { s.supers k with covered := none } else s.supers l := setSuper_supers ..

theorem uncovered_all (k dir : ℕ) (s : State) (j : ℕ) : (uncovered k dir s).cache.all j =
    if j = dir then putInode { s.cache.all dir with mount := none } else s.cache.all j := by
  change (InodeCache.iput dir (setMount dir none s).cache).all j = _
  rw [iput_all, setMount_all, if_pos rfl, setMount_all]
  split_ifs <;> rfl

theorem Inv.unused_of_may {dir : ℕ} (h : Inv s) (hcovered : (s.supers k).covered = some dir)
    (hmay : fsMayUmount k (s.supers k).mounted s = true) (hhashed : ((uncovered k dir s).cache.all i).hashed = true)
    (hcount : ((uncovered k dir s).cache.all i).count ≠ 0)
    (hdev : ((uncovered k dir s).cache.all i).dev = (s.supers k).dev) :
    (s.supers k).mounted = some i ∧ ((uncovered k dir s).cache.all i).count = 1 := by
  obtain ⟨ty, hfs⟩ : ∃ ty, (s.supers k).fs = some ty := by
    refine Option.ne_none_iff_exists'.mp fun hnone => ?_
    rw [(h.table.free k hnone).2.2] at hcovered
    cases hcovered
  rw [uncovered_all] at hhashed hcount hdev ⊢
  split_ifs at hhashed hcount hdev ⊢ with hi
  · obtain ⟨hh, hd, -, hc, -⟩ := putInode_fields { s.cache.all dir with mount := none }
    rw [hh] at hhashed
    rw [hd] at hdev
    rw [hc] at hcount
    have hsb := ((h.ok dir hhashed).2.2 k ty hfs hdev.symm).1
    have hdir : (s.cache.all dir).count ≠ 0 := h.refs.kept dir ⟨k, Or.inr hcovered⟩
    exact absurd (fsMayUmount_spec h hmay hsb hdir).1 (h.refs.never k k dir hcovered)
  · have hsb := ((h.ok i hhashed).2.2 k ty hfs hdev.symm).1
    exact fsMayUmount_spec h hmay hsb hcount

theorem Inv.doUmountSb (h : Inv s) : Inv (doUmountSb k s) := by
  unfold SuperBlock.doUmountSb
  split
  · exact h
  rename_i dir hcovered
  split_ifs with hbusy
  · exact h
  have hmay : fsMayUmount k (s.supers k).mounted s = true := by simpa using hbusy
  have hoff : Inv (uncovered k dir s) := h.uncoverPut hcovered
  have hslot : (uncovered k dir s).supers k = { s.supers k with covered := none } :=
    (uncovered_supers k dir s k).trans (if_pos rfl)
  have hfs : ((uncovered k dir s).supers k).fs ≠ none := by
    rw [hslot]
    intro hnone
    rw [(h.table.free k hnone).2.2] at hcovered
    cases hcovered
  have hleft := hoff.clearRoot hfs (by rw [hslot])
  cases hmounted : (s.supers k).mounted with
  | none =>
    have hvacate := hoff.vacate (k := k) (by rw [hslot]; exact ⟨hmounted, rfl⟩) ?_ (s.supers k).op
    · have heq : setSuper k ⟨0, (s.supers k).op, none, none, none⟩ (uncovered k dir s) =
          setSuper k { s.supers k with covered := none, mounted := none, fs := none, dev := 0 }
            (SuperBlock.put dir (setMount dir none s)) := by
        unfold uncovered setSuper SuperBlock.put setMount
        dsimp only
        rw [update_idem]
      rw [heq] at hvacate
      simpa [SuperBlock.put, setMount, hmounted] using hvacate
    · intro i hhashed hcount hdev
      rw [hslot] at hdev
      have hroot := (h.unused_of_may hcovered hmay hhashed hcount hdev).1
      rw [hmounted] at hroot
      cases hroot
  | some root =>
    have hrootdir : root ≠ dir := by
      rintro rfl
      exact h.refs.never k k root hcovered hmounted
    have hsame : (uncovered k dir s).cache.all root = s.cache.all root :=
      (uncovered_all k dir s root).trans (if_neg hrootdir)
    have hcount : (s.cache.all root).count ≠ 0 := h.refs.kept root ⟨k, Or.inl hmounted⟩
    have hnot : ¬ Keeps (setSuper k { (uncovered k dir s).supers k with mounted := none }
        (uncovered k dir s)).supers root := by
      rintro ⟨l, hl⟩
      rw [setSuper_supers, hslot, uncovered_supers] at hl
      by_cases hlk : l = k
      · rw [if_pos hlk] at hl
        simp at hl
      · rw [if_neg hlk, if_neg hlk] at hl
        rcases hl with hl | hl
        · have hsb := (h.refs.root l root hl).symm.trans (h.refs.root k root hmounted)
          exact hlk (Option.some.inj hsb)
        · exact h.refs.never l k root hl hmounted
    have hput := hleft.put (i := root) (by
      change 0 < ((uncovered k dir s).cache.all root).count
      rw [hsame]
      exact Nat.pos_of_ne_zero hcount) fun hkeeps => absurd hkeeps hnot
    have hvacate := hput.vacate (k := k) ?_ ?_ (s.supers k).op
    · have heq : setSuper k ⟨0, (s.supers k).op, none, none, none⟩ (SuperBlock.put root
          (setSuper k { (uncovered k dir s).supers k with mounted := none } (uncovered k dir s))) =
          setSuper k { s.supers k with covered := none, mounted := none, fs := none, dev := 0 }
            (SuperBlock.put root (SuperBlock.put dir (setMount dir none s))) := by
        unfold uncovered setSuper SuperBlock.put setMount
        dsimp only
        rw [update_idem, update_idem]
      rw [heq] at hvacate
      simpa [SuperBlock.put, setMount, hmounted] using hvacate
    · rw [SuperBlock.put, setSuper_supers, if_pos rfl, hslot]
      exact ⟨rfl, rfl⟩
    · intro i hhashed hicount hdev
      change ((InodeCache.iput root (uncovered k dir s).cache).all i).hashed = true at hhashed
      change ((InodeCache.iput root (uncovered k dir s).cache).all i).count ≠ 0 at hicount
      change ((InodeCache.iput root (uncovered k dir s).cache).all i).dev = _ at hdev
      rw [SuperBlock.put, setSuper_supers, if_pos rfl, hslot] at hdev
      rw [iput_all] at hhashed hicount hdev
      obtain ⟨hh, hd, -, hc, -⟩ := putInode_fields ((uncovered k dir s).cache.all root)
      split_ifs at hhashed hicount hdev with hi
      · rw [hh] at hhashed
        rw [hd] at hdev
        rw [hc] at hicount
        have hone := (h.unused_of_may hcovered hmay hhashed (by omega) hdev).2
        omega
      · have hroot := (h.unused_of_may hcovered hmay hhashed hicount hdev).1
        rw [hmounted, Option.some.injEq] at hroot
        exact hi hroot.symm

theorem Inv.step {a : Label} (h : Inv s) (hgood : Good s a) (hstep : Step s a s') : Inv s' := by
  cases a with
  | mountRoot dev ty probe =>
    dsimp only [Step, exec] at hstep
    split_ifs at hstep with hty
    exact h.mountRoot hty hgood hstep
  | mount dir isDir dev ty probe room =>
    obtain ⟨⟨hdir, hdev⟩, hmount⟩ := Option.ite_none_right_eq_some.mp hstep
    refine h.doMount hdir (fun hty => ?_) hgood hmount
    simpa [hty] using hdev
  | umount k =>
    cases hstep
    exact h.doUmountSb
  | iget k ino =>
    dsimp only [Step, exec] at hstep
    split_ifs at hstep with hdev
    obtain ⟨r, hr, rfl⟩ := Option.map_eq_some_iff.mp hstep
    obtain ⟨p, hget, rfl⟩ := Option.map_eq_some_iff.mp hr
    unfold onDevice at hdev
    cases hfs : (s.supers k).fs with
    | none => simp [hfs] at hdev
    | some ty => exact h.iget hfs (by simpa [hfs] using hdev) hget
  | iref i =>
    dsimp only [Step, exec] at hstep
    split_ifs at hstep with hcount
    cases hstep
    exact h.iref hcount
  | iput i =>
    obtain ⟨hcount, hput⟩ := Option.ite_none_right_eq_some.mp hstep
    cases hput
    refine h.put (by omega) fun hkeeps => ?_
    rw [if_pos (h.keeps_iff.mpr hkeeps)] at hcount
    omega
  | setDirty i =>
    dsimp only [Step, exec] at hstep
    split_ifs at hstep with hcount
    cases hstep
    refine h.change (h.cache.set_same rfl Iff.rfl) (set_all i _ s.cache) ?_ ?_ fun _ hm => hm
    · exact (h.ok i).mono id rfl rfl id fun hup => ⟨hup, rfl⟩
    · exact fun _ => ⟨Nat.ne_of_gt hcount, rfl⟩
  | inodeInvalidate k ino =>
    dsimp only [Step, exec] at hstep
    split_ifs at hstep
    cases hstep
    have hcache : InodeCache.Inv (InodeCache.inodeInvalidate (s.supers k).dev ino s.cache) :=
      h.cache.inodeInvalidate
    unfold InodeCache.inodeInvalidate at hcache ⊢
    split at hcache
    · rename_i i _
      refine h.change hcache (set_all i _ s.cache) ?_ ?_ fun _ hm => hm
      · exact (h.ok i).mono id rfl rfl id fun hup => by cases hup
      · exact fun hkeeps => ⟨h.refs.kept i hkeeps, rfl⟩
    · exact h
  | getEmptyInode =>
    obtain ⟨r, hget, rfl⟩ := Option.map_eq_some_iff.mp hstep
    have hself := (getEmptyInode_all hget r.1).trans (if_pos rfl)
    refine h.fresh (x := r.2.all r.1) hget (h.cache.getEmptyInode hget).1 ?_ ?_ ?_
    · intro j
      split_ifs with hj
      · rw [hj]
      · rfl
    · rw [hself]
      rfl
    · rw [hself]
      rfl
  | getPipeInode =>
    obtain ⟨r, hr, rfl⟩ := Option.map_eq_some_iff.mp hstep
    obtain ⟨p, hget, rfl⟩ := Option.map_eq_some_iff.mp hr
    have hself := (getEmptyInode_all hget p.1).trans (if_pos rfl)
    refine h.fresh hget (h.cache.mark hget rfl rfl) (set_all p.1 _ p.2) ?_ ?_
    · rw [hself]
      rfl
    · rw [hself]
      rfl
  | getSocketInode =>
    obtain ⟨r, hr, rfl⟩ := Option.map_eq_some_iff.mp hstep
    obtain ⟨p, hget, rfl⟩ := Option.map_eq_some_iff.mp hr
    have hself := (getEmptyInode_all hget p.1).trans (if_pos rfl)
    refine h.fresh hget (h.cache.mark hget rfl rfl) (set_all p.1 _ p.2) ?_ ?_
    · rw [hself]
      rfl
    · rw [hself]
      rfl
  | allocInode k ino =>
    dsimp only [Step, exec] at hstep
    split_ifs at hstep
    obtain ⟨r, hr, rfl⟩ := Option.map_eq_some_iff.mp hstep
    obtain ⟨p, hget, rfl⟩ := Option.map_eq_some_iff.mp hr
    have hself := (getEmptyInode_all hget p.1).trans (if_pos rfl)
    refine h.fresh hget (h.cache.mark hget ?_ rfl) (set_all p.1 _ p.2) rfl rfl
    rw [hself]
    rfl

theorem Initial.inv (h : Initial s) : Inv s := by
  refine ⟨h.cache.inv, ⟨?_, ?_, ?_⟩, ?_, ⟨?_, ?_, ?_, ?_, ?_⟩⟩
  · intro k _
    rw [h.supers]
    exact ⟨rfl, rfl, rfl⟩
  · intro k ty hk
    rw [h.supers] at hk
    cases hk
  · intro k l hk
    rw [h.supers] at hk
    exact absurd rfl hk
  · intro i hi
    rw [h.cache.all] at hi
    cases hi
  · rintro i ⟨k, hk⟩
    rw [h.supers] at hk
    simp at hk
  · intro k i hk
    rw [h.supers] at hk
    cases hk
  · intro i m hi
    rw [h.cache.all] at hi
    cases hi
  · intro k l i hk
    rw [h.supers] at hk
    cases hk
  · intro k l i hk
    rw [h.supers] at hk
    cases hk

/-! ## Separation -/

theorem Inv.inCore_sb (h : Inv s) (hfs : (s.supers k).fs ≠ none) (hi : InCore s k i) : (s.cache.all i).sb = some k := by
  rcases hi with hmounted | ⟨ino, hfind⟩
  · exact h.refs.root k i hmounted
  · obtain ⟨hhashed, hkey⟩ := keyOf_eq_some.mp (h.cache.findInode_some hfind)
    rw [Prod.mk.injEq] at hkey
    obtain ⟨ty, hty⟩ := Option.ne_none_iff_exists'.mp hfs
    exact ((h.ok i hhashed).2.2 k ty hty hkey.1.symm).1

theorem Inv.separate (h : Inv s) : Separate s := by
  constructor
  · intro k ty ino i c hfs hdev hget _
    obtain ⟨-, hmine, hcontents, -⟩ := h.igetNear hfs hdev hget
    exact ⟨hmine.sb, hmine.ino, hcontents⟩
  · intro k l i hk hl hik hil
    have hsb := (h.inCore_sb hk hik).symm.trans (h.inCore_sb hl hil)
    exact Option.some.inj hsb

/-- When the inodes that are left of a device fit its new slot at every mount, each superblock
has its own inodes. -/
theorem inodes_separate (s₀ : State) (hinit : Initial s₀) (labs : List Label) (s : State)
    (hrun : Run (Guarded Good Step) s₀ labs s) : Separate s :=
  (hrun.invariant (P := Inv) hinit.inv fun hu hstep => hu.step hstep.1 hstep.2).separate

/-- No superblock and no inode. -/
def boot : State :=
  { supers := fun _ => ⟨0, none, none, none, none⟩
    cache := { all := fun _ => blank, lru := List.range nrInode, hash := fun _ => [] } }

theorem boot_initial : Initial boot := by
  constructor
  · exact fun _ => rfl
  · constructor
    · exact fun _ => rfl
    · dsimp only [boot]
    · exact fun _ => rfl

/-- A device is mounted on directory 11 of the root and unmounted, and another one takes its slot. -/
def reused : List Label :=
  [.mountRoot 256 .ext2 .accepted, .iget 0 11, .mount 1 true 769 .ext2 .accepted true, .umount 1, .iget 0 11,
    .mount 1 true 770 .ext2 .accepted true]

theorem reused_replays : (replay Good exec boot reused).isSome := by decide +kernel

/-- The state with the other device in the slot. -/
def secondMount : State := (replay Good exec boot reused).get reused_replays

theorem reused_run : Run (Guarded Good Step) boot reused secondMount :=
  run_of_replay (Option.some_get reused_replays).symm

/-- The slot that one device gives up is taken by another one. -/
theorem inodes_separate_reused :
    Initial boot ∧ Run (Guarded Good Step) boot reused secondMount ∧ Separate secondMount :=
  ⟨boot_initial, reused_run, inodes_separate boot boot_initial reused secondMount reused_run⟩

/-- Then the first device is mounted again in the next slot. -/
def remounted : List Label := reused ++ [.iget 0 12, .mount 4 true 769 .ext2 .accepted true]

/-- The root inode of the device then belongs to slot 1, where the other device is. -/
theorem remounted_iget : ((replay (fun _ _ => True) exec boot remounted).bind fun s =>
    (igetNear s.supers 2 2 s.cache).map fun r =>
      ((s.supers 2).fs, (r.2.all r.1).sb, (r.2.all r.1).mount)) = some (some .ext2, some 1, none) := by
  decide +kernel

/-- An inode that stayed in the cache still points to the slot of its old super block. -/
theorem remounted_not_separate :
    ¬ ∀ (s₀ : State), Initial s₀ → ∀ labs s, Run Step s₀ labs s → Separate s := by
  intro h
  obtain ⟨s, hreplay, hget⟩ := Option.bind_eq_some_iff.mp remounted_iget
  obtain ⟨⟨i, c⟩, higet, hfields⟩ := Option.map_eq_some_iff.mp hget
  simp only [Prod.mk.injEq] at hfields
  obtain ⟨hfs, hsb, hmount⟩ := hfields
  have hrun : Run Step boot remounted s :=
    (run_of_replay hreplay).mono fun _ _ _ hstep => hstep.2
  have hsep := h boot boot_initial remounted s hrun
  have hown := (hsep.iget 2 .ext2 2 i c hfs rfl higet hmount).1
  rw [hsb] at hown
  cases hown

end Mario.Fs.SuperBlock
