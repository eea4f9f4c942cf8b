import Mario.Lib.Runs
import Mathlib.Algebra.GroupWithZero.Nat
import Mathlib.Tactic.Common

/-!
# Parents of FAT directories

An inode is numbered by the position of its entry, and a directory is known to the entries in it by its first
cluster. The parent of a directory is only remembered in memory. Which slot a name finds, and which slot a
new entry takes, is told by the call; it is in the clusters of the directory, or in a cluster that the
directory gets. Numbers have 32 bits, so that on a large volume two slots have one number; here a slot is its
number, which `InoFits` is the condition for. Clusters and memory can be had and read. A call gives back a
reference to its directory that was taken for it, so that the count of the directory stays. Mounts, names and
the contents of files are left out.
-/

namespace Mario.Fs.Fat.Parents

open Mario.Lib Function

/-- `FAT_ROOT_INO`. -/
def rootIno : ℕ := 1

/-- A directory entry, `.` and `..` apart. -/
structure Entry where
  isDir : Bool
  cluster : ℕ
  deriving DecidableEq

/-- `struct inode` with its `fat_inode_info`. -/
structure Inode where
  count : ℕ
  upToDate : Bool
  isDir : Bool
  startCluster : ℕ
  parentIno : ℕ
  deriving DecidableEq

/-- An inode after `memset`. -/
def blank : Inode := ⟨0, false, false, 0, 0⟩

structure State where
  /-- Every slot has a number below. -/
  nrSlots : ℕ
  rootCluster : ℕ
  entry : ℕ → Option Entry
  /-- The first cluster of the directory that the slot belongs to. -/
  place : ℕ → Option ℕ
  /-- The inodes in `inode_hash`. -/
  cache : ℕ → Option Inode

def State.inode (s : State) (n : ℕ) : Inode := (s.cache n).getD blank

def State.setInode (s : State) (n : ℕ) (i : Inode) : State := { s with cache := update s.cache n (some i) }

/-! ## The inode cache -/

/-- `fat_read_inode`. An inode without entry stays as it is. -/
def fatReadInode (s : State) (n : ℕ) : Inode :=
  let i := s.inode n
  if n = rootIno then { i with isDir := true, startCluster := s.rootCluster, parentIno := 0 }
  else
    match s.entry n with
    | some e => { i with isDir := e.isDir, startCluster := e.cluster }
    | none => i

def readInode (s : State) (n : ℕ) : State :=
  if (s.inode n).upToDate then s else s.setInode n { fatReadInode s n with upToDate := true }

def iget (s : State) (n : ℕ) : State := readInode (s.setInode n { s.inode n with count := (s.inode n).count + 1 }) n

def iput (s : State) (n : ℕ) : State := s.setInode n { s.inode n with count := (s.inode n).count - 1 }

def inodeInvalidate (s : State) (n : ℕ) : State :=
  { s with cache := update s.cache n ((s.cache n).map fun i => { i with upToDate := false }) }

/-- An inode that nobody uses is used for another number. -/
def clearInode (s : State) (n : ℕ) : State := { s with cache := update s.cache n none }

/-- `FAT_INODE(inode).parent_ino = dir->i_ino`, for a directory. -/
def setParent (s : State) (n d : ℕ) : State :=
  if (s.inode n).isDir then s.setInode n { s.inode n with parentIno := d } else s

/-! ## Entries -/

/-- `fat_add_entry_name` with the slot that it finds. -/
def addEntry (s : State) (d n : ℕ) (e : Entry) : State :=
  inodeInvalidate { s with
    entry := update s.entry n (some e)
    place := update s.place n (some (s.inode d).startCluster) } n

/-- `fat_delete_entry_at` and `inode_invalidate`. -/
def delEntry (s : State) (n : ℕ) : State := inodeInvalidate { s with entry := update s.entry n none } n

/-- `fat_free_cluster_chain` for the clusters of a directory. -/
def freeChain (s : State) (e : Entry) : State :=
  if e.isDir then { s with place := fun n => if s.place n = some e.cluster then none else s.place n } else s

/-- `fat_dir_is_empty`. -/
def dirIsEmpty (s : State) (i : Inode) : Bool := ∀ n < s.nrSlots, s.place n = some i.startCluster → s.entry n = none

/-! ## Calls -/

/-- `fat_lookup` for a name with an entry. -/
def fatLookup (s : State) (d n : ℕ) : State := setParent (iget s n) n d

/-- The number that `fat_lookup` has for `..`. -/
def dotdot (s : State) (d : ℕ) : Option ℕ :=
  if (s.inode d).parentIno = 0 then none else some (s.inode d).parentIno

/-- `fat_lookup` for `..`. -/
def fatLookupDotdot (s : State) (d : ℕ) : State :=
  match dotdot s d with
  | some p => iget s p
  | none => s

def fatCreate (s : State) (d n : ℕ) : State := iget (addEntry s d n ⟨false, 0⟩) n

def fatMkdir (s : State) (d n cluster : ℕ) : State :=
  iput (setParent (iget (addEntry s d n ⟨true, cluster⟩) n) n d) n

def fatUnlink (s : State) (n : ℕ) : State := delEntry s n

def fatRmdir (s : State) (n : ℕ) (e : Entry) : State :=
  let s := iget s n
  if dirIsEmpty s (s.inode n) then iput (freeChain (delEntry s n) e) n else iput s n

/-- The checks of `fat_rename` for a target with entry `e`. -/
def targetRefused (s : State) (n t : ℕ) (e : Entry) : Bool :=
  ((s.inode n).isDir ∧ ¬ e.isDir) ∨ (¬ (s.inode n).isDir ∧ e.isDir) ∨ (e.isDir ∧ ¬ dirIsEmpty s (s.inode t))

/-- `fat_rename` behind its checks. The old entry is gone, the slot `n'` gets it, and the inode `n` is kept as
it is. -/
def moveEntry (s : State) (n d' n' : ℕ) (e : Entry) : State := setParent (addEntry (delEntry s n) d' n' e) n d'

/-- `fat_rename`. The clusters of a target are already free when the entry is added, which takes none of
them. -/
def fatRename (s : State) (n d' : ℕ) (e : Entry) (target : Option (ℕ × Entry)) (n' : ℕ) : State :=
  let s := iget s n
  match target with
  | none => iput (moveEntry s n d' n' e) n
  | some (t, et) =>
    let s := iget s t
    if targetRefused s n t et then iput (iput s t) n
    else iput (iput (moveEntry (freeChain (delEntry s t) et) n d' n' e) t) n

/-- `fat_rename` when the entry cannot be added: the old name gets an entry again. -/
def fatRenameFails (s : State) (n d r : ℕ) (e : Entry) : State := iput (addEntry (delEntry (iget s n) n) d r e) n

inductive Label
  | lookup (d n : ℕ)
  | dotdot (d : ℕ)
  | create (d n : ℕ)
  | mkdir (d n cluster : ℕ)
  | unlink (d n : ℕ)
  | rmdir (d n : ℕ)
  | rename (d n d' : ℕ) (target : Option ℕ) (n' : ℕ)
  | renameFails (d n r : ℕ)
  | iref (n : ℕ)
  | iput (n : ℕ)
  | clear (n : ℕ)

/-- A directory that a call has. -/
def isHeld (s : State) (d : ℕ) : Bool := 0 < (s.inode d).count ∧ (s.inode d).isDir

/-- The entry of a slot of a directory. -/
def find (s : State) (d n : ℕ) : Option Entry :=
  if isHeld s d ∧ s.place n = some (s.inode d).startCluster then s.entry n else none

/-- A slot that an entry of a directory can take, when the slots of `l` are free by then. -/
def CanTake (s : State) (d n : ℕ) (l : List ℕ) : Prop :=
  rootIno < n ∧ n < s.nrSlots ∧ (s.entry n = none ∨ n ∈ l) ∧
    (s.place n = none ∨ s.place n = some (s.inode d).startCluster)

instance (s : State) (d n : ℕ) (l : List ℕ) : Decidable (CanTake s d n l) := inferInstanceAs (Decidable (_ ∧ _ ∧ _ ∧ _))

/-- The first cluster of the directory with a number. -/
def dirAt (s : State) (n : ℕ) : Option ℕ :=
  if n = rootIno then some s.rootCluster
  else match s.entry n with
    | some e => if e.isDir then some e.cluster else none
    | none => none

/-- A cluster that no directory has. -/
def IsFree (s : State) (cluster : ℕ) : Prop :=
  ∀ n < s.nrSlots, s.place n ≠ some cluster ∧ dirAt s n ≠ some cluster

instance (s : State) (cluster : ℕ) : Decidable (IsFree s cluster) := inferInstanceAs (Decidable (∀ n < _, _))

/-- The step of a call. A call that fails before it changes anything is left out. -/
def exec (s : State) : Label → Option State
  | .lookup d n => (find s d n).map fun _ => fatLookup s d n
  | .dotdot d => if isHeld s d then some (fatLookupDotdot s d) else none
  | .create d n => if isHeld s d ∧ CanTake s d n [] then some (fatCreate s d n) else none
  | .mkdir d n cluster =>
    if isHeld s d ∧ CanTake s d n [] ∧ IsFree s cluster then some (fatMkdir s d n cluster) else none
  | .unlink d n => (find s d n).bind fun e => if e.isDir then none else some (fatUnlink s n)
  | .rmdir d n => (find s d n).bind fun e => if e.isDir then some (fatRmdir s n e) else none
  | .rename d n d' none n' =>
    (find s d n).bind fun e =>
      if isHeld s d' ∧ CanTake s d' n' [n] then some (fatRename s n d' e none n') else none
  | .rename d n d' (some t) n' =>
    (find s d n).bind fun e => (find s d' t).bind fun et =>
      if n ≠ t ∧ CanTake s d' n' [n, t] then some (fatRename s n d' e (some (t, et)) n') else none
  | .renameFails d n r => (find s d n).bind fun e => if CanTake s d r [n] then some (fatRenameFails s n d r e) else none
  | .iref n =>
    if 0 < (s.inode n).count then some (s.setInode n { s.inode n with count := (s.inode n).count + 1 }) else none
  | .iput n => if 0 < (s.inode n).count then some (iput s n) else none
  | .clear n => if (s.inode n).count = 0 then some (clearInode s n) else none

def Step (s : State) (l : Label) (t : State) : Prop := exec s l = some t

/-! ## The statement -/

/-- The directory was not removed. -/
def Live (s : State) (d : ℕ) : Prop := (dirAt s d).isSome = true

instance (s : State) (d : ℕ) : Decidable (Live s d) := inferInstanceAs (Decidable (_ = true))

/-- The inode is in the cache and was not invalidated. -/
def Known (s : State) (n : ℕ) : Prop := (s.inode n).upToDate = true

instance (s : State) (n : ℕ) : Decidable (Known s n) := inferInstanceAs (Decidable (_ = true))

/-- The inode is in use, or can be used without being read. -/
def Inode.Current (i : Inode) : Prop := i.upToDate = true ∨ 0 < i.count

instance (i : Inode) : Decidable i.Current := inferInstanceAs (Decidable (_ ∨ _))

/-- A directory that gets another number is in use by nobody and has none of its directories in the cache,
and the inode with the new number is in use by nobody. -/
def CanMove (s : State) (n n' : ℕ) : Prop :=
  ∀ c ∈ dirAt s n, n' ≠ n → (s.inode n).count = 0 ∧ (s.inode n').count = 0 ∧
    ∀ m < s.nrSlots, s.place m = some c → (dirAt s m).isSome = true → ¬ (s.inode m).Current

instance (s : State) (n n' : ℕ) : Decidable (CanMove s n n') := inferInstanceAs (Decidable (∀ c ∈ _, _))

/-- A directory that a call reads and leaves is in the cache. -/
def Kept (s : State) (n : ℕ) : Prop := Live s n → Known s n

instance (s : State) (n : ℕ) : Decidable (Kept s n) := inferInstanceAs (Decidable (_ → _))

/-- No two slots have one number of 32 bits. -/
def InoFits (s : State) : Prop := s.nrSlots ≤ 2 ^ 32

instance (s : State) : Decidable (InoFits s) := inferInstanceAs (Decidable (_ ≤ _))

/-- Calls are made in directories that were not removed. The inode that `..` leads to is the root or is still in
the cache, and so are the directories that a refused call has looked at. A directory gets a new number only
when it can. -/
def Careful (s : State) : Label → Prop
  | .lookup d _ | .create d _ | .mkdir d _ _ | .unlink d _ => Live s d
  | .dotdot d => Live s d ∧ ∀ p ∈ Parents.dotdot s d, p = rootIno ∨ Known s p
  | .rmdir d n => Live s d ∧ (dirIsEmpty (iget s n) ((iget s n).inode n) = false → Kept s n)
  | .rename d n d' target n' => Live s d ∧ Live s d' ∧ CanMove s n n' ∧
      ∀ t ∈ target, ∀ et ∈ s.entry t, targetRefused (iget (iget s n) t) n t et = true → Kept s n ∧ Kept s t
  | .renameFails d n r => Live s d ∧ CanMove s n r
  | .iref _ | .iput _ | .clear _ => True

instance (s : State) (l : Label) : Decidable (Careful s l) :=
  match l with
  | .lookup d _ | .create d _ | .mkdir d _ _ | .unlink d _ => inferInstanceAs (Decidable (Live s d))
  | .dotdot d => inferInstanceAs (Decidable (Live s d ∧ ∀ p ∈ Parents.dotdot s d, p = rootIno ∨ Known s p))
  | .rmdir d n =>
    inferInstanceAs (Decidable (Live s d ∧ (dirIsEmpty (iget s n) ((iget s n).inode n) = false → Kept s n)))
  | .rename d n d' target n' => inferInstanceAs (Decidable (Live s d ∧ Live s d' ∧ CanMove s n n' ∧
      ∀ t ∈ target, ∀ et ∈ s.entry t, targetRefused (iget (iget s n) t) n t et = true → Kept s n ∧ Kept s t))
  | .renameFails d n r => inferInstanceAs (Decidable (Live s d ∧ CanMove s n r))
  | .iref _ | .iput _ | .clear _ => isTrue trivial

def Good (s : State) (l : Label) : Prop := InoFits s ∧ Careful s l

instance (s : State) (l : Label) : Decidable (Good s l) := inferInstanceAs (Decidable (_ ∧ _))

/-- The directory with number `m` contains the entry of `n`. -/
def Contains (s : State) (m n : ℕ) : Prop := ∃ c, s.place n = some c ∧ dirAt s m = some c

/-- Every entry is in one directory, which is another one. -/
structure Volume (s : State) : Prop where
  slots : ∀ n, s.entry n ≠ none → rootIno < n ∧ n < s.nrSlots
  placed : ∀ n, s.entry n ≠ none → ∃ m, Contains s m n
  irrefl : ∀ n, s.entry n ≠ none → ¬ Contains s n n
  unique : ∀ n m c, dirAt s n = some c → dirAt s m = some c → n = m

/-- A volume that has just been mounted. -/
structure Initial (s : State) : Prop where
  volume : Volume s
  root : s.inode rootIno = ⟨1, true, true, s.rootCluster, 0⟩
  cache : ∀ n, n ≠ rootIno → s.cache n = none

end Mario.Fs.Fat.Parents
