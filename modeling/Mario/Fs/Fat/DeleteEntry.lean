import Mario.Fs.Fat.Readdir
import Mathlib.Data.List.GetD

/-!
# Deleting an entry of a FAT directory

`fat_delete_entry_at` of `dir.c` goes back over the long-name slots in front of an entry, from one cluster of the chain to
the one before it, and then marks all slots from there to the entry. The slots of a directory have numbers here, over all
clusters of its chain.
-/

namespace Mario.Fs.Fat.DeleteEntry

open Mario.Lib Mario.Fs.Fat.Clusters Function
open Mario.Fs.Fat.DirList (Buffer entrySize attrLfn Dir isShort)

/-- The answers of the allocator and the disk at each step: reading the FAT for the index of the cluster, reading a cluster
on the way back, reading the cluster before it, and reading, writing and following a cluster on the way forth. -/
structure Answers where
  walk : Bool
  look : ℕ → ℕ → Bool
  back : ℕ → Bool
  load : ℕ → Bool
  store : ℕ → Bool
  follow : ℕ → Bool

/-- `fat_dir_cluster_index`, with the number of clusters that it can still see. -/
def fatDirClusterIndex (t : Table) (cluster : ℕ) : ℕ → ℕ → ℕ → Option ℕ
  | 0, _, _ => none
  | left + 1, cur, index =>
      if cur = 0 then none
      else if cur = cluster then some index
      else
        match t.next cur with
        | .cluster next => fatDirClusterIndex t cluster left next (index + 1)
        | _ => none

def fatDirPrevCluster (t : Table) (cluster : ℕ) : ℕ → ℕ → ℕ → Option ℕ
  | 0, _, _ => none
  | left + 1, cur, prev =>
      if cur = 0 then none
      else if cur = cluster then if prev = 0 then none else some prev
      else
        match t.next cur with
        | .cluster next => fatDirPrevCluster t cluster left next cur
        | _ => none

/-- A slot of a long name. -/
def isLfn (entry : Buffer) : Bool := entry 0 ≠ 0xe5 && entry 11 = attrLfn

/-- The loop that looks for the first slot, from a slot of a cluster on: a cluster and a slot of it. -/
def findFirst (d : Dir) (a : Answers) (cluster slot index : ℕ) : Option (ℕ × ℕ) :=
  if a.look cluster slot = false then none
  else if slot = 0 then
    if index = 0 then some (cluster, slot)
    else
      match fatDirPrevCluster d.table cluster d.table.total d.start 0 with
      | none => none
      | some prev =>
          if a.back cluster = false then none
          else if isLfn (d.slot prev ((d.perCluster - 1) * entrySize)) then findFirst d a prev (d.perCluster - 1) (index - 1)
          else some (cluster, slot)
  else if isLfn (d.slot cluster ((slot - 1) * entrySize)) then findFirst d a cluster (slot - 1) index
  else some (cluster, slot)
termination_by (index, slot)

/-- The loop over the slots of a cluster, with the number of those that are left: the bytes of the cluster, whether they
have changed, and whether the slot of the entry has been reached. -/
def markSlots (isTarget : ℕ → Bool) : ℕ → ℕ → Buffer → Bool → Buffer × Bool × Bool
  | 0, _, buf, changed => (buf, changed, false)
  | left + 1, slot, buf, changed =>
      if isTarget slot then (update buf (slot * entrySize) 0xe5, true, true)
      else if buf (slot * entrySize) ≠ 0xe5 then
        markSlots isTarget left (slot + 1) (update buf (slot * entrySize) 0xe5) true
      else markSlots isTarget left (slot + 1) buf changed

/-- The loop over the clusters, with a bound for the number of them: whether the call succeeds, and the bytes of the disk. -/
def markClusters (d : Dir) (a : Answers) (cluster slot : ℕ) : ℕ → ℕ → ℕ → (ℕ → Buffer) → Bool × (ℕ → Buffer)
  | 0, _, _, disk => (false, disk)
  | left + 1, cur, first, disk =>
      if a.load cur = false then (false, disk)
      else
        let r := markSlots (fun j => cur = cluster ∧ j = slot) (d.perCluster - first) first (disk cur) false
        if r.2.1 = true ∧ a.store cur = false then (false, disk)
        else
          let disk' := if r.2.1 then update disk cur r.1 else disk
          if r.2.2 then (true, disk')
          else if a.follow cur = false then (false, disk')
          else
            match d.table.next cur with
            | .cluster next => markClusters d a cluster slot left next 0 disk'
            | _ => (false, disk')

/-- `fat_delete_entry_at`, for a slot of a cluster. -/
def fatDeleteEntryAt (d : Dir) (a : Answers) (cluster slot : ℕ) : Bool × (ℕ → Buffer) :=
  if a.walk = false then (false, d.read)
  else
    match fatDirClusterIndex d.table cluster d.table.total d.start 0 with
    | none => (false, d.read)
    | some index =>
        match findFirst d a cluster slot index with
        | none => (false, d.read)
        | some (first, j) => markClusters d a cluster slot d.table.total first j d.read

/-! ## The slots of a directory -/

/-- The clusters of a directory, from the first one to one that has no successor; the chain does not come back. -/
structure Path (t : Table) (start : ℕ) (l : List ℕ) : Prop where
  head : l.head? = some start
  nodup : l.Nodup
  valid : ∀ c ∈ l, t.Valid c
  follows : ∀ i, i + 1 < l.length → t.next (l.getD i 0) = .cluster (l.getD (i + 1) 0)
  ends : ∀ c, t.next (l.getLastD 0) ≠ .cluster c

/-- The cluster and the offset of a slot. -/
def clusterOf (d : Dir) (l : List ℕ) (n : ℕ) : ℕ := l.getD (n / d.perCluster) 0

def offsetOf (d : Dir) (n : ℕ) : ℕ := n % d.perCluster * entrySize

/-- The bytes of a slot on a disk. -/
def slotOn (d : Dir) (l : List ℕ) (disk : ℕ → Buffer) (n : ℕ) : Buffer := fun i => disk (clusterOf d l n) (offsetOf d n + i)

/-- A slot has the short name of a file or directory, and the directory does not end before. -/
structure Live (d : Dir) (l : List ℕ) (n : ℕ) : Prop where
  lt : n < l.length * d.perCluster
  used : ∀ m ≤ n, slotOn d l d.read m 0 ≠ 0
  short : isShort (slotOn d l d.read n) = true

/-- A slot belongs to an entry: it is the short one, or it is in the run of long-name slots in front of it. -/
def Owns (d : Dir) (l : List ℕ) (n m : ℕ) : Prop :=
  m ≤ n ∧ ∀ k, m ≤ k → k < n → isLfn (slotOn d l d.read k) = true

/-- The entry is deleted with its long name, and nothing else changes. -/
structure Deleted (d : Dir) (l : List ℕ) (n : ℕ) (disk : ℕ → Buffer) : Prop where
  own : ∀ m, Owns d l n m → slotOn d l disk m 0 = 0xe5
  others : ∀ n', n' ≠ n → Live d l n' → ∀ m, Owns d l n' m → ∀ i < entrySize, slotOn d l disk m i = slotOn d l d.read m i
  ends : ∀ m < l.length * d.perCluster, slotOn d l d.read m 0 = 0 →
    ∀ i < entrySize, slotOn d l disk m i = slotOn d l d.read m i
  frame : ∀ c o, (∀ m, Owns d l n m → ¬ (c = clusterOf d l m ∧ o = offsetOf d m)) → disk c o = d.read c o

/-- There is memory, and the disk can be read and written. -/
structure Answers.Clean (a : Answers) : Prop where
  walk : a.walk = true
  look : ∀ c j, a.look c j = true
  back : ∀ c, a.back c = true
  load : ∀ c, a.load c = true
  store : ∀ c, a.store c = true
  follow : ∀ c, a.follow c = true

section Walks

variable {t : Table} {start : ℕ} {l : List ℕ} {i k left : ℕ}

theorem Path.getD_valid (h : Path t start l) (hi : i < l.length) : t.Valid (l.getD i 0) := by
  rw [List.getD_eq_getElem _ _ hi]
  exact h.valid _ (List.getElem_mem hi)

theorem Path.getD_ne_zero (h : Path t start l) (hi : i < l.length) : l.getD i 0 ≠ 0 := (h.getD_valid hi).pos

theorem Path.getD_inj (h : Path t start l) (hi : i < l.length) (hk : k < l.length) (heq : l.getD i 0 = l.getD k 0) :
    i = k := by
  rw [List.getD_eq_getElem _ _ hi, List.getD_eq_getElem _ _ hk] at heq
  exact (h.nodup.getElem_inj_iff).mp heq

theorem Path.getD_zero (h : Path t start l) : l.getD 0 0 = start := by
  have hhead := h.head
  cases l with
  | nil => cases hhead
  | cons c l => exact Option.some.inj hhead

theorem Path.length_le (h : Path t start l) : l.length ≤ t.total := by
  have hmap : (l.map fun c => c - 2).length ≤ t.total := by
    refine length_le_of_nodup (h.nodup.map_on fun x hx y hy hxy => ?_) fun b hb => ?_
    · have hx2 := (h.valid x hx).1
      have hy2 := (h.valid y hy).1
      omega
    · obtain ⟨x, hx, rfl⟩ := List.mem_map.mp hb
      exact (h.valid x hx).2
  simpa using hmap

/-- The index of a cluster is found from any cluster before it. -/
theorem Path.index (h : Path t start l) (hk : k < l.length) (index : ℕ) (hik : i ≤ k) (hleft : k - i < left) :
    fatDirClusterIndex t (l.getD k 0) left (l.getD i 0) index = some (index + (k - i)) := by
  induction left generalizing i index with
  | zero => omega
  | succ left ih =>
    rw [fatDirClusterIndex, if_neg (h.getD_ne_zero (by omega))]
    rcases Nat.eq_or_lt_of_le hik with rfl | hlt
    · rw [if_pos rfl, Nat.sub_self, Nat.add_zero]
    · have hne : l.getD i 0 ≠ l.getD k 0 := fun heq => absurd (h.getD_inj (by omega) hk heq) (by omega)
      rw [if_neg hne, h.follows i (by omega)]
      dsimp only
      rw [ih _ hlt (by omega)]
      congr 1
      omega

/-- The cluster before another one is found from any cluster before it. -/
theorem Path.prev (h : Path t start l) (hk : k < l.length) (hik : i ≤ k) (hleft : k - i < left) :
    fatDirPrevCluster t (l.getD k 0) left (l.getD i 0) (if i = 0 then 0 else l.getD (i - 1) 0) =
      if k = 0 then none else some (l.getD (k - 1) 0) := by
  induction left generalizing i with
  | zero => omega
  | succ left ih =>
    rw [fatDirPrevCluster, if_neg (h.getD_ne_zero (by omega))]
    rcases Nat.eq_or_lt_of_le hik with rfl | hlt
    · rw [if_pos rfl]
      by_cases hzero : i = 0
      · rw [if_pos hzero, if_pos hzero, if_pos rfl]
      · rw [if_neg hzero, if_neg hzero, if_neg (h.getD_ne_zero (by omega))]
    · have hne : l.getD i 0 ≠ l.getD k 0 := fun heq => absurd (h.getD_inj (by omega) hk heq) (by omega)
      rw [if_neg hne, h.follows i (by omega)]
      dsimp only
      have hstep := ih hlt (by omega)
      rw [if_neg (Nat.succ_ne_zero i), Nat.succ_sub_one] at hstep
      exact hstep

end Walks

section Slots

variable {d : Dir} {a : Answers} {l : List ℕ} {m n left : ℕ} {disk disk' disk'' : ℕ → Buffer}

/-- The next slot is in the same cluster, or it is the first one of the next cluster. -/
theorem succ_slot {per : ℕ} (hper : 0 < per) (m : ℕ) :
    ((m + 1) % per = 0 ∧ m % per = per - 1 ∧ (m + 1) / per = m / per + 1) ∨
      ((m + 1) % per = m % per + 1 ∧ (m + 1) / per = m / per) := by
  have hlt := Nat.mod_lt m hper
  have hm := Nat.div_add_mod m per
  by_cases hlast : m % per = per - 1
  · refine Or.inl ?_
    have hsucc : m + 1 = per * (m / per + 1) := by
      rw [Nat.mul_succ]
      omega
    refine ⟨?_, hlast, ?_⟩
    · rw [hsucc, Nat.mul_mod_right]
    · conv_lhs => rw [hsucc, Nat.mul_div_cancel_left _ hper]
  · refine Or.inr ?_
    have hsucc : m + 1 = m % per + 1 + per * (m / per) := by omega
    have hsmall : m % per + 1 < per := by omega
    constructor
    · conv_lhs => rw [hsucc, Nat.add_mul_mod_self_left, Nat.mod_eq_of_lt hsmall]
    · conv_lhs => rw [hsucc, Nat.add_mul_div_left _ _ hper, Nat.div_eq_of_lt hsmall, Nat.zero_add]

/-- The first slot of an entry. -/
structure First (d : Dir) (l : List ℕ) (n m : ℕ) : Prop where
  le : m ≤ n
  run : ∀ k, m ≤ k → k < n → isLfn (slotOn d l d.read k) = true
  stop : m = 0 ∨ isLfn (slotOn d l d.read (m - 1)) = false

theorem findFirst_cases (hpath : Path d.table d.start l) (hper : 0 < d.perCluster) (hn : n / d.perCluster < l.length) :
    (∃ m, First d l n m ∧
      findFirst d a (clusterOf d l n) (n % d.perCluster) (n / d.perCluster) = some (clusterOf d l m, m % d.perCluster)) ∨
    (findFirst d a (clusterOf d l n) (n % d.perCluster) (n / d.perCluster) = none ∧ ¬ a.Clean) := by
  induction n with
  | zero =>
    rw [findFirst]
    by_cases hlook : a.look (clusterOf d l 0) (0 % d.perCluster) = false
    · rw [if_pos hlook]
      refine Or.inr ⟨rfl, fun hclean => ?_⟩
      rw [hclean.look] at hlook
      cases hlook
    · rw [if_neg hlook, if_pos (Nat.zero_mod _), if_pos (Nat.zero_div _)]
      exact Or.inl ⟨0, ⟨Nat.le_refl 0, fun k _ hk => absurd hk (Nat.not_lt_zero k), Or.inl rfl⟩, rfl⟩
  | succ n ih =>
    have hstop : isLfn (slotOn d l d.read n) = false → First d l (n + 1) (n + 1) := fun hlfn =>
      ⟨Nat.le_refl _, fun k hk hlt => by omega, Or.inr hlfn⟩
    have hgo : isLfn (slotOn d l d.read n) = true → n / d.perCluster < l.length →
        (∃ m, First d l (n + 1) m ∧ findFirst d a (clusterOf d l n) (n % d.perCluster) (n / d.perCluster) =
          some (clusterOf d l m, m % d.perCluster)) ∨
        (findFirst d a (clusterOf d l n) (n % d.perCluster) (n / d.perCluster) = none ∧ ¬ a.Clean) := by
      intro hlfn hlt
      refine (ih hlt).imp ?_ id
      rintro ⟨m, hfirst, heq⟩
      refine ⟨m, ⟨by have := hfirst.le; omega, fun k hk hkn => ?_, hfirst.stop⟩, heq⟩
      rcases Nat.eq_or_lt_of_le (Nat.lt_succ_iff.mp hkn) with rfl | hlt'
      · exact hlfn
      · exact hfirst.run k hk hlt'
    rw [findFirst]
    by_cases hlook : a.look (clusterOf d l (n + 1)) ((n + 1) % d.perCluster) = false
    · rw [if_pos hlook]
      refine Or.inr ⟨rfl, fun hclean => ?_⟩
      rw [hclean.look] at hlook
      cases hlook
    · rw [if_neg hlook]
      rcases succ_slot hper n with ⟨hmod, hlast, hdiv⟩ | ⟨hmod, hdiv⟩
      · have hne : (n + 1) / d.perCluster ≠ 0 := by
          rw [hdiv]
          exact Nat.succ_ne_zero _
        have hroom : (n + 1) / d.perCluster - 0 < d.table.total := Nat.lt_of_lt_of_le hn hpath.length_le
        have hprev := hpath.prev hn (Nat.zero_le _) hroom
        rw [if_pos rfl, hpath.getD_zero, if_neg hne, hdiv, Nat.add_sub_cancel] at hprev
        rw [if_pos hmod, if_neg hne]
        rw [clusterOf, hdiv, hprev]
        dsimp only
        by_cases hback : a.back (l.getD (n / d.perCluster + 1) 0) = false
        · rw [if_pos hback]
          refine Or.inr ⟨rfl, fun hclean => ?_⟩
          rw [hclean.back] at hback
          cases hback
        · rw [if_neg hback, ← hlast]
          have hslot : d.slot (l.getD (n / d.perCluster) 0) (n % d.perCluster * entrySize) = slotOn d l d.read n := rfl
          rw [hslot]
          by_cases hlfn : isLfn (slotOn d l d.read n) = true
          · rw [if_pos hlfn, Nat.add_sub_cancel]
            exact hgo hlfn (by omega)
          · rw [if_neg hlfn]
            exact Or.inl ⟨n + 1, hstop (by simpa using hlfn), by rw [clusterOf, hdiv]⟩
      · rw [if_neg (by omega), hmod, Nat.add_sub_cancel]
        have hcluster : clusterOf d l (n + 1) = clusterOf d l n := by rw [clusterOf, clusterOf, hdiv]
        have hslot : d.slot (clusterOf d l n) (n % d.perCluster * entrySize) = slotOn d l d.read n := rfl
        rw [hcluster, hslot, hdiv]
        by_cases hlfn : isLfn (slotOn d l d.read n) = true
        · rw [if_pos hlfn]
          exact hgo hlfn (by omega)
        · rw [if_neg hlfn]
          exact Or.inl ⟨n + 1, hstop (by simpa using hlfn), by rw [hcluster, hmod]⟩

/-- The slots of a cluster from one on and before another are marked, and the other bytes stay. -/
def SlotMarks (first last : ℕ) (buf buf' : Buffer) : Prop :=
  ∀ o, ((∃ j, first ≤ j ∧ j < last ∧ o = j * entrySize) → buf' o = 0xe5) ∧
    ((¬ ∃ j, first ≤ j ∧ j < last ∧ o = j * entrySize) → buf' o = buf o)

theorem SlotMarks.refl (first : ℕ) (buf : Buffer) : SlotMarks first first buf buf :=
  fun _ => ⟨fun ⟨j, hle, hlt, _⟩ => absurd hlt (by omega), fun _ => rfl⟩

theorem SlotMarks.cons {first last : ℕ} {buf buf' : Buffer} (hlt : first < last)
    (h : SlotMarks (first + 1) last (update buf (first * entrySize) 0xe5) buf') : SlotMarks first last buf buf' := by
  intro o
  obtain ⟨hin, hout⟩ := h o
  by_cases hrest : ∃ j, first + 1 ≤ j ∧ j < last ∧ o = j * entrySize
  · obtain ⟨j, hle, hj, ho⟩ := hrest
    refine ⟨fun _ => hin ⟨j, hle, hj, ho⟩, fun hnone => absurd ⟨j, by omega, hj, ho⟩ hnone⟩
  · have hvalue := hout hrest
    by_cases hfirst : o = first * entrySize
    · rw [hfirst, update_self] at hvalue
      rw [← hfirst] at hvalue
      exact ⟨fun _ => hvalue, fun hnone => absurd ⟨first, Nat.le_refl _, hlt, hfirst⟩ hnone⟩
    · rw [update_of_ne hfirst] at hvalue
      refine ⟨?_, fun _ => hvalue⟩
      rintro ⟨j, hle, hj, ho⟩
      rcases Nat.eq_or_lt_of_le hle with rfl | hlt'
      · exact absurd ho hfirst
      · exact absurd ⟨j, hlt', hj, ho⟩ hrest

theorem SlotMarks.cons_of_eq {first last : ℕ} {buf buf' : Buffer} (hlt : first < last)
    (hmarked : buf (first * entrySize) = 0xe5) (h : SlotMarks (first + 1) last buf buf') : SlotMarks first last buf buf' := by
  refine SlotMarks.cons hlt ?_
  rw [update_eq_self_iff.mpr hmarked.symm]
  exact h

/-- The loop over the slots of a cluster marks them up to the slot of the entry. -/
theorem markSlots_reaches (isTarget : ℕ → Bool) {slot : ℕ} (target : ℕ) (htarget : isTarget target = true)
    (hbefore : ∀ j, slot ≤ j → j < target → isTarget j = false) (hle : slot ≤ target) (hlt : target < slot + left)
    (buf : Buffer) (changed : Bool) : (markSlots isTarget left slot buf changed).2 = (true, true) ∧
      SlotMarks slot (target + 1) buf (markSlots isTarget left slot buf changed).1 := by
  induction left generalizing slot buf changed with
  | zero => omega
  | succ left ih =>
    rw [markSlots]
    rcases Nat.eq_or_lt_of_le hle with rfl | hlt'
    · rw [if_pos htarget]
      exact ⟨rfl, (SlotMarks.refl _ _).cons (Nat.lt_succ_self slot)⟩
    · rw [hbefore slot (Nat.le_refl _) hlt', if_neg Bool.false_ne_true]
      have hrest := fun buf changed => ih (fun j hj => hbefore j (by omega)) hlt' (by omega) buf changed
      by_cases hmarked : buf (slot * entrySize) = 0xe5
      · rw [if_neg (not_not.mpr hmarked)]
        exact (hrest buf changed).imp id fun hmarks => hmarks.cons_of_eq (by omega) hmarked
      · rw [if_pos hmarked]
        exact (hrest _ true).imp id fun hmarks => hmarks.cons (by omega)

/-- The loop over the slots of another cluster marks all that are left. -/
theorem markSlots_passes (isTarget : ℕ → Bool) {slot : ℕ} (hnone : ∀ j, isTarget j = false) (buf : Buffer)
    (changed : Bool) : (markSlots isTarget left slot buf changed).2.2 = false ∧
      ((markSlots isTarget left slot buf changed).2.1 = false →
        changed = false ∧ (markSlots isTarget left slot buf changed).1 = buf) ∧
      SlotMarks slot (slot + left) buf (markSlots isTarget left slot buf changed).1 := by
  induction left generalizing slot buf changed with
  | zero => exact ⟨rfl, fun hflag => ⟨hflag, rfl⟩, SlotMarks.refl slot buf⟩
  | succ left ih =>
    rw [markSlots, hnone slot, if_neg Bool.false_ne_true, show slot + (left + 1) = slot + 1 + left by omega]
    by_cases hmarked : buf (slot * entrySize) = 0xe5
    · rw [if_neg (not_not.mpr hmarked)]
      obtain ⟨hend, hsame, hmarks⟩ := ih buf changed
      exact ⟨hend, hsame, hmarks.cons_of_eq (by omega) hmarked⟩
    · rw [if_pos hmarked]
      obtain ⟨hend, hsame, hmarks⟩ := ih (update buf (slot * entrySize) 0xe5) true
      exact ⟨hend, fun hflag => absurd (hsame hflag).1 (by decide), hmarks.cons (by omega)⟩

/-- The slots from one to another are marked on the disk, and the other bytes stay. -/
def Marks (d : Dir) (l : List ℕ) (m n : ℕ) (disk disk' : ℕ → Buffer) : Prop :=
  ∀ c o, ((∃ x, m ≤ x ∧ x ≤ n ∧ c = clusterOf d l x ∧ o = offsetOf d x) → disk' c o = 0xe5) ∧
    ((¬ ∃ x, m ≤ x ∧ x ≤ n ∧ c = clusterOf d l x ∧ o = offsetOf d x) → disk' c o = disk c o)

theorem Marks.trans {k : ℕ} (h : Marks d l m k disk disk') (h' : Marks d l (k + 1) n disk' disk'') (hmk : m ≤ k)
    (hkn : k ≤ n) : Marks d l m n disk disk'' := by
  intro c o
  obtain ⟨hin, hout⟩ := h c o
  obtain ⟨hin', hout'⟩ := h' c o
  by_cases hsecond : ∃ x, k + 1 ≤ x ∧ x ≤ n ∧ c = clusterOf d l x ∧ o = offsetOf d x
  · obtain ⟨x, hx, hxn, hplace⟩ := hsecond
    exact ⟨fun _ => hin' ⟨x, hx, hxn, hplace⟩, fun hnone => absurd ⟨x, by omega, hxn, hplace⟩ hnone⟩
  · rw [hout' hsecond]
    refine ⟨?_, fun hnone => hout fun ⟨x, hx, hxk, hplace⟩ => hnone ⟨x, hx, by omega, hplace⟩⟩
    rintro ⟨x, hx, hxn, hplace⟩
    by_cases hxk : x ≤ k
    · exact hin ⟨x, hx, hxk, hplace⟩
    · exact absurd ⟨x, by omega, hxn, hplace⟩ hsecond

theorem SlotMarks.marks (hper : 0 < d.perCluster) {last : ℕ} {buf : Buffer} (hlast : last ≤ d.perCluster)
    (hn : m / d.perCluster * d.perCluster + last = n + 1)
    (h : SlotMarks (m % d.perCluster) last (disk (clusterOf d l m)) buf) :
    Marks d l m n disk (update disk (clusterOf d l m) buf) := by
  have hm := Nat.div_add_mod m d.perCluster
  rw [Nat.mul_comm] at hm
  have hlt := Nat.mod_lt m hper
  have hplace : ∀ x, m ≤ x → x ≤ n → x / d.perCluster = m / d.perCluster ∧ x % d.perCluster < last ∧
      m % d.perCluster ≤ x % d.perCluster := by
    intro x hmx hxn
    have hdiv : x / d.perCluster = m / d.perCluster := by
      refine Nat.div_eq_of_lt_le (by omega) ?_
      rw [Nat.succ_mul]
      omega
    have hx := Nat.div_add_mod x d.perCluster
    rw [hdiv, Nat.mul_comm] at hx
    exact ⟨hdiv, by omega, by omega⟩
  have hback : ∀ j, j < last → (m / d.perCluster * d.perCluster + j) / d.perCluster = m / d.perCluster ∧
      (m / d.perCluster * d.perCluster + j) % d.perCluster = j := by
    intro j hj
    have hjlt : j < d.perCluster := by omega
    rw [Nat.mul_comm]
    exact ⟨by rw [Nat.mul_add_div hper, Nat.div_eq_of_lt hjlt, Nat.add_zero],
      by rw [Nat.mul_add_mod, Nat.mod_eq_of_lt hjlt]⟩
  intro c o
  obtain ⟨hin, hout⟩ := h o
  by_cases hc : c = clusterOf d l m
  · rw [hc, update_self]
    constructor
    · rintro ⟨x, hmx, hxn, -, ho⟩
      obtain ⟨-, hlast', hfirst⟩ := hplace x hmx hxn
      exact hin ⟨_, hfirst, hlast', ho⟩
    · intro hnone
      refine hout ?_
      rintro ⟨j, hfirst, hj, ho⟩
      obtain ⟨hdiv, hmod⟩ := hback j hj
      refine hnone ⟨m / d.perCluster * d.perCluster + j, by omega, by omega, ?_, ?_⟩
      · rw [clusterOf, clusterOf, hdiv]
      · rw [offsetOf, hmod, ho]
  · rw [update_of_ne hc]
    refine ⟨?_, fun _ => rfl⟩
    rintro ⟨x, hmx, hxn, hcluster, -⟩
    refine absurd ?_ hc
    rw [hcluster, clusterOf, clusterOf, (hplace x hmx hxn).1]

theorem markClusters_cases (left : ℕ) (disk : ℕ → Buffer) (hpath : Path d.table d.start l) (hper : 0 < d.perCluster)
    (hn : n / d.perCluster < l.length) (hmn : m ≤ n) :
    (∃ disk', markClusters d a (clusterOf d l n) (n % d.perCluster) left (clusterOf d l m) (m % d.perCluster) disk =
      (true, disk') ∧ Marks d l m n disk disk') ∨
    ((markClusters d a (clusterOf d l n) (n % d.perCluster) left (clusterOf d l m) (m % d.perCluster) disk).1 = false ∧
      ¬ (a.Clean ∧ n / d.perCluster - m / d.perCluster < left)) := by
  induction left generalizing m disk with
  | zero => exact Or.inr ⟨rfl, fun h => absurd h.2 (Nat.not_lt_zero _)⟩
  | succ left ih =>
    have hm := Nat.div_add_mod m d.perCluster
    have hnn := Nat.div_add_mod n d.perCluster
    have hmlt := Nat.mod_lt m hper
    have hnlt := Nat.mod_lt n hper
    have hdiv : m / d.perCluster ≤ n / d.perCluster := Nat.div_le_div_right hmn
    rw [markClusters]
    by_cases hload : a.load (clusterOf d l m) = false
    · rw [if_pos hload]
      refine Or.inr ⟨rfl, fun ⟨hclean, _⟩ => ?_⟩
      rw [hclean.load] at hload
      cases hload
    · rw [if_neg hload]
      dsimp only
      generalize hr : markSlots (fun j => decide (clusterOf d l m = clusterOf d l n ∧ j = n % d.perCluster))
        (d.perCluster - m % d.perCluster) (m % d.perCluster) (disk (clusterOf d l m)) false = r
      by_cases hstore : r.2.1 = true ∧ a.store (clusterOf d l m) = false
      · rw [if_pos hstore]
        refine Or.inr ⟨rfl, fun ⟨hclean, _⟩ => ?_⟩
        rw [hclean.store] at hstore
        exact absurd hstore.2 (by decide)
      · rw [if_neg hstore]
        rcases Nat.eq_or_lt_of_le hdiv with hsame | hless
        · have hcluster : clusterOf d l m = clusterOf d l n := by rw [clusterOf, clusterOf, hsame]
          rw [hsame] at hm
          have hinside : n % d.perCluster < m % d.perCluster + (d.perCluster - m % d.perCluster) := by omega
          obtain ⟨hflags, hmarks⟩ := markSlots_reaches
            (fun j => decide (clusterOf d l m = clusterOf d l n ∧ j = n % d.perCluster)) (n % d.perCluster)
            (by simpa using hcluster) (fun j _ hj => by simpa using fun _ => Nat.ne_of_lt hj) (by omega) hinside
            (disk (clusterOf d l m)) false
          rw [hr] at hflags hmarks
          rw [hflags, if_pos rfl, if_pos rfl]
          refine Or.inl ⟨_, rfl, hmarks.marks hper (by omega) ?_⟩
          rw [hsame, Nat.mul_comm]
          omega
        · have hother : clusterOf d l m ≠ clusterOf d l n := fun heq =>
            absurd (hpath.getD_inj (by omega) hn heq) (by omega)
          obtain ⟨hend, hkept, hmarks⟩ := markSlots_passes
            (fun j => decide (clusterOf d l m = clusterOf d l n ∧ j = n % d.perCluster))
            (fun j => by simpa using fun h => absurd h hother) (disk (clusterOf d l m)) false
          rw [hr] at hend hkept hmarks
          rw [show m % d.perCluster + (d.perCluster - m % d.perCluster) = d.perCluster by omega] at hmarks
          have hmul : (m / d.perCluster + 1) * d.perCluster ≤ n / d.perCluster * d.perCluster :=
            Nat.mul_le_mul_right _ hless
          rw [Nat.succ_mul] at hmul
          -- the slots up to `k` are those of this cluster
          obtain ⟨k, hk⟩ : ∃ k, m / d.perCluster * d.perCluster + d.perCluster = k + 1 :=
            Nat.exists_eq_add_of_le' (by omega)
          have hkdiv : (k + 1) / d.perCluster = m / d.perCluster + 1 := by
            rw [← hk, ← Nat.succ_mul, Nat.mul_div_cancel _ hper]
          have hkmod : (k + 1) % d.perCluster = 0 := by
            rw [← hk, ← Nat.succ_mul, Nat.mul_mod_left]
          have hnext : d.table.next (clusterOf d l m) = .cluster (clusterOf d l (k + 1)) := by
            rw [clusterOf, clusterOf, hkdiv]
            exact hpath.follows _ (by omega)
          rw [Nat.mul_comm] at hm hnn
          have hfirst := hmarks.marks (n := k) hper (Nat.le_refl _) hk
          have hdisk : update disk (clusterOf d l m) r.1 =
              if r.2.1 = true then update disk (clusterOf d l m) r.1 else disk := by
            by_cases hflag : r.2.1 = true
            · rw [if_pos hflag]
            · rw [if_neg hflag, (hkept (by simpa using hflag)).2, update_eq_self]
          rw [hdisk] at hfirst
          rw [hend, if_neg Bool.false_ne_true]
          by_cases hfollow : a.follow (clusterOf d l m) = false
          · rw [if_pos hfollow]
            refine Or.inr ⟨rfl, fun ⟨hclean, _⟩ => ?_⟩
            rw [hclean.follow] at hfollow
            cases hfollow
          · rw [if_neg hfollow, hnext]
            dsimp only
            have hrest := ih (m := k + 1) (if r.2.1 = true then update disk (clusterOf d l m) r.1 else disk)
              (by omega)
            rw [hkmod, hkdiv] at hrest
            rcases hrest with ⟨disk', hok, hsecond⟩ | ⟨hfails, hnot⟩
            · exact Or.inl ⟨disk', hok, hfirst.trans hsecond (by omega) (by omega)⟩
            · exact Or.inr ⟨hfails, fun ⟨hclean, hleft⟩ => hnot ⟨hclean, by omega⟩⟩

/-! ## The call -/

/-- A long-name slot in front of one entry is not in front of another one. -/
theorem Owns.eq {n' : ℕ} (hn : Live d l n) (hn' : Live d l n') (h : Owns d l n m) (h' : Owns d l n' m) : n = n' := by
  have hno : ∀ {x}, Live d l x → isLfn (slotOn d l d.read x) = false := by
    intro x hx
    have hshort := hx.short
    unfold isShort at hshort
    unfold isLfn
    simp only [ne_eq, decide_not, Bool.and_eq_true, Bool.not_eq_eq_eq_not, Bool.not_true, decide_eq_false_iff_not] at hshort
    simp [hshort.1.2]
  rcases Nat.lt_trichotomy n n' with hlt | heq | hlt
  · have hlfn := h'.2 n h.1 hlt
    rw [hno hn] at hlfn
    cases hlfn
  · exact heq
  · have hlfn := h.2 n' h'.1 hlt
    rw [hno hn'] at hlfn
    cases hlfn

theorem Path.place_inj (hpath : Path d.table d.start l) (hper : 0 < d.perCluster) {x y i : ℕ}
    (hx : x < l.length * d.perCluster) (hy : y < l.length * d.perCluster) (hi : i < entrySize)
    (hcluster : clusterOf d l x = clusterOf d l y) (hoffset : offsetOf d x + i = offsetOf d y) : x = y := by
  have hdiv := hpath.getD_inj ((Nat.div_lt_iff_lt_mul hper).mpr hx) ((Nat.div_lt_iff_lt_mul hper).mpr hy) hcluster
  have hmod : x % d.perCluster = y % d.perCluster := by
    rw [offsetOf, offsetOf, entrySize] at hoffset
    rw [entrySize] at hi
    omega
  rw [← Nat.div_add_mod x d.perCluster, ← Nat.div_add_mod y d.perCluster, hdiv, hmod]

theorem First.owns_iff (h : First d l n m) (x : ℕ) : Owns d l n x ↔ m ≤ x ∧ x ≤ n := by
  constructor
  · rintro ⟨hle, hrun⟩
    refine ⟨?_, hle⟩
    by_contra hlt
    have hmn := h.le
    rcases h.stop with hzero | hstop
    · omega
    · rw [hrun (m - 1) (by omega) (by omega)] at hstop
      cases hstop
  · rintro ⟨hmx, hxn⟩
    exact ⟨hxn, fun k hk hkn => h.run k (by omega) hkn⟩

theorem Marks.deleted (hpath : Path d.table d.start l) (hper : 0 < d.perCluster) (hlive : Live d l n)
    (hfirst : First d l n m) (h : Marks d l m n d.read disk) : Deleted d l n disk := by
  have hlt := hlive.lt
  -- a slot that the entry does not own keeps its bytes
  have hkept : ∀ x, x < l.length * d.perCluster → ¬ Owns d l n x →
      ∀ i < entrySize, slotOn d l disk x i = slotOn d l d.read x i := by
    intro x hx hnot i hi
    refine (h _ _).2 ?_
    rintro ⟨y, hmy, hyn, hcluster, hoffset⟩
    obtain rfl := hpath.place_inj hper hx (by omega) hi hcluster hoffset
    exact hnot ((hfirst.owns_iff x).mpr ⟨hmy, hyn⟩)
  refine ⟨?_, ?_, ?_, ?_⟩
  · intro x hx
    obtain ⟨hmx, hxn⟩ := (hfirst.owns_iff x).mp hx
    exact (h _ _).1 ⟨x, hmx, hxn, rfl, Nat.add_zero _⟩
  · intro n' hne hlive' x hx
    refine hkept x (Nat.lt_of_le_of_lt hx.1 hlive'.lt) fun hx' => hne ?_
    exact hx.eq hlive' hlive hx'
  · intro x hx hzero
    refine hkept x hx fun hx' => ?_
    exact hlive.used x hx'.1 hzero
  · intro c o hnone
    refine (h c o).2 ?_
    rintro ⟨x, hmx, hxn, hplace⟩
    exact hnone x ((hfirst.owns_iff x).mpr ⟨hmx, hxn⟩) hplace

/-- A successful call deletes the entry and its long name and nothing else, over all clusters of the directory; with memory
and a disk that works every call succeeds. -/
theorem fatDeleteEntryAt_deletes (hpath : Path d.table d.start l) (hper : 0 < d.perCluster) (hlive : Live d l n) :
    (∀ disk, fatDeleteEntryAt d a (clusterOf d l n) (n % d.perCluster) = (true, disk) → Deleted d l n disk) ∧
      (a.Clean → (fatDeleteEntryAt d a (clusterOf d l n) (n % d.perCluster)).1 = true) := by
  have hn : n / d.perCluster < l.length := (Nat.div_lt_iff_lt_mul hper).mpr hlive.lt
  have hindex := hpath.index hn 0 (Nat.zero_le _) (Nat.lt_of_lt_of_le hn hpath.length_le)
  rw [hpath.getD_zero, Nat.zero_add, Nat.sub_zero] at hindex
  unfold fatDeleteEntryAt
  by_cases hwalk : a.walk = false
  · rw [if_pos hwalk]
    refine ⟨nofun, fun hclean => ?_⟩
    rw [hclean.walk] at hwalk
    cases hwalk
  · have hcluster : clusterOf d l n = l.getD (n / d.perCluster) 0 := rfl
    rw [if_neg hwalk, hcluster, hindex, ← hcluster]
    dsimp only
    rcases findFirst_cases (a := a) hpath hper hn with ⟨m, hfirst, hfound⟩ | ⟨hnone, hnot⟩
    · rw [hfound]
      dsimp only
      rcases markClusters_cases (a := a) d.table.total d.read hpath hper hn hfirst.le with
        ⟨disk', hok, hmarks⟩ | ⟨hfails, hnot⟩
      · rw [hok]
        refine ⟨fun disk heq => ?_, fun _ => rfl⟩
        obtain rfl := (Prod.mk.inj heq).2
        exact hmarks.deleted hpath hper hlive hfirst
      · constructor
        · intro disk heq
          rw [heq] at hfails
          cases hfails
        · intro hclean
          have hlt := Nat.lt_of_lt_of_le hn hpath.length_le
          exact absurd ⟨hclean, Nat.lt_of_le_of_lt (Nat.sub_le _ _) hlt⟩ hnot
    · rw [hnone]
      exact ⟨nofun, fun hclean => absurd hclean hnot⟩

end Slots

/-- A directory of two clusters with two slots each: a file, and a file whose long-name slot is in the first cluster. -/
def splitName : Dir where
  table := { total := 2, entry := fun c => if c = 2 then 3 else Clusters.fatEocMax, nextFree := 2, freeClusters := 0 }
  start := 2
  perCluster := 2
  read := fun c o =>
    if c = 2 then if o = 0 then 0x41 else if o = 11 then 0x20 else if o = 32 then 0x41 else if o = 43 then 0x0f else 0
    else if o = 0 then 0x42 else if o = 11 then 0x20 else 0

theorem splitName_path : Path splitName.table splitName.start [2, 3] where
  head := rfl
  nodup := by decide
  valid c hc := by
    have hc' : c = 2 ∨ c = 3 := by simpa using hc
    rcases hc' with rfl | rfl <;> decide
  follows i hi := by
    obtain rfl : i = 0 := by
      simp only [List.length_cons, List.length_nil] at hi
      omega
    rfl
  ends c := nofun

theorem splitName_live : Live splitName [2, 3] 2 where
  lt := by decide
  used m hm := by
    have hm' : m = 0 ∨ m = 1 ∨ m = 2 := by omega
    rcases hm' with rfl | rfl | rfl <;> decide
  short := by decide

theorem fatDeleteEntryAt_deletes_split : ∃ disk,
    fatDeleteEntryAt splitName ⟨true, fun _ _ => true, fun _ => true, fun _ => true, fun _ => true, fun _ => true⟩ 3 0 =
      (true, disk) ∧ Deleted splitName [2, 3] 2 disk := by
  have h := fatDeleteEntryAt_deletes (n := 2)
    (a := ⟨true, fun _ _ => true, fun _ => true, fun _ => true, fun _ => true, fun _ => true⟩) splitName_path (by decide)
    splitName_live
  have hok := h.2 ⟨rfl, fun _ _ => rfl, fun _ => rfl, fun _ => rfl, fun _ => rfl, fun _ => rfl⟩
  exact ⟨_, Prod.ext hok rfl, h.1 _ (Prod.ext hok rfl)⟩

end Mario.Fs.Fat.DeleteEntry
