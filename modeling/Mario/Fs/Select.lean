import Mario.Fs.Poll
import Mathlib.Algebra.Order.BigOperators.Group.Finset

/-!
# Selecting descriptors

`sys_select` of `fs/poll.c`. The three sets are folded into one array for `do_poll` and unfolded again. Bits
of a kernel copy at or beyond the size of `fd_set` are whatever lies behind the copy in memory; the indexes of
all bits that are used are kept in a list.
-/

namespace Mario.Fs.Select

open Mario.Fs.Poll

def fdSetsize : ℕ := 1024

/-- `-EFAULT` and `-EINVAL`. -/
def efault : ℤ := -14

def einval : ℤ := -22

/-- `readfds`, `writefds` and `exceptfds`. -/
inductive SetKind
  | read
  | write
  | except
  deriving DecidableEq

/-- The three sets, in the order in which they are handled. -/
def kinds : List SetKind := [.read, .write, .except]

theorem mem_kinds (k : SetKind) : k ∈ kinds := by
  cases k <;> decide

/-- The event that is asked for. -/
def SetKind.event : SetKind → Short
  | read => pollin
  | write => pollout
  | except => pollerr

/-- The events that put a descriptor into the set. -/
def SetKind.results : SetKind → Short
  | read => pollin
  | write => pollout
  | except => pollerr ||| pollhup ||| pollpri

/-- An `fd_set` of the user, and what `verify_area` says of it. -/
structure UserSet where
  readable : Bool
  writable : Bool
  bits : ℕ → Bool

/-- A `struct timeval` of the user. -/
structure Timeval where
  readable : Bool
  tvSec : ℤ
  tvUsec : ℤ

/-- The arguments; a null pointer is `none`. -/
structure Args where
  nfds : ℤ
  set : SetKind → Option UserSet
  timeout : Option Timeval

/-- The memory that `kmalloc` gives for the copies and for the array, and the bits that lie behind the copies. -/
structure Memory where
  setMem : SetKind → Bool
  pollMem : Bool
  behind : SetKind → ℕ → Bool

def timeoutMs : Option Timeval → ℤ
  | none => -1
  | some t => (1000 * t.tvSec + ((t.tvUsec + 999).bmod 4294967296).tdiv 1000).bmod 4294967296

/-- The bits of a set of the user. -/
def userBits (a : Args) (k : SetKind) (i : ℕ) : Bool :=
  ((a.set k).map fun u => u.bits i).getD false

/-- `FD_ISSET` on the copy of a set; a null pointer has no bits. -/
def fdIsset (m : Memory) (a : Args) (k : SetKind) (i : ℕ) : Bool :=
  (a.set k).isSome && if i < fdSetsize then userBits a k i else m.behind k i

/-- The entry that is built for one descriptor. -/
def fdEntry (m : Memory) (a : Args) (i : ℕ) : Pollfd where
  fd := if kinds.any fun k => fdIsset m a k i then i else fdIgnore
  events := (if fdIsset m a .read i then pollin else 0) ||| (if fdIsset m a .write i then pollout else 0) |||
    if fdIsset m a .except i then pollerr else 0
  revents := 0

/-- `n_done` and the copies of the sets in the second loop, and the indexes of the bits that are used. -/
structure Unfolded where
  out : SetKind → ℕ → Bool
  nDone : ℕ
  used : List ℕ

/-- A descriptor is put into one of the sets. -/
def mapKind (a : Args) (i : ℕ) (p : Pollfd) (acc : Unfolded) (k : SetKind) : Unfolded :=
  if p.revents &&& k.results ≠ 0 ∧ (a.set k).isSome then
    { out := Function.update acc.out k (Function.update (acc.out k) i true)
      nDone := acc.nDone + 1
      used := acc.used ++ [i] }
  else acc

/-- One round of the second loop. -/
def mapFd (a : Args) (acc : Unfolded) (e : Pollfd × ℕ) : Unfolded :=
  if e.1.fd = fdIgnore then acc
  else if e.1.revents = 0 then acc
  else kinds.foldl (mapKind a e.2 e.1) acc

/-- What a call leaves: its result, the sets of the user and the indexes of the bits that have been used. -/
structure Outcome where
  ret : ℤ
  out : SetKind → ℕ → Bool
  used : List ℕ

/-- The entries of the array. -/
def entries (m : Memory) (a : Args) : List Pollfd := (List.range a.nfds.toNat).map (fdEntry m a)

/-- `verify_area` accepts the timeout and the sets. -/
def accessible (a : Args) : Bool :=
  (a.timeout.all fun t => t.readable) && kinds.all fun k => (a.set k).all fun u => u.readable && u.writable

/-- The memory for the copies and for the array is there; the size of the array is a 32-bit product. -/
def hasMemory (m : Memory) (a : Args) : Bool :=
  (kinds.all fun k => !(a.set k).isSome || m.setMem k) &&
    (m.pollMem && Kmalloc.served (8 * a.nfds.toNat % 4294967296))

def sysSelect (w : World) (m : Memory) (a : Args) : Outcome :=
  if a.nfds < 0 then ⟨einval, userBits a, []⟩
  else if a.nfds = 0 then ⟨0, userBits a, []⟩
  else if !accessible a then ⟨efault, userBits a, []⟩
  else if !hasMemory m a then ⟨enomem, userBits a, []⟩
  else
    let used := if kinds.any fun k => (a.set k).isSome then List.range a.nfds.toNat else []
    let r := doPoll w (entries m a) (timeoutMs a.timeout)
    if r.1 ≠ 0 then ⟨r.1, userBits a, used⟩
    else
      let acc := r.2.zipIdx.foldl (mapFd a) ⟨fun _ _ => false, 0, []⟩
      ⟨acc.nDone, acc.out, used ++ acc.used⟩

/-! ## The purpose of the call -/

/-- A descriptor is ready for what a set stands for. -/
def ready (file : ℕ → Option Bool) (c : Check) (k : SetKind) (i : ℕ) : Bool :=
  match fileOf file i with
  | none => false
  | some false => k ≠ .except
  | some true => c.mask i &&& k.results ≠ 0

/-- The number of bits in all the sets. -/
def bitCount (out : SetKind → ℕ → Bool) : ℕ :=
  ∑ i ∈ Finset.range fdSetsize, kinds.countP fun k => out k i

/-- The last pass over the descriptors. -/
def finalCheck (w : World) (m : Memory) (a : Args) : Option Check :=
  lastCheck w (entries m a) (timeoutMs a.timeout)

/-- A result that is not an error comes with exactly the descriptors that were asked for and are ready, and
counts them; a closed descriptor is an error; and only bits of the sets are used. -/
structure Correct (w : World) (m : Memory) (a : Args) : Prop where
  sets : 0 ≤ (sysSelect w m a).ret → ∀ k i, i < fdSetsize →
    ((sysSelect w m a).out k i = true ↔ (i : ℤ) < a.nfds ∧ userBits a k i = true ∧
      ∃ c, finalCheck w m a = some c ∧ ready w.file c k i = true)
  count : 0 ≤ (sysSelect w m a).ret → (sysSelect w m a).ret = bitCount (sysSelect w m a).out
  closed : ∀ k i, i < fdSetsize → (i : ℤ) < a.nfds → userBits a k i = true →
    fileOf w.file i = none → (sysSelect w m a).ret < 0
  bounds : ∀ i ∈ (sysSelect w m a).used, i < fdSetsize

/-- The call comes to look at the sets. -/
def Started (m : Memory) (a : Args) : Prop :=
  0 < a.nfds ∧ accessible a = true ∧ hasMemory m a = true

/-- A pass counts a descriptor. -/
def counted (w : World) (m : Memory) (a : Args) (c : Check) (i : ℕ) : Bool :=
  (pollFd w.file c (fdEntry m a i)).2

/-- Without descriptors the sets are empty. Otherwise, when the call comes to look at the sets, it stays inside
them; and when it comes to a last pass, no descriptor that it is asked for is closed, and either that pass counts
nothing, or everything in the sets is below `nfds`, ready, and in one set only. -/
structure Meets (w : World) (m : Memory) (a : Args) : Prop where
  empty : a.nfds = 0 → ∀ k i, i < fdSetsize → userBits a k i = false
  inside : Started m a → (∃ k, (a.set k).isSome = true) → a.nfds ≤ fdSetsize
  opened : Started m a → ∀ c, finalCheck w m a = some c → ∀ k i, i < fdSetsize → (i : ℤ) < a.nfds →
    userBits a k i = true → fileOf w.file i ≠ none
  allReady : Started m a → ∀ c, finalCheck w m a = some c →
    (∃ i : ℕ, (i : ℤ) < a.nfds ∧ counted w m a c i = true) →
    ∀ k i, i < fdSetsize → userBits a k i = true →
      (i : ℤ) < a.nfds ∧ ready w.file c k i = true ∧ ∀ k', userBits a k' i = true → k' = k

variable {w : World} {m : Memory} {a : Args} {c : Check} {i : ℕ} {k : SetKind}

theorem or_and_eq_zero {x y z : Short} : (x ||| y) &&& z = 0 ↔ x &&& z = 0 ∧ y &&& z = 0 := by
  rw [BitVec.and_or_distrib_right]
  exact BitVec.or_eq_zero_iff

/-- Inside the sets the kernel copies are the sets of the user. -/
theorem fdIsset_eq (hin : (∃ k, (a.set k).isSome = true) → i < fdSetsize) (k : SetKind) :
    fdIsset m a k i = userBits a k i := by
  unfold fdIsset userBits
  cases hset : a.set k with
  | none => rfl
  | some u => simp [hin ⟨k, by rw [hset]; rfl⟩]

theorem pollFd_quiet {file : ℕ → Option Bool} {p : Pollfd} (h : (pollFd file c p).2 = false) :
    (pollFd file c p).1.fd = fdIgnore ∨ (pollFd file c p).1.revents = 0 := by
  unfold pollFd at h ⊢
  by_cases hfd : p.fd = fdIgnore
  · left
    rw [if_pos hfd]
    exact hfd
  · rw [if_neg hfd] at h ⊢
    cases hf : fileOf file p.fd with
    | none =>
      rw [hf] at h
      cases h
    | some poll =>
      rw [hf] at h
      cases poll with
      | false => cases h
      | true =>
        right
        simpa using h

theorem requested_of_counted (h : counted w m a c i = true) : ∃ k, fdIsset m a k i = true := by
  by_contra hnone
  have hany : (kinds.any fun k => fdIsset m a k i) = false := by
    rw [List.any_eq_false]
    exact fun k _ hk => hnone ⟨k, hk⟩
  have hfd : (fdEntry m a i).fd = fdIgnore := by
    unfold fdEntry
    rw [hany]
    rfl
  unfold counted pollFd at h
  rw [if_pos hfd] at h
  cases h

theorem fdEntry_fd (h : fdIsset m a k i = true) : (fdEntry m a i).fd = i := by
  have hany : (kinds.any fun k => fdIsset m a k i) = true := by
    rw [List.any_eq_true]
    exact ⟨k, mem_kinds k, h⟩
  unfold fdEntry
  rw [hany]
  rfl

theorem event_of_isset {x : Short} (h : fdIsset m a k i = true)
    (hzero : (fdEntry m a i).events &&& x = 0) : k.event &&& x = 0 := by
  simp only [fdEntry, or_and_eq_zero] at hzero
  obtain ⟨⟨hread, hwrite⟩, hexcept⟩ := hzero
  cases k with
  | read => rwa [h, if_pos rfl] at hread
  | write => rwa [h, if_pos rfl] at hwrite
  | except => rwa [h, if_pos rfl] at hexcept

theorem counted_of_closed (h : fdIsset m a k i = true) (hclosed : fileOf w.file i = none) :
    counted w m a c i = true := by
  have hfd := fdEntry_fd h
  have hne : (fdEntry m a i).fd ≠ fdIgnore := by
    rw [hfd]
    unfold fdIgnore
    omega
  unfold counted pollFd
  rw [if_neg hne, hfd, hclosed]

theorem counted_of_ready (h : fdIsset m a k i = true) (hready : ready w.file c k i = true) :
    counted w m a c i = true := by
  have hfd := fdEntry_fd h
  have hne : (fdEntry m a i).fd ≠ fdIgnore := by
    rw [hfd]
    unfold fdIgnore
    omega
  unfold counted pollFd
  rw [if_neg hne, hfd]
  unfold ready at hready
  cases hf : fileOf w.file i with
  | none => rfl
  | some poll =>
    cases poll with
    | false => rfl
    | true =>
      rw [hf] at hready
      simp only [Int.toNat_natCast, decide_eq_true_eq, ne_eq] at hready ⊢
      intro hzero
      apply hready
      rw [or_and_eq_zero, or_and_eq_zero] at hzero
      obtain ⟨⟨hevents, herr⟩, hhup⟩ := hzero
      have hevent := event_of_isset h hevents
      rw [BitVec.and_comm]
      cases k with
      | read => exact hevent
      | write => exact hevent
      | except =>
        have hpri : pollpri &&& c.mask i = 0 := by
          rw [BitVec.and_comm]
          exact c.noPri i
        exact or_and_eq_zero.mpr ⟨or_and_eq_zero.mpr ⟨herr, hhup⟩, hpri⟩

theorem pollFds_entries (file : ℕ → Option Bool) (c : Check) :
    (pollFds file c (entries m a)).1 =
      ∑ i ∈ Finset.range a.nfds.toNat, if (pollFd file c (fdEntry m a i)).2 then 1 else 0 := by
  rw [pollFds_fst]
  unfold entries
  rw [List.countP_map]
  generalize a.nfds.toNat = n
  induction n with
  | zero => rfl
  | succ n ih =>
    rw [List.range_succ, List.countP_append, ih, Finset.sum_range_succ]
    simp

/-- A pass that counts nothing leaves nothing for the second loop. -/
theorem foldl_mapFd {l : List Pollfd} (hquiet : ∀ p ∈ l, p.fd = fdIgnore ∨ p.revents = 0) (n : ℕ)
    (acc : Unfolded) : (l.zipIdx n).foldl (mapFd a) acc = acc := by
  induction l generalizing n with
  | nil => rfl
  | cons p l ih =>
    rw [List.zipIdx_cons, List.foldl_cons]
    have hp : mapFd a acc (p, n) = acc := by
      unfold mapFd
      rcases hquiet p List.mem_cons_self with h | h
      · rw [if_pos h]
      · by_cases hfd : p.fd = fdIgnore
        · rw [if_pos hfd]
        · rw [if_neg hfd, if_pos h]
    rw [hp]
    exact ih (fun q hq => hquiet q (List.mem_cons_of_mem _ hq)) _

/-- A call that comes to a last pass: without a counted descriptor the sets are empty, and otherwise they stay as
they are. -/
theorem sysSelect_of_finalCheck (hstart : Started m a) (hc : finalCheck w m a = some c) :
    ((∀ i : ℕ, (i : ℤ) < a.nfds → counted w m a c i = false) ∧
        (sysSelect w m a).ret = 0 ∧ (sysSelect w m a).out = fun _ _ => false) ∨
      ((∃ i : ℕ, (i : ℤ) < a.nfds ∧ counted w m a c i = true) ∧
        (sysSelect w m a).ret = (∑ i ∈ Finset.range a.nfds.toNat,
          if counted w m a c i then 1 else 0 : ℕ) ∧ 0 < (sysSelect w m a).ret ∧
        (sysSelect w m a).out = userBits a) := by
  obtain ⟨hpos, haccess, hmem⟩ := hstart
  have hpoll := doPoll_of_lastCheck hc
  have hsum := pollFds_entries (m := m) (a := a) w.file c
  unfold sysSelect
  rw [if_neg (by omega), if_neg (by omega), haccess, hmem, hpoll]
  simp only [Bool.not_true, Bool.false_eq_true, if_false]
  by_cases hzero : (pollFds w.file c (entries m a)).1 = 0
  · left
    have hnone : ∀ i : ℕ, (i : ℤ) < a.nfds → counted w m a c i = false := by
      intro i hi
      rw [hsum, Finset.sum_eq_zero_iff] at hzero
      have h := hzero i (Finset.mem_range.mpr (by omega))
      unfold counted
      by_contra hcount
      rw [Bool.not_eq_false] at hcount
      rw [hcount] at h
      cases h
    have hquiet : ∀ p ∈ (pollFds w.file c (entries m a)).2, p.fd = fdIgnore ∨ p.revents = 0 := by
      intro p hp
      rw [pollFds_snd, List.mem_map] at hp
      obtain ⟨q, hq, rfl⟩ := hp
      obtain ⟨i, hi, rfl⟩ := List.mem_map.mp hq
      have hlt := List.mem_range.mp hi
      exact pollFd_quiet (hnone i (by omega))
    refine ⟨hnone, ?_⟩
    rw [hzero, if_neg (by simp), foldl_mapFd hquiet]
    exact ⟨rfl, rfl⟩
  · right
    rw [if_pos (by omega)]
    have hret : (0 : ℤ) < (pollFds w.file c (entries m a)).1 := by omega
    refine ⟨?_, ?_, hret, rfl⟩
    · by_contra hnone
      apply hzero
      rw [hsum]
      apply Finset.sum_eq_zero
      intro i hi
      rw [Finset.mem_range] at hi
      rw [if_neg]
      exact fun h => hnone ⟨i, by omega, h⟩
    · rw [hsum]
      rfl

theorem sysSelect_used (hstart : Started m a) :
    (sysSelect w m a).used =
      if kinds.any fun k => (a.set k).isSome then List.range a.nfds.toNat else [] := by
  obtain ⟨hpos, haccess, hmem⟩ := hstart
  cases hc : finalCheck w m a with
  | none =>
    have hpoll := doPoll_of_lastCheck_none hc
    unfold sysSelect
    rw [if_neg (by omega), if_neg (by omega), haccess, hmem]
    simp only [Bool.not_true, Bool.false_eq_true, if_false]
    rw [if_pos (by rw [hpoll]; decide)]
  | some c =>
    have hpoll := doPoll_of_lastCheck hc
    unfold sysSelect
    rw [if_neg (by omega), if_neg (by omega), haccess, hmem, hpoll]
    simp only [Bool.not_true, Bool.false_eq_true, if_false]
    by_cases hzero : (pollFds w.file c (entries m a)).1 = 0
    · have hquiet : ∀ p ∈ (pollFds w.file c (entries m a)).2, p.fd = fdIgnore ∨ p.revents = 0 := by
        intro p hp
        rw [pollFds_snd, List.mem_map] at hp
        obtain ⟨q, hq, rfl⟩ := hp
        apply pollFd_quiet
        rw [pollFds_fst, List.countP_eq_zero] at hzero
        exact Bool.eq_false_of_not_eq_true (hzero q hq)
      rw [hzero, if_neg (by simp), foldl_mapFd hquiet]
      exact List.append_nil _
    · rw [if_pos (by omega)]

theorem sysSelect_of_not_started (hne : a.nfds ≠ 0) (hstart : ¬ Started m a) :
    (sysSelect w m a).ret < 0 ∧ (sysSelect w m a).used = [] := by
  unfold sysSelect
  by_cases hneg : a.nfds < 0
  · rw [if_pos hneg]
    exact ⟨(by decide : einval < 0), rfl⟩
  · rw [if_neg hneg, if_neg hne]
    by_cases haccess : accessible a = true
    · by_cases hmem : hasMemory m a = true
      · exact absurd ⟨by omega, haccess, hmem⟩ hstart
      · rw [haccess, Bool.eq_false_of_not_eq_true hmem]
        exact ⟨(by decide : enomem < 0), rfl⟩
    · rw [Bool.eq_false_of_not_eq_true haccess]
      exact ⟨(by decide : efault < 0), rfl⟩

/-- A descriptor is counted as often as it is in the sets exactly when it is not in two of them. -/
theorem any_eq_countP_iff (f : SetKind → Bool) :
    (if kinds.any f then 1 else 0) = kinds.countP f ↔
      ∀ k, f k = true → ∀ k', f k' = true → k' = k := by
  have hall : ∀ P : SetKind → Prop, (∀ k, P k) ↔ P .read ∧ P .write ∧ P .except :=
    fun P => ⟨fun h => ⟨h _, h _, h _⟩, fun h k => by cases k <;> simp [h]⟩
  simp only [hall, kinds, List.any_cons, List.any_nil, List.countP_cons, List.countP_nil]
  rcases Bool.eq_false_or_eq_true (f .read) with hr | hr <;>
    rcases Bool.eq_false_or_eq_true (f .write) with hw | hw <;>
      rcases Bool.eq_false_or_eq_true (f .except) with he | he <;> simp [hr, hw, he]

theorem any_le_countP (f : SetKind → Bool) : (if kinds.any f then 1 else 0) ≤ kinds.countP f := by
  split_ifs with hany
  · obtain ⟨k, hk, hf⟩ := List.any_eq_true.mp hany
    exact List.countP_pos_iff.mpr ⟨k, hk, hf⟩
  · exact Nat.zero_le _

/-- When everything in the sets is below `nfds` and ready, the pass has counted the bits of the sets exactly when
no descriptor is in two of them. -/
theorem count_eq_iff (hinside : (∃ k, (a.set k).isSome = true) → a.nfds ≤ fdSetsize)
    (hready : ∀ k i, i < fdSetsize → userBits a k i = true → (i : ℤ) < a.nfds ∧ ready w.file c k i = true)
    (hsome : ∃ i : ℕ, (i : ℤ) < a.nfds ∧ counted w m a c i = true) :
    (∑ i ∈ Finset.range a.nfds.toNat, if counted w m a c i then 1 else 0) = bitCount (userBits a) ↔
      ∀ i, i < fdSetsize → ∀ k, userBits a k i = true → ∀ k', userBits a k' i = true → k' = k := by
  obtain ⟨j, hj, hcount⟩ := hsome
  obtain ⟨k₀, hk₀⟩ := requested_of_counted hcount
  have hgiven : (a.set k₀).isSome = true := by
    unfold fdIsset at hk₀
    rw [Bool.and_eq_true] at hk₀
    exact hk₀.1
  have hle := hinside ⟨k₀, hgiven⟩
  have hany : ∀ i ∈ Finset.range a.nfds.toNat,
      (if counted w m a c i then 1 else 0) = if kinds.any fun k => userBits a k i then 1 else 0 := by
    intro i hi
    rw [Finset.mem_range] at hi
    have hlt : i < fdSetsize := by omega
    have hiff : counted w m a c i = true ↔ (kinds.any fun k => userBits a k i) = true := by
      rw [List.any_eq_true]
      constructor
      · intro h
        obtain ⟨k, hk⟩ := requested_of_counted h
        rw [fdIsset_eq fun _ => hlt] at hk
        exact ⟨k, mem_kinds k, hk⟩
      · rintro ⟨k, -, hk⟩
        have hr := (hready k i hlt hk).2
        rw [← fdIsset_eq (m := m) fun _ => hlt] at hk
        exact counted_of_ready hk hr
    by_cases h : counted w m a c i = true
    · rw [if_pos h, if_pos (hiff.mp h)]
    · rw [if_neg h, if_neg fun h' => h (hiff.mpr h')]
  have houtside : ∀ i ∈ Finset.range fdSetsize, i ∉ Finset.range a.nfds.toNat →
      (if kinds.any fun k => userBits a k i then 1 else 0) = 0 := by
    intro i hi hnot
    rw [Finset.mem_range] at hi hnot
    rw [if_neg]
    rw [List.any_eq_true]
    rintro ⟨k, -, hk⟩
    have := (hready k i hi hk).1
    omega
  rw [Finset.sum_congr rfl hany, Finset.sum_subset (Finset.range_mono (by omega : a.nfds.toNat ≤ fdSetsize)) houtside]
  unfold bitCount
  rw [Finset.sum_eq_sum_iff_of_le fun i _ => any_le_countP fun k => userBits a k i]
  constructor
  · intro h i hi
    exact (any_eq_countP_iff _).mp (h i (Finset.mem_range.mpr hi))
  · intro h i hi
    exact (any_eq_countP_iff _).mpr (h i (Finset.mem_range.mp hi))

/-- The call does what it is for exactly under these conditions. -/
theorem sysSelect_correct_iff (w : World) (m : Memory) (a : Args) : Correct w m a ↔ Meets w m a := by
  by_cases hzero : a.nfds = 0
  · have hsel : sysSelect w m a = ⟨0, userBits a, []⟩ := by
      unfold sysSelect
      rw [if_neg (by omega), if_pos hzero]
    have hno : ¬ Started m a := fun h => by
      have := h.1
      omega
    constructor
    · intro h
      refine ⟨fun _ k i hi => ?_, fun hs => absurd hs hno, fun hs => absurd hs hno,
        fun hs => absurd hs hno⟩
      have hset := h.sets (by rw [hsel]) k i hi
      rw [hsel] at hset
      by_contra hbit
      rw [Bool.not_eq_false] at hbit
      have := (hset.mp hbit).1
      omega
    · intro h
      have hempty := h.empty hzero
      refine ⟨fun _ k i hi => ?_, fun _ => ?_, fun k i hi hlt => ?_, ?_⟩
      · rw [hsel]
        simp only [hempty k i hi, Bool.false_eq_true, false_and, and_false]
      · rw [hsel]
        unfold bitCount
        rw [Finset.sum_eq_zero]
        · rfl
        · intro i hi
          rw [List.countP_eq_zero]
          intro k _
          have hbit := hempty k i (Finset.mem_range.mp hi)
          simpa using hbit
      · omega
      · rw [hsel]
        exact fun i hi => absurd hi List.not_mem_nil
  · by_cases hstart : Started m a
    · have hused := sysSelect_used (w := w) hstart
      have hbounds : (∀ i ∈ (sysSelect w m a).used, i < fdSetsize) ↔
          ((∃ k, (a.set k).isSome = true) → a.nfds ≤ fdSetsize) := by
        rw [hused]
        constructor
        · rintro h ⟨k, hk⟩
          rw [if_pos (List.any_eq_true.mpr ⟨k, mem_kinds k, hk⟩)] at h
          by_contra hlt
          have := h fdSetsize (List.mem_range.mpr (by omega))
          omega
        · intro h i hi
          split_ifs at hi with hany
          · obtain ⟨k, -, hk⟩ := List.any_eq_true.mp hany
            have hle := h ⟨k, hk⟩
            have hlt := List.mem_range.mp hi
            omega
          · exact absurd hi List.not_mem_nil
      cases hc : finalCheck w m a with
      | none =>
        have hret : (sysSelect w m a).ret = enomem := by
          have hpoll := doPoll_of_lastCheck_none hc
          obtain ⟨hpos, haccess, hmem⟩ := hstart
          unfold sysSelect
          rw [if_neg (by omega), if_neg (by omega), haccess, hmem]
          simp only [Bool.not_true, Bool.false_eq_true, if_false]
          rw [if_pos (by rw [hpoll]; decide)]
          exact hpoll
        have hneg : (sysSelect w m a).ret < 0 := by
          rw [hret]
          decide
        constructor
        · intro h
          exact ⟨fun hz => absurd hz hzero, fun _ => hbounds.mp h.bounds,
            fun _ c' hc' => (by rw [hc] at hc'; cases hc'), fun _ c' hc' => (by rw [hc] at hc'; cases hc')⟩
        · intro h
          exact ⟨fun hn => by omega, fun hn => by omega, fun _ _ _ _ _ _ => hneg,
            hbounds.mpr (h.inside hstart)⟩
      | some c =>
        rcases sysSelect_of_finalCheck hstart hc with ⟨hquiet, hret, hout⟩ | ⟨hsome, hret, hpos, hout⟩
        · have hnot : ((∃ k, (a.set k).isSome = true) → a.nfds ≤ fdSetsize) → ∀ k i, i < fdSetsize →
              (i : ℤ) < a.nfds → userBits a k i = true →
              ready w.file c k i = false ∧ fileOf w.file i ≠ none := by
            intro hinside k i hi hlt hbit
            have hcount := hquiet i hlt
            rw [← fdIsset_eq (m := m) fun _ => hi] at hbit
            constructor
            · by_contra hr
              rw [Bool.not_eq_false] at hr
              rw [counted_of_ready hbit hr] at hcount
              cases hcount
            · intro hclosed
              rw [counted_of_closed hbit hclosed] at hcount
              cases hcount
          constructor
          · intro h
            have hinside := hbounds.mp h.bounds
            refine ⟨fun hz => absurd hz hzero, fun _ => hinside, ?_, ?_⟩
            · intro _ c' hc' k i hi hlt hbit
              exact (hnot hinside k i hi hlt hbit).2
            · rintro _ c' hc' ⟨i, hi, hcount⟩
              obtain rfl := Option.some.inj (hc.symm.trans hc')
              rw [hquiet i hi] at hcount
              cases hcount
          · intro h
            have hinside := h.inside hstart
            refine ⟨fun _ k i hi => ?_, fun _ => ?_, fun k i hi hlt hbit hclosed => ?_,
              hbounds.mpr hinside⟩
            · rw [hout]
              refine ⟨fun hf => absurd hf Bool.false_ne_true, ?_⟩
              rintro ⟨hlt, hbit, c', hc', hr⟩
              obtain rfl := Option.some.inj (hc.symm.trans hc')
              rw [(hnot hinside k i hi hlt hbit).1] at hr
              exact hr
            · rw [hret, hout]
              unfold bitCount
              simp
            · exact absurd hclosed (hnot hinside k i hi hlt hbit).2
        · constructor
          · intro h
            have hinside := hbounds.mp h.bounds
            have hready : ∀ k i, i < fdSetsize → userBits a k i = true →
                (i : ℤ) < a.nfds ∧ ready w.file c k i = true := by
              intro k i hi hbit
              have hset := h.sets (by omega) k i hi
              rw [hout] at hset
              obtain ⟨hlt, -, c', hc', hr⟩ := hset.mp hbit
              obtain rfl := Option.some.inj (hc.symm.trans hc')
              exact ⟨hlt, hr⟩
            have hcount := h.count (by omega)
            rw [hret, hout, Int.natCast_inj, count_eq_iff hinside hready hsome] at hcount
            refine ⟨fun hz => absurd hz hzero, fun _ => hinside, ?_, ?_⟩
            · intro _ c' hc' k i hi hlt hbit hclosed
              have := h.closed k i hi hlt hbit hclosed
              omega
            · intro _ c' hc' _ k i hi hbit
              obtain rfl := Option.some.inj (hc.symm.trans hc')
              obtain ⟨hlt, hr⟩ := hready k i hi hbit
              exact ⟨hlt, hr, hcount i hi k hbit⟩
          · intro h
            have hinside := h.inside hstart
            have hall := h.allReady hstart c hc hsome
            have hready : ∀ k i, i < fdSetsize → userBits a k i = true →
                (i : ℤ) < a.nfds ∧ ready w.file c k i = true :=
              fun k i hi hbit => ⟨(hall k i hi hbit).1, (hall k i hi hbit).2.1⟩
            refine ⟨fun _ k i hi => ?_, fun _ => ?_, fun k i hi hlt hbit hclosed => ?_,
              hbounds.mpr hinside⟩
            · rw [hout]
              constructor
              · intro hbit
                obtain ⟨hlt, hr⟩ := hready k i hi hbit
                exact ⟨hlt, hbit, c, hc, hr⟩
              · exact fun hr => hr.2.1
            · rw [hret, hout, Int.natCast_inj, count_eq_iff hinside hready hsome]
              exact fun i hi k hbit => (hall k i hi hbit).2.2
            · exact absurd hclosed (h.opened hstart c hc k i hi hlt hbit)
    · obtain ⟨hneg, hused⟩ := sysSelect_of_not_started (w := w) hzero hstart
      constructor
      · intro _
        exact ⟨fun hz => absurd hz hzero, fun hs => absurd hs hstart, fun hs => absurd hs hstart,
          fun hs => absurd hs hstart⟩
      · intro _
        refine ⟨fun hn => by omega, fun hn => by omega, fun _ _ _ _ _ _ => hneg, ?_⟩
        rw [hused]
        exact fun i hi => absurd hi List.not_mem_nil

/-! ## One ready descriptor of two -/

/-- In every pass the first descriptor is ready for reading. -/
def firstReady : Check where
  mask fd := if fd = 0 then pollin else 0
  queues _ := 1
  noPri fd := by split <;> decide

/-- Two open files with a method `poll`, and all the memory that is asked for. -/
def twoFiles : World where
  file fd := if fd < 2 then some true else none
  first := firstReady
  second := firstReady
  third := firstReady
  fourth := firstReady
  filesMem := true
  entriesMem := true
  woken := false

def allMemory : Memory := ⟨fun _ => true, true, fun _ _ => false⟩

/-- Both descriptors are in the set for reading. -/
def readBoth : Args where
  nfds := 2
  set k := if k = .read then some ⟨true, true, fun i => decide (i < 2)⟩ else none
  timeout := none

/-- The call returns 1 and leaves both bits set. -/
theorem sysSelect_not_correct : ¬ Correct twoFiles allMemory readBoth := by
  intro h
  have hret : (sysSelect twoFiles allMemory readBoth).ret = 1 := by decide +kernel
  have hcount := h.count (by rw [hret]; decide)
  have hbits : bitCount (sysSelect twoFiles allMemory readBoth).out = 2 := by decide +kernel
  rw [hret, hbits] at hcount
  exact absurd hcount (by decide)

end Mario.Fs.Select
