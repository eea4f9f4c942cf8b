import Mario.Mm.Kmalloc
import Mathlib.Data.List.Count

/-!
# Polling descriptors

`poll_fds` and `do_poll` of `fs/poll.c`, as one call sees them. The answers of the outside world are those of
`kmalloc`, and what the methods `poll` of the files say in each of the four passes over the descriptors.
-/

namespace Mario.Fs.Poll

/-- A `short`. -/
abbrev Short := BitVec 16

def pollin : Short := 0x1

def pollpri : Short := 0x2

def pollout : Short := 0x4

def pollerr : Short := 0x8

def pollhup : Short := 0x10

def pollnval : Short := 0x20

def fdIgnore : ℤ := -1001

def nrOpen : ℕ := 256

/-- `-ENOMEM`. -/
def enomem : ℤ := -12

structure Pollfd where
  fd : ℤ
  events : Short
  revents : Short
  deriving DecidableEq

/-- What the methods `poll` answer in one pass: the events, and the number of wait queues that are given to
`poll_wait`. No method reports `POLLPRI`. -/
structure Check where
  mask : ℕ → Short
  queues : ℕ → ℕ
  noPri : ∀ fd, mask fd &&& pollpri = 0

/-- What a call of `do_poll` finds: the open files, each with or without a method `poll`; the answers of the
methods in the four passes; whether the memory for the files and for the entries is there; and whether a
queue has woken the task before it sleeps. -/
structure World where
  file : ℕ → Option Bool
  first : Check
  second : Check
  third : Check
  fourth : Check
  filesMem : Bool
  entriesMem : Bool
  woken : Bool

/-- The slot of `files` that `poll_get_files` fills in. -/
def fileOf (file : ℕ → Option Bool) (fd : ℤ) : Option Bool :=
  if fd < 0 ∨ nrOpen ≤ fd then none else file fd.toNat

/-- One round of the loop of `poll_fds`: the entry, and whether it is counted. -/
def pollFd (file : ℕ → Option Bool) (c : Check) (p : Pollfd) : Pollfd × Bool :=
  if p.fd = fdIgnore then (p, false)
  else
    match fileOf file p.fd with
    | none => ({ p with revents := pollnval }, true)
    | some false => ({ p with revents := p.events &&& (pollin ||| pollout) }, true)
    | some true =>
        let revents := (p.events ||| pollerr ||| pollhup) &&& c.mask p.fd.toNat
        ({ p with revents := revents }, revents ≠ 0)

def pollFds (file : ℕ → Option Bool) (c : Check) : List Pollfd → ℕ × List Pollfd
  | [] => (0, [])
  | p :: fds =>
      let r := pollFd file c p
      let rest := pollFds file c fds
      ((if r.2 then 1 else 0) + rest.1, r.1 :: rest.2)

/-- The number of queues that one pass gives to `qproc`. -/
def queueCount (file : ℕ → Option Bool) (c : Check) : List Pollfd → ℕ
  | [] => 0
  | p :: fds =>
      (if p.fd ≠ fdIgnore ∧ fileOf file p.fd = some true then c.queues p.fd.toNat else 0) +
        queueCount file c fds

/-- `sizeof(struct poll_entry)`. -/
def pollEntrySize : ℕ := 20

/-- `do_poll`: the returned value and the entries. -/
def doPoll (w : World) (fds : List Pollfd) (timeout : ℤ) : ℤ × List Pollfd :=
  if 4294967295 / 4 < fds.length then (enomem, fds)
  else if !(w.filesMem && Kmalloc.served (4 * fds.length)) then (enomem, fds)
  else
    let r₁ := pollFds w.file w.first fds
    let n₁ := queueCount w.file w.first fds
    if 4294967295 < n₁ then (enomem, r₁.2)
    else if 0 < r₁.1 ∨ timeout = 0 ∨ n₁ = 0 then (r₁.1, r₁.2)
    else if 4294967295 / pollEntrySize < n₁ ∨ !(w.entriesMem && Kmalloc.served (pollEntrySize * n₁)) then
      (enomem, r₁.2)
    else
      let r₂ := pollFds w.file w.second r₁.2
      let n₂ := queueCount w.file w.second r₁.2
      if n₁ < n₂ then (enomem, r₂.2)
      else if 0 < r₂.1 ∨ n₂ = 0 then (r₂.1, r₂.2)
      else
        let r₃ := pollFds w.file w.third r₂.2
        if 0 < r₃.1 ∨ w.woken then (r₃.1, r₃.2)
        else
          let r₄ := pollFds w.file w.fourth r₃.2
          (r₄.1, r₄.2)

/-! ## The last pass -/

section Passes

variable {file : ℕ → Option Bool} (c c' : Check) (p : Pollfd) (fds : List Pollfd)

theorem pollFd_fd : (pollFd file c p).1.fd = p.fd := by
  unfold pollFd
  split_ifs with h
  · rfl
  · cases fileOf file p.fd with
    | none => rfl
    | some poll => cases poll <;> rfl

theorem pollFd_pollFd : pollFd file c (pollFd file c' p).1 = pollFd file c p := by
  unfold pollFd
  by_cases h : p.fd = fdIgnore
  · simp [h]
  · cases hf : fileOf file p.fd with
    | none => simp [h, hf]
    | some poll => cases poll <;> simp [h, hf]

theorem pollFds_pollFds : pollFds file c (pollFds file c' fds).2 = pollFds file c fds := by
  induction fds with
  | nil => rfl
  | cons p fds ih => simp only [pollFds, pollFd_pollFd, ih]

theorem queueCount_pollFds : queueCount file c (pollFds file c' fds).2 = queueCount file c fds := by
  induction fds with
  | nil => rfl
  | cons p fds ih => simp only [pollFds, queueCount, pollFd_fd, ih]

theorem pollFds_fst : (pollFds file c fds).1 = fds.countP fun p => (pollFd file c p).2 := by
  induction fds with
  | nil => rfl
  | cons p fds ih =>
    rw [pollFds, List.countP_cons, ih, Nat.add_comm]

theorem pollFds_snd : (pollFds file c fds).2 = fds.map fun p => (pollFd file c p).1 := by
  induction fds with
  | nil => rfl
  | cons p fds ih => rw [pollFds, List.map_cons, ih]

end Passes

/-- The pass whose answers are returned; `none` when there is no memory for the call. -/
def lastCheck (w : World) (fds : List Pollfd) (timeout : ℤ) : Option Check :=
  if 4294967295 / 4 < fds.length ∨ !(w.filesMem && Kmalloc.served (4 * fds.length)) then none
  else
    let n₁ := queueCount w.file w.first fds
    let n₂ := queueCount w.file w.second fds
    if 4294967295 < n₁ then none
    else if 0 < (pollFds w.file w.first fds).1 ∨ timeout = 0 ∨ n₁ = 0 then some w.first
    else if 4294967295 / pollEntrySize < n₁ ∨ !(w.entriesMem && Kmalloc.served (pollEntrySize * n₁)) then none
    else if n₁ < n₂ then none
    else if 0 < (pollFds w.file w.second fds).1 ∨ n₂ = 0 then some w.second
    else if 0 < (pollFds w.file w.third fds).1 ∨ w.woken then some w.third
    else some w.fourth

/-- A call that has the memory returns what its last pass has found. -/
theorem doPoll_of_lastCheck {w : World} {fds : List Pollfd} {timeout : ℤ} {c : Check}
    (h : lastCheck w fds timeout = some c) :
    doPoll w fds timeout = (((pollFds w.file c fds).1 : ℤ), (pollFds w.file c fds).2) := by
  unfold lastCheck at h
  unfold doPoll
  split at h
  · cases h
  · rename_i hmem
    rw [if_neg (fun hlen => hmem (Or.inl hlen)), if_neg (fun hlen => hmem (Or.inr hlen))]
    simp only at h ⊢
    split at h
    · cases h
    · rename_i hcount
      rw [if_neg hcount]
      split at h
      · rename_i hfirst
        cases h
        rw [if_pos hfirst]
      · rename_i hfirst
        rw [if_neg hfirst]
        split at h
        · cases h
        · rename_i hentries
          rw [if_neg hentries, queueCount_pollFds, pollFds_pollFds]
          split at h
          · cases h
          · rename_i hmore
            rw [if_neg hmore]
            split at h
            · rename_i hsecond
              cases h
              rw [if_pos hsecond]
            · rename_i hsecond
              rw [if_neg hsecond, pollFds_pollFds]
              split at h
              · rename_i hthird
                cases h
                rw [if_pos hthird]
              · rename_i hthird
                cases h
                rw [if_neg hthird, pollFds_pollFds]

theorem doPoll_of_lastCheck_none {w : World} {fds : List Pollfd} {timeout : ℤ}
    (h : lastCheck w fds timeout = none) : (doPoll w fds timeout).1 = enomem := by
  unfold lastCheck at h
  unfold doPoll
  split at h
  · rename_i hmem
    by_cases hlen : 4294967295 / 4 < fds.length
    · rw [if_pos hlen]
    · rw [if_neg hlen, if_pos (hmem.resolve_left hlen)]
  · rename_i hmem
    rw [if_neg (fun hlen => hmem (Or.inl hlen)), if_neg (fun hlen => hmem (Or.inr hlen))]
    simp only at h ⊢
    split at h
    · rename_i hcount
      rw [if_pos hcount]
    · rename_i hcount
      rw [if_neg hcount]
      split at h
      · cases h
      · rename_i hfirst
        rw [if_neg hfirst]
        split at h
        · rename_i hentries
          rw [if_pos hentries]
        · rename_i hentries
          rw [if_neg hentries, queueCount_pollFds]
          split at h
          · rename_i hmore
            rw [if_pos hmore]
          · split at h
            · cases h
            · split at h
              · cases h
              · cases h

end Mario.Fs.Poll
