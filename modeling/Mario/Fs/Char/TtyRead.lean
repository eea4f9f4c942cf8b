import Mario.Fs.Char.TtyAtomic
import Mathlib.Data.List.DropRight

/-!
# Reading a terminal

`tty_read`, and a terminal whose input comes on both paths and is read in between. The lines that are complete and the one
that is being edited are in one buffer, and an erase takes the last byte of it, whether a line ends there or not.
-/

namespace Mario.Fs.Terminal

open Mario.Lib

/-! ## `tty_read` -/

/-- A byte ends a line for a reader. -/
def delimiter (t : Termios) (c : UInt8) : Bool := c = nl ∨ c = t.cc veof ∨ c = t.cc veol

/-- The loop of `get_n_canon_read`, with a bound on its rounds. -/
def canonLoop (t : Termios) (data : ℕ → UInt8) (mask head : ℕ) : ℕ → ℕ → ℕ → ℕ
  | 0, _, _ => 0
  | fuel + 1, p, n =>
      if p = head then 0
      else if delimiter t (data p) then n + 1
      else canonLoop t data mask head fuel ((p + 1) &&& mask) (n + 1)

def getNCanonRead (t : Termios) (rb : RingBuffer UInt8) : ℕ :=
  if rb.full then rb.avail
  else
    match rb.data with
    | none => 0
    | some data => canonLoop t data (rb.size - 1) rb.head rb.size rb.tail 0

def getNRead (tty : Tty) : ℕ :=
  if has tty.termios.lflag icanon then getNCanonRead tty.termios tty.readBuf else tty.readBuf.avail

/-- What a read took from the buffer, and what it returned. -/
structure Got where
  chunk : List UInt8
  returned : List UInt8
  deriving DecidableEq

/-- The last byte that is read is the end of a file. The code compares it as a signed `char` with `c_cc[VEOF]`, so that no
byte from 128 on is equal to it. -/
def EndsFile (t : Termios) (l : List UInt8) : Prop := l.getLast? = some (t.cc veof) ∧ t.cc veof < 128

instance (t : Termios) (l : List UInt8) : Decidable (EndsFile t l) := inferInstanceAs (Decidable (_ ∧ _))

/-- `tty_read` in the foreground and without a signal, up to the place where it would sleep. -/
def ttyRead (tty : Tty) (count : ℕ) : Option (Got × Tty) :=
  let n := getNRead tty
  if n = 0 then if tty.hungUp then some (⟨[], []⟩, tty) else none
  else
    let r := tty.readBuf.read (min n count)
    some (⟨r.1, if EndsFile tty.termios r.1 then r.1.dropLast else r.1⟩, tty.setReadBuf r.2)

/-! ## What happens to a terminal -/

inductive Event
  /-- `tty_receive_c`. -/
  | receive (c : UInt8)
  /-- A byte that `pty_master_write` gives to the terminal. -/
  | receiveAtomic (c : UInt8)
  /-- A read, which `sys_read` makes only for a buffer that is not empty. -/
  | read (count : ℕ) (pos : 0 < count)
  | masterRead (count : ℕ)
  /-- `pty_write`. -/
  | write (buf : List UInt8)
  /-- The last close of the master. -/
  | hangUp

/-- The terminal after an event. -/
def Pty.step (s : Pty) : Event → Pty
  | .receive c =>
      match ttyReceiveC s c with
      | .ok r => r.1
      | .error _ => s
  | .receiveAtomic c =>
      { s with tty := (ttyReceiveCAtomic s.tty c s.output).1, output := (ttyReceiveCAtomic s.tty c s.output).2.1 }
  | .read count _ =>
      match ttyRead s.tty count with
      | some r => { s with tty := r.2 }
      | none => s
  | .masterRead count => s.setOutput (s.output.read count).2
  | .write buf => ptyWrite s buf
  | .hangUp => { s with masterOpen := false, tty := { s.tty with hungUp := true, readBuf := s.tty.readBuf.clear } }

/-- The byte of an event, if the terminal takes it. -/
def Pty.takes (s : Pty) : Event → Option UInt8
  | .receive c => if (ttyReceiveC s c).isOk then some c else none
  | .receiveAtomic c => if (ttyReceiveCAtomic s.tty c s.output).2.2.err = none then some c else none
  | _ => none

/-- The bytes in the read buffer. -/
def Pty.bytes (s : Pty) : List UInt8 := s.tty.readBuf.contents

/-- The character is the one that erases. -/
def erases (t : Termios) (c : UInt8) : Bool :=
  (raised t c).isNone && has t.lflag icanon && translated t c == some (t.cc verase)

/-- The bytes in the read buffer after a character. -/
def edited (t : Termios) (c : UInt8) (l : List UInt8) : List UInt8 :=
  if erases t c then l.dropLast else if (raised t c).isSome then l else l ++ (translated t c).toList

section

variable {s : Pty} {t : Termios} {c : UInt8} {l : List UInt8} {e : Event} {rb rb' : RingBuffer UInt8}

theorem discipline_contents {pgrp : ℤ} {bytes : List UInt8} {effects : List Effect} (h : rb.WellFormed)
    (hsize : rb.size ≤ 2 ^ 32) (hd : discipline t pgrp rb c = .ok (rb', bytes, effects)) :
    rb'.WellFormed ∧ rb'.size = rb.size ∧ rb'.contents = edited t c rb.contents := by
  rw [discipline] at hd
  unfold edited erases
  cases hraised : raised t c with
  | some signal =>
    rw [hraised] at hd
    obtain ⟨rfl, -⟩ := Prod.mk.inj (Except.ok.inj hd)
    exact ⟨h, rfl, by simp⟩
  | none =>
    rw [hraised] at hd
    cases htranslated : translated t c with
    | none =>
      rw [htranslated] at hd
      obtain ⟨rfl, -⟩ := Prod.mk.inj (Except.ok.inj hd)
      exact ⟨h, rfl, by simp⟩
    | some b =>
      rw [htranslated] at hd
      dsimp only at hd
      by_cases herase : has t.lflag icanon ∧ b = t.cc verase
      · rw [if_pos herase] at hd
        obtain ⟨rfl, -⟩ := Prod.mk.inj (Except.ok.inj hd)
        obtain ⟨hwf, -, hcontents, hsame⟩ := h.pop hsize
        exact ⟨hwf, hsame, by simp [hcontents, herase.1, herase.2]⟩
      · rw [if_neg herase] at hd
        cases hfull : rb.full with
        | true =>
          rw [hfull] at hd
          cases hd
        | false =>
          rw [hfull] at hd
          obtain ⟨rfl, -⟩ := Prod.mk.inj (Except.ok.inj hd)
          obtain ⟨hwf, hn, hcontents, hsame⟩ := h.write [b]
          have hroom : rb.contents.length < rb.size := by
            have hnot := mt h.full_iff.mpr (by simp [hfull])
            omega
          rw [hn, Nat.min_eq_left (by rw [List.length_singleton]; omega)] at hcontents
          refine ⟨hwf, hsame, hcontents.trans ?_⟩
          simpa using fun hcanon hb => absurd ⟨hcanon, hb⟩ herase

/-! ## What an event does -/

/-- The buffers are ring buffers of a page. -/
structure Pty.Sound (s : Pty) : Prop where
  read : s.tty.readBuf.WellFormed
  readSize : s.tty.readBuf.size = RingBuffer.pageSize
  output : s.output.WellFormed
  outputSize : s.output.size = RingBuffer.pageSize

/-- Input changes nothing but the buffers. -/
structure Kept (s s' : Pty) : Prop where
  sound : s'.Sound
  termios : s'.tty.termios = s.tty.termios
  hungUp : s'.tty.hungUp = s.tty.hungUp

theorem Pty.Sound.ptyWrite (h : s.Sound) (l : List UInt8) : (ptyWrite s l).Sound ∧ (ptyWrite s l).tty = s.tty := by
  unfold Terminal.ptyWrite
  split_ifs
  · obtain ⟨hwf, -, -, hsize⟩ := h.output.write l
    exact ⟨⟨h.read, h.readSize, hwf, hsize.trans h.outputSize⟩, rfl⟩
  · exact ⟨h, rfl⟩

theorem Pty.Sound.putS (h : s.Sound) (l : List UInt8) : (ttyPutS s l).Sound ∧ (ttyPutS s l).tty = s.tty := by
  induction l generalizing s with
  | nil => exact ⟨h, rfl⟩
  | cons c l ih =>
    obtain ⟨hfirst, htty⟩ := h.ptyWrite (ttyOutputChar s.tty.termios c)
    obtain ⟨hrest, htty'⟩ := ih hfirst
    exact ⟨hrest, htty'.trans htty⟩

theorem Pty.Sound.discipline {pgrp : ℤ} {bytes : List UInt8} {effects : List Effect} (h : s.Sound)
    (hd : discipline s.tty.termios pgrp s.tty.readBuf c = .ok (rb', bytes, effects)) :
    (s.setReadBuf rb').Sound ∧ rb'.contents = edited s.tty.termios c s.tty.readBuf.contents := by
  obtain ⟨hwf, hsize, hcontents⟩ := discipline_contents h.read (by rw [h.readSize]; decide) hd
  exact ⟨⟨hwf, hsize.trans h.readSize, h.output, h.outputSize⟩, hcontents⟩

theorem receive_eq (h : s.Sound) (c : UInt8) : Kept s (s.step (.receive c)) ∧
    (s.step (.receive c)).bytes = (s.takes (.receive c)).elim s.bytes fun c => edited s.tty.termios c s.bytes := by
  by_cases hcount : s.tty.count = 0
  · rw [Pty.step, Pty.takes, ttyReceiveC, if_pos hcount]
    exact ⟨⟨h, rfl, rfl⟩, rfl⟩
  · rw [Pty.step, Pty.takes, ttyReceiveC_eq hcount]
    cases hd : discipline s.tty.termios s.tty.pgrp s.tty.readBuf c with
    | error e => exact ⟨⟨h, rfl, rfl⟩, rfl⟩
    | ok q =>
      obtain ⟨hset, hcontents⟩ := h.discipline hd
      obtain ⟨hput, htty⟩ := hset.putS q.2.1
      simp only [Except.map, Pty.bytes]
      rw [htty]
      exact ⟨⟨hput, by rw [htty]; rfl, by rw [htty]; rfl⟩, hcontents⟩

theorem receiveAtomic_eq_edited (h : s.Sound) (c : UInt8) : Kept s (s.step (.receiveAtomic c)) ∧
    (s.step (.receiveAtomic c)).bytes = (s.takes (.receiveAtomic c)).elim s.bytes fun c => edited s.tty.termios c s.bytes := by
  obtain ⟨hrefused, htaken⟩ := ttyReceiveCAtomic_atomic h.read (by rw [h.readSize]; decide) h.output c
  rw [Pty.step, Pty.takes, Pty.bytes]
  cases herr : (ttyReceiveCAtomic s.tty c s.output).2.2.err with
  | none =>
    obtain ⟨⟨rb, bytes, effects, hd, htty, -, -⟩, hwf, hsize⟩ := htaken herr
    obtain ⟨hset, hcontents⟩ := h.discipline hd
    simp only [htty]
    exact ⟨⟨⟨hset.read, hset.readSize, hwf, hsize.trans h.outputSize⟩, rfl, rfl⟩, hcontents⟩
  | some e =>
    have hsame : (ttyReceiveCAtomic s.tty c s.output).1 = s.tty ∧ (ttyReceiveCAtomic s.tty c s.output).2.1 = s.output := by
      by_cases hdead : s.tty.count = 0 ∨ s.tty.hungUp = true
      · rw [ttyReceiveCAtomic, if_pos hdead]
        exact ⟨rfl, rfl⟩
      · have hlive : s.tty.count ≠ 0 ∧ s.tty.hungUp = false := by simpa using hdead
        have hcall : receiveAtomic s c = .error e := by rw [receiveAtomic, settle, herr]
        have heagain : e = .eagain := by
          rw [receiveAtomic_eq hlive.1 hlive.2] at hcall
          cases hd : discipline s.tty.termios s.tty.pgrp s.tty.readBuf c with
          | error e' =>
            rw [hd] at hcall
            obtain rfl := Except.error.inj hcall
            exact (Except.error.inj (hd.symm.trans (discipline_error hd).1))
          | ok q =>
            rw [hd, Except.bind] at hcall
            dsimp only at hcall
            split_ifs at hcall
            exact (Except.error.inj hcall).symm
        obtain ⟨⟨htty, houtput, -, -⟩, -, -⟩ := hrefused (herr.trans (congrArg some heagain))
        exact ⟨htty, houtput⟩
    rw [hsame.1, hsame.2]
    exact ⟨⟨h, rfl, rfl⟩, rfl⟩

/-! ## What a read gives -/

/-- The bytes up to the first delimiter, counted, or none without a delimiter. -/
def lineLength (t : Termios) (l : List UInt8) : ℕ := (l.findIdx? (delimiter t)).elim 0 (· + 1)

theorem canonLoop_eq {data : ℕ → UInt8} {size fuel p m : ℕ} (hmask : ∀ n, n &&& (size - 1) = n % size) (hm : m < size)
    (hp : p < size) (hfuel : m < fuel) (n : ℕ) : canonLoop t data (size - 1) ((p + m) % size) fuel p n =
      ((segment size data p m).findIdx? (delimiter t)).elim 0 (n + · + 1) := by
  induction m generalizing fuel p n with
  | zero =>
    obtain ⟨fuel, rfl⟩ := Nat.exists_eq_succ_of_ne_zero (Nat.ne_of_gt hfuel)
    rw [canonLoop, Nat.add_zero, Nat.mod_eq_of_lt hp, if_pos rfl]
    rfl
  | succ m ih =>
    obtain ⟨fuel, rfl⟩ := Nat.exists_eq_succ_of_ne_zero (Nat.ne_of_gt (Nat.lt_of_le_of_lt (Nat.zero_le _) hfuel))
    have hne : p ≠ (p + (m + 1)) % size := by
      rw [mod_of_lt_two_mul (by omega)]
      split_ifs <;> omega
    have hcons : segment size data p (m + 1) = data p :: segment size data ((p + 1) % size) m := by
      rw [Nat.add_comm m 1, segment_add]
      simp [Lib.segment, Nat.mod_eq_of_lt hp]
    rw [canonLoop, if_neg hne, hcons, List.findIdx?_cons]
    by_cases hd : delimiter t (data p) = true
    · rw [if_pos hd, if_pos hd]
      rfl
    · rw [if_neg hd, if_neg hd, hmask, show (p + (m + 1)) % size = ((p + 1) % size + m) % size by
        rw [Nat.mod_add_mod, Nat.add_assoc, Nat.add_comm 1 m],
        ih (by omega) (Nat.mod_lt _ (by omega)) (by omega)]
      cases (segment size data ((p + 1) % size) m).findIdx? (delimiter t) with
      | none => rfl
      | some i =>
        simp only [Option.elim, Option.map_some]
        omega

/-- Up to the first delimiter there is none before the last byte. -/
theorem not_delimiter_of_lt {k : ℕ} (hk : k ≤ lineLength t l) : ∀ b ∈ (l.take k).dropLast, delimiter t b = false := by
  intro b hb
  rw [lineLength] at hk
  cases hfind : l.findIdx? (delimiter t) with
  | none =>
    rw [hfind, Option.elim, Nat.le_zero] at hk
    rw [hk] at hb
    cases hb
  | some i =>
    rw [hfind, Option.elim] at hk
    obtain ⟨hi, -, hbefore⟩ := List.findIdx?_eq_some_iff_getElem.mp hfind
    obtain ⟨j, hj, rfl⟩ := List.mem_iff_getElem.mp hb
    rw [List.length_dropLast, List.length_take] at hj
    rw [List.getElem_dropLast, List.getElem_take]
    simpa using hbefore j (by omega)

theorem lineLength_le (t : Termios) (l : List UInt8) : lineLength t l ≤ l.length := by
  rw [lineLength]
  cases hfind : l.findIdx? (delimiter t) with
  | none => exact Nat.zero_le _
  | some i =>
    obtain ⟨hi, -⟩ := List.findIdx?_eq_some_iff_getElem.mp hfind
    exact hi

theorem getNCanonRead_eq (h : rb.WellFormed) (t : Termios) :
    getNCanonRead t rb = if rb.full then rb.contents.length else lineLength t rb.contents := by
  obtain ⟨data, hdata⟩ := Option.isSome_iff_exists.mp h.data
  have hle := h.len
  rw [getNCanonRead, h.contents_length]
  by_cases hfull : rb.full = true
  · rw [if_pos hfull, if_pos hfull, RingBuffer.avail]
  · have hlt : rb.len < rb.size := by
      have hne : rb.len ≠ rb.size := by simpa [RingBuffer.full] using hfull
      omega
    rw [if_neg hfull, if_neg hfull, hdata]
    dsimp only
    rw [h.head, canonLoop_eq h.and_mask hlt h.tail hlt, lineLength, RingBuffer.contents, hdata]
    simp

end

end Mario.Fs.Terminal
