import Mario.Fs.Char.Tty

/-!
# The input paths of a terminal agree

Both paths do what the line discipline says. One writes the echo byte by byte and the other at once, which
gives the same contents when all of it fits.
-/

namespace Mario.Fs.Terminal

variable {s s' : Pty} {t : Termios} {c : UInt8} {l : List UInt8} {popped : Option UInt8}
  {rb : RingBuffer UInt8} {push wake : Bool} {sig : Option Signal} {lflag : Flags}

/-- The signal of a character. -/
def raised (t : Termios) (c : UInt8) : Option Signal :=
  if has t.lflag isig then
    if c = t.cc vintr then some .sigint
    else if c = t.cc vquit then some .sigquit
    else if c = t.cc vsusp then some .sigtstp
    else none
  else none

/-- A character after the translation of line ends, or none for one that is ignored. -/
def translated (t : Termios) (c : UInt8) : Option UInt8 :=
  if c = cr then if has t.iflag igncr then none else if has t.iflag icrnl then some nl else some cr
  else if c = nl ∧ has t.iflag inlcr then some cr
  else some c

/-- A character ends a line. -/
def endsLine (t : Termios) (c : UInt8) : Bool := c = t.cc veof ∨ c = nl ∨ c = cr ∨ c = t.cc veol

/-- The line discipline: the new read buffer, the echo and the effects of a character. -/
def discipline (t : Termios) (pgrp : ℤ) (rb : RingBuffer UInt8) (c : UInt8) :
    Except Errno (RingBuffer UInt8 × List UInt8 × List Effect) :=
  match raised t c with
  | some signal => .ok (rb, echoBytes t t.lflag c none, [.killPg pgrp signal])
  | none =>
      match translated t c with
      | none => .ok (rb, [], [])
      | some c =>
          if has t.lflag icanon ∧ c = t.cc verase then
            .ok (rb.pop.2, echoBytes t t.lflag c rb.pop.1, [])
          else if rb.full then .error .eagain
          else .ok ((rb.write [c]).2, echoBytes t t.lflag c none,
            if has t.lflag icanon → endsLine t c then [.wakeRead] else [])

theorem echo_eq (s : Pty) (c : UInt8) (popped : Option UInt8) :
    echo s c popped = ttyPutS s (echoBytes s.tty.termios s.tty.termios.lflag c popped) := by
  rw [echo, echoBytes]
  by_cases hecho : has s.tty.termios.lflag echoFlag
  · rw [if_pos hecho, if_pos hecho]
    by_cases herase : c = s.tty.termios.cc verase ∧ has s.tty.termios.lflag echoe
    · rw [if_pos herase, if_pos herase]
      cases popped with
      | none => rfl
      | some b => rfl
    · rw [if_neg herase, if_neg herase]
      by_cases hctl : has s.tty.termios.lflag echoctl
      · by_cases hdel : c = del
        · subst hdel
          simp [hctl, del, ttyPutS]
        · by_cases hlow : c ≤ 31 ∧ c ≠ tab ∧ c ≠ nl ∧ c ≠ cr
          · rw [if_pos ⟨hctl, hlow⟩, if_pos ⟨hctl, .inl hlow⟩, if_neg hdel]
            rfl
          · rw [if_neg fun h => hlow h.2, if_neg fun h => hdel h.2, if_neg fun h => h.2.elim hlow hdel]
            rfl
      · rw [if_neg fun h => hctl h.1, if_neg fun h => hctl h.1, if_neg fun h => hctl h.1]
        rfl
  · rw [if_neg hecho, if_neg hecho]
    rfl

theorem translated_eq (h : ¬ (c = cr ∧ has t.iflag igncr)) :
    translated t c = some (if c = cr then if has t.iflag icrnl then nl else c
      else if c = nl ∧ has t.iflag inlcr then cr else c) := by
  rw [translated]
  by_cases hcr : c = cr
  · rw [if_pos hcr, if_pos hcr, if_neg fun hign => h ⟨hcr, hign⟩, apply_ite some, hcr]
  · rw [if_neg hcr, if_neg hcr, apply_ite some]

theorem ttyReceiveC_eq (hcount : s.tty.count ≠ 0) : ttyReceiveC s c =
    (discipline s.tty.termios s.tty.pgrp s.tty.readBuf c).map fun r => (ttyPutS (s.setReadBuf r.1) r.2.1, r.2.2) := by
  have hset : ∀ rb, (s.setReadBuf rb).tty.termios = s.tty.termios := fun _ => rfl
  rw [ttyReceiveC, if_neg hcount, discipline]
  simp only [echo_eq, hset]
  cases hsig : raised s.tty.termios c with
  | some signal =>
    rw [raised] at hsig
    by_cases hisig : has s.tty.termios.lflag isig
    · rw [if_pos hisig] at hsig
      by_cases hintr : c = s.tty.termios.cc vintr
      · rw [if_pos hintr] at hsig
        cases hsig
        rw [if_pos ⟨hisig, hintr⟩]
        rfl
      · rw [if_neg hintr] at hsig
        rw [if_neg fun h => hintr h.2]
        by_cases hquit : c = s.tty.termios.cc vquit
        · rw [if_pos hquit] at hsig
          cases hsig
          rw [if_pos ⟨hisig, hquit⟩]
          rfl
        · rw [if_neg hquit] at hsig
          rw [if_neg fun h => hquit h.2]
          by_cases hsusp : c = s.tty.termios.cc vsusp
          · rw [if_pos hsusp] at hsig
            cases hsig
            rw [if_pos ⟨hisig, hsusp⟩]
            rfl
          · rw [if_neg hsusp] at hsig
            cases hsig
    · rw [if_neg hisig] at hsig
      cases hsig
  | none =>
    have hno : ∀ i, i = vintr ∨ i = vquit ∨ i = vsusp → ¬ (has s.tty.termios.lflag isig ∧ c = s.tty.termios.cc i) := by
      rintro i hi ⟨hisig, hc⟩
      rw [raised, if_pos hisig] at hsig
      split_ifs at hsig with hintr hquit hsusp
      rcases hi with rfl | rfl | rfl
      · exact hintr hc
      · exact hquit hc
      · exact hsusp hc
    rw [if_neg (hno _ (.inl rfl)), if_neg (hno _ (.inr (.inl rfl))), if_neg (hno _ (.inr (.inr rfl)))]
    by_cases hign : c = cr ∧ has s.tty.termios.iflag igncr
    · rw [if_pos hign, translated, if_pos hign.1, if_pos hign.2]
      rfl
    · rw [if_neg hign, translated_eq hign]
      generalize (if c = cr then if has s.tty.termios.iflag icrnl then nl else c
        else if c = nl ∧ has s.tty.termios.iflag inlcr then cr else c) = c'
      dsimp only
      by_cases herase : has s.tty.termios.lflag icanon ∧ c' = s.tty.termios.cc verase
      · rw [if_pos herase, if_pos herase]
        rfl
      · rw [if_neg herase, if_neg herase]
        cases hfull : s.tty.readBuf.full with
        | true => rfl
        | false =>
          cases hcanon : has s.tty.termios.lflag icanon with
          | true => simp [endsLine, Except.map]
          | false => simp [Except.map]

theorem echoBytes_silent (t : Termios) (c : UInt8) (popped : Option UInt8) :
    echoBytes t (t.lflag &&& ~~~echoFlag) c popped = [] := by
  have hoff : has (t.lflag &&& ~~~echoFlag) echoFlag = false := by
    rw [has, BitVec.and_assoc, show ~~~echoFlag &&& echoFlag = 0 by decide]
    simp
  rw [echoBytes, hoff, if_neg (by decide)]

/-- The state behind a byte whose echo fits. -/
def stored (s : Pty) (rb : RingBuffer UInt8) (bytes : List UInt8) : Pty :=
  (s.setReadBuf rb).setOutput (if bytes.length = 0 then s.output else (s.output.write bytes).2)

theorem pop_of_empty {rb : RingBuffer UInt8} (h : rb.empty = true) : rb.pop = (none, rb) := by
  rw [RingBuffer.pop]
  cases rb.data with
  | none => rfl
  | some data => simp [h]

theorem settle_commit (hpush : push = true → rb.full = false) :
    settle s (commit s.tty s.output sig lflag c popped rb push wake) =
      if s.output.space < (process s.tty.termios.oflag (echoBytes s.tty.termios lflag c popped)).length then
        .error .eagain
      else .ok (stored s (if push then (rb.write [c]).2 else rb)
          (process s.tty.termios.oflag (echoBytes s.tty.termios lflag c popped)),
        (if wake then [.wakeRead] else []) ++
          match sig with
          | some signal => [.killPg s.tty.pgrp signal]
          | none => []) := by
  have hroom : ¬ (push = true ∧ rb.full = true) := by
    rintro ⟨hp, hfull⟩
    rw [hpush hp] at hfull
    cases hfull
  unfold commit
  rw [if_neg hroom]
  by_cases hspace : s.output.space < (process s.tty.termios.oflag (echoBytes s.tty.termios lflag c popped)).length
  · rw [if_pos hspace, if_pos hspace]
    rfl
  · rw [if_neg hspace, if_neg hspace]
    cases sig with
    | none => rfl
    | some signal => rfl

theorem settle_commit_full (hfull : rb.full = true) :
    settle s (commit s.tty s.output sig lflag c popped rb true wake) = .error .eagain := by
  unfold commit
  rw [if_pos ⟨rfl, hfull⟩]
  rfl

theorem receiveAtomic_eq (hcount : s.tty.count ≠ 0) (hup : s.tty.hungUp = false) : receiveAtomic s c =
    (discipline s.tty.termios s.tty.pgrp s.tty.readBuf c).bind fun r =>
      let bytes := process s.tty.termios.oflag r.2.1
      if s.output.space < bytes.length then .error .eagain else .ok (stored s r.1 bytes, r.2.2) := by
  have hlive : ¬ (s.tty.count = 0 ∨ s.tty.hungUp = true) := by simp [hcount, hup]
  rw [receiveAtomic, ttyReceiveCAtomic, if_neg hlive, discipline]
  have hraised : (if has s.tty.termios.lflag isig = true then
        if c = s.tty.termios.cc vintr then some .sigint
        else if c = s.tty.termios.cc vquit then some .sigquit
        else if c = s.tty.termios.cc vsusp then some .sigtstp
        else none
      else none) = raised s.tty.termios c := rfl
  dsimp only
  rw [hraised]
  cases hsig : raised s.tty.termios c with
  | some signal =>
    rw [Option.isSome_some, if_pos rfl, settle_commit (by simp)]
    rfl
  | none =>
    rw [Option.isSome_none, if_neg (by decide)]
    by_cases hign : c = cr ∧ has s.tty.termios.iflag igncr
    · rw [if_pos hign, translated, if_pos hign.1, if_pos hign.2, settle_commit (by simp), echoBytes_silent]
      rfl
    · rw [if_neg hign, translated_eq hign]
      generalize (if c = cr then if has s.tty.termios.iflag icrnl then nl else c
        else if c = nl ∧ has s.tty.termios.iflag inlcr then cr else c) = c'
      dsimp only
      by_cases herase : has s.tty.termios.lflag icanon ∧ c' = s.tty.termios.cc verase
      · rw [if_pos herase, if_pos herase]
        cases hempty : s.tty.readBuf.empty with
        | true =>
          rw [if_pos rfl, settle_commit (by simp), pop_of_empty hempty]
          rfl
        | false =>
          rw [if_neg (by decide), settle_commit (by simp)]
          rfl
      · rw [if_neg herase, if_neg herase]
        by_cases hline : has s.tty.termios.lflag icanon ∧
            (c' = s.tty.termios.cc veof ∨ c' = nl ∨ c' = cr ∨ c' = s.tty.termios.cc veol)
        · rw [if_pos hline]
          cases hfull : s.tty.readBuf.full with
          | true => rw [settle_commit_full hfull]; rfl
          | false =>
            rw [settle_commit fun _ => hfull]
            have hwake : has s.tty.termios.lflag icanon → endsLine s.tty.termios c' := fun _ => by
              simpa [endsLine] using hline.2
            simp only [if_pos hwake]
            rfl
        · rw [if_neg hline]
          cases hfull : s.tty.readBuf.full with
          | true => rw [settle_commit_full hfull]; rfl
          | false =>
            rw [settle_commit fun _ => hfull]
            have hwake : (has s.tty.termios.lflag icanon → endsLine s.tty.termios c') ↔
                (!has s.tty.termios.lflag icanon) = true := by
              cases hcanon : has s.tty.termios.lflag icanon with
              | true => simpa [endsLine, hcanon] using hline
              | false => simp
            simp only [hwake, List.append_nil]
            rfl

/-! ## Echo -/

/-- Some bytes are written to the buffer of the master. -/
structure Wrote (s : Pty) (bytes : List UInt8) (s' : Pty) : Prop where
  tty : s'.tty = s.tty
  masterOpen : s'.masterOpen = s.masterOpen
  wellFormed : s'.output.WellFormed
  contents : s'.output.contents = s.output.contents ++ bytes
  size : s'.output.size = s.output.size

theorem space_eq {rb : RingBuffer UInt8} (h : rb.WellFormed) : rb.space = rb.size - rb.contents.length := by
  rw [RingBuffer.space, h.contents_length]

theorem process_eq (t : Termios) (l : List UInt8) : process t.oflag l = l.flatMap (ttyOutputChar t) := by
  induction l with
  | nil => rfl
  | cons c l ih =>
    rw [process, List.flatMap_cons, ttyOutputChar, ih]
    split_ifs <;> rfl

theorem wrote_write (h : s.output.WellFormed) (hfits : l.length ≤ s.output.space) :
    Wrote s l (s.setOutput (s.output.write l).2) := by
  obtain ⟨hwf, hcount, hcontents, hsize⟩ := h.write l
  rw [space_eq h] at hfits
  rw [Nat.min_eq_left hfits] at hcount
  rw [hcount, List.take_length] at hcontents
  exact ⟨rfl, rfl, hwf, hcontents, hsize⟩

theorem Wrote.space_eq (hw : Wrote s l s') (h : s.output.WellFormed) : s'.output.space = s.output.space - l.length := by
  rw [Terminal.space_eq h, Terminal.space_eq hw.wellFormed, hw.contents, hw.size, List.length_append]
  omega

theorem Wrote.trans {u : Pty} {l' : List UInt8} (h : Wrote s l s') (h' : Wrote s' l' u) : Wrote s (l ++ l') u := by
  refine ⟨h'.tty.trans h.tty, h'.masterOpen.trans h.masterOpen, h'.wellFormed, ?_, h'.size.trans h.size⟩
  rw [h'.contents, h.contents, List.append_assoc]

/-- The characters of an echo that fits are written one after the other. -/
theorem wrote_putS (h : s.output.WellFormed) (hopen : s.masterOpen = true)
    (hfits : (process s.tty.termios.oflag l).length ≤ s.output.space) :
    Wrote s (process s.tty.termios.oflag l) (ttyPutS s l) := by
  induction l generalizing s with
  | nil => exact ⟨rfl, rfl, h, (List.append_nil _).symm, rfl⟩
  | cons c l ih =>
    rw [process_eq, List.flatMap_cons, List.length_append] at hfits
    have hfirst : Wrote s (ttyOutputChar s.tty.termios c) (ttyPutC s c) := by
      rw [ttyPutC, ptyWrite, if_pos hopen]
      exact wrote_write h (by omega)
    have hrest := ih hfirst.wellFormed (hfirst.masterOpen.trans hopen) (by
      rw [hfirst.tty, process_eq, hfirst.space_eq h]
      omega)
    rw [hfirst.tty] at hrest
    have hall : process s.tty.termios.oflag (c :: l) =
        ttyOutputChar s.tty.termios c ++ process s.tty.termios.oflag l := by
      rw [process_eq, process_eq, List.flatMap_cons]
    rw [hall]
    exact hfirst.trans hrest

theorem wrote_stored (h : s.output.WellFormed) (hfits : l.length ≤ s.output.space) :
    Wrote (s.setReadBuf rb) l (stored s rb l) := by
  rw [stored]
  by_cases hzero : l.length = 0
  · rw [if_pos hzero, List.eq_nil_of_length_eq_zero hzero]
    exact ⟨rfl, rfl, h, (List.append_nil _).symm, rfl⟩
  · rw [if_neg hzero]
    exact wrote_write (s := s.setReadBuf rb) h hfits

/-- Two terminals with the same bytes in the buffers of their masters. -/
structure Alike (s s' : Pty) : Prop where
  tty : s'.tty = s.tty
  masterOpen : s'.masterOpen = s.masterOpen
  left : s.output.WellFormed
  right : s'.output.WellFormed
  contents : s'.output.contents = s.output.contents
  size : s'.output.size = s.output.size

theorem Alike.refl (h : s.output.WellFormed) : Alike s s := ⟨rfl, rfl, h, h, rfl, rfl⟩

theorem Alike.setReadBuf (h : Alike s s') (rb : RingBuffer UInt8) : Alike (s.setReadBuf rb) (s'.setReadBuf rb) := by
  refine ⟨?_, h.masterOpen, h.left, h.right, h.contents, h.size⟩
  rw [Pty.setReadBuf, Pty.setReadBuf, h.tty]

theorem Alike.wrote {u u' : Pty} (h : Alike s s') (hw : Wrote s l u) (hw' : Wrote s' l u') : Alike u u' := by
  refine ⟨?_, ?_, hw.wellFormed, hw'.wellFormed, ?_, ?_⟩
  · rw [hw'.tty, hw.tty, h.tty]
  · rw [hw'.masterOpen, hw.masterOpen, h.masterOpen]
  · rw [hw'.contents, hw.contents, h.contents]
  · rw [hw'.size, hw.size, h.size]

/-! ## A byte -/

theorem receiveAtomic_ok {r : Pty × List Effect} (hup : s.tty.hungUp = false)
    (h : receiveAtomic s c = .ok r) : s.tty.count ≠ 0 ∧ ∃ rb bytes effects,
      discipline s.tty.termios s.tty.pgrp s.tty.readBuf c = .ok (rb, bytes, effects) ∧
      (process s.tty.termios.oflag bytes).length ≤ s.output.space ∧
      r = (stored s rb (process s.tty.termios.oflag bytes), effects) := by
  have hcount : s.tty.count ≠ 0 := by
    intro hzero
    rw [receiveAtomic, ttyReceiveCAtomic, if_pos (.inl hzero)] at h
    cases h
  refine ⟨hcount, ?_⟩
  rw [receiveAtomic_eq hcount hup] at h
  cases hd : discipline s.tty.termios s.tty.pgrp s.tty.readBuf c with
  | error e =>
    rw [hd] at h
    cases h
  | ok q =>
    obtain ⟨rb, bytes, effects⟩ := q
    rw [hd, Except.bind] at h
    dsimp only at h
    by_cases hspace : s.output.space < (process s.tty.termios.oflag bytes).length
    · rw [if_pos hspace] at h
      cases h
    · rw [if_neg hspace] at h
      exact ⟨rb, bytes, effects, rfl, by omega, (Except.ok.inj h).symm⟩

/-- A byte that the atomic path stores is stored in place with the same effects. -/
theorem Alike.receive {r : Pty × List Effect} (h : Alike s s') (hopen : s.masterOpen = true)
    (hup : s.tty.hungUp = false) (hok : receiveAtomic s c = .ok r) :
    ∃ u, ttyReceiveC s' c = .ok (u, r.2) ∧ Alike r.1 u ∧ r.1.masterOpen = true ∧ r.1.tty.hungUp = false := by
  obtain ⟨hcount, rb, bytes, effects, hd, hfits, rfl⟩ := receiveAtomic_ok hup hok
  have hspace : s'.output.space = s.output.space := by
    rw [space_eq h.left, space_eq h.right, h.contents, h.size]
  have hleft : Wrote (s.setReadBuf rb) (process s.tty.termios.oflag bytes)
      (stored s rb (process s.tty.termios.oflag bytes)) := wrote_stored h.left hfits
  have hright : Wrote (s'.setReadBuf rb) (process s.tty.termios.oflag bytes)
      (ttyPutS (s'.setReadBuf rb) bytes) := by
    have hflags : (s'.setReadBuf rb).tty.termios = s.tty.termios := by
      rw [← h.tty]
      rfl
    rw [← hflags]
    refine wrote_putS h.right (h.masterOpen.trans hopen) ?_
    rw [hflags]
    exact hfits.trans_eq hspace.symm
  refine ⟨_, ?_, (h.setReadBuf rb).wrote hleft hright, hleft.masterOpen.trans hopen, ?_⟩
  · rw [ttyReceiveC_eq (by rwa [h.tty]), h.tty, hd]
    rfl
  · rw [hleft.tty]
    exact hup

/-! ## Room -/

theorem echoBytes_length (t : Termios) (lflag : Flags) (c : UInt8) (popped : Option UInt8) :
    (process t.oflag (echoBytes t lflag c popped)).length ≤ 3 := by
  have hone : ∀ c, (ttyOutputChar t c).length ≤ 2 ∧ (c ≠ nl → (ttyOutputChar t c).length = 1) := by
    intro c
    rw [ttyOutputChar]
    split_ifs with h
    · exact ⟨by simp, fun hne => absurd h.2.1 hne⟩
    · exact ⟨by simp, fun _ => rfl⟩
  have hbs := (hone bs).2 (by decide)
  have hspace := (hone space).2 (by decide)
  have hcaret := (hone caret).2 (by decide)
  rw [process_eq, echoBytes]
  split_ifs <;> simp only [List.flatMap_cons, List.flatMap_nil, List.length_append, List.length_nil]
  · omega
  · omega
  · have := (hone questionMark).1
    omega
  · have := (hone (c + 0x40)).1
    omega
  · have := (hone c).1
    omega
  · omega

theorem write_len (rb : RingBuffer UInt8) (c : UInt8) :
    (rb.write [c]).2.len ≤ rb.len + 1 ∧ (rb.write [c]).2.size = rb.size := by
  rw [RingBuffer.write]
  cases rb.data with
  | none => exact ⟨Nat.le_succ _, rfl⟩
  | some data =>
    dsimp only
    split_ifs
    · exact ⟨Nat.le_succ _, rfl⟩
    · exact ⟨Nat.add_le_add_left (Nat.min_le_left _ _) _, rfl⟩
    · exact ⟨Nat.add_le_add_left (Nat.min_le_left _ _) _, rfl⟩
    · exact ⟨Nat.add_le_add_left (Nat.min_le_left _ _) _, rfl⟩
    · exact ⟨Nat.add_le_add_left (Nat.min_le_left _ _) _, rfl⟩

theorem pop_len (rb : RingBuffer UInt8) : rb.pop.2.len ≤ rb.len ∧ rb.pop.2.size = rb.size := by
  rw [RingBuffer.pop]
  cases rb.data with
  | none => exact ⟨Nat.le_refl _, rfl⟩
  | some data =>
    dsimp only
    split_ifs
    · exact ⟨Nat.le_refl _, rfl⟩
    · exact ⟨Nat.sub_le _ _, rfl⟩

theorem discipline_ok (t : Termios) (pgrp : ℤ) (c : UInt8) (h : rb.len < rb.size) :
    ∃ rb' bytes effects, discipline t pgrp rb c = .ok (rb', bytes, effects) ∧
      (process t.oflag bytes).length ≤ 3 ∧ rb'.len ≤ rb.len + 1 ∧ rb'.size = rb.size := by
  have hfull : rb.full = false := by
    rw [RingBuffer.full, decide_eq_false_iff_not]
    omega
  rw [discipline]
  cases raised t c with
  | some signal => exact ⟨_, _, _, rfl, echoBytes_length .., by omega, rfl⟩
  | none =>
    cases translated t c with
    | none => exact ⟨_, _, _, rfl, by simp [process], by omega, rfl⟩
    | some c =>
      dsimp only
      by_cases herase : has t.lflag icanon ∧ c = t.cc verase
      · rw [if_pos herase]
        obtain ⟨hlen, hsize⟩ := pop_len rb
        exact ⟨_, _, _, rfl, echoBytes_length .., by omega, hsize⟩
      · rw [if_neg herase, hfull, if_neg (by decide)]
        obtain ⟨hlen, hsize⟩ := write_len rb c
        exact ⟨_, _, _, rfl, echoBytes_length .., hlen, hsize⟩

/-- With room in both buffers the atomic path takes all bytes. -/
theorem feed_ok (h : s.output.WellFormed) (hup : s.tty.hungUp = false) (hcount : s.tty.count ≠ 0) (cs : List UInt8)
    (hread : s.tty.readBuf.len + cs.length ≤ s.tty.readBuf.size)
    (hout : s.output.len + 3 * cs.length ≤ s.output.size) : ∃ r, feed receiveAtomic s cs = .ok r := by
  induction cs generalizing s with
  | nil => exact ⟨_, rfl⟩
  | cons c cs ih =>
    rw [List.length_cons] at hread hout
    obtain ⟨rb, bytes, effects, hd, hlen, hle, hsize⟩ :=
      discipline_ok s.tty.termios s.tty.pgrp c (show s.tty.readBuf.len < s.tty.readBuf.size by omega)
    have hfits : (process s.tty.termios.oflag bytes).length ≤ s.output.space := by
      rw [RingBuffer.space]
      omega
    have hfirst : receiveAtomic s c = .ok (stored s rb (process s.tty.termios.oflag bytes), effects) := by
      rw [receiveAtomic_eq hcount hup, hd, Except.bind]
      exact if_neg (Nat.not_lt.mpr hfits)
    have hw : Wrote (s.setReadBuf rb) (process s.tty.termios.oflag bytes) (stored s rb (process s.tty.termios.oflag bytes)) :=
      wrote_stored h hfits
    have hbytes : (stored s rb (process s.tty.termios.oflag bytes)).output.len ≤ s.output.len + 3 := by
      rw [← hw.wellFormed.contents_length, hw.contents, List.length_append]
      have hold : (s.setReadBuf rb).output.contents.length = s.output.len := h.contents_length
      omega
    have hsame : (s.setReadBuf rb).output.size = s.output.size := rfl
    obtain ⟨r, hr⟩ := ih hw.wellFormed (by rw [hw.tty]; exact hup) (by rw [hw.tty]; exact hcount)
      (by rw [hw.tty]; simp only [Pty.setReadBuf, Tty.setReadBuf]; omega) (by rw [hw.size]; omega)
    exact ⟨(r.1, effects :: r.2), by rw [feed, hfirst]; simp only [hr]⟩

/-! ## All bytes -/

/-- Bytes that the atomic path stores are stored in place with the same effects. -/
theorem Alike.feed {r : Pty × List (List Effect)} (h : Alike s s') (hopen : s.masterOpen = true)
    (hup : s.tty.hungUp = false) {cs : List UInt8} (hok : feed receiveAtomic s cs = .ok r) :
    ∃ u, Terminal.feed ttyReceiveC s' cs = .ok (u, r.2) ∧ Alike r.1 u := by
  induction cs generalizing s s' r with
  | nil =>
    cases hok
    exact ⟨s', rfl, h⟩
  | cons c cs ih =>
    rw [Terminal.feed] at hok
    cases hfirst : receiveAtomic s c with
    | error e =>
      rw [hfirst] at hok
      cases hok
    | ok q =>
      rw [hfirst] at hok
      dsimp only at hok
      cases hrest : Terminal.feed receiveAtomic q.1 cs with
      | error e =>
        rw [hrest] at hok
        cases hok
      | ok q' =>
        rw [hrest] at hok
        cases hok
        obtain ⟨u, hu, halike, hopen', hup'⟩ := h.receive hopen hup hfirst
        obtain ⟨u', hu', halike'⟩ := ih halike hopen' hup' hrest
        exact ⟨u', by rw [Terminal.feed, hu]; simp only [hu'], halike'⟩

/-- The bytes in the buffers and the effects of every byte are the same. -/
structure Agree (r r' : Pty × List (List Effect)) : Prop where
  readBuf : r'.1.tty.readBuf.contents = r.1.tty.readBuf.contents
  output : r'.1.output.contents = r.1.output.contents
  effects : r'.2 = r.2

/-- Bytes that the atomic path takes are taken in place, with the same bytes in the buffers and the same
effects of each of them, and where there is room for them and their echo all bytes are taken. -/
theorem input_paths_agree {s : Pty} (h : s.output.WellFormed) (hopen : s.masterOpen = true)
    (hup : s.tty.hungUp = false) (cs : List UInt8) :
    (∀ r, feed receiveAtomic s cs = .ok r → ∃ r', feed ttyReceiveC s cs = .ok r' ∧ Agree r r') ∧
    (s.tty.count ≠ 0 → s.tty.readBuf.len + cs.length ≤ s.tty.readBuf.size →
      s.output.len + 3 * cs.length ≤ s.output.size → ∃ r, feed receiveAtomic s cs = .ok r) := by
  constructor
  · intro r hr
    obtain ⟨u, hu, halike⟩ := (Alike.refl h).feed hopen hup hr
    exact ⟨_, hu, congrArg (fun t => t.readBuf.contents) halike.tty, halike.contents, rfl⟩
  · exact fun hcount hread hout => feed_ok h hup hcount cs hread hout

/-- A terminal with the usual settings. -/
def freshPty : Pty where
  tty := { count := 2, hungUp := false, termios := defaultTermios, pgrp := 7, readBuf := .init fun _ => 0 }
  output := .init fun _ => 0
  masterOpen := true

/-- A letter that is erased, another one, the end of the line and an interrupt. -/
def line : List UInt8 := [97, del, 98, cr, 3]

theorem input_paths_agree_line : ∃ r r', feed receiveAtomic freshPty line = .ok r ∧
    feed ttyReceiveC freshPty line = .ok r' ∧ Agree r r' := by
  have hpaths := input_paths_agree (s := freshPty) (RingBuffer.init_wellFormed _) rfl rfl line
  obtain ⟨r, hr⟩ := hpaths.2 (by decide) (by decide) (by decide)
  obtain ⟨r', hr', hagree⟩ := hpaths.1 r hr
  exact ⟨r, r', hr, hr', hagree⟩

end Mario.Fs.Terminal
