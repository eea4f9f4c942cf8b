import Mario.Fs.Char.TtyRead

/-!
# The lines that a reader gets

What an erase may take, and how the bytes that reads return come from the bytes that were received. An erase is harmless
when the last byte in the buffer is not a delimiter. A read gives the bytes of one line, unless the buffer is full, and
it takes the last byte for the end of a file whenever it is that character.
-/

namespace Mario.Fs.Terminal

variable {s : Pty} {t : Termios} {c : UInt8} {l : List UInt8} {e : Event}

/-! ## What an erase takes -/

/-- The lines that are complete. -/
def completed (t : Termios) (l : List UInt8) : List UInt8 := l.rdropWhile fun c => !delimiter t c

/-- When an event erases, the lines that were complete are still there. -/
def Pty.Keeps (s : Pty) (e : Event) : Prop :=
  ∀ c ∈ s.takes e, erases s.tty.termios c = true → completed s.tty.termios s.bytes <+: (s.step e).bytes

/-- The byte of an event that erases, when the terminal is open and there is room for the echo. -/
def Pty.admits (s : Pty) : Event → Option UInt8
  | .receive c => if s.tty.count ≠ 0 then some c else none
  | .receiveAtomic c =>
      if s.tty.count ≠ 0 ∧ s.tty.hungUp = false ∧ (process s.tty.termios.oflag (echoBytes s.tty.termios s.tty.termios.lflag
        (s.tty.termios.cc verase) s.bytes.getLast?)).length ≤ s.output.space then some c else none
  | _ => none

/-- An event does not erase, or the last byte in the buffer is not a delimiter. -/
def Pty.Spares (s : Pty) (e : Event) : Prop :=
  ∀ c ∈ s.admits e, erases s.tty.termios c = true → ∀ b ∈ s.bytes.getLast?, delimiter s.tty.termios b = false

theorem completed_prefix_iff (t : Termios) (l : List UInt8) :
    completed t l <+: l.dropLast ↔ ∀ b ∈ l.getLast?, delimiter t b = false := by
  induction l using List.reverseRecOn with
  | nil => simp [completed]
  | append_singleton l c =>
    rw [List.dropLast_concat, List.getLast?_concat, completed]
    cases hd : delimiter t c with
    | true =>
      rw [List.rdropWhile_concat_neg _ _ _ (by simp [hd])]
      refine iff_of_false (fun hprefix => ?_) (fun h => ?_)
      · have hle := hprefix.length_le
        rw [List.length_append, List.length_singleton] at hle
        omega
      · have hc := h c rfl
        rw [hd] at hc
        cases hc
    | false =>
      rw [List.rdropWhile_concat_pos _ _ _ (by simp [hd])]
      refine iff_of_true (List.rdropWhile_prefix _ _) fun b hb => ?_
      cases hb
      exact hd

theorem discipline_of_erases {pgrp : ℤ} {rb : RingBuffer UInt8} (h : erases t c = true) :
    discipline t pgrp rb c = .ok (rb.pop.2, echoBytes t t.lflag (t.cc verase) rb.pop.1, []) := by
  simp only [erases, Bool.and_eq_true, Option.isNone_iff_eq_none, beq_iff_eq] at h
  obtain ⟨⟨hraised, hcanon⟩, htranslated⟩ := h
  rw [discipline, hraised, htranslated]
  exact if_pos ⟨hcanon, rfl⟩

theorem takes_iff (h : s.Sound) (he : erases s.tty.termios c = true) : s.takes e = some c ↔ s.admits e = some c := by
  cases e with
  | receive c' =>
    rw [Pty.takes, Pty.admits]
    by_cases hcount : s.tty.count = 0
    · rw [ttyReceiveC, if_pos hcount, if_neg (not_not.mpr hcount)]
      rfl
    · rw [if_pos hcount, ttyReceiveC_eq hcount]
      by_cases hc : c' = c
      · rw [hc, discipline_of_erases he]
        rfl
      · refine iff_of_false (fun heq => ?_) (fun heq => hc (Option.some.inj heq))
        split_ifs at heq
        exact hc (Option.some.inj heq)
  | receiveAtomic c' =>
    rw [Pty.takes, Pty.admits]
    by_cases hc : c' = c
    · subst hc
      have hpop : s.tty.readBuf.pop.1 = s.bytes.getLast? := (h.read.pop (by rw [h.readSize]; decide)).2.1
      have hiff : (ttyReceiveCAtomic s.tty c' s.output).2.2.err = none ↔ (receiveAtomic s c').isOk := by
        rw [receiveAtomic, settle]
        cases (ttyReceiveCAtomic s.tty c' s.output).2.2.err <;> simp [Except.isOk, Except.toBool]
      by_cases hlive : s.tty.count ≠ 0 ∧ s.tty.hungUp = false
      · rw [receiveAtomic_eq hlive.1 hlive.2, discipline_of_erases he, hpop, Except.bind] at hiff
        dsimp only at hiff
        by_cases hfits : (process s.tty.termios.oflag (echoBytes s.tty.termios s.tty.termios.lflag
            (s.tty.termios.cc verase) s.bytes.getLast?)).length ≤ s.output.space
        · rw [if_neg (Nat.not_lt.mpr hfits)] at hiff
          rw [if_pos (hiff.mpr rfl), if_pos ⟨hlive.1, hlive.2, hfits⟩]
        · rw [if_pos (Nat.lt_of_not_le hfits)] at hiff
          rw [if_neg fun hnone => Bool.false_ne_true (hiff.mp hnone), if_neg fun hadm => hfits hadm.2.2]
      · have hdead : s.tty.count = 0 ∨ s.tty.hungUp = true := by grind
        rw [ttyReceiveCAtomic, if_pos hdead, if_neg (by simp [Answer.failed]), if_neg fun hadm => hlive ⟨hadm.1, hadm.2.1⟩]
    · refine iff_of_false (fun heq => ?_) (fun heq => ?_)
      · split_ifs at heq
        exact hc (Option.some.inj heq)
      · split_ifs at heq
        exact hc (Option.some.inj heq)
  | read | masterRead | write | hangUp => exact iff_of_false (by simp [Pty.takes]) (by simp [Pty.admits])

theorem step_bytes (h : s.Sound) (he : (∃ c, e = .receive c) ∨ ∃ c, e = .receiveAtomic c) : Kept s (s.step e) ∧
    (s.step e).bytes = (s.takes e).elim s.bytes fun c => edited s.tty.termios c s.bytes := by
  obtain ⟨c, rfl⟩ | ⟨c, rfl⟩ := he
  · exact receive_eq h c
  · exact receiveAtomic_eq_edited h c

theorem input_of_takes (h : s.takes e = some c) : (∃ c, e = .receive c) ∨ ∃ c, e = .receiveAtomic c := by
  cases e with
  | receive c' => exact .inl ⟨c', rfl⟩
  | receiveAtomic c' => exact .inr ⟨c', rfl⟩
  | read | masterRead | write | hangUp => cases h

theorem keeps_iff (h : s.Sound) : s.Keeps e ↔ s.Spares e := by
  refine forall_congr' fun c => ?_
  by_cases he : erases s.tty.termios c = true
  · rw [Option.mem_def, takes_iff h he]
    refine imp_congr_right fun hadmits => imp_congr_right fun _ => ?_
    have htakes := (takes_iff h he).mpr hadmits
    rw [(step_bytes h (input_of_takes htakes)).2, htakes, Option.elim, edited, if_pos he]
    exact completed_prefix_iff _ _
  · exact iff_of_true (fun _ h => absurd h he) (fun _ h => absurd h he)

/-! ## Every event -/

/-- A terminal that has just been opened. -/
def opened (page : ℕ → UInt8) (count : ℕ) (t : Termios) (pgrp : ℤ) (masterOpen : Bool) : Pty where
  tty := { count, hungUp := false, termios := t, pgrp, readBuf := .init page }
  output := .init page
  masterOpen

theorem opened_sound (page : ℕ → UInt8) (count : ℕ) (t : Termios) (pgrp : ℤ) (masterOpen : Bool) :
    (opened page count t pgrp masterOpen).Sound :=
  ⟨RingBuffer.init_wellFormed page, rfl, RingBuffer.init_wellFormed page, rfl⟩

theorem ttyRead_eq (h : s.Sound) (count : ℕ) : ttyRead s.tty count =
    if getNRead s.tty = 0 then if s.tty.hungUp then some (⟨[], []⟩, s.tty) else none
    else
      let chunk := s.bytes.take (min (getNRead s.tty) count)
      some (⟨chunk, if EndsFile s.tty.termios chunk then chunk.dropLast else chunk⟩,
        s.tty.setReadBuf (s.tty.readBuf.read (min (getNRead s.tty) count)).2) := by
  have hchunk := (h.read.read (min (getNRead s.tty) count)).2.1
  rw [ttyRead]
  dsimp only
  rw [hchunk]
  rfl

theorem read_kept (h : s.Sound) {count : ℕ} {pos : 0 < count} : Kept s (s.step (.read count pos)) := by
  rw [Pty.step, ttyRead_eq h]
  obtain ⟨hwf, -, -, hsize⟩ := h.read.read (min (getNRead s.tty) count)
  by_cases hn : getNRead s.tty = 0
  · rw [if_pos hn]
    cases hup : s.tty.hungUp with
    | true => exact ⟨h, rfl, rfl⟩
    | false => exact ⟨h, rfl, rfl⟩
  · rw [if_neg hn]
    exact ⟨⟨hwf, hsize.trans h.readSize, h.output, h.outputSize⟩, rfl, rfl⟩

theorem Pty.Sound.step (h : s.Sound) (e : Event) : (s.step e).Sound ∧ (s.step e).tty.termios = s.tty.termios := by
  cases e with
  | receive c => exact ⟨(step_bytes h (.inl ⟨c, rfl⟩)).1.sound, (step_bytes h (.inl ⟨c, rfl⟩)).1.termios⟩
  | receiveAtomic c => exact ⟨(step_bytes h (.inr ⟨c, rfl⟩)).1.sound, (step_bytes h (.inr ⟨c, rfl⟩)).1.termios⟩
  | read count pos => exact ⟨(read_kept h).sound, (read_kept h).termios⟩
  | masterRead count =>
    obtain ⟨hwf, -, -, hsize⟩ := h.output.read count
    exact ⟨⟨h.read, h.readSize, hwf, hsize.trans h.outputSize⟩, rfl⟩
  | write buf =>
    obtain ⟨hsound, htty⟩ := h.ptyWrite buf
    exact ⟨hsound, congrArg Tty.termios htty⟩
  | hangUp => exact ⟨⟨h.read.clear.1, h.readSize, h.output, h.outputSize⟩, rfl⟩

theorem Pty.Sound.run (h : s.Sound) (events : List Event) : (events.foldl Pty.step s).Sound := by
  induction events generalizing s with
  | nil => exact h
  | cons e events ih => exact ih (h.step e).1

/-- No erase takes a byte of a complete line when none comes with a delimiter as the last byte in the buffer, and
only then. -/
theorem erase_keeps_lines_iff (page : ℕ → UInt8) (count : ℕ) (t : Termios) (pgrp : ℤ) (masterOpen : Bool)
    (events : List Event) :
    (∀ before e, before ++ [e] <+: events → (before.foldl Pty.step (opened page count t pgrp masterOpen)).Keeps e) ↔
      ∀ before e, before ++ [e] <+: events → (before.foldl Pty.step (opened page count t pgrp masterOpen)).Spares e :=
  forall₂_congr fun before _ =>
    imp_congr_right fun _ => keeps_iff ((opened_sound page count t pgrp masterOpen).run before)

/-- A line is typed, and the next key is the one that erases. -/
theorem erase_takes_newline : ¬ ∀ before e, before ++ [e] <+: [.receive 97, .receive 10, .receive del] →
    (before.foldl Pty.step (opened (fun _ => 0) 1 defaultTermios 0 false)).Keeps e := by
  intro h
  have hkeeps := h [.receive 97, .receive 10] (.receive del) (List.prefix_refl _) del (by decide) (by decide)
  exact absurd hkeeps (by decide)

/-! ## What reads return -/

/-- A read: the bytes that had been taken before, whether the terminal was hung up, and what was taken and returned. -/
structure Reading where
  before : List UInt8
  hungUp : Bool
  got : Got
  deriving DecidableEq

/-- A terminal, the bytes that it received with line ends mapped and erases done, the bytes that reads took, and the
reads. -/
structure Session where
  pty : Pty
  received : List UInt8
  taken : List UInt8
  reads : List Reading

/-- The bytes received after a character. An erase is for what is behind the last delimiter and not yet taken. -/
def Session.receive (x : Session) (c : UInt8) : List UInt8 :=
  let t := x.pty.tty.termios
  haveI : Decidable (∀ b ∈ x.received.getLast?, delimiter t b = false) := Option.decidableForallMem _
  if erases t c ∧ ¬ (x.taken.length < x.received.length ∧ ∀ b ∈ x.received.getLast?, delimiter t b = false) then x.received
  else edited t c x.received

def Session.step (x : Session) : Event → Session
  | .read count pos =>
      match ttyRead x.pty.tty count with
      | none => x
      | some r =>
          { x with
            pty := x.pty.step (.read count pos), taken := x.taken ++ r.1.chunk
            reads := x.reads ++ [⟨x.taken, x.pty.tty.hungUp, r.1⟩] }
  | e => { x with pty := x.pty.step e, received := (x.pty.takes e).elim x.received x.receive }

def Session.start (page : ℕ → UInt8) (count : ℕ) (t : Termios) (pgrp : ℤ) (masterOpen : Bool) : Session :=
  ⟨opened page count t pgrp masterOpen, [], [], []⟩

/-- What has been taken ends where a line ends. -/
def AtStart (t : Termios) (taken : List UInt8) : Prop := ∀ b ∈ taken.getLast?, delimiter t b = true

/-- A read takes bytes of one line, and returns them without the character for the end of a file. It returns nothing only
for this character at the start of a line, or after a hang-up. -/
structure OneLine (t : Termios) (r : Reading) : Prop where
  line : ∀ b ∈ r.got.chunk.dropLast, delimiter t b = false
  returned : r.got.returned = if r.got.chunk.getLast? = some (t.cc veof) then r.got.chunk.dropLast else r.got.chunk
  zero : r.got.returned = [] → r.got.chunk = [] ∧ r.hungUp = true ∨ r.got.chunk = [t.cc veof] ∧ AtStart t r.before

/-- The reads got what was received, in order: without `ICANON` the bytes, and with it the lines. -/
structure Session.Faithful (x : Session) : Prop where
  stream : x.taken ++ x.pty.bytes = x.received
  chunks : x.taken = (x.reads.map fun r => r.got.chunk).flatten
  plain : has x.pty.tty.termios.lflag icanon = false → ∀ r ∈ x.reads, r.got.returned = r.got.chunk
  canonical : has x.pty.tty.termios.lflag icanon = true → ∀ r ∈ x.reads, OneLine x.pty.tty.termios r

/-- A read without `ICANON` does not end with a character for the end of a file below 128. With it, a read from a full
buffer stays in the line, the rest of a line of which bytes were taken is not that character alone, and a character from
128 on is not among the bytes. A hang-up finds no bytes that have not been read. -/
def Session.Good (x : Session) : Event → Prop
  | .read count _ =>
      let t := x.pty.tty.termios
      if has t.lflag icanon then
        (x.pty.tty.readBuf.full = true → ∀ b ∈ (x.pty.bytes.take count).dropLast, delimiter t b = false) ∧
          (x.pty.bytes.head? = some (t.cc veof) → AtStart t x.taken) ∧
          (t.cc veof < 128 ∨ t.cc veof ∉ x.pty.bytes.take count)
      else ¬ EndsFile t (x.pty.bytes.take count)
  | .hangUp => x.pty.bytes = []
  | e => x.pty.Spares e

instance (s : Pty) (e : Event) : Decidable (s.Spares e) :=
  inferInstanceAs (Decidable (∀ c ∈ s.admits e, erases s.tty.termios c = true →
    ∀ b ∈ s.bytes.getLast?, delimiter s.tty.termios b = false))

instance (t : Termios) (taken : List UInt8) : Decidable (AtStart t taken) :=
  inferInstanceAs (Decidable (∀ b ∈ taken.getLast?, delimiter t b = true))

instance (x : Session) : ∀ e, Decidable (x.Good e)
  | .read count _ => by
      haveI : Decidable (∀ b ∈ (x.pty.bytes.take count).dropLast, delimiter x.pty.tty.termios b = false) :=
        List.decidableBAll _ _
      unfold Session.Good
      infer_instance
  | .receive c => inferInstanceAs (Decidable (x.pty.Spares (.receive c)))
  | .receiveAtomic c => inferInstanceAs (Decidable (x.pty.Spares (.receiveAtomic c)))
  | .masterRead n => inferInstanceAs (Decidable (x.pty.Spares (.masterRead n)))
  | .write l => inferInstanceAs (Decidable (x.pty.Spares (.write l)))
  | .hangUp => inferInstanceAs (Decidable (x.pty.bytes = []))

/-- Every event is good when its turn comes. -/
def Session.AllGood : Session → List Event → Prop
  | _, [] => True
  | x, e :: events => x.Good e ∧ (x.step e).AllGood events

instance : ∀ (x : Session) (events : List Event), Decidable (x.AllGood events)
  | _, [] => isTrue trivial
  | x, e :: events =>
      haveI := instDecidableAllGood (x.step e) events
      inferInstanceAs (Decidable (x.Good e ∧ (x.step e).AllGood events))

section

variable {x : Session}

theorem Session.receive_eq (h : x.pty.Sound) (hstream : x.taken ++ x.pty.bytes = x.received) (hspares : x.pty.Spares e)
    (htakes : x.pty.takes e = some c) : x.taken ++ edited x.pty.tty.termios c x.pty.bytes = x.receive c := by
  rw [Session.receive, ← hstream]
  by_cases he : erases x.pty.tty.termios c = true
  · have hlast := hspares c ((takes_iff h he).mp htakes) he
    rcases List.eq_nil_or_concat' x.pty.bytes with hnil | ⟨l, b, hb⟩
    · rw [hnil, List.append_nil, if_pos ⟨he, fun hlt => Nat.lt_irrefl _ hlt.1⟩, edited, if_pos he]
      exact List.append_nil _
    · rw [hb] at hlast ⊢
      rw [← List.append_assoc, List.getLast?_concat, if_neg fun hno => hno.2 ⟨by simp, by simpa using hlast⟩, edited,
        edited, if_pos he, if_pos he, List.dropLast_concat, List.dropLast_concat]
  · rw [if_neg fun hno => he hno.1, edited, edited, if_neg he, if_neg he]
    split_ifs
    · rfl
    · rw [List.append_assoc]

/-- A read under the condition takes bytes of one line. -/
theorem oneLine_of_good (h : x.pty.Sound) {count : ℕ} {pos : 0 < count} (hgood : x.Good (.read count pos))
    (hcanon : has x.pty.tty.termios.lflag icanon = true) {r : Got × Tty} (hread : ttyRead x.pty.tty count = some r) :
    OneLine x.pty.tty.termios ⟨x.taken, x.pty.tty.hungUp, r.1⟩ := by
  rw [Session.Good, if_pos hcanon] at hgood
  obtain ⟨hfull, hstart, hlow⟩ := hgood
  rw [ttyRead_eq h] at hread
  by_cases hn : getNRead x.pty.tty = 0
  · rw [if_pos hn] at hread
    split_ifs at hread with hup
    cases hread
    exact ⟨fun _ hb => absurd hb List.not_mem_nil, rfl, fun _ => .inl ⟨rfl, hup⟩⟩
  · rw [if_neg hn] at hread
    cases hread
    have hget : getNRead x.pty.tty = if x.pty.tty.readBuf.full then x.pty.bytes.length
        else lineLength x.pty.tty.termios x.pty.bytes := by
      rw [getNRead, if_pos hcanon]
      exact getNCanonRead_eq h.read _
    generalize getNRead x.pty.tty = n at hn hget
    have hne : 0 < min n count := by omega
    have hends : EndsFile x.pty.tty.termios (x.pty.bytes.take (min n count)) ↔
        (x.pty.bytes.take (min n count)).getLast? = some (x.pty.tty.termios.cc veof) := by
      refine and_iff_left_of_imp fun hlast => hlow.resolve_right (not_not_intro ?_)
      exact List.take_subset_take_left _ (Nat.min_le_right _ _) (List.mem_of_getLast? hlast)
    simp only [hends]
    refine ⟨?_, rfl, fun hnil => .inr ?_⟩
    · by_cases hf : x.pty.tty.readBuf.full = true
      · rw [if_pos hf] at hget
        dsimp only
        rw [hget, Nat.min_comm, ← List.take_eq_take_min]
        exact hfull hf
      · rw [if_neg hf] at hget
        exact not_delimiter_of_lt (by omega)
    · have hle : n ≤ x.pty.bytes.length := by
        rw [hget]
        split_ifs
        · exact Nat.le_refl _
        · exact lineLength_le _ _
      dsimp only at hnil ⊢
      generalize hchunk : x.pty.bytes.take (min n count) = chunk at hnil
      have hsome : chunk ≠ [] := by
        intro heq
        have hlength := congrArg List.length (hchunk.trans heq)
        rw [List.length_take, List.length_nil] at hlength
        omega
      have hlast : chunk.getLast? = some (x.pty.tty.termios.cc veof) := by
        by_contra hno
        rw [if_neg hno] at hnil
        exact hsome hnil
      rw [if_pos hlast] at hnil
      have hone : chunk = [x.pty.tty.termios.cc veof] := by
        rw [← List.dropLast_append_getLast? _ hlast, hnil, List.nil_append]
      refine ⟨hone, hstart ?_⟩
      have hhead := congrArg List.head? (hchunk.trans hone)
      rw [List.head?_take, if_neg (Nat.ne_of_gt hne)] at hhead
      exact hhead

/-- Without `ICANON` a read under the condition returns all that it takes. -/
theorem plain_of_good (h : x.pty.Sound) {count : ℕ} {pos : 0 < count} (hgood : x.Good (.read count pos))
    (hplain : has x.pty.tty.termios.lflag icanon = false) {r : Got × Tty} (hread : ttyRead x.pty.tty count = some r) :
    r.1.returned = r.1.chunk := by
  rw [Session.Good, hplain, if_neg Bool.false_ne_true] at hgood
  rw [ttyRead_eq h] at hread
  by_cases hn : getNRead x.pty.tty = 0
  · rw [if_pos hn] at hread
    split_ifs at hread
    cases hread
    rfl
  · rw [if_neg hn] at hread
    cases hread
    have hget : getNRead x.pty.tty = x.pty.bytes.length := by
      rw [getNRead, hplain, if_neg Bool.false_ne_true]
      exact h.read.contents_length.symm
    dsimp only
    rw [hget, Nat.min_comm, ← List.take_eq_take_min, if_neg hgood]

theorem read_stream (h : x.pty.Sound) {count : ℕ} {pos : 0 < count} {r : Got × Tty}
    (hread : ttyRead x.pty.tty count = some r) : r.1.chunk ++ (x.pty.step (.read count pos)).bytes = x.pty.bytes := by
  rw [Pty.step, hread]
  rw [ttyRead_eq h] at hread
  by_cases hn : getNRead x.pty.tty = 0
  · rw [if_pos hn] at hread
    split_ifs at hread
    cases hread
    rfl
  · rw [if_neg hn] at hread
    cases hread
    have hrest := (h.read.read (min (getNRead x.pty.tty) count)).2.2.1
    dsimp only [Pty.bytes, Tty.setReadBuf]
    rw [hrest, List.take_append_drop]

theorem Session.Faithful.other (h : x.Faithful) (hsound : x.pty.Sound)
    (hstream : x.taken ++ (x.pty.step e).bytes = (x.pty.takes e).elim x.received x.receive) :
    Session.Faithful { x with pty := x.pty.step e, received := (x.pty.takes e).elim x.received x.receive } := by
  have ht := (hsound.step e).2
  refine ⟨hstream, h.chunks, fun hplain => h.plain ?_, fun hcanon => ?_⟩
  · rwa [← ht]
  · dsimp only at hcanon ⊢
    rw [ht] at hcanon ⊢
    exact h.canonical hcanon

theorem Session.Faithful.input (h : x.Faithful) (hsound : x.pty.Sound) (hspares : x.pty.Spares e)
    (he : (∃ c, e = .receive c) ∨ ∃ c, e = .receiveAtomic c) :
    Session.Faithful { x with pty := x.pty.step e, received := (x.pty.takes e).elim x.received x.receive } := by
  refine h.other hsound ?_
  rw [(step_bytes hsound he).2]
  cases htakes : x.pty.takes e with
  | none => exact h.stream
  | some c => exact Session.receive_eq hsound h.stream hspares htakes

theorem Session.Faithful.step (h : x.Faithful) (hsound : x.pty.Sound) (hgood : x.Good e) :
    (x.step e).Faithful ∧ (x.step e).pty.Sound := by
  have hsame := hsound.step e
  cases e with
  | receive c => exact ⟨h.input hsound hgood (.inl ⟨c, rfl⟩), hsame.1⟩
  | receiveAtomic c => exact ⟨h.input hsound hgood (.inr ⟨c, rfl⟩), hsame.1⟩
  | read count pos =>
    rw [Session.step]
    cases hread : ttyRead x.pty.tty count with
    | none => exact ⟨h, hsound⟩
    | some r =>
      refine ⟨⟨?_, ?_, fun hplain => ?_, fun hcanon => ?_⟩, hsame.1⟩
      · dsimp only
        rw [List.append_assoc, read_stream hsound hread]
        exact h.stream
      · simp only [List.map_append, List.map_cons, List.map_nil, List.flatten_append, List.flatten_singleton, ← h.chunks]
      · dsimp only at hplain ⊢
        rw [hsame.2] at hplain
        intro r' hr'
        rcases List.mem_append.mp hr' with hr' | hr'
        · exact h.plain hplain r' hr'
        · obtain rfl := List.mem_singleton.mp hr'
          exact plain_of_good hsound hgood hplain hread
      · dsimp only at hcanon ⊢
        rw [hsame.2] at hcanon ⊢
        intro r' hr'
        rcases List.mem_append.mp hr' with hr' | hr'
        · exact h.canonical hcanon r' hr'
        · obtain rfl := List.mem_singleton.mp hr'
          exact oneLine_of_good hsound hgood hcanon hread
  | masterRead count => exact ⟨h.other hsound h.stream, hsame.1⟩
  | write buf =>
    refine ⟨h.other hsound ?_, hsame.1⟩
    rw [Pty.step, Pty.bytes, (hsound.ptyWrite buf).2]
    exact h.stream
  | hangUp =>
    refine ⟨h.other hsound ?_, hsame.1⟩
    have hstream := h.stream
    have hempty : (x.pty.step .hangUp).bytes = x.pty.bytes := hsound.read.clear.2.trans (Eq.symm hgood)
    rw [hempty]
    exact hstream

end

/-- In a run whose events are all good, the reads get what was received. -/
theorem reads_faithful (page : ℕ → UInt8) (count : ℕ) (t : Termios) (pgrp : ℤ) (masterOpen : Bool) (events : List Event)
    (hgood : (Session.start page count t pgrp masterOpen).AllGood events) :
    (events.foldl Session.step (Session.start page count t pgrp masterOpen)).Faithful := by
  have hstart : (Session.start page count t pgrp masterOpen).Faithful :=
    ⟨RingBuffer.contents_init page, rfl, fun _ => nofun, fun _ => nofun⟩
  have hsound := opened_sound page count t pgrp masterOpen
  change (Session.start page count t pgrp masterOpen).pty.Sound at hsound
  generalize Session.start page count t pgrp masterOpen = x at hgood hstart hsound
  induction events generalizing x with
  | nil => exact hstart
  | cons e events ih =>
    obtain ⟨hfirst, hsound'⟩ := hstart.step hsound hgood.1
    exact ih _ hgood.2 hfirst hsound'

/-- A line with an erased letter that is read in two pieces, and the end of a file. -/
theorem reads_faithful_line :
    (([.receive 97, .receive 98, .receive del, .receive 10, .receive 4, .read 1 Nat.one_pos, .read 9 (by decide),
      .read 9 (by decide)] : List Event).foldl Session.step (Session.start (fun _ => 0) 1 defaultTermios 0 false)).Faithful :=
  reads_faithful _ _ _ _ _ _ (by decide +kernel)

/-- Settings without `ICANON`. -/
def plainTermios : Termios := { defaultTermios with lflag := 0 }

/-- Without `ICANON` the byte 4 is received and read, and the read returns nothing. -/
theorem plain_read_drops_eof : ¬ ∀ events : List Event,
    (events.foldl Session.step (Session.start (fun _ => 0) 1 plainTermios 0 false)).Faithful := by
  intro h
  have hplain := (h [.receive 4, .read 9 (by decide)]).plain (by decide)
  exact absurd (hplain ⟨[], false, ⟨[4], []⟩⟩ (by decide)) (by decide)

end Mario.Fs.Terminal
