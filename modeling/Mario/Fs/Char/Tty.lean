import Mario.Fs.RingBuffer

/-!
# The two input paths of a terminal

`tty_receive_c` does the line discipline in place. `tty_receive_c_atomic`, for the master of a pty, first
computes the echo and stores nothing when it does not fit.
-/

namespace Mario.Fs.Terminal

/-! ## Terminal settings -/

abbrev Flags := BitVec 32

def inlcr : Flags := 0o100
def igncr : Flags := 0o200
def icrnl : Flags := 0o400
def opost : Flags := 0o1
def onlcr : Flags := 0o4
def isig : Flags := 0o1
def icanon : Flags := 0o2
def echoFlag : Flags := 0o10
def echoe : Flags := 0o20
def echok : Flags := 0o40
def echoctl : Flags := 0o1000

/-- The places of the control characters in `c_cc`. -/
def vintr : Fin 32 := 0
def vquit : Fin 32 := 1
def verase : Fin 32 := 2
def veof : Fin 32 := 4
def vsusp : Fin 32 := 10
def veol : Fin 32 := 11

def bs : UInt8 := 8
def tab : UInt8 := 9
def nl : UInt8 := 10
def cr : UInt8 := 13
def space : UInt8 := 32
def caret : UInt8 := 94
def questionMark : UInt8 := 63
def del : UInt8 := 127

/-- `struct termios` without the fields that no input path reads. -/
structure Termios where
  iflag : Flags
  oflag : Flags
  lflag : Flags
  cc : Fin 32 → UInt8

def defaultTermios : Termios where
  iflag := icrnl
  oflag := opost ||| onlcr
  lflag := isig ||| icanon ||| echoFlag ||| echoe ||| echok ||| echoctl
  cc i := [3, 28, 0x7f, 21, 4, 0, 0, 0, 17, 19, 26, 0].getD i 0

/-- A flag is set. -/
def has (flags flag : Flags) : Bool := flags &&& flag != 0

inductive Signal
  | sigint
  | sigquit
  | sigtstp
  deriving DecidableEq

inductive Errno
  | eio
  | eagain
  deriving DecidableEq

structure Tty where
  count : ℕ
  hungUp : Bool
  termios : Termios
  pgrp : ℤ
  readBuf : RingBuffer UInt8

/-- A terminal with the ring buffer that its master reads. -/
structure Pty where
  tty : Tty
  output : RingBuffer UInt8
  masterOpen : Bool

/-- What a byte does to tasks. -/
inductive Effect
  | killPg (pgrp : ℤ) (signal : Signal)
  | wakeRead
  deriving DecidableEq

def Tty.setReadBuf (tty : Tty) (readBuf : RingBuffer UInt8) : Tty := { tty with readBuf := readBuf }

def Pty.setReadBuf (s : Pty) (readBuf : RingBuffer UInt8) : Pty := { s with tty := s.tty.setReadBuf readBuf }

def Pty.setOutput (s : Pty) (output : RingBuffer UInt8) : Pty := { s with output := output }

/-! ## Input in place -/

def ttyOutputChar (t : Termios) (c : UInt8) : List UInt8 :=
  if has t.oflag opost ∧ c = nl ∧ has t.oflag onlcr then [cr, c] else [c]

def ptyWrite (s : Pty) (buf : List UInt8) : Pty :=
  if s.masterOpen then s.setOutput (s.output.write buf).2 else s

/-- `tty_put_c`; nobody reads its result. -/
def ttyPutC (s : Pty) (c : UInt8) : Pty := ptyWrite s (ttyOutputChar s.tty.termios c)

def ttyPutS (s : Pty) (l : List UInt8) : Pty := l.foldl ttyPutC s

/-- The part of `tty_receive_c` from `tail_1` on, without the wake-up. -/
def echo (s : Pty) (c : UInt8) (popped : Option UInt8) : Pty :=
  let t := s.tty.termios
  if has t.lflag echoFlag then
    if c = t.cc verase ∧ has t.lflag echoe then
      if popped.isSome then ttyPutS s [bs, space, bs] else s
    else if has t.lflag echoctl ∧ c ≤ 31 ∧ c ≠ tab ∧ c ≠ nl ∧ c ≠ cr then
      ttyPutC (ttyPutC s caret) (c + 0x40)
    else if has t.lflag echoctl ∧ c = del then ttyPutS s [caret, questionMark]
    else ttyPutC s c
  else s

def ttyReceiveC (s : Pty) (c : UInt8) : Except Errno (Pty × List Effect) :=
  let t := s.tty.termios
  if s.tty.count = 0 then .error .eio
  else if has t.lflag isig ∧ c = t.cc vintr then .ok (echo s c none, [.killPg s.tty.pgrp .sigint])
  else if has t.lflag isig ∧ c = t.cc vquit then .ok (echo s c none, [.killPg s.tty.pgrp .sigquit])
  else if has t.lflag isig ∧ c = t.cc vsusp then .ok (echo s c none, [.killPg s.tty.pgrp .sigtstp])
  else if c = cr ∧ has t.iflag igncr then .ok (s, [])
  else
    let c := if c = cr then if has t.iflag icrnl then nl else c
      else if c = nl ∧ has t.iflag inlcr then cr else c
    if has t.lflag icanon ∧ c = t.cc verase then
      .ok (echo (s.setReadBuf s.tty.readBuf.pop.2) c s.tty.readBuf.pop.1, [])
    else
      let wake := if has t.lflag icanon then decide (c = t.cc veof ∨ c = nl ∨ c = cr ∨ c = t.cc veol)
        else true
      if s.tty.readBuf.full then .error .eagain
      else
        .ok (echo (s.setReadBuf (s.tty.readBuf.write [c]).2) c none, if wake then [.wakeRead] else [])

/-! ## Input that is computed first -/

/-- What `tty_receive_c_atomic` gives besides the new state. -/
structure Answer where
  err : Option Errno
  outputFull : Bool
  wakeRead : Bool
  signal : Option (ℤ × Signal)

/-- The answer when nothing is stored. -/
def Answer.failed (err : Errno) (outputFull : Bool) : Answer :=
  { err := some err, outputFull := outputFull, wakeRead := false, signal := none }

/-- The loop over the echo. -/
def process (oflag : Flags) : List UInt8 → List UInt8
  | [] => []
  | c :: rest =>
      if has oflag opost ∧ c = nl ∧ has oflag onlcr then cr :: c :: process oflag rest
      else c :: process oflag rest

/-- The echo of a character, where something was popped or not. -/
def echoBytes (t : Termios) (lflag : Flags) (c : UInt8) (popped : Option UInt8) : List UInt8 :=
  if has lflag echoFlag then
    if c = t.cc verase ∧ has lflag echoe then
      if popped.isSome then [bs, space, bs] else []
    else if has lflag echoctl ∧ (c ≤ 31 ∧ c ≠ tab ∧ c ≠ nl ∧ c ≠ cr ∨ c = del) then
      [caret, if c = del then questionMark else c + 0x40]
    else [c]
  else []

/-- The part of `tty_receive_c_atomic` from the test for a full read buffer on. -/
def commit (tty : Tty) (output : RingBuffer UInt8) (sig : Option Signal) (lflag : Flags) (c : UInt8)
    (popped : Option UInt8) (readBuf : RingBuffer UInt8) (push wake : Bool) :
    Tty × RingBuffer UInt8 × Answer :=
  if push ∧ readBuf.full then (tty.setReadBuf readBuf, output, .failed .eagain false)
  else
    let processed := process tty.termios.oflag (echoBytes tty.termios lflag c popped)
    if output.space < processed.length then
      let readBuf := match popped with
        | some b => (readBuf.write [b]).2
        | none => readBuf
      (tty.setReadBuf readBuf, output, .failed .eagain true)
    else
      (tty.setReadBuf (if push then (readBuf.write [c]).2 else readBuf),
        if processed.length = 0 then output else (output.write processed).2,
        { err := none, outputFull := false, wakeRead := wake, signal := sig.map fun x => (tty.pgrp, x) })

def ttyReceiveCAtomic (tty : Tty) (c : UInt8) (output : RingBuffer UInt8) :
    Tty × RingBuffer UInt8 × Answer :=
  if tty.count = 0 ∨ tty.hungUp then (tty, output, .failed .eio false)
  else
    let t := tty.termios
    let sig : Option Signal :=
      if has t.lflag isig then
        if c = t.cc vintr then some .sigint
        else if c = t.cc vquit then some .sigquit
        else if c = t.cc vsusp then some .sigtstp
        else none
      else none
    if sig.isSome then commit tty output sig t.lflag c none tty.readBuf false false
    -- a carriage return that is ignored has no echo
    else if c = cr ∧ has t.iflag igncr then
      commit tty output none (t.lflag &&& ~~~echoFlag) c none tty.readBuf false false
    else
      let c := if c = cr then if has t.iflag icrnl then nl else c
        else if c = nl ∧ has t.iflag inlcr then cr else c
      if has t.lflag icanon ∧ c = t.cc verase then
        if tty.readBuf.empty then commit tty output none t.lflag c none tty.readBuf false false
        else commit tty output none t.lflag c tty.readBuf.pop.1 tty.readBuf.pop.2 false false
      else if has t.lflag icanon ∧ (c = t.cc veof ∨ c = nl ∨ c = cr ∨ c = t.cc veol) then
        commit tty output none t.lflag c none tty.readBuf true true
      else commit tty output none t.lflag c none tty.readBuf true (!has t.lflag icanon)

/-- What the caller does with the answer. -/
def Answer.effects (a : Answer) : List Effect :=
  (if a.wakeRead then [.wakeRead] else []) ++
    match a.signal with
    | some (pgrp, signal) => [.killPg pgrp signal]
    | none => []

/-- What `pty_master_write` does when the call returns. -/
def settle (s : Pty) (r : Tty × RingBuffer UInt8 × Answer) : Except Errno (Pty × List Effect) :=
  match r.2.2.err with
  | some e => .error e
  | none => .ok ({ s with tty := r.1, output := r.2.1 }, r.2.2.effects)

/-- A byte that `pty_master_write` gives to the terminal. -/
def receiveAtomic (s : Pty) (c : UInt8) : Except Errno (Pty × List Effect) :=
  settle s (ttyReceiveCAtomic s.tty c s.output)

/-- Some bytes, one after the other, with the effects of each. -/
def feed (receive : Pty → UInt8 → Except Errno (Pty × List Effect)) :
    Pty → List UInt8 → Except Errno (Pty × List (List Effect))
  | s, [] => .ok (s, [])
  | s, c :: cs =>
      match receive s c with
      | .error e => .error e
      | .ok (s, effects) =>
          match feed receive s cs with
          | .error e => .error e
          | .ok (s, more) => .ok (s, effects :: more)

end Mario.Fs.Terminal
