import Mario.Lib.Circular
import Mario.Lib.LittleEndian
import Mario.Mm.Page

/-!
# The kernel log

The functions of `kernel/logbuf.c`. Numbers of 32 bits are natural numbers, reduced where the source can
wrap; offsets below the length of the buffer and their sums with the size of a record cannot. A record in the
buffer is a header, the text and a NUL byte, and it may go on at the start of the buffer.
-/

namespace Mario.Kernel.Logbuf

open Mario.Lib

abbrev Byte := BitVec 8

def logBufLen : ℕ := 16 * 1024

def logLineMax : ℕ := 1024

/-- `LOG_RECORD_HEADER`: the offset of `text` in `struct log_record`. -/
def logRecordHeader : ℕ := 20

/-- `struct log_record` up to the text. -/
structure LogHeader where
  len : ℕ
  prio : ℕ
  flags : ℕ
  seq : ℕ
  usec : ℕ
  deriving DecidableEq

/-- The bytes of a header in memory. -/
def LogHeader.toBytes (h : LogHeader) : List Byte :=
  toLe 4 h.len ++ (toLe 2 h.prio ++ (toLe 2 h.flags ++ (toLe 4 h.seq ++ toLe 8 h.usec)))

def LogHeader.ofBytes (l : List Byte) : LogHeader where
  len := ofLe (l.take 4)
  prio := ofLe ((l.drop 4).take 2)
  flags := ofLe ((l.drop 6).take 2)
  seq := ofLe ((l.drop 8).take 4)
  usec := ofLe ((l.drop 12).take 8)

def recordSize (h : LogHeader) : ℕ := (logRecordHeader + h.len + 1) % wordSize

/-- The variables of the log. -/
structure Log where
  logBuf : ℕ → Byte
  logHead : ℕ
  logTail : ℕ
  logCount : ℕ
  logUsed : ℕ
  logNextSeq : ℕ
  logbufReady : Bool

def copyToLog (logBuf : ℕ → Byte) (off : ℕ) (src : List Byte) (len : ℕ) : ℕ → Byte :=
  let off := off % logBufLen
  let first := if logBufLen - off > len then len else logBufLen - off
  let logBuf' := copy logBuf off (src.take first)
  if len > first then copy logBuf' 0 ((src.drop first).take (len - first)) else logBuf'

def copyFromLog (logBuf : ℕ → Byte) (off len : ℕ) : List Byte :=
  let off := off % logBufLen
  let first := if logBufLen - off > len then len else logBufLen - off
  slice logBuf off first ++ if len > first then slice logBuf 0 (len - first) else []

/-- The header that is copied from an offset. -/
def headerAt (logBuf : ℕ → Byte) (off : ℕ) : LogHeader :=
  LogHeader.ofBytes (copyFromLog logBuf off logRecordHeader)

/-- The text that is copied from behind a header. -/
def textAt (logBuf : ℕ → Byte) (off : ℕ) (h : LogHeader) : List Byte :=
  copyFromLog logBuf (off + logRecordHeader) h.len

def dropOldestLocked (s : Log) : Log :=
  if s.logCount = 0 then s
  else
    let size := recordSize (headerAt s.logBuf s.logTail)
    { s with
      logUsed := sub32 s.logUsed size
      logTail := (s.logTail + size) % logBufLen
      logCount := s.logCount - 1 }

def oldestSeqLocked (s : Log) : ℕ :=
  if s.logCount = 0 then s.logNextSeq else (headerAt s.logBuf s.logTail).seq

/-- The loop of `find_seq_locked`, with the number of rounds that are left. -/
def findSeqFrom (logBuf : ℕ → Byte) (seq : ℕ) : ℕ → ℕ → Option ℕ
  | 0, _ => none
  | n + 1, cur =>
      let h := headerAt logBuf cur
      if h.seq = seq then some cur
      else findSeqFrom logBuf seq n ((cur + recordSize h) % logBufLen)

def findSeqLocked (s : Log) (seq : ℕ) : Option ℕ :=
  findSeqFrom s.logBuf seq s.logCount s.logTail

/-! ## Lines -/

def char (c : Char) : Byte := BitVec.ofNat 8 c.toNat

/-- The digits of a number, the last one first, as the loops put them into an array of some size. -/
def digits : ℕ → ℕ → List Byte
  | 0, _ => []
  | n + 1, value =>
      BitVec.ofNat 8 ('0'.toNat + value % 10) :: if value / 10 = 0 then [] else digits n (value / 10)

def appendU32 (value : ℕ) : List Byte := (digits 10 value).reverse

def appendU64 (value : ℕ) : List Byte := (digits 20 value).reverse

def appendU64Fixed (value n : ℕ) : List Byte :=
  let tmp := digits 20 value
  (tmp ++ List.replicate (n - tmp.length) (char '0')).reverse

def formatKmsgLine (h : LogHeader) (text : List Byte) : List Byte :=
  appendU32 h.prio ++ [char ','] ++ appendU32 h.seq ++ [char ','] ++ appendU64 h.usec ++
    [char ','] ++ appendU32 h.flags ++ [char ';', char ' '] ++ text.take h.len ++ [char '\n']

def formatSyslogLine (h : LogHeader) (text : List Byte) : List Byte :=
  [char '<'] ++ appendU32 h.prio ++ [char '['] ++ appendU64 (h.usec / 1000000) ++ [char '.'] ++
    appendU64Fixed (h.usec % 1000000) 6 ++ [char ']', char ' '] ++ text.take h.len ++ [char '\n']

inductive Errno
  | EPIPE
  | EAGAIN
  | ERESTARTSYS
  deriving DecidableEq

/-- `read_record_locked`: the line, and the number behind it. -/
def readRecordLocked (s : Log) (off size : ℕ) : List Byte × ℕ :=
  let h := headerAt s.logBuf off
  ((formatKmsgLine h (textAt s.logBuf off h)).take size, (h.seq + 1) % wordSize)

/-- `read_seq_locked`. Without a line the returned number is not used. -/
def readSeqLocked (s : Log) (seq size : ℕ) : Except Errno (List Byte × ℕ) :=
  if s.logCount = 0 ∨ seq = s.logNextSeq then .ok ([], seq)
  else if wordSize / 2 ≤ sub32 seq (oldestSeqLocked s) then .error .EPIPE
  else
    match findSeqLocked s seq with
    | none => .error .EPIPE
    | some off => .ok (readRecordLocked s off size)

/-! ## Operations -/

def logbufInit (s : Log) : Log :=
  { s with logHead := 0, logTail := 0, logCount := 0, logUsed := 0, logNextSeq := 0,
           logbufReady := true }

/-- The loop that makes room for a record, with a bound on its rounds. -/
def makeRoom (total : ℕ) : ℕ → Log → Log
  | 0, s => s
  | n + 1, s =>
      if s.logCount ≠ 0 ∧ sub32 logBufLen s.logUsed < total then
        makeRoom total n (dropOldestLocked s)
      else s

/-- The time of a record in microseconds; `HZ` is 100. -/
def usecOf (jiffies : BitVec 32) : ℕ := (jiffies.signExtend 64 * 1000000 / 100).toNat

/-- The part of `logbuf_store` under the lock, for a text whose length has been cut. -/
def storeLocked (s : Log) (jiffies prio : BitVec 32) (text : List Byte) (len total : ℕ) : Log :=
  let s := makeRoom total s.logCount s
  let h : LogHeader :=
    { len := len, prio := (prio.setWidth 16).toNat, flags := 0, seq := s.logNextSeq
      usec := usecOf jiffies }
  let logBuf := copyToLog s.logBuf s.logHead h.toBytes logRecordHeader
  let textOff := s.logHead + logRecordHeader
  let logBuf := copyToLog logBuf textOff text len
  let nulOff := textOff + len
  let logBuf := copyToLog logBuf nulOff [0] 1
  { s with
    logBuf := logBuf
    logNextSeq := (s.logNextSeq + 1) % wordSize
    logHead := (s.logHead + total) % logBufLen
    logUsed := (s.logUsed + total) % wordSize
    logCount := (s.logCount + 1) % wordSize }

/-- `logbuf_store` of the bytes at a pointer, which may be null. -/
def logbufStore (s : Log) (jiffies prio : BitVec 32) (text : Option (List Byte)) : Log :=
  match text with
  | none => s
  | some text =>
      if !s.logbufReady || text.length = 0 then s
      else
        let len := if text.length > logLineMax then logLineMax else text.length
        let total := logRecordHeader + len + 1
        if total > logBufLen then
          storeLocked s jiffies prio text (logBufLen - logRecordHeader - 1) logBufLen
        else storeLocked s jiffies prio text len total

def logbufClear (s : Log) : Log :=
  { s with logHead := 0, logTail := 0, logCount := 0, logUsed := 0, logNextSeq := 0 }

/-- The loop of `logbuf_format_syslog`, with the number of rounds that are left. -/
def formatFrom (logBuf : ℕ → Byte) (size : ℕ) : ℕ → ℕ → List Byte → List Byte
  | 0, _, buf => buf
  | n + 1, off, buf =>
      if buf.length < size then
        let h := headerAt logBuf off
        let line := formatSyslogLine h (textAt logBuf off h)
        formatFrom logBuf size n ((off + recordSize h) % logBufLen)
          (buf ++ line.take (size - buf.length))
      else buf

def logbufFormatSyslog (s : Log) (size : ℕ) (clear : Bool) : List Byte × Log :=
  (formatFrom s.logBuf size s.logCount s.logTail [], if clear then logbufClear s else s)

end Mario.Kernel.Logbuf
