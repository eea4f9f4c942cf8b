import Mario.Kernel.LogRing

/-!
# The text of the log for syslog

What `logbuf_format_syslog` stores and what `logbuf_formatted_syslog_len` counts, in every state that
messages of the kernel, writes to `/dev/kmsg` and clear operations lead to.
-/

namespace Mario.Kernel.Logbuf

open Mario.Lib

def logInfo : BitVec 32 := 6

/-- The loop of `kmsg_write` over the digits of a priority. It ends at the NUL byte behind the text. -/
def prioDigits (prio : BitVec 32) : List Byte → BitVec 32 × List Byte
  | [] => (prio, [])
  | b :: text =>
      if char '0' ≤ b ∧ b ≤ char '9' then
        prioDigits (prio * 10 + (b.setWidth 32 - (char '0').setWidth 32)) text
      else (prio, b :: text)

/-- The priority and the text in what is written to `/dev/kmsg`. -/
def kmsgSplit (tmp : List Byte) : BitVec 32 × List Byte :=
  match tmp with
  | [] => (logInfo, [])
  | b :: rest =>
      if b = char '<' then
        match prioDigits 0 rest with
        | (prio, c :: text) => if c = char '>' then (prio, text) else (logInfo, tmp)
        | (_, []) => (logInfo, tmp)
      else (logInfo, tmp)

/-- `kmsg_write` of the bytes at `buf`. -/
def kmsgWrite (s : Log) (jiffies : BitVec 32) (buf : List Byte) : Log :=
  let r := kmsgSplit (buf.take logLineMax)
  let text := if r.2.getLast? = some (char '\n') then r.2.dropLast else r.2
  logbufStore s jiffies r.1 (some text)

/-- The loop of `logbuf_formatted_syslog_len`, with the number of rounds that are left. -/
def lenFrom (logBuf : ℕ → Byte) : ℕ → ℕ → ℕ → ℕ
  | 0, _, total => total
  | n + 1, off, total =>
      let h := headerAt logBuf off
      lenFrom logBuf n ((off + recordSize h) % logBufLen)
        ((total + (formatSyslogLine h (textAt logBuf off h)).length) % wordSize)

def logbufFormattedSyslogLen (s : Log) : ℕ := lenFrom s.logBuf s.logCount s.logTail 0

/-- What happens to the log. -/
inductive Event
  | call (op : Op)
  /-- A write to `/dev/kmsg`. -/
  | write (jiffies : BitVec 32) (buf : List Byte)

def Event.run (s : Log) : Event → Log
  | .call op => op.run s
  | .write jiffies buf => kmsgWrite s jiffies buf

/-- A write is the store of a message. -/
def Event.toOp : Event → Op
  | .call op => op
  | .write jiffies buf =>
      let r := kmsgSplit (buf.take logLineMax)
      .store jiffies r.1
        (some (if r.2.getLast? = some (char '\n') then r.2.dropLast else r.2))

/-- The messages since the last clear operation. -/
def eventMessages (events : List Event) : List LogRecord :=
  (events.map Event.toOp).foldl Op.messages []

variable {s : Log} {r : LogRecord} {l : List LogRecord} {buf : ℕ → Byte} {off n : ℕ}

/-! ## The length of a line -/

theorem appendU64Fixed_length (value n : ℕ) : (appendU64Fixed value n).length ≤ max n 20 := by
  have hdigits := digits_length 20 value
  simp only [appendU64Fixed, List.length_reverse, List.length_append, List.length_replicate]
  omega

/-- A line fits into the array of `logbuf_format_syslog`. -/
theorem formatSyslogLine_length (h : r.Valid) : (formatSyslogLine r.header r.text).length ≤ logLineMax + 64 := by
  have hprio := digits_length 10 r.header.prio
  have hsecs := digits_length 20 (r.header.usec / 1000000)
  have hfrac := appendU64Fixed_length (r.header.usec % 1000000) 6
  have htext := h.text
  simp only [formatSyslogLine, appendU32, appendU64, List.length_append, List.length_reverse,
    List.length_take, List.length_cons, List.length_nil]
  omega

/-- The text of the records. -/
def syslogText (l : List LogRecord) : List Byte :=
  l.flatMap fun r => formatSyslogLine r.header r.text

theorem syslogText_length (hvalid : ∀ r ∈ l, r.Valid) : (syslogText l).length ≤ (logLineMax + 64) * l.length := by
  induction l with
  | nil => exact Nat.zero_le _
  | cons r l ih =>
    have hline := formatSyslogLine_length (hvalid r List.mem_cons_self)
    have hrest := ih fun r' hr' => hvalid r' (List.mem_cons_of_mem r hr')
    rw [syslogText, List.flatMap_cons, List.length_append, List.length_cons, Nat.mul_succ]
    unfold syslogText at hrest
    omega

/-! ## Counting -/

theorem lenFrom_eq {total : ℕ} (hvalid : ∀ r ∈ l, r.Valid) (hn : n ≤ logBufLen)
    (hdata : segment logBufLen buf off n = l.flatMap LogRecord.toBytes)
    (htotal : total + (syslogText l).length < wordSize) :
    lenFrom buf l.length off total = total + (syslogText l).length := by
  induction l generalizing off n total with
  | nil => rfl
  | cons r l ih =>
    have hr : r.Valid := hvalid r List.mem_cons_self
    rw [List.flatMap_cons] at hdata
    obtain ⟨hheader, htext, hrest⟩ := parse_record hr hdata hn
    have hlength : (syslogText (r :: l)).length =
        (formatSyslogLine r.header r.text).length + (syslogText l).length := by
      rw [syslogText, List.flatMap_cons, List.length_append]
      rfl
    rw [hlength] at htotal ⊢
    have hsum : (total + (formatSyslogLine r.header r.text).length) % wordSize =
        total + (formatSyslogLine r.header r.text).length := Nat.mod_eq_of_lt (by omega)
    rw [List.length_cons, lenFrom, hheader, htext, recordSize_eq hr, hsum]
    rw [ih (fun r' hr' => hvalid r' (List.mem_cons_of_mem r hr')) (by omega) hrest (by omega)]
    omega

theorem Represents.formattedLen (h : Represents s l) : logbufFormattedSyslogLen s = (syslogText l).length := by
  have hlength := syslogText_length h.valid
  have hcount : l.length ≤ logBufLen :=
    (length_le_total l).trans (h.used ▸ h.le)
  have hbound : (logLineMax + 64) * l.length < wordSize := by
    unfold logLineMax wordSize logBufLen at *
    omega
  rw [logbufFormattedSyslogLen, h.count, lenFrom_eq h.valid h.le h.data (by omega), Nat.zero_add]

/-! ## Runs -/

theorem Event.run_eq (s : Log) (e : Event) : e.run s = e.toOp.run s := by
  cases e with
  | call op => rfl
  | write jiffies buf => rfl

theorem foldl_run (s : Log) (events : List Event) :
    events.foldl Event.run s = (events.map Event.toOp).foldl Op.run s := by
  induction events generalizing s with
  | nil => rfl
  | cons e events ih => rw [List.foldl_cons, List.map_cons, List.foldl_cons, ih, Event.run_eq]

/-- The records are the newest messages. `logbuf_formatted_syslog_len` is the number of bytes in their
lines, a buffer of that size gets all of the text and a smaller one the prefix that fits, and no line is
longer than its array. -/
theorem syslog_text_exact (s₀ : Log) (events : List Event) (size : ℕ) (clearing : Bool) :
    let s := events.foldl Event.run (logbufInit s₀)
    let text := syslogText (records s)
    let stored := (logbufFormatSyslog s size clearing).1
    (∃ k, records s = (eventMessages events).drop k) ∧
      logbufFormattedSyslogLen s = text.length ∧
      (text.length ≤ size → stored = text) ∧
      (size ≤ text.length → stored.length = size ∧ stored <+: text) ∧
      ∀ r ∈ records s, (formatSyslogLine r.header r.text).length ≤ logLineMax + 64 := by
  intro s text stored
  have hnewest : Newest s (eventMessages events) := by
    have hrun := newest_run s₀ (events.map Event.toOp)
    rwa [← foldl_run] at hrun
  obtain ⟨k, -, hrep, -⟩ := hnewest.suffix
  have hrecords : records s = (eventMessages events).drop k := hrep.records_eq
  have hstored : stored = text.take size := by
    have hformat := hrep.formatSyslog size clearing
    rwa [← hrecords] at hformat
  have hvalid : ∀ r ∈ records s, r.Valid := by
    rw [hrecords]
    exact hrep.valid
  constructor
  · exact ⟨k, hrecords⟩
  constructor
  · rw [hrep.formattedLen, ← hrecords]
  constructor
  · intro hsize
    rw [hstored, List.take_of_length_le hsize]
  constructor
  · intro hsize
    rw [hstored]
    exact ⟨List.length_take_of_le hsize, List.take_prefix size text⟩
  · exact fun r hr => formatSyslogLine_length (hvalid r hr)

end Mario.Kernel.Logbuf
