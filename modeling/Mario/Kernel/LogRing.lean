import Mario.Kernel.Logbuf
import Mario.Lib.Totals

/-!
# The records in the kernel log

The buffer of the log stands for a list of records. Dropping takes the first record from the list, and
storing adds one at its end; what is read back are the newest messages that fit into the buffer.
-/

namespace Mario.Kernel.Logbuf

open Mario.Lib

/-- A record with its text. -/
structure LogRecord where
  header : LogHeader
  text : List Byte
  deriving DecidableEq

namespace LogRecord

def size (r : LogRecord) : ℕ := logRecordHeader + r.text.length + 1

/-- The bytes of a record in the buffer. -/
def toBytes (r : LogRecord) : List Byte := r.header.toBytes ++ (r.text ++ [0])

/-- A header has the length of the text, and its numbers have the widths of their fields. -/
structure Valid (r : LogRecord) : Prop where
  len : r.header.len = r.text.length
  text : r.text.length ≤ logLineMax
  prio : r.header.prio < 256 ^ 2
  flags : r.header.flags < 256 ^ 2
  seq : r.header.seq < 256 ^ 4
  usec : r.header.usec < 256 ^ 8

end LogRecord

/-- The records that are met from an offset on. -/
def recordsFrom (logBuf : ℕ → Byte) : ℕ → ℕ → List LogRecord
  | 0, _ => []
  | n + 1, off =>
      let h := headerAt logBuf off
      ⟨h, textAt logBuf off h⟩ :: recordsFrom logBuf n ((off + recordSize h) % logBufLen)

/-- The records of the log. -/
def records (s : Log) : List LogRecord := recordsFrom s.logBuf s.logCount s.logTail

/-- The log holds a list of records. -/
structure Represents (s : Log) (l : List LogRecord) : Prop where
  ready : s.logbufReady = true
  tail : s.logTail < logBufLen
  head : s.logHead = (s.logTail + s.logUsed) % logBufLen
  used : s.logUsed = total LogRecord.size l
  le : s.logUsed ≤ logBufLen
  count : s.logCount = l.length
  nextSeq : s.logNextSeq < wordSize
  data : segment logBufLen s.logBuf s.logTail s.logUsed = l.flatMap LogRecord.toBytes
  valid : ∀ r ∈ l, r.Valid

variable {s : Log} {r : LogRecord} {l : List LogRecord} {buf : ℕ → Byte} {off len n : ℕ}
  {src rest : List Byte}

/-! ## Copies -/

theorem logBufLen_pos : 0 < logBufLen := by decide

/-- The first piece of a copy reaches at most to the end of the buffer. -/
theorem first_eq (off len : ℕ) (hoff : off < logBufLen) :
    (if logBufLen - off > len then len else logBufLen - off) =
      if off + len ≤ logBufLen then len else logBufLen - off := by
  split_ifs <;> omega

theorem copyFromLog_eq (h : len ≤ logBufLen) : copyFromLog buf off len = segment logBufLen buf off len := by
  have hoff : off % logBufLen < logBufLen := Nat.mod_lt _ logBufLen_pos
  unfold copyFromLog
  dsimp only
  rw [slices_eq_segment hoff h (first_eq _ len hoff), segment_mod]

theorem copyToLog_eq (h : len ≤ src.length) :
    copyToLog buf off src len = store logBufLen buf (off % logBufLen) (src.take len) := by
  have hoff : off % logBufLen < logBufLen := Nat.mod_lt _ logBufLen_pos
  unfold copyToLog
  dsimp only
  rw [← copies_eq_store hoff h (first_eq _ len hoff)]

/-! ## Headers -/

theorem toBytes_length (h : LogHeader) : h.toBytes.length = logRecordHeader := by
  simp [LogHeader.toBytes, logRecordHeader]

theorem LogRecord.toBytes_length (r : LogRecord) : r.toBytes.length = r.size := by
  simp only [LogRecord.toBytes, LogRecord.size, List.length_append, Logbuf.toBytes_length, List.length_singleton]
  omega

theorem LogRecord.Valid.len_lt (h : r.Valid) : r.header.len < 256 ^ 4 := by
  have htext := h.text
  rw [h.len]
  unfold logLineMax at htext
  omega

theorem ofBytes_toBytes (h : r.Valid) : LogHeader.ofBytes r.header.toBytes = r.header := by
  have hfields : LogHeader.ofBytes r.header.toBytes =
      { len := ofLe (toLe 4 r.header.len), prio := ofLe (toLe 2 r.header.prio)
        flags := ofLe (toLe 2 r.header.flags), seq := ofLe (toLe 4 r.header.seq)
        usec := ofLe (toLe 8 r.header.usec) } := by
    simp [LogHeader.ofBytes, LogHeader.toBytes, List.drop_append, List.drop_eq_nil_of_le, List.take_of_length_le]
  rw [hfields, ofLe_toLe_of_lt h.len_lt, ofLe_toLe_of_lt h.prio, ofLe_toLe_of_lt h.flags,
    ofLe_toLe_of_lt h.seq, ofLe_toLe_of_lt h.usec]

theorem recordSize_eq (h : r.Valid) : recordSize r.header = r.size := by
  have htext := h.text
  unfold logLineMax at htext
  rw [recordSize, h.len, LogRecord.size]
  unfold logRecordHeader wordSize
  exact Nat.mod_eq_of_lt (by omega)

/-! ## Parsing -/

theorem parse_record (h : r.Valid) (hdata : segment logBufLen buf off n = r.toBytes ++ rest) (hn : n ≤ logBufLen) :
    headerAt buf off = r.header ∧ textAt buf off r.header = r.text ∧
      segment logBufLen buf ((off + r.size) % logBufLen) (n - r.size) = rest := by
  have hlength : n = r.size + rest.length := by
    rw [← r.toBytes_length, ← List.length_append, ← hdata, segment_length]
  have hsize : r.size = logRecordHeader + (r.text.length + 1) := by
    unfold LogRecord.size
    omega
  have hheader : segment logBufLen buf off logRecordHeader = r.header.toBytes := by
    rw [← segment_take (n := n) (by omega), hdata, LogRecord.toBytes, List.append_assoc]
    exact List.take_left' (toBytes_length _)
  have hbehind : segment logBufLen buf ((off + logRecordHeader) % logBufLen)
      (n - logRecordHeader) = r.text ++ ([0] ++ rest) := by
    rw [← segment_drop (by omega), hdata, LogRecord.toBytes, List.append_assoc]
    rw [List.drop_left' (toBytes_length _), List.append_assoc]
  constructor
  · rw [headerAt, copyFromLog_eq (by omega), hheader, ofBytes_toBytes h]
  constructor
  · rw [textAt, h.len, copyFromLog_eq (by omega), ← segment_mod,
      ← segment_take (n := n - logRecordHeader) (by omega), hbehind]
    exact List.take_left' rfl
  · rw [← segment_drop (by omega), hdata]
    exact List.drop_left' r.toBytes_length

/-- The records that are met are the records that have been stored. -/
theorem recordsFrom_eq (hvalid : ∀ r ∈ l, r.Valid) (hn : n ≤ logBufLen)
    (hdata : segment logBufLen buf off n = l.flatMap LogRecord.toBytes) : recordsFrom buf l.length off = l := by
  induction l generalizing off n with
  | nil => rfl
  | cons r l ih =>
    have hr : r.Valid := hvalid r List.mem_cons_self
    rw [List.flatMap_cons] at hdata
    obtain ⟨hheader, htext, hrest⟩ := parse_record hr hdata hn
    rw [List.length_cons, recordsFrom, hheader, htext, recordSize_eq hr]
    rw [ih (fun r' hr' => hvalid r' (List.mem_cons_of_mem r hr')) (by omega) hrest]

theorem Represents.records_eq (h : Represents s l) : records s = l := by
  rw [records, h.count]
  exact recordsFrom_eq h.valid h.le h.data

/-! ## Making room -/

theorem logBufLen_lt : logBufLen < wordSize := by decide

theorem length_le_total (l : List LogRecord) : l.length ≤ total LogRecord.size l := by
  induction l with
  | nil => exact Nat.zero_le _
  | cons r l ih =>
    have hpos : 0 < r.size := Nat.succ_pos _
    rw [List.length_cons, total_cons]
    omega

theorem Represents.dropOldest (h : Represents s (r :: l)) : Represents (dropOldestLocked s) l := by
  have hr : r.Valid := h.valid r List.mem_cons_self
  have hused := h.used
  have hcount := h.count
  have hdata := h.data
  rw [total_cons] at hused
  rw [List.length_cons] at hcount
  rw [List.flatMap_cons] at hdata
  obtain ⟨hheader, -, hrest⟩ := parse_record hr hdata h.le
  have hle := h.le
  have hlt := logBufLen_lt
  have hsub : sub32 s.logUsed r.size = s.logUsed - r.size := sub32_eq (by omega) (by omega)
  unfold dropOldestLocked
  rw [if_neg (by omega)]
  simp only [hheader, recordSize_eq hr, hsub]
  constructor
  · exact h.ready
  · exact Nat.mod_lt _ logBufLen_pos
  · dsimp only
    rw [h.head, Nat.mod_add_mod]
    congr 1
    omega
  · dsimp only
    omega
  · dsimp only
    omega
  · dsimp only
    omega
  · exact h.nextSeq
  · exact hrest
  · exact fun r' hr' => h.valid r' (List.mem_cons_of_mem r hr')

theorem dropOldest_nextSeq (s : Log) : (dropOldestLocked s).logNextSeq = s.logNextSeq := by
  unfold dropOldestLocked
  split_ifs <;> rfl

theorem Represents.makeRoom {t : ℕ} (h : Represents s l) (hn : l.length ≤ n)
    (ht : t ≤ logBufLen) : ∃ k ≤ l.length, Represents (makeRoom t n s) (l.drop k) ∧
      (makeRoom t n s).logNextSeq = s.logNextSeq ∧
      total LogRecord.size (l.drop k) + t ≤ logBufLen ∧ ∀ j < k, logBufLen < total LogRecord.size (l.drop j) + t := by
  have hused := h.used
  have hle := h.le
  have hroom : sub32 logBufLen s.logUsed = logBufLen - s.logUsed := sub32_eq hle logBufLen_lt
  induction n generalizing s l with
  | zero =>
    obtain rfl : l = [] := List.length_eq_zero_iff.mp (by omega)
    refine ⟨0, Nat.le_refl _, h, rfl, ?_, fun j hj => absurd hj (Nat.not_lt_zero j)⟩
    rw [List.drop_zero, total_nil]
    omega
  | succ n ih =>
    rw [Logbuf.makeRoom]
    by_cases hfull : s.logCount ≠ 0 ∧ sub32 logBufLen s.logUsed < t
    · rw [if_pos hfull]
      have hcount := h.count
      cases l with
      | nil => exact absurd hcount hfull.1
      | cons r l =>
        have hnext := h.dropOldest
        obtain ⟨k, hk, hrep, hseq, hfit, hmin⟩ := ih hnext (by simpa using hn) hnext.used hnext.le
          (sub32_eq hnext.le logBufLen_lt)
        refine ⟨k + 1, Nat.succ_le_succ hk, hrep, ?_, hfit, ?_⟩
        · rw [hseq, dropOldest_nextSeq]
        · intro j hj
          cases j with
          | zero =>
            rw [List.drop_zero]
            omega
          | succ j => exact hmin j (by omega)
    · rw [if_neg hfull]
      refine ⟨0, Nat.zero_le _, h, rfl, ?_, fun j hj => absurd hj (Nat.not_lt_zero j)⟩
      rw [List.drop_zero, ← hused]
      by_cases hcount : s.logCount = 0
      · obtain rfl : l = [] := List.length_eq_zero_iff.mp (h.count.symm.trans hcount)
        rw [total_nil] at hused
        omega
      · have hnot : ¬ sub32 logBufLen s.logUsed < t := fun hlt => hfull ⟨hcount, hlt⟩
        omega

/-! ## Storing -/

theorem segment_copyToLog {tail : ℕ} (htail : tail < logBufLen) (hn : n + len ≤ logBufLen)
    (hsrc : len ≤ src.length) (hoff : off % logBufLen = (tail + n) % logBufLen) :
    segment logBufLen (copyToLog buf off src len) tail (n + len) = segment logBufLen buf tail n ++ src.take len := by
  have hlen : (src.take len).length = len := List.length_take_of_le hsrc
  have hstored := segment_append_store (d := buf) htail (l := src.take len) (n := n) (by omega)
  rw [copyToLog_eq hsrc, hoff]
  rwa [hlen] at hstored

/-- The record of a message. -/
def recordOf (seq : ℕ) (jiffies prio : BitVec 32) (text : List Byte) : LogRecord where
  header :=
    { len := min text.length logLineMax, prio := (prio.setWidth 16).toNat, flags := 0, seq := seq
      usec := usecOf jiffies }
  text := text.take logLineMax

theorem recordOf_valid {seq : ℕ} (jiffies prio : BitVec 32) (text : List Byte)
    (hseq : seq < wordSize) : (recordOf seq jiffies prio text).Valid := by
  constructor
  · simp only [recordOf, List.length_take, Nat.min_comm]
  · simp only [recordOf, List.length_take]
    omega
  · exact (prio.setWidth 16).isLt
  · exact Nat.succ_pos _
  · exact hseq
  · exact BitVec.isLt _

theorem recordOf_size (seq : ℕ) (jiffies prio : BitVec 32) (text : List Byte) :
    (recordOf seq jiffies prio text).size = logRecordHeader + min text.length logLineMax + 1 := by
  simp only [LogRecord.size, recordOf, List.length_take, Nat.min_comm]

theorem recordOf_size_le (seq : ℕ) (jiffies prio : BitVec 32) (text : List Byte) :
    (recordOf seq jiffies prio text).size ≤ logBufLen := by
  rw [recordOf_size]
  unfold logRecordHeader logLineMax logBufLen
  omega

/-- A record is added at the end, where there is room for it. -/
theorem Represents.append (h : Represents s l) (jiffies prio : BitVec 32) (text : List Byte)
    (hr : r = recordOf s.logNextSeq jiffies prio text) (hfit : s.logUsed + r.size ≤ logBufLen) :
    Represents { s with
      logBuf := copyToLog (copyToLog (copyToLog s.logBuf s.logHead r.header.toBytes logRecordHeader)
        (s.logHead + logRecordHeader) text r.header.len)
        (s.logHead + logRecordHeader + r.header.len) [0] 1
      logNextSeq := (s.logNextSeq + 1) % wordSize
      logHead := (s.logHead + r.size) % logBufLen
      logUsed := (s.logUsed + r.size) % wordSize
      logCount := (s.logCount + 1) % wordSize } (l ++ [r]) := by
  have hvalid : r.Valid := hr ▸ recordOf_valid jiffies prio text h.nextSeq
  have hsize : r.size = logRecordHeader + r.header.len + 1 := by
    rw [LogRecord.size, hvalid.len]
  have hlen : r.header.len ≤ text.length := by
    rw [hr]
    exact Nat.min_le_left _ _
  have htext : text.take r.header.len = r.text := by
    rw [hr]
    simp only [recordOf]
    rw [Nat.min_comm, ← List.take_eq_take_min]
  have hlt := logBufLen_lt
  have hused : (s.logUsed + r.size) % wordSize = s.logUsed + r.size :=
    Nat.mod_eq_of_lt (by omega)
  have hcount : (s.logCount + 1) % wordSize = s.logCount + 1 := by
    have hle := length_le_total l
    rw [← h.used, ← h.count] at hle
    have hpos : 0 < r.size := Nat.succ_pos _
    exact Nat.mod_eq_of_lt (by omega)
  have hheader : segment logBufLen (copyToLog s.logBuf s.logHead r.header.toBytes logRecordHeader)
      s.logTail (s.logUsed + logRecordHeader) =
        segment logBufLen s.logBuf s.logTail s.logUsed ++ r.header.toBytes.take logRecordHeader :=
    segment_copyToLog h.tail (by omega) (toBytes_length _).ge (by rw [h.head, Nat.mod_mod])
  constructor
  · exact h.ready
  · exact h.tail
  · dsimp only
    rw [hused, h.head, Nat.mod_add_mod, Nat.add_assoc]
  · dsimp only
    rw [hused, total_append, total_cons, total_nil, h.used, Nat.add_zero]
  · dsimp only
    rw [hused]
    exact hfit
  · dsimp only
    rw [hcount, h.count, List.length_append, List.length_singleton]
  · exact Nat.mod_lt _ (by decide)
  · dsimp only
    have hparts : s.logUsed + r.size = s.logUsed + logRecordHeader + r.header.len + 1 := by omega
    rw [hused, hparts, segment_copyToLog h.tail (by omega) (by decide),
      segment_copyToLog h.tail (by omega) hlen, hheader, h.data, htext]
    · rw [List.flatMap_append, List.flatMap_singleton, LogRecord.toBytes, List.append_assoc,
        List.append_assoc, List.take_of_length_le (toBytes_length _).le]
      rfl
    · rw [h.head, Nat.mod_add_mod, Nat.add_assoc]
    · have hsum : s.logTail + s.logUsed + (logRecordHeader + r.header.len) =
          s.logTail + (s.logUsed + logRecordHeader + r.header.len) := by omega
      rw [h.head, Nat.add_assoc, Nat.mod_add_mod, hsum]
  · intro r' hr'
    rcases List.mem_append.mp hr' with hold | hnew
    · exact h.valid r' hold
    · obtain rfl := List.mem_singleton.mp hnew
      exact hvalid

/-- `logbuf_store` drops the fewest records that leave room for the new one. -/
theorem Represents.store (h : Represents s l) (jiffies prio : BitVec 32) {text : List Byte}
    (htext : text ≠ []) (hr : r = recordOf s.logNextSeq jiffies prio text) :
    ∃ k ≤ l.length, Represents (logbufStore s jiffies prio (some text)) (l.drop k ++ [r]) ∧
      (logbufStore s jiffies prio (some text)).logNextSeq = (s.logNextSeq + 1) % wordSize ∧
      ∀ j < k, logBufLen < total LogRecord.size (l.drop j) + r.size := by
  have hsize := recordOf_size s.logNextSeq jiffies prio text
  have hle := recordOf_size_le s.logNextSeq jiffies prio text
  rw [← hr] at hsize hle
  have hlen : (if text.length > logLineMax then logLineMax else text.length) =
      min text.length logLineMax := by
    split_ifs <;> omega
  obtain ⟨k, hk, hrep, hseq, hfit, hmin⟩ := h.makeRoom h.count.ge hle
  have hready : (!s.logbufReady || decide (text.length = 0)) = false := by
    simp [h.ready, htext]
  have hstore : logbufStore s jiffies prio (some text) =
      storeLocked s jiffies prio text (min text.length logLineMax) r.size := by
    unfold logbufStore
    simp only [hready, hlen, Bool.false_eq_true, if_false]
    rw [← hsize, if_neg (by omega)]
  have hlocked : r = recordOf (Logbuf.makeRoom r.size s.logCount s).logNextSeq jiffies prio text := by
    rw [hseq]
    exact hr
  have hroom := hrep.append jiffies prio text hlocked (by rw [hrep.used]; exact hfit)
  rw [hstore]
  refine ⟨k, hk, ?_, ?_, hmin⟩
  · subst hr
    rw [hseq] at hroom
    unfold storeLocked
    dsimp only
    rw [hseq]
    exact hroom
  · unfold storeLocked
    dsimp only
    rw [hseq]

theorem cleared (hready : s.logbufReady = true) : Represents (logbufClear s) [] := by
  constructor
  · exact hready
  · exact logBufLen_pos
  · rfl
  · rfl
  · exact Nat.zero_le _
  · rfl
  · exact Nat.succ_pos _
  · rfl
  · simp

theorem initialized (s : Log) : Represents (logbufInit s) [] :=
  cleared (s := { s with logbufReady := true }) rfl

/-! ## Sequences of operations -/

inductive Op
  | store (jiffies prio : BitVec 32) (text : Option (List Byte))
  | clear
  | formatSyslog (size : ℕ) (clearing : Bool)

def Op.run (s : Log) : Op → Log
  | .store jiffies prio text => logbufStore s jiffies prio text
  | .clear => logbufClear s
  | .formatSyslog size clearing => (logbufFormatSyslog s size clearing).2

/-- What the messages since the last clear operation are, after one more operation. A message is cut at
`LOG_LINE_MAX`, and an empty one is none. -/
def Op.messages (m : List LogRecord) : Op → List LogRecord
  | .store jiffies prio (some (b :: text)) =>
      m ++ [recordOf (m.length % wordSize) jiffies prio (b :: text)]
  | .store _ _ _ => m
  | .clear => []
  | .formatSyslog _ clearing => if clearing then [] else m

/-- The log holds the newest messages, as many of them as fit. -/
structure Newest (s : Log) (m : List LogRecord) : Prop where
  nextSeq : s.logNextSeq = m.length % wordSize
  seq : ∀ i r, m[i]? = some r → r.header.seq = i % wordSize
  suffix : ∃ k ≤ m.length, Represents s (m.drop k) ∧
    ∀ j < k, logBufLen < total LogRecord.size (m.drop j)

variable {m : List LogRecord}

theorem newest_nil (h : Represents s []) (hseq : s.logNextSeq = 0) : Newest s [] := by
  constructor
  · exact hseq
  · intro i r hi
    exact absurd hi (by simp)
  · exact ⟨0, Nat.le_refl _, h, fun j hj => absurd hj (Nat.not_lt_zero j)⟩

theorem Newest.ready (h : Newest s m) : s.logbufReady = true := by
  obtain ⟨k, -, hrep, -⟩ := h.suffix
  exact hrep.ready

theorem Newest.store (h : Newest s m) (jiffies prio : BitVec 32) {text : List Byte}
    (htext : text ≠ []) : Newest (logbufStore s jiffies prio (some text))
      (m ++ [recordOf (m.length % wordSize) jiffies prio text]) := by
  obtain ⟨k, hk, hrep, hmin⟩ := h.suffix
  obtain ⟨j, hj, hrep', hseq, hmin'⟩ := hrep.store jiffies prio htext rfl
  rw [h.nextSeq] at hrep' hseq hmin'
  rw [List.length_drop] at hj
  constructor
  · rw [hseq, List.length_append, List.length_singleton, Nat.mod_add_mod]
  · intro i r hi
    rcases Nat.lt_or_ge i m.length with hlt | hge
    · rw [List.getElem?_append_left hlt] at hi
      exact h.seq i r hi
    · rw [List.getElem?_append_right hge] at hi
      obtain ⟨hzero, hr⟩ := List.getElem?_eq_some_iff.mp hi
      rw [List.length_singleton] at hzero
      obtain rfl : i = m.length := by omega
      simp only [Nat.sub_self, List.getElem_cons_zero] at hr
      rw [← hr]
      rfl
  · refine ⟨k + j, ?_, ?_, ?_⟩
    · rw [List.length_append]
      omega
    · rw [List.drop_append_of_le_length (by omega)]
      rwa [List.drop_drop] at hrep'
    · intro i hi
      have hle : i ≤ m.length := by omega
      rw [List.drop_append_of_le_length hle, total_append, total_cons, total_nil, Nat.add_zero]
      rcases Nat.lt_or_ge i k with hlt | hge
      · have hbefore := hmin i hlt
        omega
      · have hnow := hmin' (i - k) (by omega)
        rwa [List.drop_drop, Nat.add_sub_cancel' hge] at hnow

theorem Newest.clear (h : Newest s m) : Newest (logbufClear s) [] :=
  newest_nil (cleared h.ready) rfl

theorem Newest.run (h : Newest s m) (op : Op) : Newest (op.run s) (op.messages m) := by
  cases op with
  | store jiffies prio text =>
    match text with
    | none => exact h
    | some [] =>
      have hsame : logbufStore s jiffies prio (some []) = s := by
        simp [logbufStore]
      rw [Op.run, hsame]
      exact h
    | some (b :: text) => exact h.store jiffies prio (List.cons_ne_nil b text)
  | clear => exact h.clear
  | formatSyslog size clearing =>
    cases clearing with
    | false => exact h
    | true => exact h.clear

theorem newest_run (s : Log) (ops : List Op) : Newest (ops.foldl Op.run (logbufInit s)) (ops.foldl Op.messages []) := by
  induction ops using List.reverseRecOn with
  | nil => exact newest_nil (initialized s) rfl
  | append_singleton ops op ih =>
    rw [List.foldl_append, List.foldl_append]
    exact ih.run op

/-- The log is a ring of whole records: they parse back as the newest messages since the last clear
operation, a message is dropped only when it and all that came after it do not fit into the buffer, and the
numbers of the records are consecutive. -/
theorem log_holds_newest (s₀ : Log) (ops : List Op) :
    let s := ops.foldl Op.run (logbufInit s₀)
    let m := ops.foldl Op.messages []
    s.logHead = (s.logTail + s.logUsed) % logBufLen ∧
      s.logUsed = total LogRecord.size (records s) ∧
      s.logUsed ≤ logBufLen ∧
      s.logCount = (records s).length ∧
      s.logNextSeq = m.length % wordSize ∧
      ∃ k ≤ m.length, records s = m.drop k ∧
        (∀ j < k, logBufLen < total LogRecord.size (m.drop j)) ∧
        ∀ i r, (records s)[i]? = some r → r.header.seq = (k + i) % wordSize := by
  intro s m
  have hnewest : Newest s m := newest_run s₀ ops
  obtain ⟨k, hk, hrep, hmin⟩ := hnewest.suffix
  have hrecords : records s = m.drop k := hrep.records_eq
  constructor
  · exact hrep.head
  constructor
  · rw [hrecords, hrep.used]
  constructor
  · exact hrep.le
  constructor
  · rw [hrecords, hrep.count]
  constructor
  · exact hnewest.nextSeq
  · refine ⟨k, hk, hrecords, hmin, ?_⟩
    intro i r hi
    rw [hrecords, List.getElem?_drop] at hi
    exact hnewest.seq (k + i) r hi

/-! ## Reading -/

theorem findSeqFrom_eq (seq : ℕ) (hvalid : ∀ r ∈ l, r.Valid) (hn : n ≤ logBufLen)
    (hdata : segment logBufLen buf off n = l.flatMap LogRecord.toBytes) : (findSeqFrom buf seq l.length off).map
        (fun off => LogRecord.mk (headerAt buf off) (textAt buf off (headerAt buf off))) =
      l.find? fun r => r.header.seq = seq := by
  induction l generalizing off n with
  | nil => rfl
  | cons r l ih =>
    have hr : r.Valid := hvalid r List.mem_cons_self
    rw [List.flatMap_cons] at hdata
    obtain ⟨hheader, htext, hrest⟩ := parse_record hr hdata hn
    rw [List.length_cons, findSeqFrom, List.find?_cons, hheader, recordSize_eq hr]
    by_cases hseq : r.header.seq = seq
    · simp only [hseq, if_true, decide_true, Option.map_some, hheader, htext]
    · simp only [hseq, if_false, decide_false]
      exact ih (fun r' hr' => hvalid r' (List.mem_cons_of_mem r hr')) (by omega) hrest

theorem Represents.oldestSeq (h : Represents s (r :: l)) : oldestSeqLocked s = r.header.seq := by
  have hdata := h.data
  rw [List.flatMap_cons] at hdata
  obtain ⟨hheader, -, -⟩ := parse_record (h.valid r List.mem_cons_self) hdata h.le
  rw [oldestSeqLocked, if_neg (by rw [h.count]; exact Nat.succ_ne_zero _), hheader]

theorem Represents.readSeq (h : Represents s (r :: l)) (seq size : ℕ) :
    readSeqLocked s seq size =
      if seq = s.logNextSeq then .ok ([], seq)
      else if wordSize / 2 ≤ sub32 seq r.header.seq then .error .EPIPE
      else
        match (r :: l).find? fun r => r.header.seq = seq with
        | none => .error .EPIPE
        | some r => .ok ((formatKmsgLine r.header r.text).take size, (r.header.seq + 1) % wordSize) := by
  have hcount : s.logCount ≠ 0 := by
    rw [h.count]
    exact Nat.succ_ne_zero _
  have hfind := findSeqFrom_eq seq h.valid h.le h.data
  rw [← hfind, readSeqLocked, h.oldestSeq]
  simp only [hcount, false_or]
  rw [findSeqLocked, h.count]
  cases findSeqFrom s.logBuf seq (r :: l).length s.logTail with
  | none => rfl
  | some off => rfl

theorem formatFrom_eq {size : ℕ} {out : List Byte} (hvalid : ∀ r ∈ l, r.Valid) (hn : n ≤ logBufLen)
    (hdata : segment logBufLen buf off n = l.flatMap LogRecord.toBytes) :
    formatFrom buf size l.length off out =
      out ++ (l.flatMap fun r => formatSyslogLine r.header r.text).take (size - out.length) := by
  induction l generalizing off n out with
  | nil => rw [List.flatMap_nil, List.take_nil, List.append_nil]; rfl
  | cons r l ih =>
    have hr : r.Valid := hvalid r List.mem_cons_self
    rw [List.flatMap_cons] at hdata
    obtain ⟨hheader, htext, hrest⟩ := parse_record hr hdata hn
    rw [List.length_cons, formatFrom]
    by_cases hroom : out.length < size
    · rw [if_pos hroom]
      dsimp only
      rw [hheader, htext, recordSize_eq hr]
      rw [ih (fun r' hr' => hvalid r' (List.mem_cons_of_mem r hr')) (by omega) hrest,
        List.flatMap_cons, List.take_append, List.append_assoc, List.length_append,
        List.length_take]
      congr 3
      omega
    · rw [if_neg hroom, Nat.sub_eq_zero_of_le (by omega), List.take_zero, List.append_nil]

theorem digits_length (n value : ℕ) : (digits n value).length ≤ n := by
  induction n generalizing value with
  | zero => exact Nat.le_refl _
  | succ n ih =>
    have hrest := ih (value / 10)
    rw [digits, List.length_cons]
    split_ifs
    · exact Nat.succ_le_succ (Nat.zero_le _)
    · omega

/-- `logbuf_format_syslog` gives the lines of the records, as far as there is room for them. -/
theorem Represents.formatSyslog (h : Represents s l) (size : ℕ) (clearing : Bool) :
    (logbufFormatSyslog s size clearing).1 = (l.flatMap fun r => formatSyslogLine r.header r.text).take size := by
  rw [logbufFormatSyslog, h.count]
  dsimp only
  rw [formatFrom_eq h.valid h.le h.data, List.nil_append]
  rfl

end Mario.Kernel.Logbuf
