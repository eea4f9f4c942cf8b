import Mario.Lib.Listing

/-!
# Reading a directory

`getdents` and `getdents64` of `readdir.c`: a file system gives the entries of a directory one after the other to
`filldir`, which puts them in the buffer of the caller as long as they fit. Numbers of inodes and positions are not
cut to the words of the buffer. The buffer can be written.
-/

namespace Mario.Fs.Readdir

open Mario.Lib.Listing

abbrev Byte := BitVec 8

abbrev Name := List Byte

/-- What a file system says about an entry. -/
structure Entry where
  ino : ℕ
  type : Byte
  name : Name
  deriving DecidableEq

/-- `struct mario_dirent` and `struct mario_dirent64`. -/
structure Dirent where
  entry : Entry
  off : ℕ
  reclen : ℕ
  deriving DecidableEq

/-- The two formats of a buffer. -/
inductive Format
  | dirent
  | dirent64
  deriving DecidableEq

def Format.nameOffset : Format → ℕ
  | .dirent => 11
  | .dirent64 => 19

/-- The length of the record for a name, with `ROUND_UP`. -/
def Format.reclen (f : Format) (e : Entry) : ℕ := (f.nameOffset + e.name.length + 1 + 3) / 4 * 4

def einval : ℤ := -22
def eio : ℤ := -5

/-- `struct getdents_callback`: the records from the start of the buffer to `next`, of which `prev` is the last. -/
structure Callback where
  written : List Dirent
  count : ℤ
  error : ℤ
  deriving DecidableEq

/-- `d_off` of the last record is set. -/
def setOff : List Dirent → ℕ → List Dirent
  | [], _ => []
  | d :: l, off => if l = [] then [{ d with off := off }] else d :: setOff l off

/-- `filldir` and `filldir64`: whether the entry was refused. -/
def filldir (f : Format) (b : Callback) (e : Entry) (offset : ℕ) : Bool × Callback :=
  if b.count < f.reclen e then (true, { b with error := einval })
  else
    (false,
      { written := setOff b.written offset ++ [⟨e, 0, f.reclen e⟩]
        count := b.count - f.reclen e
        error := 0 })

/-- `do_getdents`, for a file system that returns an error or zero. `f_pos` of the file is part of what it keeps. -/
def doGetdents {P : Type*} (readdir : P → Callback → ℤ × P × Callback) (fPos : P → ℕ) (p : P) (count : BitVec 32) :
    Reply Dirent P :=
  let r := readdir p ⟨[], count.toInt, 0⟩
  if r.1 < 0 then ⟨r.1, [], r.2.1⟩
  else if r.2.2.written = [] then ⟨r.2.2.error, [], r.2.1⟩
  else ⟨(count - BitVec.ofInt 32 r.2.2.count).toInt, setOff r.2.2.written (fPos r.2.1), r.2.1⟩

/-- The entries of a reply. -/
def entries {P : Type*} (r : Reply Dirent P) : Reply Entry P := ⟨r.ret, r.listed.map Dirent.entry, r.pos⟩

/-! ## What a walk over a directory does to the buffer -/

/-- The first entries are put in the buffer, and all are or the next one has been refused. -/
structure Puts (f : Format) (b : Callback) (l rest : List Entry) (b' : Callback) : Prop where
  filled : ∃ es, l = es ++ rest ∧ b'.written.map Dirent.entry = b.written.map Dirent.entry ++ es ∧
    b'.count = b.count - total f.reclen es ∧ (es = [] ∨ 0 ≤ b'.count)
  full : ∀ e ∈ rest.head?, b'.count < f.reclen e ∧ b'.error = einval
  error : rest = [] → b'.error = if l = [] then b.error else 0

variable {f : Format} {b b' b'' : Callback} {e : Entry} {l l' rest : List Entry} {offset : ℕ}

theorem map_setOff (l : List Dirent) (off : ℕ) : (setOff l off).map Dirent.entry = l.map Dirent.entry := by
  induction l with
  | nil => rfl
  | cons d l ih =>
    unfold setOff
    split_ifs with hl
    · rw [hl]
      rfl
    · rw [List.map_cons, ih, List.map_cons]

theorem Puts.nil (f : Format) (b : Callback) : Puts f b [] [] b :=
  ⟨⟨[], rfl, (List.append_nil _).symm, by simp [total], Or.inl rfl⟩, fun e he => by simp at he, fun _ => by simp⟩

theorem Puts.refused (l : List Entry) (h : filldir f b e offset = (true, b')) : Puts f b (e :: l) (e :: l) b' := by
  unfold filldir at h
  split_ifs at h with hcount
  · cases h
    refine ⟨⟨[], rfl, (List.append_nil _).symm, by simp [total], Or.inl rfl⟩, fun e' he' => ?_, fun hnil => ?_⟩
    · obtain rfl : e = e' := by simpa using he'
      exact ⟨hcount, rfl⟩
    · cases hnil
  · cases h

theorem Puts.cons (h : filldir f b e offset = (false, b')) (hrest : Puts f b' l rest b'') :
    Puts f b (e :: l) rest b'' := by
  unfold filldir at h
  split_ifs at h with hcount
  · cases h
  · cases h
    obtain ⟨⟨es, hl, hwritten, hleft, hfits⟩, hfull, herror⟩ := hrest
    refine ⟨⟨e :: es, by rw [hl]; rfl, ?_, ?_, Or.inr ?_⟩, hfull, fun hnil => ?_⟩
    · rw [hwritten]
      simp [map_setOff]
    · rw [hleft]
      simp [total]
      omega
    · rcases hfits with hnil | hpos
      · rw [hleft, hnil]
        simp [total]
        omega
      · exact hpos
    · rw [herror hnil]
      simp

theorem Puts.append (h : Puts f b l [] b') (h' : Puts f b' l' rest b'') : Puts f b (l ++ l') rest b'' := by
  obtain ⟨⟨es, hl, hwritten, hleft, hfits⟩, -, herror⟩ := h
  obtain ⟨⟨es', hl', hwritten', hleft', hfits'⟩, hfull', herror'⟩ := h'
  rw [List.append_nil] at hl
  subst hl
  refine ⟨⟨l ++ es', by rw [hl', List.append_assoc], ?_, ?_, ?_⟩, hfull', fun hnil => ?_⟩
  · rw [hwritten', hwritten, List.append_assoc]
  · rw [hleft', hleft, total_append]
    omega
  · rcases hfits' with hnone | hpos
    · rcases hfits with hnone' | hpos
      · exact Or.inl (by rw [hnone, hnone']; rfl)
      · refine Or.inr ?_
        rw [hleft', hnone]
        simpa [total] using hpos
    · exact Or.inr hpos
  · rw [herror' hnil, herror rfl]
    by_cases hempty : l' = []
    · simp [hempty]
    · simp [hempty]

/-- After an entry that is refused the others do not matter. -/
theorem Puts.stopped (h : Puts f b l rest b') (hne : rest ≠ []) (l' : List Entry) :
    Puts f b (l ++ l') (rest ++ l') b' := by
  obtain ⟨⟨es, hl, hwritten, hleft, hfits⟩, hfull, -⟩ := h
  refine ⟨⟨es, by rw [hl, List.append_assoc], hwritten, hleft, hfits⟩, fun e he => ?_, fun hnil => ?_⟩
  · refine hfull e ?_
    rw [List.head?_append_of_ne_nil _ hne] at he
    exact he
  · exact absurd (List.append_eq_nil_iff.mp hnil).1 hne

theorem toInt_sub_left {count : BitVec 32} {n : ℕ} (h : (n : ℤ) ≤ count.toInt) :
    (count - BitVec.ofInt 32 (count.toInt - n)).toInt = n := by
  have hlt := count.toInt_lt
  rw [BitVec.toInt_sub, BitVec.toInt_ofInt, Int.sub_bmod_bmod, Int.sub_sub_self]
  exact Int.bmod_eq_of_le (by omega) (by omega)

/-- A call of a file system that stops at the first entry that is refused. -/
theorem doGetdents_fills {P : Type*} (readdir : P → Callback → ℤ × P × Callback) (fPos : P → ℕ) (p : P)
    (count : BitVec 32) (hok : (readdir p ⟨[], count.toInt, 0⟩).1 = 0)
    (hputs : Puts f ⟨[], count.toInt, 0⟩ l rest (readdir p ⟨[], count.toInt, 0⟩).2.2) :
    Fills f.reclen count.toInt l (entries (doGetdents readdir fPos p count)).listed rest ∧
      ((entries (doGetdents readdir fPos p count)).ret = 0 ↔ l = []) ∧
        (entries (doGetdents readdir fPos p count)).pos = (readdir p ⟨[], count.toInt, 0⟩).2.1 := by
  unfold doGetdents entries
  generalize readdir p ⟨[], count.toInt, 0⟩ = r at hok hputs
  obtain ⟨ret, p', b'⟩ := r
  obtain ⟨⟨es, hl, hwritten, hleft, hfits⟩, hfull, herror⟩ := hputs
  simp only [List.map_nil, List.nil_append] at hok hwritten hleft hfits hfull herror ⊢
  rw [if_neg (by omega)]
  by_cases hnone : b'.written = []
  · rw [if_pos hnone]
    have hes : es = [] := by
      rw [hnone] at hwritten
      exact hwritten.symm
    rw [hes, List.nil_append] at hl
    rw [hes] at hleft
    simp only [total, List.map_nil, List.sum_nil, Int.natCast_zero, Int.sub_zero] at hleft
    refine ⟨⟨by simpa using hl, Or.inl rfl, fun e he => ?_⟩, ?_, rfl⟩
    · have := (hfull e he).1
      simp only [List.map_nil, total, List.sum_nil]
      omega
    · cases hrest : rest with
      | nil => simp [herror hrest, hl, hrest]
      | cons e rest' =>
        have hrefused := (hfull e (by rw [hrest]; rfl)).2
        simp [hrefused, hl, hrest, einval]
  · rw [if_neg hnone]
    have hes : es ≠ [] := by
      rintro rfl
      exact hnone (List.map_eq_nil_iff.mp hwritten)
    have hsum : (total f.reclen es : ℤ) ≤ count.toInt := by
      rcases hfits with hnil | hpos
      · exact absurd hnil hes
      · omega
    have hpos : 0 < total f.reclen es := by
      obtain ⟨e, es', rfl⟩ := List.exists_cons_of_ne_nil hes
      have : 0 < f.reclen e := by
        unfold Format.reclen
        omega
      simp [total]
      omega
    refine ⟨⟨?_, Or.inr ?_, fun e he => ?_⟩, ?_, rfl⟩
    · simp only [map_setOff, hwritten]
      exact hl
    · simp only [map_setOff, hwritten]
      exact hsum
    · have := (hfull e he).1
      simp only [map_setOff, hwritten]
      omega
    · have hne : l ≠ [] := by
        rw [hl]
        simp [hes]
      simp only [hne, iff_false]
      rw [hleft, toInt_sub_left hsum]
      omega

end Mario.Fs.Readdir
