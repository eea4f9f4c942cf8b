import Mario.Fs.Char.Console

/-!
# Console output stays on the screen

The cursor is on the screen or one column behind it, where a wrap is due or was forgotten by an escape
sequence. Everything but the writing of characters is safe there.
-/

namespace Mario.Fs.ConsoleDriver

open Mario.Lib

variable {α β : Type} {con : Console} {c : UInt8} {m n : ℕ} {f : Console → Except Fault Console}

/-! ## Results -/

/-- A call has no fault, and its result is as wanted. -/
def Ends (r : Except Fault α) (P : α → Prop) : Prop := ∃ a, r = .ok a ∧ P a

theorem ends_ok {a : α} {P : α → Prop} (h : P a) : Ends (.ok a) P := ⟨a, rfl, h⟩

theorem Ends.bind {r : Except Fault α} {g : α → Except Fault β} {P : α → Prop} {Q : β → Prop} (h : Ends r P)
    (hg : ∀ a, P a → Ends (g a) Q) : Ends (r >>= g) Q := by
  obtain ⟨a, rfl, ha⟩ := h
  exact hg a ha

theorem Ends.mono {r : Except Fault α} {P Q : α → Prop} (h : Ends r P) (hPQ : ∀ a, P a → Q a) : Ends r Q := by
  obtain ⟨a, ha, hP⟩ := h
  exact ⟨a, ha, hPQ a hP⟩

theorem ends_ite {p : Prop} [Decidable p] {r r' : Except Fault α} {P : α → Prop} (h : p → Ends r P)
    (h' : ¬ p → Ends r' P) : Ends (if p then r else r') P := by
  by_cases hp : p
  · rw [if_pos hp]
    exact h hp
  · rw [if_neg hp]
    exact h' hp

/-- A call changes cells of the screen and nothing else. -/
def OnlyCells (con : Console) (r : Except Fault Console) : Prop := Ends r fun con' => ∃ m, con' = { con with mem := m }

theorem OnlyCells.refl (con : Console) : OnlyCells con (.ok con) := ends_ok ⟨con.mem, rfl⟩

theorem OnlyCells.bind {r : Except Fault Console} (h : OnlyCells con r)
    (hf : ∀ m, OnlyCells con (f { con with mem := m })) : OnlyCells con (r >>= f) := by
  refine Ends.bind h fun con' hcon' => ?_
  obtain ⟨m, rfl⟩ := hcon'
  exact hf m

theorem OnlyCells.repeatedly (h : ∀ m, OnlyCells con (f { con with mem := m })) (n : ℕ) :
    OnlyCells con (repeatedly f n con) := by
  have hall : ∀ m, OnlyCells con (ConsoleDriver.repeatedly f n { con with mem := m }) := by
    induction n with
    | zero => exact fun m => ends_ok ⟨m, rfl⟩
    | succ n ih => exact fun m => (h m).bind ih
  exact hall con.mem

/-! ## Cells -/

theorem memsetw_onlyCells {start : ℕ} (c : UInt16) (h : n = 0 ∨ start + n ≤ screenBufSize) :
    OnlyCells con (memsetw con start c n) := by
  rw [memsetw, if_pos h]
  exact ends_ok ⟨_, rfl⟩

theorem memmove_onlyCells {dst src : ℕ} (hdst : dst + n ≤ screenBufSize) (hsrc : src + n ≤ screenBufSize) :
    OnlyCells con (memmove con dst src n) := by
  rw [memmove, if_pos (.inr ⟨hdst, hsrc⟩)]
  exact ends_ok ⟨_, rfl⟩

theorem memmove_if_onlyCells {p : Prop} [Decidable p] {dst src : ℕ}
    (h : p → dst + n ≤ screenBufSize ∧ src + n ≤ screenBufSize) :
    OnlyCells con (if p then memmove con dst src n else .ok con) := by
  by_cases hp : p
  · rw [if_pos hp]
    exact memmove_onlyCells (h hp).1 (h hp).2
  · rw [if_neg hp]
    exact OnlyCells.refl con

theorem u32_of_lt {n : ℤ} (hpos : 0 ≤ n) (hlt : n < 2 ^ 32) : u32 n = n.toNat := by
  rw [u32, Int.emod_eq_of_lt hpos hlt]

theorem eraseScreen_onlyCells {rowStart rowEnd : ℕ} (hstart : rowStart ≤ rowEnd) (hend : rowEnd < nRow) :
    OnlyCells con (eraseScreen con rowStart rowEnd) := by
  have hcount : u32 (nCol * (rowEnd + 1 - rowStart : ℤ)) = nCol * (rowEnd + 1 - rowStart) := by
    simp only [nRow, nCol] at *
    rw [u32_of_lt (by omega) (by omega)]
    omega
  rw [eraseScreen, hcount]
  refine memsetw_onlyCells _ (.inr ?_)
  simp only [screenBufSize, nRow, nCol] at *
  omega

theorem eraseRange_onlyCells (hrow : con.posY < nRow) (start stop : ℤ) : OnlyCells con (eraseRange con start stop) := by
  rw [eraseRange]
  by_cases hout : stop < start ∨ (nCol - 1 : ℤ) < start ∨ stop < 0
  · rw [if_pos hout]
    exact OnlyCells.refl con
  · rw [if_neg hout]
    refine memsetw_onlyCells _ (.inr ?_)
    rw [screenBufSize]
    simp only [nRow, nCol] at *
    omega

theorem scroll_onlyCells {start stop : ℕ} (hstop : stop < nRow) (up : Bool) :
    OnlyCells con (scroll con start stop up) := by
  rw [scroll]
  by_cases hout : stop < start ∨ !inScrollingRegion con start ∨ !inScrollingRegion con stop
  · rw [if_pos hout]
    exact OnlyCells.refl con
  · rw [if_neg hout]
    have hle : ¬ stop < start := fun h => hout (.inl h)
    simp only [nRow] at hstop
    refine OnlyCells.bind (memmove_if_onlyCells fun hlt => ?_) fun m => ?_
    · cases up <;> simp only [screenBufSize, nRow, nCol, if_true, Bool.false_eq_true, if_false] <;> omega
    · have hset : ∀ c, OnlyCells { con with mem := m }
          (memsetw { con with mem := m } ((if up then stop else start) * nCol) c nCol) := by
        intro c
        refine memsetw_onlyCells c (.inr ?_)
        cases up <;> simp only [screenBufSize, nRow, nCol, if_true, Bool.false_eq_true, if_false] <;> omega
      exact hset _

theorem deleteOneChar_onlyCells {y : ℕ} (hy : y < nRow) (x : ℕ) : OnlyCells con (deleteOneChar con y x) := by
  rw [deleteOneChar]
  by_cases hx : nCol ≤ x
  · rw [if_pos hx]
    exact OnlyCells.refl con
  · rw [if_neg hx]
    simp only [nRow, nCol] at hy hx
    refine OnlyCells.bind (memmove_if_onlyCells fun _ => ?_) fun m => ?_
    · simp only [screenBufSize, nRow, nCol]
      omega
    · refine @memsetw_onlyCells { con with mem := m } 1 _ _ (.inr ?_)
      simp only [screenBufSize, nRow, nCol]
      omega

theorem insertOneChar_onlyCells {y : ℕ} (hy : y < nRow) (x : ℕ) : OnlyCells con (insertOneChar con y x) := by
  rw [insertOneChar]
  by_cases hx : nCol ≤ x
  · rw [if_pos hx]
    exact OnlyCells.refl con
  · rw [if_neg hx]
    simp only [nRow, nCol] at hy hx
    refine OnlyCells.bind (memmove_if_onlyCells fun _ => ?_) fun m => ?_
    · simp only [screenBufSize, nRow, nCol]
      omega
    · refine @memsetw_onlyCells { con with mem := m } 1 _ _ (.inr ?_)
      simp only [screenBufSize, nRow, nCol]
      omega

/-! ## Consoles -/

/-- The cursor is on the screen or one column behind it, the saved one too, and the region is on the
screen. -/
structure Screen.Ok (s : Screen) : Prop where
  posX : s.posX ≤ nCol
  posY : s.posY < nRow
  saveX : s.saveX ≤ nCol
  saveY : s.saveY < nRow
  region : s.scrStart ≤ s.scrEnd
  scrEnd : s.scrEnd < nRow
  pgc : s.pgc = 0 ∨ 32 ≤ s.pgc

/-- Both screens are right, and the buffer of the escape sequence ends with zeros. -/
structure Fits (con : Console) : Prop extends con.toScreen.Ok where
  orig : con.orig.Ok
  length : con.escBuf.length = escBufSize
  room : con.escBufP ≤ escBufSize - 4
  zeros : ∀ i, con.escBufP ≤ i → ∀ b, con.escBuf[i]? = some b → b = 0

theorem OnlyCells.fits {r : Except Fault Console} (h : OnlyCells con r) (hfits : Fits con) : Ends r Fits := by
  refine h.mono ?_
  rintro _ ⟨m, rfl⟩
  exact { hfits with }

/-! ## Arguments -/

/-- Reading an argument ends in the buffer, and so does reading another one behind it. -/
def Terminated (s : List UInt8) : Prop := (∃ d, s = d ++ [0, 0]) ∨ s = [0]

theorem scanArg_ends (d : List UInt8) : Ends (scanArg (d ++ [0, 0])) fun r => ∀ p ∈ r, Terminated p.2 := by
  induction d with
  | nil =>
    refine ends_ok fun p hp => ?_
    cases hp
    exact .inr rfl
  | cons c d ih =>
    rw [List.cons_append, scanArg]
    by_cases hend : c = 0 ∨ c = 59
    · rw [if_pos hend]
      have hzero : (if c = 59 then 0 else c) = 0 := by
        rcases hend with rfl | rfl <;> rfl
      dsimp only
      rw [if_pos hzero]
      refine ends_ok fun p hp => ?_
      cases hp
      exact .inl ⟨d, rfl⟩
    · rw [if_neg hend]
      by_cases hdigit : 48 ≤ c ∧ c ≤ 57
      · rw [if_pos hdigit]
        refine ih.bind fun r hr => ends_ok fun p hp => ?_
        obtain ⟨q, hq, rfl⟩ := Option.map_eq_some_iff.mp hp
        exact hr q hq
      · rw [if_neg hdigit]
        exact ends_ok fun p hp => by cases hp

theorem getEscArg_ends {s : List UInt8} (h : Terminated s) : Ends (getEscArg s) fun r => ∀ p ∈ r, Terminated p.2 := by
  rw [getEscArg]
  rcases h with ⟨d, rfl⟩ | rfl
  · exact (scanArg_ends d).bind fun r hr => ends_ok fun p hp => hr p (Option.mem_filter_iff.mp hp).1
  · refine ends_ok fun p hp => ?_
    obtain ⟨hsome, hne⟩ := Option.mem_filter_iff.mp hp
    cases hsome
    simp at hne

theorem escArgs_ends {s : List UInt8} (h : Terminated s) (fuel : ℕ) : Ends (escArgs fuel s) fun _ => True := by
  induction fuel generalizing s with
  | zero => exact ends_ok trivial
  | succ fuel ih =>
    rw [escArgs]
    refine (getEscArg_ends h).bind fun r hr => ?_
    cases r with
    | none => exact ends_ok trivial
    | some p => exact (ih (hr p rfl)).bind fun _ _ => ends_ok trivial

theorem getEscUint1_ends {s : List UInt8} (h : Terminated s) :
    Ends (getEscUint1 s) fun r => ∀ p ∈ r, Terminated p.2 := by
  rw [getEscUint1]
  refine (getEscArg_ends h).bind fun r hr => ?_
  cases r with
  | none => exact ends_ok fun p hp => by cases hp
  | some q =>
    refine ends_ok fun p hp => ?_
    split_ifs at hp
    · cases hp
    · cases hp
      exact hr q rfl

theorem getEscUint2_ends {s : List UInt8} (h : Terminated s) : Ends (getEscUint2 s) fun _ => True := by
  rw [getEscUint2]
  refine (getEscUint1_ends h).bind fun r hr => ?_
  cases r with
  | none => exact ends_ok trivial
  | some p =>
    refine (getEscUint1_ends (hr p rfl)).bind fun r' _ => ?_
    cases r' <;> exact ends_ok trivial

theorem Fits.terminated (h : Fits con) : Terminated con.escBuf := by
  have hlength := h.length
  have hroom := h.room
  simp only [escBufSize] at hlength hroom
  have hzero : ∀ i (hi : i < con.escBuf.length), 62 ≤ i → con.escBuf[i] = 0 := fun i hi hge =>
    h.zeros i (by omega) _ (List.getElem?_eq_getElem hi)
  refine .inl ⟨con.escBuf.take 62, ?_⟩
  have hdrop : con.escBuf.drop 62 = [0, 0] := by
    rw [List.drop_eq_getElem_cons (by omega), List.drop_eq_getElem_cons (by omega),
      List.drop_eq_nil_of_le (by omega), hzero 62 (by omega) (by omega), hzero 63 (by omega) (by omega)]
  rw [← hdrop, List.take_append_drop]

theorem escUint_ends (h : Fits con) (default : ℕ) : Ends (escUint con default) fun _ => True := by
  rw [escUint]
  exact (getEscUint1_ends h.terminated).bind fun _ _ => ends_ok trivial

/-! ## Control sequences -/

theorem Fits.setPos (h : Fits con) (y x : ℤ) : Fits (setPos con y x) := by
  refine { h with posX := ?_, posY := ?_ }
  · simp only [ConsoleDriver.setPos, nCol]
    omega
  · simp only [ConsoleDriver.setPos, nRow]
    omega

theorem csiH_ends (h : Fits con) : Ends (csiH con) Fits := by
  rw [csiH]
  exact (getEscUint2_ends h.terminated).bind fun _ _ => ends_ok (h.setPos _ _)

theorem csiABCD_ends (h : Fits con) (c : UInt8) : Ends (csiABCD con c) Fits := by
  rw [csiABCD]
  have hy : ∀ y z : ℕ, z < nRow → (if nRow - 1 < y then z else y) < nRow := by
    intro y z hz
    by_cases hlt : nRow - 1 < y
    · rwa [if_pos hlt]
    · rw [if_neg hlt]
      simp only [nRow] at *
      omega
  have hx : ∀ x z : ℕ, z ≤ nCol → (if nCol - 1 < x then z else x) ≤ nCol := by
    intro x z hz
    by_cases hlt : nCol - 1 < x
    · rwa [if_pos hlt]
    · rw [if_neg hlt]
      simp only [nCol] at *
      omega
  refine (escUint_ends h 1).bind fun count _ => ?_
  refine ends_ite (fun _ => ends_ok { h with posY := hy _ _ (by decide) }) fun _ => ?_
  refine ends_ite (fun _ => ends_ok { h with posY := hy _ _ (by decide) }) fun _ => ?_
  refine ends_ite (fun _ => ends_ok { h with posX := hx _ _ (by decide) }) fun _ => ?_
  exact ends_ite (fun _ => ends_ok { h with posX := hx _ _ (by decide) }) fun _ => ends_ok h

theorem csiG_ends (h : Fits con) : Ends (csiG con) Fits := by
  rw [csiG]
  exact (escUint_ends h 1).bind fun _ _ => ends_ok (h.setPos _ _)

theorem csiD_ends (h : Fits con) (c : UInt8) : Ends (csiD con c) Fits := by
  rw [csiD]
  exact (escUint_ends h 1).bind fun _ _ => ends_ok (h.setPos _ _)

theorem Fits.csiS (h : Fits con) : Fits (csiS con) := { h with saveX := h.posX, saveY := h.posY }

theorem Fits.csiU (h : Fits con) : Fits (csiU con) := { h with posX := h.saveX, posY := h.saveY }

theorem Fits.doCsiM (h : Fits con) (action : ℕ) : Fits (doCsiM con action) := by
  rw [ConsoleDriver.doCsiM]
  split_ifs
  all_goals exact { h with }

theorem csiM_ends (h : Fits con) : Ends (csiM con) Fits := by
  rw [csiM]
  refine (escArgs_ends h.terminated _).bind fun args _ => ends_ok ?_
  have hfold : Fits (args.foldl (fun con arg => doCsiM con (simpleAtou arg)) con) := by
    induction args generalizing con with
    | nil => exact h
    | cons arg args ih => exact ih (h.doCsiM _)
  by_cases hnil : args = []
  · rw [if_pos hnil]
    exact h.doCsiM 0
  · rw [if_neg hnil]
    exact hfold

theorem csiJ_ends (h : Fits con) : Ends (csiJ con) Fits := by
  have hposY := h.posY
  rw [csiJ]
  refine (escUint_ends h 0).bind fun m _ => ?_
  split_ifs
  · exact (eraseScreen_onlyCells (by simp only [nRow] at *; omega) (by decide)).fits h
  · exact (eraseScreen_onlyCells (Nat.zero_le _) hposY).fits h
  · refine Ends.bind ((eraseScreen_onlyCells (Nat.zero_le _) (by decide)).fits h) fun con' h' => ?_
    exact ends_ok { h' with pgc := .inl rfl }
  · exact ends_ok h

theorem csiK_ends (h : Fits con) : Ends (csiK con) Fits := by
  have hrange : ∀ start stop, Ends (eraseRange con start stop) Fits := fun start stop =>
    (eraseRange_onlyCells h.posY start stop).fits h
  rw [csiK]
  refine (escUint_ends h 0).bind fun m _ => ?_
  split_ifs
  · exact hrange _ _
  · exact hrange _ _
  · exact hrange _ _
  · exact ends_ok h

theorem csiLines_ends (h : Fits con) (up : Bool) : Ends (csiLines con up) Fits := by
  rw [csiLines]
  split_ifs
  · refine (escUint_ends h 1).bind fun m _ => ?_
    have hscroll : OnlyCells con (repeatedly (fun con => scroll con con.posY con.scrEnd up) m con) :=
      OnlyCells.repeatedly (fun m => @scroll_onlyCells { con with mem := m } _ _ h.scrEnd up) m
    exact (hscroll.fits h).bind fun con' h' => ends_ok (h'.setPos _ _)
  · exact ends_ok h

theorem csiP_ends (h : Fits con) : Ends (csiP con) Fits := by
  rw [csiP]
  refine (escUint_ends h 1).bind fun m _ => ?_
  exact (OnlyCells.repeatedly (fun m => @deleteOneChar_onlyCells { con with mem := m } _ h.posY _) m).fits h

theorem csiX_ends (h : Fits con) : Ends (csiX con) Fits := by
  rw [csiX]
  exact (escUint_ends h 1).bind fun m _ => (eraseRange_onlyCells h.posY _ _).fits h

theorem csiAt_ends (h : Fits con) : Ends (csiAt con) Fits := by
  rw [csiAt]
  refine (escUint_ends h 1).bind fun m _ => ?_
  exact (OnlyCells.repeatedly (fun m => @insertOneChar_onlyCells { con with mem := m } _ h.posY _) m).fits h

theorem csiN_ends (h : Fits con) : Ends (csiN con) Fits := by
  rw [csiN]
  exact (escUint_ends h 0).bind fun _ _ => ends_ok h

theorem Fits.consoleSoftReset (h : Fits con) : Fits (consoleSoftReset con) :=
  { h with
    saveX := Nat.zero_le _, saveY := show 0 < nRow by decide, region := Nat.zero_le _
    scrEnd := show nRow - 1 < nRow by decide, pgc := .inl rfl }

theorem useAltScreenBuffer_ends (h : Fits con) : Ends (useAltScreenBuffer con) Fits := by
  have hsaved : Fits { con with orig := con.toScreen } := { h with orig := h.toOk }
  rw [useAltScreenBuffer]
  refine Ends.bind ((memsetw_onlyCells _ (.inr (by decide))).fits hsaved.consoleSoftReset) fun con' h' => ?_
  exact ends_ok { h' with posX := Nat.zero_le _, posY := show 0 < nRow by decide }

theorem Fits.useNormalScreenBuffer (h : Fits con) : Fits (useNormalScreenBuffer con) :=
  { h.orig with orig := h.orig, length := h.length, room := h.room, zeros := h.zeros }

theorem csiQAction_ends (h : Fits con) (set : Bool) (action : ℕ) : Ends (csiQAction set con action) Fits := by
  have hclear : Fits { con with pgc := 0 } := { h with pgc := .inl rfl }
  rw [csiQAction]
  split_ifs
  · exact ends_ok { h with }
  · exact ends_ok { h with }
  · exact useAltScreenBuffer_ends h
  · exact ends_ok hclear.useNormalScreenBuffer
  · exact ends_ok h

theorem csiQActions_ends (h : Fits con) (set : Bool) (args : List (List UInt8)) :
    Ends (csiQActions set args con) Fits := by
  induction args generalizing con with
  | nil => exact ends_ok h
  | cons arg args ih =>
    rw [csiQActions]
    exact (csiQAction_ends h set _).bind fun con' h' => ih h'

theorem csiQ_ends (h : Fits con) (c : UInt8) : Ends (csiQ con c) Fits := by
  rw [csiQ]
  split_ifs
  · exact (escArgs_ends h.terminated _).bind fun args _ => csiQActions_ends h _ args
  · exact ends_ok h

theorem csiR_ends (h : Fits con) : Ends (csiR con) Fits := by
  rw [csiR]
  refine (getEscUint2_ends h.terminated).bind fun r _ => ?_
  obtain ⟨start, stop⟩ := r.getD (1, nRow)
  dsimp only
  refine ends_ok ?_
  by_cases hregion : 1 ≤ start ∧ start ≤ stop ∧ stop ≤ nRow
  · rw [if_pos hregion]
    obtain ⟨hpos, hle, hend⟩ := hregion
    exact { h with region := by dsimp only; omega, scrEnd := by simp only [nRow] at *; omega }
  · rw [if_neg hregion]
    exact h

theorem csiScrollUp_ends (h : Fits con) : Ends (csiScrollUp con) Fits := by
  rw [csiScrollUp]
  split_ifs
  · refine (escUint_ends h 1).bind fun m _ => ?_
    have hscroll : OnlyCells con (repeatedly (fun con => scroll con con.scrStart con.scrEnd true) m con) :=
      OnlyCells.repeatedly (fun m => @scroll_onlyCells { con with mem := m } _ _ h.scrEnd true) m
    exact hscroll.fits h
  · exact ends_ok h

/-! ## Writing -/

/-- The row below the cursor, in the region or outside of it. -/
def rowBelow (con : Console) : ℕ := if con.posY = con.scrEnd then con.scrEnd else con.posY + 1

theorem nextLine_ends (h : con.scrEnd < nRow) :
    Ends (nextLine con) fun con' => ∃ m, con' = { con with mem := m, posY := rowBelow con } := by
  rw [nextLine, rowBelow]
  by_cases hend : con.posY = con.scrEnd
  · rw [if_pos hend, if_pos (by simp [hend])]
    refine Ends.mono (@scroll_onlyCells { con with posY := con.scrEnd } _ _ h true) ?_
    rintro _ ⟨m, rfl⟩
    exact ⟨m, rfl⟩
  · rw [if_neg hend, if_neg (by simpa using hend)]
    exact ends_ok ⟨con.mem, rfl⟩

/-- The place of a character, behind a wrap that is due. -/
def place (con : Console) : ℕ × ℕ := if con.pendingWrap then (rowBelow con, 0) else (con.posY, con.posX)

/-- A wrap that is due is done, but not for the end of a line. -/
theorem wrapPending_ends (h : con.scrEnd < nRow) (c : UInt8) :
    Ends (wrapPending con c) fun con' => ∃ m, con' = if c ≠ 10 ∧ c ≠ 13 then
      { con with mem := m, posY := (place con).1, posX := (place con).2, pendingWrap := false }
      else { con with mem := m, pendingWrap := false } := by
  rw [wrapPending, place]
  by_cases hpending : con.pendingWrap = true
  · rw [if_pos hpending, if_pos hpending]
    by_cases hc : c ≠ 10 ∧ c ≠ 13
    · simp only [if_pos hc]
      refine Ends.bind (@nextLine_ends { con with posX := 0 } h) fun con' hcon' => ?_
      obtain ⟨m, rfl⟩ := hcon'
      exact ends_ok ⟨m, rfl⟩
    · simp only [if_neg hc]
      exact ends_ok ⟨con.mem, rfl⟩
  · rw [if_neg hpending, if_neg hpending]
    refine ends_ok ⟨con.mem, ?_⟩
    have hself : con = { con with pendingWrap := false } := by
      rw [Bool.not_eq_true] at hpending
      rw [← hpending]
    split_ifs
    · exact hself
    · exact hself

theorem canRep_ge (h : canRep c = true) : 32 ≤ c := by
  rw [canRep, decide_eq_true_eq] at h
  rcases h with ⟨hle, -⟩ | ⟨hle, -⟩
  · exact hle
  · exact UInt8.le_trans (by decide) hle

theorem putGlyph_ends (hcell : con.posY * nCol + con.posX < screenBufSize) (c : UInt8) (translate : Bool) :
    Ends (putGlyph con c translate) fun con' => ∃ m g, con' = { con with mem := m, pgc := g, posX := con.posX + 1 } ∧
      (g = con.pgc ∨ 32 ≤ g ∧ (translate = false → g = c)) := by
  rw [putGlyph]
  generalize hx : (if translate = true ∧ con.charsetG0 = 48 then translateDecToCp437 c else c) = x
  have hsame : translate = false → x = c := by
    rintro rfl
    rw [← hx, if_neg (by simp)]
  cases hrep : canRep x with
  | false =>
    rw [if_neg (by decide)]
    refine Ends.bind (@memsetw_onlyCells con 1 _ _ (.inr hcell)) fun con' hcon' => ?_
    obtain ⟨m, rfl⟩ := hcon'
    exact ends_ok ⟨m, con.pgc, rfl, .inl rfl⟩
  | true =>
    rw [if_pos rfl]
    refine Ends.bind (@memsetw_onlyCells { con with pgc := x } 1 _ _ (.inr hcell)) fun con' hcon' => ?_
    obtain ⟨m, rfl⟩ := hcon'
    exact ends_ok ⟨m, x, rfl, .inr ⟨canRep_ge hrep, hsame⟩⟩

/-- A console whose wrap that is due belongs to a full row. -/
structure Ready (con : Console) : Prop extends Fits con where
  due : con.pendingWrap = true → con.posX = nCol

theorem markWrap_of_le (h : nCol ≤ con.posX) : markWrap con = { con with pendingWrap := true, posX := nCol } :=
  if_pos h

theorem markWrap_of_lt (h : con.posX < nCol) : markWrap con = con := if_neg (Nat.not_le.mpr h)

theorem markWrap_ready (h : Fits { con with posX := 0 }) (hpending : con.pendingWrap = false) :
    Ready (markWrap con) := by
  by_cases hfull : nCol ≤ con.posX
  · rw [markWrap_of_le hfull]
    exact { h with posX := Nat.le_refl _, due := fun _ => rfl }
  · rw [markWrap_of_lt (Nat.not_le.mp hfull)]
    refine { h with posX := ?_, due := fun hp => ?_ }
    · omega
    · rw [hpending] at hp
      cases hp

theorem markWrap_state (con : Console) : (markWrap con).state = con.state := by
  rw [markWrap]
  split_ifs <;> rfl

theorem lastRow_ready (h : Fits { con with posX := 0, posY := 0 }) (hpending : con.pendingWrap = false) :
    Ready (markWrap (if nRow - 1 < con.posY then { con with posY := nRow - 1 } else con)) ∧
      (markWrap (if nRow - 1 < con.posY then { con with posY := nRow - 1 } else con)).state = con.state := by
  rw [markWrap_state]
  by_cases hlow : nRow - 1 < con.posY
  · rw [if_pos hlow]
    exact ⟨markWrap_ready { h with posY := show nRow - 1 < nRow by decide } hpending, rfl⟩
  · rw [if_neg hlow]
    refine ⟨markWrap_ready { h with posY := ?_ } hpending, rfl⟩
    show con.posY < nRow
    simp only [nRow] at *
    omega

theorem nine_to_thirteen (h : 32 ≤ c) : c ≠ 9 ∧ c ≠ 13 ∧ c ≠ 10 ∧ c ≠ 8 := by
  refine ⟨?_, ?_, ?_, ?_⟩
  all_goals
    rintro rfl
    exact absurd h (by decide)

theorem writeChar_glyph (h : con.scrEnd < nRow) (hc : 32 ≤ c)
    (hcell : (place con).1 * nCol + (place con).2 < screenBufSize) (translate : Bool) :
    Ends (writeChar con c translate) fun con' => ∃ m g, con' = markWrap { con with
        mem := m, pgc := g, posY := (place con).1, posX := (place con).2 + 1, pendingWrap := false } ∧
      (g = con.pgc ∨ 32 ≤ g ∧ (translate = false → g = c)) := by
  obtain ⟨h9, h13, h10, h8⟩ := nine_to_thirteen hc
  rw [writeChar]
  refine (wrapPending_ends h c).bind fun con₁ hcon₁ => ?_
  obtain ⟨m, rfl⟩ := hcon₁
  rw [if_neg h9, if_neg h13, if_neg h10, if_neg h8, if_pos hc, if_pos ⟨h10, h13⟩]
  have hput := @putGlyph_ends { con with
    mem := m, posY := (place con).1, posX := (place con).2, pendingWrap := false } hcell c translate
  refine hput.bind fun con₂ hcon₂ => ?_
  obtain ⟨m', g, rfl, hg⟩ := hcon₂
  exact ends_ok ⟨m', g, rfl, hg⟩

theorem place_row (h : Ready con) (hgood : con.pendingWrap = true → con.posY = nRow - 1 → con.scrEnd = nRow - 1) :
    (place con).1 < nRow := by
  have hposY := h.posY
  have hscrEnd := h.scrEnd
  rw [place]
  by_cases hpending : con.pendingWrap = true
  · rw [if_pos hpending, rowBelow]
    dsimp only
    by_cases hend : con.posY = con.scrEnd
    · rwa [if_pos hend]
    · rw [if_neg hend]
      have hlast := hgood hpending
      simp only [nRow] at *
      omega
  · rwa [if_neg hpending]

theorem place_column (h : Ready con) : (place con).2 ≤ nCol := by
  rw [place]
  split_ifs
  · exact Nat.zero_le _
  · exact h.posX

theorem writeChar_ready (h : Ready con) (hgood : GoodWrite con c) (translate : Bool) :
    Ends (writeChar con c translate) fun con' => Ready con' ∧ con'.state = con.state := by
  have hrow : c ≠ 10 → c ≠ 13 → (place con).1 < nRow := by
    intro h10 h13
    refine place_row h fun hpending => ?_
    rw [GoodWrite, if_pos hpending] at hgood
    exact hgood h10 h13
  by_cases hc : 32 ≤ c
  · obtain ⟨-, h13, h10, -⟩ := nine_to_thirteen hc
    have hcell : (place con).1 * nCol + (place con).2 < screenBufSize := by
      have hy := hrow h10 h13
      have hposX := h.posX
      rw [place] at hy ⊢
      by_cases hpending : con.pendingWrap = true
      · rw [if_pos hpending] at hy ⊢
        simp only [screenBufSize, nRow, nCol] at *
        omega
      · rw [if_neg hpending] at hy ⊢
        rw [GoodWrite, if_neg hpending] at hgood
        have hlast := hgood hc
        simp only [screenBufSize, nRow, nCol] at *
        omega
    refine (writeChar_glyph h.scrEnd hc hcell translate).mono fun con' hcon' => ?_
    obtain ⟨m, g, rfl, hg⟩ := hcon'
    have hpgc : g = 0 ∨ 32 ≤ g := by
      rcases hg with rfl | ⟨hg, -⟩
      · exact h.pgc
      · exact .inr hg
    refine ⟨markWrap_ready { h with posX := Nat.zero_le _, posY := hrow h10 h13, pgc := hpgc } rfl, ?_⟩
    rw [markWrap_state]
  · rw [writeChar]
    refine (wrapPending_ends h.scrEnd c).bind fun con₁ hcon₁ => ?_
    obtain ⟨m, rfl⟩ := hcon₁
    by_cases hline : c ≠ 10 ∧ c ≠ 13
    · have hy := hrow hline.1 hline.2
      have hmoved : ∀ x, Ready (markWrap { con with
          mem := m, posY := (place con).1, posX := x, pendingWrap := false }) := fun x =>
        markWrap_ready { h with posX := Nat.zero_le _, posY := hy } rfl
      rw [if_pos hline, if_neg hline.2, if_neg hline.1, if_neg hc]
      by_cases h9 : c = 9
      · rw [if_pos h9]
        exact ends_ok ⟨hmoved _, markWrap_state _⟩
      · rw [if_neg h9]
        by_cases h8 : c = 8
        · rw [if_pos h8]
          by_cases hzero : (place con).2 = 0
          · rw [if_pos hzero]
            refine ends_ok ⟨?_, rfl⟩
            exact { h with posX := place_column h, posY := hy, due := fun hp => by cases hp }
          · rw [if_neg hzero]
            exact ends_ok ⟨hmoved _, markWrap_state _⟩
        · rw [if_neg h8]
          exact ends_ok ⟨hmoved _, markWrap_state _⟩
    · rw [if_neg hline]
      by_cases h13 : c = 13
      · rw [if_neg (by rw [h13]; decide), if_pos h13]
        exact ends_ok ⟨markWrap_ready { h with posX := Nat.zero_le _ } rfl, markWrap_state _⟩
      · have h10 : c = 10 := by
          by_contra hne
          exact hline ⟨hne, h13⟩
        rw [if_neg (by rw [h10]; decide), if_neg h13, if_pos h10]
        refine Ends.bind (@nextLine_ends { con with mem := m, pendingWrap := false } h.scrEnd) fun con₂ hcon₂ => ?_
        obtain ⟨m', rfl⟩ := hcon₂
        exact ends_ok (lastRow_ready { h with posX := Nat.zero_le _, posY := show 0 < nRow by decide } rfl)

/-- The characters of a repetition stay on the screen, also while it goes on. -/
def RepeatOk (con : Console) (m : ℕ) : Prop :=
  m = 0 ∨ if con.pendingWrap then con.scrEnd < con.posY → con.posY * nCol + nCol + m ≤ screenBufSize
    else GoodRepeat con m

theorem repeatOk_next (h : Ready con) (hok : RepeatOk con (m + 1)) (mem : ℕ → UInt16) (g : UInt8) :
    RepeatOk (markWrap { con with
      mem := mem, pgc := g, posY := (place con).1, posX := (place con).2 + 1, pendingWrap := false }) m := by
  have hscrEnd := h.scrEnd
  have hposX := h.posX
  have hposY := h.posY
  have hok' := hok.resolve_left (by omega)
  by_cases hm : m = 0
  · exact .inl hm
  · right
    by_cases hpending : con.pendingWrap = true
    · simp only [place, rowBelow, if_pos hpending] at hok' ⊢
      rw [markWrap_of_lt (show 0 + 1 < nCol by decide), if_neg Bool.false_ne_true]
      refine .inr ⟨fun _ => show 0 + 1 < nCol by decide, ?_⟩
      show con.scrEnd < (if con.posY = con.scrEnd then con.scrEnd else con.posY + 1) →
        (if con.posY = con.scrEnd then con.scrEnd else con.posY + 1) * nCol + min (0 + 1) (nCol - 1) + m ≤
          screenBufSize
      simp only [screenBufSize, nRow, nCol] at *
      split_ifs <;> omega
    · simp only [place, if_neg hpending] at hok' ⊢
      have hgood := hok'.resolve_left (by omega)
      by_cases hfull : nCol ≤ con.posX + 1
      · rw [markWrap_of_le hfull, if_pos rfl]
        show con.scrEnd < con.posY → con.posY * nCol + nCol + m ≤ screenBufSize
        simp only [screenBufSize, nRow, nCol] at *
        omega
      · rw [markWrap_of_lt (show con.posX + 1 < nCol by omega), if_neg Bool.false_ne_true]
        right
        show (con.posY = nRow - 1 → con.posX + 1 < nCol) ∧
          (con.scrEnd < con.posY → con.posY * nCol + min (con.posX + 1) (nCol - 1) + m ≤ screenBufSize)
        simp only [screenBufSize, nRow, nCol] at *
        omega

theorem repeat_ends (h : Ready con) (hpgc : 32 ≤ con.pgc) (hok : RepeatOk con m) :
    Ends (repeatedly (fun con' => writeChar con' con'.pgc false) m con) Fits := by
  induction m generalizing con with
  | zero => exact ends_ok h.toFits
  | succ m ih =>
    have hscrEnd := h.scrEnd
    have hposX := h.posX
    have hposY := h.posY
    have hok' := hok.resolve_left (by omega)
    have hcell : (place con).1 * nCol + (place con).2 < screenBufSize ∧ (place con).1 < nRow := by
      rw [place, rowBelow]
      by_cases hpending : con.pendingWrap = true
      · rw [if_pos hpending] at hok' ⊢
        dsimp only
        simp only [screenBufSize, nRow, nCol] at *
        split_ifs <;> omega
      · rw [if_neg hpending] at hok' ⊢
        have hgood := hok'.resolve_left (by omega)
        simp only [screenBufSize, nRow, nCol] at *
        omega
    rw [repeatedly]
    refine (writeChar_glyph h.scrEnd hpgc hcell.1 false).bind fun con' hcon' => ?_
    obtain ⟨mem, g, rfl, hg⟩ := hcon'
    have hsame : g = con.pgc := by
      rcases hg with rfl | ⟨-, hg⟩
      · rfl
      · exact hg rfl
    subst hsame
    have hready := @markWrap_ready { con with
      mem := mem, posY := (place con).1, posX := (place con).2 + 1, pendingWrap := false }
      { h with posX := Nat.zero_le _, posY := hcell.2 } rfl
    refine ih hready ?_ ?_
    · rw [markWrap]
      split_ifs <;> exact hpgc
    · exact repeatOk_next h hok mem con.pgc

/-! ## Bytes -/

theorem csiB_ends (h : Ready con) (hidle : con.pendingWrap = false)
    (hgood : con.pgc ≠ 0 → GoodRepeat con (repetitions con)) : Ends (csiB con) Fits := by
  rw [csiB]
  by_cases hpgc : con.pgc = 0
  · rw [if_pos hpgc]
    exact ends_ok h.toFits
  · rw [if_neg hpgc]
    obtain ⟨m, hm, -⟩ := escUint_ends h.toFits 1
    have hrep : repetitions con = m := by rw [repetitions, hm]
    rw [hm]
    refine repeat_ends h (h.pgc.resolve_left hpgc) (.inr ?_)
    rw [hidle, if_neg Bool.false_ne_true, ← hrep]
    exact hgood hpgc

theorem csi_ends (h : Ready con) (hidle : con.pendingWrap = false)
    (hgood : con.state = .csi → c = 98 → con.pgc ≠ 0 → GoodRepeat con (repetitions con))
    (hstate : con.state = .csi ∨ con.state = .csiX ∨ con.state = .csiQ ∨ con.state = .csiI) :
    Ends (csi con c) Fits := by
  have hfits := h.toFits
  rw [csi]
  refine ends_ite (fun _ => ends_ok hfits) fun hX => ?_
  refine ends_ite (fun _ => csiQ_ends hfits c) fun hQ => ?_
  refine ends_ite (fun _ => ends_ok ?_) fun hI => ?_
  · split_ifs
    · exact hfits.consoleSoftReset
    · exact hfits
  have hcsi : con.state = .csi := hstate.elim id fun hs => by
    rcases hs with hs | hs | hs
    · exact absurd hs hX
    · exact absurd hs hQ
    · exact absurd hs hI
  refine ends_ite (fun _ => csiH_ends hfits) fun _ => ?_
  refine ends_ite (fun _ => csiABCD_ends hfits c) fun _ => ?_
  refine ends_ite (fun _ => csiG_ends hfits) fun _ => ?_
  refine ends_ite (fun _ => csiD_ends hfits c) fun _ => ?_
  refine ends_ite (fun _ => ends_ok hfits.csiS) fun _ => ?_
  refine ends_ite (fun _ => ends_ok hfits.csiU) fun _ => ?_
  refine ends_ite (fun _ => csiM_ends hfits) fun _ => ?_
  refine ends_ite (fun _ => csiJ_ends hfits) fun _ => ?_
  refine ends_ite (fun _ => csiK_ends hfits) fun _ => ?_
  refine ends_ite (fun _ => csiLines_ends hfits false) fun _ => ?_
  refine ends_ite (fun _ => csiLines_ends hfits true) fun _ => ?_
  refine ends_ite (fun _ => csiP_ends hfits) fun _ => ?_
  refine ends_ite (fun _ => csiX_ends hfits) fun _ => ?_
  refine ends_ite (fun _ => csiAt_ends hfits) fun _ => ?_
  refine ends_ite (fun _ => csiN_ends hfits) fun _ => ?_
  refine ends_ite (fun _ => csiR_ends hfits) fun _ => ?_
  refine ends_ite (fun hc => csiB_ends h hidle (hgood hcsi hc)) fun _ => ?_
  exact ends_ite (fun _ => csiScrollUp_ends hfits) fun _ => ends_ok hfits

theorem escD_ends (h : Fits con) : Ends (escD con) Fits := by
  have hposY := h.posY
  have hscrEnd := h.scrEnd
  rw [escD]
  refine (nextLine_ends h.scrEnd).bind fun con' hcon' => ?_
  obtain ⟨m, rfl⟩ := hcon'
  refine ends_ok ?_
  by_cases hlast : rowBelow con = nRow
  · rw [if_pos hlast]
    exact { h with posY := show nRow - 1 < nRow by decide }
  · rw [if_neg hlast]
    refine { h with posY := ?_ }
    show rowBelow con < nRow
    rw [rowBelow] at hlast ⊢
    split_ifs at hlast ⊢
    · exact hscrEnd
    · omega

theorem escM_ends (h : Fits con) : Ends (escM con) Fits := by
  have hposY := h.posY
  have hregion := h.region
  have hscrEnd := h.scrEnd
  rw [escM]
  dsimp only
  by_cases htop : u32 (con.posY - 1) = u32 (con.scrStart - 1)
  · rw [if_pos htop]
    refine (scroll_onlyCells hscrEnd false).fits { h with posY := ?_ }
    show con.scrStart < nRow
    omega
  · rw [if_neg htop]
    refine ends_ok ?_
    by_cases hzero : con.posY = 0
    · rw [if_pos (by rw [hzero]; rfl)]
      exact { h with posY := show 0 < nRow by decide }
    · have hpred : u32 (con.posY - 1) = con.posY - 1 := by
        simp only [nRow] at hposY
        rw [u32_of_lt (by omega) (by omega)]
        omega
      rw [hpred, if_neg]
      · refine { h with posY := ?_ }
        show con.posY - 1 < nRow
        omega
      · have hmax : u32 (-1) = 4294967295 := by decide
        rw [hmax]
        simp only [nRow] at hposY
        omega

theorem Fits.resetEscBuf (h : Fits con) : Fits (resetEscBuf con) where
  toOk := { h with }
  orig := h.orig
  length := List.length_replicate
  room := Nat.zero_le _
  zeros i _ b hb := by
    rw [ConsoleDriver.resetEscBuf, List.getElem?_replicate] at hb
    split_ifs at hb
    exact (Option.some.inj hb).symm

theorem consoleReset_ends (h : Fits con) : Ends (consoleReset con) Fits := by
  have hsoft : Fits { consoleSoftReset con with posX := 0, posY := 0 } :=
    { h.consoleSoftReset with posX := Nat.zero_le _, posY := show 0 < nRow by decide }
  rw [consoleReset]
  refine Ends.bind ((memsetw_onlyCells _ (.inr (by decide))).fits hsoft) fun con' h' => ?_
  exact ends_ok { h'.resetEscBuf with }

theorem resetScreen_ends (h : Fits con) : Ends (resetScreen con) Fits := by
  rw [resetScreen]
  exact Ends.bind ((eraseScreen_onlyCells (Nat.zero_le _) (by decide)).fits h) fun con' h' => consoleReset_ends h'

theorem escape_ends (h : Fits con) (c : UInt8) : Ends (escape con c) Fits := by
  have hreset : Fits (if c = 41 then { con with state := .charsetG1 } else con) := by
    by_cases hc : c = 41
    · rw [if_pos hc]
      exact { h with }
    · rwa [if_neg hc]
  rw [escape]
  refine ends_ite (fun _ => ends_ok h) fun _ => ?_
  refine ends_ite (fun _ => ends_ok { h.resetEscBuf with }) fun _ => ?_
  refine ends_ite (fun _ => ends_ok { h.resetEscBuf with }) fun _ => ?_
  refine ends_ite (fun _ => ends_ok { h.resetEscBuf with }) fun _ => ?_
  refine ends_ite (fun _ => ends_ok { h with }) fun _ => ?_
  refine ends_ite (fun _ => (resetScreen_ends hreset).bind fun con' h' => ends_ok { h' with }) fun _ => ?_
  refine ends_ite (fun _ => ends_ok { h with }) fun _ => ?_
  refine ends_ite (fun _ => ends_ok { h with }) fun _ => ?_
  refine ends_ite (fun _ => ends_ok { h.csiS with }) fun _ => ?_
  refine ends_ite (fun _ => ends_ok { h.csiU with }) fun _ => ?_
  refine ends_ite (fun _ => (escD_ends h).bind fun con' h' => ends_ok { h' with }) fun _ => ?_
  refine ends_ite (fun _ => (escM_ends h).bind fun con' h' => ends_ok { h' with }) fun _ => ?_
  exact ends_ok { h with }

theorem intoEscBuf_ends (h : Fits con) (c : UInt8) : Ends (intoEscBuf con c) fun r => Fits r.2 := by
  have hlength := h.length
  have hroom := h.room
  rw [intoEscBuf]
  by_cases hfull : escBufSize - 4 ≤ con.escBufP
  · rw [if_pos hfull]
    exact ends_ok h
  · rw [if_neg hfull, if_pos (by simp only [escBufSize] at *; omega)]
    refine ends_ok { h with length := ?_, room := ?_, zeros := ?_ }
    · exact List.length_set.trans hlength
    · show con.escBufP + 1 ≤ escBufSize - 4
      omega
    · intro i hi b hb
      have hlt : con.escBufP + 1 ≤ i := hi
      rw [List.getElem?_set_ne (by omega)] at hb
      exact h.zeros i (by omega) b hb

theorem control_ends (h : Ready con) (hidle : con.pendingWrap = false)
    (hgood : con.state = .csi → c = 98 → con.pgc ≠ 0 → GoodRepeat con (repetitions con))
    (hstate : con.state = .csi ∨ con.state = .csiX ∨ con.state = .csiQ ∨ con.state = .csiI) :
    Ends (control con c) Fits := by
  have hfits := h.toFits
  rw [control]
  refine ends_ite (fun _ => ends_ok { hfits with }) fun _ => ?_
  refine ends_ite (fun _ => ends_ok { hfits with }) fun _ => ?_
  refine ends_ite (fun _ => ends_ok { hfits with }) fun _ => ?_
  refine ends_ite (fun _ => (csi_ends h hidle hgood hstate).bind fun con' h' => ends_ok { h' with }) fun _ => ?_
  refine (intoEscBuf_ends hfits c).bind fun r hr => ?_
  obtain ⟨noRoom, con'⟩ := r
  refine ends_ok ?_
  cases noRoom
  · exact hr
  · exact { hr with }

/-- The invariant: a wrap is due only while characters are written. -/
structure Inv (con : Console) : Prop extends Ready con where
  idle : con.pendingWrap = true → con.state = .normal

theorem sequence_ends (h : Inv con) (hgood : GoodByte con c) : Ends (sequence con c) Fits := by
  have hfits := h.toFits
  have hcontrol : con.state = .csi ∨ con.state = .csiX ∨ con.state = .csiQ ∨ con.state = .csiI →
      Ends (control con c) Fits := by
    intro hstate
    have hnot : con.state ≠ .normal := by
      intro hnormal
      rw [hnormal] at hstate
      simp at hstate
    have hidle : con.pendingWrap = false := by
      rw [← Bool.not_eq_true]
      exact fun hp => hnot (h.idle hp)
    rw [GoodByte, if_neg hnot] at hgood
    exact control_ends h.toReady hidle hgood hstate
  rw [sequence]
  cases hstate : con.state with
  | normal => exact ends_ok { hfits with }
  | esc => exact escape_ends hfits c
  | charsetG0 => exact ends_ok { hfits with }
  | charsetG1 => exact ends_ok { hfits with }
  | csi => exact hcontrol (.inl hstate)
  | csiX => exact hcontrol (.inr (.inl hstate))
  | csiQ => exact hcontrol (.inr (.inr (.inl hstate)))
  | csiI => exact hcontrol (.inr (.inr (.inr hstate)))
  | csiBad =>
    refine ends_ok ?_
    split_ifs
    all_goals exact { hfits with }
  | osc =>
    refine ends_ok ?_
    split_ifs
    all_goals exact { hfits with }
  | oscSt => exact ends_ok { hfits with }
  | dcs =>
    refine ends_ok ?_
    split_ifs
    all_goals exact { hfits with }
  | dcsSt => exact ends_ok { hfits with }

theorem consoleWriteChar_ends (h : Inv con) (hgood : GoodByte con c) : Ends (consoleWriteChar con c) Inv := by
  rw [consoleWriteChar]
  by_cases hzero : c = 0
  · rw [if_pos hzero]
    exact ends_ok h
  · rw [if_neg hzero]
    by_cases hc : con.state = .normal ∧ c ≠ 27
    · rw [if_pos hc]
      rw [GoodByte, if_pos hc.1] at hgood
      have hwrite := (hgood.resolve_left hzero).resolve_left hc.2
      refine (writeChar_ready h.toReady hwrite true).mono fun con' hcon' => ?_
      exact { hcon'.1 with idle := fun _ => hcon'.2.trans hc.1 }
    · rw [if_neg hc]
      refine (sequence_ends h hgood).bind fun con' h' => ?_
      exact ends_ok { h' with due := fun hp => (Bool.false_ne_true hp).elim, idle := fun hp => (Bool.false_ne_true hp).elim }

theorem Screen.ok_of_zero {s : Screen} (hx : s.posX ≤ nCol) (hy : s.posY < nRow) (hsave : s.saveX = 0 ∧ s.saveY = 0)
    (hstart : s.scrStart = 0) (hend : s.scrEnd < nRow) (hpgc : s.pgc = 0) : s.Ok where
  posX := hx
  posY := hy
  saveX := hsave.1.trans_le (Nat.zero_le _)
  saveY := hsave.2.trans_lt (by decide)
  region := hstart.trans_le (Nat.zero_le _)
  scrEnd := hend
  pgc := .inl hpgc

theorem Initial.inv (h : Initial con) : Inv con where
  toOk := Screen.ok_of_zero (Nat.le_of_lt h.posX) h.posY h.saved h.region.1 (h.region.2.trans_lt (by decide)) h.pgc
  orig := by
    obtain ⟨hx, hy, hsx, hsy, hstart, hend, hpgc⟩ := h.orig
    exact Screen.ok_of_zero (hx.trans_le (Nat.zero_le _)) (hy.trans_lt (by decide)) ⟨hsx, hsy⟩ hstart
      (hend.trans_lt (by decide)) hpgc
  length := by
    rw [h.escBuf.1]
    exact List.length_replicate
  room := h.escBuf.2.trans_le (Nat.zero_le _)
  zeros i _ b hb := by
    rw [h.escBuf.1, List.getElem?_replicate] at hb
    split_ifs at hb
    exact (Option.some.inj hb).symm
  due hp := by
    rw [h.state.2] at hp
    cases hp
  idle hp := by
    rw [h.state.2] at hp
    cases hp

/-- Bytes that do not write a character behind the last cell are written without a fault. -/
theorem console_output_safe {con : Console} {bytes : List UInt8} {r : Except Fault Console}
    (hinit : Initial con) (hrun : Run (Guarded Good Step) (.ok con) bytes r) : ∃ con', r = .ok con' := by
  have hinv := hrun.invariant (P := fun r => Ends r Inv) (ends_ok hinit.inv) fun {u v c} hu hstep => by
    obtain ⟨con', rfl, h⟩ := hu
    obtain ⟨hgood, rfl⟩ := hstep
    exact consoleWriteChar_ends h hgood
  obtain ⟨con', hr, -⟩ := hinv
  exact ⟨con', hr⟩

/-- A console that was reset. -/
def resetConsole : Console where
  mem _ := 0
  posX := 0
  posY := 0
  saveX := 0
  saveY := 0
  scrStart := 0
  scrEnd := nRow - 1
  charsetG0 := 66
  charsetG1 := 66
  pgc := 0
  fgColor := lightGray
  bgColor := black
  cursorHidden := false
  colorInverted := false
  bold := false
  cursorApp := false
  keypadApp := false
  escBuf := List.replicate escBufSize 0
  escBufP := 0
  state := .normal
  pendingWrap := false
  orig := { mem := fun _ => 0, posX := 0, posY := 0, saveX := 0, saveY := 0, scrStart := 0, scrEnd := 0,
            charsetG0 := 0, charsetG1 := 0, pgc := 0, fgColor := 0, bgColor := 0, cursorHidden := false,
            colorInverted := false, bold := false }

theorem resetConsole_initial : Initial resetConsole where
  posX := by decide
  posY := by decide
  saved := ⟨rfl, rfl⟩
  region := ⟨rfl, rfl⟩
  pgc := rfl
  escBuf := ⟨rfl, rfl⟩
  state := ⟨rfl, rfl⟩
  orig := ⟨rfl, rfl, rfl, rfl, rfl, rfl, rfl⟩

/-- What some bytes do. -/
def after (bytes : List UInt8) : Except Fault Console := bytes.foldl next (.ok resetConsole)

/-- The last cell, then two characters. -/
def corner : List UInt8 := [27, 91, 50, 53, 59, 56, 48, 72, 120, 120]

theorem corner_run : Run (Guarded Good Step) (.ok resetConsole) corner (after corner) := by
  refine Run.cons ⟨by decide +kernel, rfl⟩ ?_
  refine Run.cons ⟨by decide +kernel, rfl⟩ ?_
  refine Run.cons ⟨by decide +kernel, rfl⟩ ?_
  refine Run.cons ⟨by decide +kernel, rfl⟩ ?_
  refine Run.cons ⟨by decide +kernel, rfl⟩ ?_
  refine Run.cons ⟨by decide +kernel, rfl⟩ ?_
  refine Run.cons ⟨by decide +kernel, rfl⟩ ?_
  refine Run.cons ⟨by decide +kernel, rfl⟩ ?_
  refine Run.cons ⟨by decide +kernel, rfl⟩ ?_
  exact Run.cons ⟨by decide +kernel, rfl⟩ (Run.nil _)

theorem console_output_safe_corner : ∃ con, after corner = .ok con :=
  console_output_safe resetConsole_initial corner_run

/-- The same with an escape sequence between the two characters. -/
def forgotten : List UInt8 := [27, 91, 50, 53, 59, 56, 48, 72, 120, 27, 61, 120]

theorem forgotten_run : Run Step (.ok resetConsole) forgotten (after forgotten) := by
  have hrun : ∀ (bytes : List UInt8) r, Run Step r bytes (bytes.foldl next r) := by
    intro bytes
    induction bytes with
    | nil => exact fun r => Run.nil r
    | cons c bytes ih => exact fun r => Run.cons rfl (ih _)
  exact hrun forgotten _

/-- The second character goes to the cell behind the last one. -/
theorem console_output_unsafe : ¬ ∀ con bytes r, Initial con → Run Step (.ok con) bytes r → ∃ con', r = .ok con' := by
  intro h
  obtain ⟨con', hr⟩ := h _ forgotten _ resetConsole_initial forgotten_run
  have hfault : (after forgotten).toBool = false := by decide +kernel
  rw [hr] at hfault
  cases hfault

end Mario.Fs.ConsoleDriver
