import Mario.Lib.Runs
import Mathlib.Algebra.Group.Int.Defs
import Mathlib.Algebra.Group.Nat.Defs
import Mathlib.Order.Lattice
import Mathlib.Tactic.Common

/-!
# The console driver

What `console_write_char` does to the screen and to the state of the escape sequences. An access outside
of the screen or of the buffer of an escape sequence is a fault. The video memory gets the same accesses
as the array of the console. What the driver tells the terminal with `tty_receive_s` is left out.
-/

namespace Mario.Fs.ConsoleDriver

/-- What must not happen. -/
inductive Fault
  | cell
  | escBuf
  | assertion
  deriving DecidableEq

def nCol : ℕ := 80
def nRow : ℕ := 25
def escBufSize : ℕ := 64

def screenBufSize : ℕ := nRow * nCol

inductive EscState
  | normal
  | esc
  | csi
  | csiQ
  | csiX
  | csiI
  | charsetG0
  | charsetG1
  | csiBad
  | osc
  | oscSt
  | dcs
  | dcsSt
  deriving DecidableEq

/-- The fields that a console has twice, for the alternate screen. The rows of the screen are one after
the other. -/
structure Screen where
  mem : ℕ → UInt16
  posX : ℕ
  posY : ℕ
  saveX : ℕ
  saveY : ℕ
  scrStart : ℕ
  scrEnd : ℕ
  charsetG0 : UInt8
  charsetG1 : UInt8
  pgc : UInt8
  fgColor : UInt8
  bgColor : UInt8
  cursorHidden : Bool
  colorInverted : Bool
  bold : Bool

structure Console extends Screen where
  cursorApp : Bool
  keypadApp : Bool
  escBuf : List UInt8
  escBufP : ℕ
  state : EscState
  pendingWrap : Bool
  orig : Screen

/-- A number of 32 bits. -/
def u32 (n : ℤ) : ℕ := (n % 2 ^ 32).toNat

/-! ## The screen -/

/-- Cells are set. -/
def memsetw (con : Console) (start : ℕ) (c : UInt16) (n : ℕ) : Except Fault Console :=
  if n = 0 ∨ start + n ≤ screenBufSize then
    .ok { con with mem := fun i => if start ≤ i ∧ i < start + n then c else con.mem i }
  else .error .cell

/-- Cells are copied, from before the call. -/
def memmove (con : Console) (dst src n : ℕ) : Except Fault Console :=
  if n = 0 ∨ dst + n ≤ screenBufSize ∧ src + n ≤ screenBufSize then
    .ok { con with mem := fun i => if dst ≤ i ∧ i < dst + n then con.mem (i - dst + src) else con.mem i }
  else .error .cell

/-- The table of `translate_dec_to_cp437`. -/
def decTable : List (UInt8 × UInt8) :=
  [(113, 0xC4), (120, 0xB3), (108, 0xDA), (107, 0xBF), (109, 0xC0), (106, 0xD9), (116, 0xC3), (117, 0xB4),
    (118, 0xC1), (119, 0xC2), (110, 0xC5), (97, 0xB1), (96, 0x04), (102, 0xF8), (103, 0xF1), (104, 0x23),
    (105, 0x07), (111, 0x2D), (112, 0x2D), (114, 0x5F), (115, 0x5F), (121, 0x3C), (122, 0x3E), (123, 0xE3),
    (124, 0xF0), (125, 0x9C), (126, 0xFA)]

def translateDecToCp437 (c : UInt8) : UInt8 := (decTable.lookup c).getD c

def black : UInt8 := 0
def lightGray : UInt8 := 7

def makec (con : Console) (c : UInt8) : UInt16 :=
  let bg := if con.colorInverted then con.fgColor else con.bgColor
  let fg := if con.colorInverted then con.bgColor else con.fgColor
  let fg := if con.bold ∧ fg < 8 then fg + 8 else fg
  ((bg.toUInt16 <<< 4 ||| fg.toUInt16) <<< 8) ||| c.toUInt16

def blank (con : Console) : UInt16 := makec con 32

def setPos (con : Console) (y x : ℤ) : Console :=
  { con with
    posY := (min (max y 0) (nRow - 1)).toNat
    posX := (min (max x 0) (nCol - 1)).toNat }

def eraseScreen (con : Console) (rowStart rowEnd : ℕ) : Except Fault Console :=
  memsetw con (nCol * rowStart) (blank con) (u32 (nCol * (rowEnd + 1 - rowStart : ℤ)))

def clearScreen (con : Console) : Except Fault Console := eraseScreen con 0 (nRow - 1)

/-- `__erase_line`; the loop goes through the cells of the range. -/
def eraseRange (con : Console) (start stop : ℤ) : Except Fault Console :=
  if stop < start ∨ (nCol - 1 : ℤ) < start ∨ stop < 0 then .ok con
  else
    let start := max start 0
    let stop := min stop (nCol - 1)
    memsetw con (con.posY * nCol + start.toNat) (blank con) (stop + 1 - start).toNat

def eraseLine (con : Console) : Except Fault Console := eraseRange con 0 (nCol - 1)

def eraseLineLeft (con : Console) : Except Fault Console := eraseRange con 0 con.posX

def eraseLineRight (con : Console) : Except Fault Console := eraseRange con con.posX (nCol - 1)

def inScrollingRegion (con : Console) (x : ℕ) : Bool := con.scrStart ≤ x ∧ x ≤ con.scrEnd

def scroll (con : Console) (start stop : ℕ) (up : Bool) : Except Fault Console :=
  if stop < start ∨ !inScrollingRegion con start ∨ !inScrollingRegion con stop then .ok con
  else
    let src := if up then start + 1 else start
    let dst := if up then start else start + 1
    (if start < stop then memmove con (dst * nCol) (src * nCol) ((stop - start) * nCol) else .ok con) >>=
      fun con => memsetw con ((if up then stop else start) * nCol) (blank con) nCol

def deleteOneChar (con : Console) (y x : ℕ) : Except Fault Console :=
  if nCol ≤ x then .ok con
  else
    let start := y * nCol + x
    let stop := y * nCol + (nCol - 1)
    (if start < stop then memmove con start (start + 1) (stop - start) else .ok con) >>=
      fun con => memsetw con stop (blank con) 1

def insertOneChar (con : Console) (y x : ℕ) : Except Fault Console :=
  if nCol ≤ x then .ok con
  else
    let start := y * nCol + x
    let stop := y * nCol + (nCol - 1)
    (if start < stop then memmove con (start + 1) start (stop - start) else .ok con) >>=
      fun con => memsetw con start (blank con) 1

def canRep (c : UInt8) : Bool := 0x20 ≤ c ∧ c ≤ 0x7E ∨ 0x80 ≤ c ∧ c ≤ 0xFE

/-- The next line, where the region scrolls at its end. -/
def nextLine (con : Console) : Except Fault Console :=
  let con := { con with posY := con.posY + 1 }
  if con.posY = con.scrEnd + 1 then scroll { con with posY := con.scrEnd } con.scrStart con.scrEnd true
  else .ok con

/-- The part of `write_char` for a wrap that is due. -/
def wrapPending (con : Console) (c : UInt8) : Except Fault Console :=
  if con.pendingWrap then
    (if c ≠ 10 ∧ c ≠ 13 then nextLine { con with posX := 0 } else .ok con) >>=
      fun con => .ok { con with pendingWrap := false }
  else .ok con

/-- A character goes to the cell of the cursor. -/
def putGlyph (con : Console) (c : UInt8) (translate : Bool) : Except Fault Console := do
  let x := if translate ∧ con.charsetG0 = 48 then translateDecToCp437 c else c
  let con := if canRep x then { con with pgc := x } else con
  let con ← memsetw con (con.posY * nCol + con.posX) (makec con x) 1
  .ok { con with posX := con.posX + 1 }

/-- The end of `write_char`. -/
def markWrap (con : Console) : Console :=
  if nCol ≤ con.posX then { con with pendingWrap := true, posX := nCol } else con

def writeChar (con : Console) (c : UInt8) (translate : Bool) : Except Fault Console := do
  let con ← wrapPending con c
  if c = 9 then .ok (markWrap { con with posX := (con.posX + 8) / 8 * 8 })
  else if c = 13 then .ok (markWrap { con with posX := 0 })
  else if c = 10 then do
    let con ← nextLine con
    .ok (markWrap (if nRow - 1 < con.posY then { con with posY := nRow - 1 } else con))
  else if c = 8 then
    if con.posX = 0 then .ok con else .ok (markWrap { con with posX := con.posX - 1 })
  else if 32 ≤ c then do
    let con ← putGlyph con c translate
    .ok (markWrap con)
  else .ok (markWrap con)

/-! ## Arguments of escape sequences -/

/-- `(unsigned int)-1`. -/
def noNumber : ℕ := 2 ^ 32 - 1

def simpleAtou (s : List UInt8) : ℕ :=
  if s.length < 1 ∨ 6 < s.length then noNumber
  else if s.all fun c => 48 ≤ c ∧ c ≤ 57 then s.foldl (fun res c => res * 10 + (c.toNat - 48)) 0
  else noNumber

/-- `into_esc_buf` says whether there was no room. -/
def intoEscBuf (con : Console) (c : UInt8) : Except Fault (Bool × Console) :=
  if escBufSize - 4 ≤ con.escBufP then .ok (true, con)
  else if con.escBufP < con.escBuf.length then
    .ok (false, { con with escBuf := con.escBuf.set con.escBufP c, escBufP := con.escBufP + 1 })
  else .error .escBuf

def resetEscBuf (con : Console) : Console :=
  { con with escBuf := List.replicate escBufSize 0, escBufP := 0 }

/-- The loop of `get_esc_arg` over the rest of the buffer: the digits and what follows their end. Nobody
reads again the semicolon that becomes a zero. -/
def scanArg : List UInt8 → Except Fault (Option (List UInt8 × List UInt8))
  | [] => .error .escBuf
  | c :: rest =>
      if c = 0 ∨ c = 59 then
        let c := if c = 59 then 0 else c
        if c = 0 then .ok (some ([], rest)) else .error .assertion
      else if 48 ≤ c ∧ c ≤ 57 then do
        let r ← scanArg rest
        .ok (r.map fun p => (c :: p.1, p.2))
      else .ok none

/-- `get_esc_arg`, with the rest of the buffer. -/
def getEscArg (s : List UInt8) : Except Fault (Option (List UInt8 × List UInt8)) := do
  let r ← scanArg s
  .ok (r.filter fun p => p.1 ≠ [])

/-- The arguments that a loop over `get_esc_arg` gets. The fuel is the length of the buffer, and every
argument takes two bytes of it. -/
def escArgs : ℕ → List UInt8 → Except Fault (List (List UInt8))
  | 0, _ => .ok []
  | fuel + 1, s => do
      match ← getEscArg s with
      | none => .ok []
      | some (arg, s) =>
          let args ← escArgs fuel s
          .ok (arg :: args)

def getEscUint1 (s : List UInt8) : Except Fault (Option (ℕ × List UInt8)) := do
  match ← getEscArg s with
  | none => .ok none
  | some (arg, s) => .ok (if simpleAtou arg = noNumber then none else some (simpleAtou arg, s))

def getEscUint2 (s : List UInt8) : Except Fault (Option (ℕ × ℕ)) := do
  match ← getEscUint1 s with
  | none => .ok none
  | some (a, s) =>
      match ← getEscUint1 s with
      | none => .ok none
      | some (b, _) => .ok (some (a, b))

/-- The first number of a sequence, or a default. -/
def escUint (con : Console) (default : ℕ) : Except Fault ℕ := do
  let r ← getEscUint1 con.escBuf
  .ok ((r.map Prod.fst).getD default)

/-- Something is done a number of times. -/
def repeatedly (f : Console → Except Fault Console) : ℕ → Console → Except Fault Console
  | 0, con => .ok con
  | n + 1, con => do
      let con ← f con
      repeatedly f n con

/-! ## Control sequences -/

/-- Set cursor position. -/
def csiH (con : Console) : Except Fault Console := do
  let r ← getEscUint2 con.escBuf
  let (y, x) := r.getD (1, 1)
  .ok (setPos con (y - 1) (x - 1))

/-- Arrow keys. -/
def csiABCD (con : Console) (c : UInt8) : Except Fault Console := do
  let count ← escUint con 1
  if c = 65 then
    let y := u32 (con.posY - count)
    .ok { con with posY := if nRow - 1 < y then 0 else y }
  else if c = 66 then
    let y := u32 (con.posY + count)
    .ok { con with posY := if nRow - 1 < y then nRow - 1 else y }
  else if c = 67 then
    let x := u32 (con.posX + count)
    .ok { con with posX := if nCol - 1 < x then nCol - 1 else x }
  else if c = 68 then
    let x := u32 (con.posX - count)
    .ok { con with posX := if nCol - 1 < x then 0 else x }
  else .ok con

def csiG (con : Console) : Except Fault Console := do
  let count ← escUint con 1
  .ok (setPos con con.posY (count - 1))

def csiD (con : Console) (c : UInt8) : Except Fault Console := do
  let n ← escUint con 1
  let n := if c = 101 then con.posY + n else n
  .ok (setPos con (n - 1) con.posX)

/-- Save cursor position. -/
def csiS (con : Console) : Console := { con with saveX := con.posX, saveY := con.posY }

/-- Restore cursor position. -/
def csiU (con : Console) : Console := { con with posX := con.saveX, posY := con.saveY }

/-- The colours of 30 to 37 and of 40 to 47. -/
def colors : List UInt8 := [0, 4, 2, 14, 1, 5, 3, 15]

def doCsiM (con : Console) (action : ℕ) : Console :=
  if action = 0 then
    { con with fgColor := lightGray, bgColor := black, bold := false, colorInverted := false }
  else if action = 1 then { con with bold := true }
  else if action = 7 then { con with colorInverted := true }
  else if action = 27 then { con with colorInverted := false }
  else if 30 ≤ action ∧ action ≤ 37 then { con with fgColor := colors.getD (action - 30) 0 }
  else if action = 39 then { con with fgColor := lightGray }
  else if 40 ≤ action ∧ action ≤ 47 then { con with bgColor := colors.getD (action - 40) 0 }
  else if action = 49 then { con with bgColor := black }
  else con

/-- Select graphic rendition. -/
def csiM (con : Console) : Except Fault Console := do
  let args ← escArgs con.escBuf.length con.escBuf
  .ok (if args = [] then doCsiM con 0 else args.foldl (fun con arg => doCsiM con (simpleAtou arg)) con)

/-- Erase in display. -/
def csiJ (con : Console) : Except Fault Console := do
  let m ← escUint con 0
  if m = 0 then eraseScreen con con.posY (nRow - 1)
  else if m = 1 then eraseScreen con 0 con.posY
  else if m = 2 then do
    let con ← clearScreen con
    .ok { con with pgc := 0 }
  else .ok con

/-- Erase in line. -/
def csiK (con : Console) : Except Fault Console := do
  let m ← escUint con 0
  if m = 0 then eraseLineRight con
  else if m = 1 then eraseLineLeft con
  else if m = 2 then eraseLine con
  else .ok con

/-- Insert lines, or delete lines. -/
def csiLines (con : Console) (up : Bool) : Except Fault Console :=
  if inScrollingRegion con con.posY then do
    let m ← escUint con 1
    let con ← repeatedly (fun con => scroll con con.posY con.scrEnd up) m con
    .ok (setPos con con.posY 0)
  else .ok con

def csiL (con : Console) : Except Fault Console := csiLines con false

/-- `csi_M`. -/
def csiDeleteLines (con : Console) : Except Fault Console := csiLines con true

/-- Delete characters. -/
def csiP (con : Console) : Except Fault Console := do
  let m ← escUint con 1
  repeatedly (fun con => deleteOneChar con con.posY con.posX) m con

/-- Erase characters. -/
def csiX (con : Console) : Except Fault Console := do
  let m ← escUint con 1
  eraseRange con con.posX (con.posX + m - 1 : ℤ)

/-- Insert characters. -/
def csiAt (con : Console) : Except Fault Console := do
  let m ← escUint con 1
  repeatedly (fun con => insertOneChar con con.posY con.posX) m con

/-- `csi_n`, `csi_l` and `csi_h` read a number and leave the console as it is. -/
def csiN (con : Console) : Except Fault Console := do
  let _ ← escUint con 0
  .ok con

def consoleSoftReset (con : Console) : Console :=
  { con with
    bgColor := black, fgColor := lightGray, saveX := 0, saveY := 0, scrStart := 0, scrEnd := nRow - 1
    cursorHidden := false, colorInverted := false, bold := false, pendingWrap := false, pgc := 0
    charsetG0 := 66, charsetG1 := 66 }

def useAltScreenBuffer (con : Console) : Except Fault Console := do
  let con := consoleSoftReset { con with orig := con.toScreen }
  let con ← memsetw con 0 (blank con) screenBufSize
  .ok { con with posX := 0, posY := 0 }

def useNormalScreenBuffer (con : Console) : Console := { con with toScreen := con.orig }

/-- An argument of `csi_q`. -/
def csiQAction (set : Bool) (con : Console) (action : ℕ) : Except Fault Console :=
  if action = 1 then .ok { con with cursorApp := set }
  else if action = 25 then .ok { con with cursorHidden := !set }
  else if action = 1049 then
    if set then useAltScreenBuffer con else .ok (useNormalScreenBuffer { con with pgc := 0 })
  else .ok con

/-- Some arguments, one after the other. -/
def csiQActions (set : Bool) : List (List UInt8) → Console → Except Fault Console
  | [], con => .ok con
  | arg :: args, con => do
      let con ← csiQAction set con (simpleAtou arg)
      csiQActions set args con

def csiQ (con : Console) (c : UInt8) : Except Fault Console :=
  if c = 108 ∨ c = 104 then do
    let args ← escArgs con.escBuf.length con.escBuf
    csiQActions (c = 104) args con
  else .ok con

/-- Set scrolling region. -/
def csiR (con : Console) : Except Fault Console := do
  let r ← getEscUint2 con.escBuf
  let (start, stop) := r.getD (1, nRow)
  .ok (if 1 ≤ start ∧ start ≤ stop ∧ stop ≤ nRow then
      { con with scrStart := start - 1, scrEnd := stop - 1 }
    else con)

/-- Repeat the preceding graphic character. -/
def csiB (con : Console) : Except Fault Console :=
  if con.pgc = 0 then .ok con
  else do
    let m ← escUint con 1
    repeatedly (fun con' => writeChar con' con'.pgc false) m con

/-- Scroll up. -/
def csiScrollUp (con : Console) : Except Fault Console :=
  if inScrollingRegion con con.posY then do
    let m ← escUint con 1
    repeatedly (fun con => scroll con con.scrStart con.scrEnd true) m con
  else .ok con

def csi (con : Console) (c : UInt8) : Except Fault Console :=
  if con.state = .csiX then .ok con
  else if con.state = .csiQ then csiQ con c
  else if con.state = .csiI then .ok (if c = 112 then consoleSoftReset con else con)
  else if c = 72 ∨ c = 102 then csiH con
  else if 65 ≤ c ∧ c ≤ 70 then csiABCD con c
  else if c = 71 then csiG con
  else if c = 100 ∨ c = 101 then csiD con c
  else if c = 115 then .ok (csiS con)
  else if c = 117 then .ok (csiU con)
  else if c = 109 then csiM con
  else if c = 74 then csiJ con
  else if c = 75 then csiK con
  else if c = 76 then csiL con
  else if c = 77 then csiDeleteLines con
  else if c = 80 then csiP con
  else if c = 88 then csiX con
  else if c = 64 then csiAt con
  else if c = 110 ∨ c = 108 ∨ c = 104 then csiN con
  else if c = 114 then csiR con
  else if c = 98 then csiB con
  else if c = 83 then csiScrollUp con
  else .ok con

/-- Index. -/
def escD (con : Console) : Except Fault Console := do
  let con ← nextLine con
  .ok (if con.posY = nRow then { con with posY := nRow - 1 } else con)

/-- Reverse index. -/
def escM (con : Console) : Except Fault Console :=
  let con := { con with posY := u32 (con.posY - 1) }
  if con.posY = u32 (con.scrStart - 1) then
    scroll { con with posY := con.scrStart } con.scrStart con.scrEnd false
  else .ok (if con.posY = u32 (-1) then { con with posY := 0 } else con)

def consoleReset (con : Console) : Except Fault Console := do
  let con := { consoleSoftReset con with posX := 0, posY := 0 }
  let con ← memsetw con 0 (blank con) screenBufSize
  .ok { resetEscBuf con with cursorApp := false, keypadApp := false, state := .normal }

def resetScreen (con : Console) : Except Fault Console := do
  let con ← clearScreen con
  consoleReset con

def isalpha (c : UInt8) : Bool := 97 ≤ c ∧ c ≤ 122 ∨ 65 ≤ c ∧ c ≤ 90

/-- A character behind an escape. -/
def escape (con : Console) (c : UInt8) : Except Fault Console :=
  if c = 27 then .ok con
  else if c = 91 then .ok { resetEscBuf con with state := .csi }
  else if c = 93 then .ok { resetEscBuf con with state := .osc }
  else if c = 80 then .ok { resetEscBuf con with state := .dcs }
  else if c = 40 then .ok { con with state := .charsetG0 }
  -- the case of the closing bracket goes on into that of the reset
  else if c = 41 ∨ c = 99 then do
    let con ← resetScreen (if c = 41 then { con with state := .charsetG1 } else con)
    .ok { con with state := .normal }
  else if c = 61 then .ok { con with keypadApp := true, state := .normal }
  else if c = 62 then .ok { con with keypadApp := false, state := .normal }
  else if c = 55 then .ok { csiS con with state := .normal }
  else if c = 56 then .ok { csiU con with state := .normal }
  else if c = 68 then do
    let con ← escD con
    .ok { con with state := .normal }
  else if c = 77 then do
    let con ← escM con
    .ok { con with state := .normal }
  else .ok { con with state := .normal }

/-- A character in a control sequence. -/
def control (con : Console) (c : UInt8) : Except Fault Console :=
  if con.state = .csi ∧ c = 63 then .ok { con with state := .csiQ }
  else if con.state = .csi ∧ c = 62 then .ok { con with state := .csiX }
  else if con.state = .csi ∧ c = 33 then .ok { con with state := .csiI }
  else if isalpha c ∨ c = 64 then do
    let con ← csi con c
    .ok { con with state := .normal }
  else do
    let (noRoom, con) ← intoEscBuf con c
    .ok (if noRoom then { con with state := .csiBad } else con)

/-- A character set is named. -/
def isCharset (c : UInt8) : Bool := c = 48 ∨ c = 65 ∨ c = 66

/-- The switch of `console_write_char`, without the state in which characters are written. -/
def sequence (con : Console) (c : UInt8) : Except Fault Console :=
  match con.state with
  | .normal => .ok { con with state := .esc }
  | .esc => escape con c
  | .charsetG0 => .ok { con with charsetG0 := if isCharset c then c else con.charsetG0, state := .normal }
  | .charsetG1 => .ok { con with charsetG1 := if isCharset c then c else con.charsetG1, state := .normal }
  | .csi | .csiI | .csiQ | .csiX => control con c
  | .csiBad => .ok (if isalpha c then { con with state := .normal }
      else if c = 27 then { con with state := .esc } else con)
  | .osc => .ok (if c = 7 then { con with state := .normal }
      else if c = 27 then { con with state := .oscSt } else con)
  | .oscSt => .ok { con with state := .normal }
  | .dcs => .ok (if c = 27 then { con with state := .dcsSt } else con)
  | .dcsSt => .ok { con with state := .normal }

def consoleWriteChar (con : Console) (c : UInt8) : Except Fault Console :=
  if c = 0 then .ok con
  else if con.state = .normal ∧ c ≠ 27 then writeChar con c true
  else do
    let con ← sequence con c
    .ok { con with pendingWrap := false }

/-! ## The statement -/

/-- A byte is written, after all before it have been. -/
def next (r : Except Fault Console) (c : UInt8) : Except Fault Console := do
  let con ← r
  consoleWriteChar con c

/-- A step, with its byte. -/
def Step (r : Except Fault Console) (c : UInt8) (r' : Except Fault Console) : Prop := r' = next r c

/-- A console after `console_reset` and `console_sync`, with the cursor and the contents of the video
memory; the other screen has zeros. -/
structure Initial (con : Console) : Prop where
  posX : con.posX < nCol
  posY : con.posY < nRow
  saved : con.saveX = 0 ∧ con.saveY = 0
  region : con.scrStart = 0 ∧ con.scrEnd = nRow - 1
  pgc : con.pgc = 0
  escBuf : con.escBuf = List.replicate escBufSize 0 ∧ con.escBufP = 0
  state : con.state = .normal ∧ con.pendingWrap = false
  orig : con.orig.posX = 0 ∧ con.orig.posY = 0 ∧ con.orig.saveX = 0 ∧ con.orig.saveY = 0 ∧
    con.orig.scrStart = 0 ∧ con.orig.scrEnd = 0 ∧ con.orig.pgc = 0

/-- A character does not go behind the last cell: a wrap that is due in the last row scrolls, and the
cursor is not behind the last row without such a wrap. -/
def GoodWrite (con : Console) (c : UInt8) : Prop :=
  if con.pendingWrap then c ≠ 10 → c ≠ 13 → con.posY = nRow - 1 → con.scrEnd = nRow - 1
  else 32 ≤ c → con.posY = nRow - 1 → con.posX < nCol

instance (con : Console) (c : UInt8) : Decidable (GoodWrite con c) := by
  unfold GoodWrite
  infer_instance

/-- A repeated character does not go behind the last cell, below the region or from behind the last row. -/
def GoodRepeat (con : Console) (m : ℕ) : Prop :=
  m = 0 ∨ (con.posY = nRow - 1 → con.posX < nCol) ∧
    (con.scrEnd < con.posY → con.posY * nCol + min con.posX (nCol - 1) + m ≤ screenBufSize)

instance (con : Console) (m : ℕ) : Decidable (GoodRepeat con m) := inferInstanceAs (Decidable (_ ∨ _))

/-- The number of repetitions in the buffer. -/
def repetitions (con : Console) : ℕ :=
  match escUint con 1 with
  | .ok m => m
  | .error _ => 0

def GoodByte (con : Console) (c : UInt8) : Prop :=
  if con.state = .normal then c = 0 ∨ c = 27 ∨ GoodWrite con c
  else con.state = .csi → c = 98 → con.pgc ≠ 0 → GoodRepeat con (repetitions con)

instance (con : Console) (c : UInt8) : Decidable (GoodByte con c) := by
  unfold GoodByte
  infer_instance

def Good : Except Fault Console → UInt8 → Prop
  | .ok con, c => GoodByte con c
  | .error _, _ => True

instance : ∀ r c, Decidable (Good r c)
  | .ok con, c => inferInstanceAs (Decidable (GoodByte con c))
  | .error _, _ => isTrue trivial

end Mario.Fs.ConsoleDriver
