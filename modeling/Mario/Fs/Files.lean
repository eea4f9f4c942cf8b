import Mario.Lib.Runs
import Mario.Lib.Totals
import Mario.Mm.Page

/-!
# Open files

The table of `struct file`s, the descriptor tables that refer to it, the areas that map files, the
descriptors on their way over a socket, and the ends of pipes and FIFOs. A task is known by its
descriptor table and its address space; threads share them. A call that can sleep is a record in
`calls` and goes on in steps of its own, in any order with the other calls; every other call is one
step. A call that returns an error returns the state that it leaves. A step whose assertion fails,
so that the kernel hangs, is not taken. Wait queues are left out: a call that sleeps can go on at any
time.
-/

namespace Mario.Fs.Files

open Mario.Lib Function

def nrOpen : ℕ := 256

def nrFile : ℕ := 1024

def unixRightsMax : ℕ := 16

/-- The number of values of an `unsigned short`. -/
def shortSize : ℕ := 65536

/-- `f_op`. -/
inductive FileOps
  | null
  /-- Of a file system or a device. -/
  | plain
  | fifo
  | readPipe
  | writePipe
  | rdwrPipe
  | socket
  deriving DecidableEq

structure File where
  fPos : ℕ
  fMode : ℕ
  fFlags : ℕ
  fCount : ℕ
  fInode : Option ℕ
  fOp : FileOps
  /-- The socket, for `socket_fops`. -/
  privateData : ℕ
  deriving DecidableEq

/-- What `i_mode` and `i_fop` say of an inode. -/
inductive Kind
  | plain
  | fifo
  /-- Of `get_pipe_inode`. -/
  | pipe
  | socket
  deriving DecidableEq

/-- `S_ISFIFO`. -/
def Kind.isFifo : Kind → Bool
  | .fifo | .pipe => true
  | .plain | .socket => false

/-- `struct inode`, with its `pipe_inode_info`. -/
structure Inode where
  iCount : ℕ
  kind : Kind
  /-- `I_Pipe`. -/
  isPipe : Bool
  nReader : ℕ
  nWriter : ℕ
  /-- The length of the ring buffer. -/
  len : ℕ
  deriving DecidableEq

structure FilesStruct where
  fd : ℕ → Option ℕ
  closeOnExec : ℕ → Bool

/-- An area that maps a file. -/
structure Area where
  vmStart : ℕ
  vmEnd : ℕ
  vmFile : ℕ
  deriving DecidableEq

/-- `struct unix_right`. -/
structure Right where
  file : ℕ
  position : ℕ
  fin : ℕ
  deriving DecidableEq

/-- `struct unix_socket`; the rights from `rights_head` on. -/
structure Socket where
  peer : Option ℕ
  opens : ℕ
  /-- The length of `receive`. -/
  len : ℕ
  rights : List Right
  readPosition : ℕ
  writePosition : ℕ
  readShutdown : Bool
  writeShutdown : Bool
  listening : Bool
  pending : List ℕ
  deriving DecidableEq

/-- What a call still has to do. -/
inductive Work
  /-- `sys_close`. -/
  | close (tbl fd : ℕ)
  /-- The body of the loop of `exec` over the descriptors. -/
  | closeOnExec (tbl fd : ℕ)
  /-- `dupfd`. -/
  | dup (tbl fd arg : ℕ)
  /-- `release_file(f, 1)`. -/
  | drop (f : ℕ)
  /-- What `release_file` does after the release method. -/
  | finish (f : ℕ)
  /-- `put_file`. -/
  | put (f : ℕ)
  /-- `unmap_fixup` of an area that `do_munmap` has unlinked. -/
  | unmap (mm : ℕ) (v : Area) (addr fin : ℕ)
  deriving DecidableEq

/-- A running call. -/
inductive Call
  | done
  | work (todo : List Work)
  /-- `do_openat`, in `open_namei`. -/
  | lookup (tbl fd f : ℕ)
  /-- `do_openat`, in the open method of a device. -/
  | opening (tbl fd f : ℕ)
  /-- `fifo_open`, before the test of `I_Pipe`. -/
  | fifoTest (tbl fd f : ℕ)
  /-- `fifo_open`, before `init_pipe_inode_info`. -/
  | fifoInit (tbl fd f : ℕ)
  /-- `fifo_open`, before the lock. -/
  | fifoLink (tbl fd f : ℕ)
  /-- `fifo_open`, in `sleep_on`. -/
  | fifoWait (tbl fd f : ℕ)
  /-- `do_openat`, before the file gets its descriptor. -/
  | publish (tbl fd f : ℕ)
  /-- `do_poll`, with the files it has taken. -/
  | polling (files : List ℕ)
  /-- A call on a file of which it takes no reference. -/
  | using (f : ℕ)
  /-- `sys_sendmsg` of a descriptor. -/
  | sending (f right n : ℕ)
  /-- `sys_recvmsg`. -/
  | receiving (tbl f : ℕ)
  /-- `sys_recvmsg` with a right in hand. -/
  | received (tbl right : ℕ)
  /-- `sys_accept4`, with the descriptor it has chosen. -/
  | accepting (tbl newfd f : ℕ)
  deriving DecidableEq

/-- The system. -/
structure State where
  file : ℕ → File
  inode : ℕ → Inode
  tables : List FilesStruct
  spaces : List (List Area)
  sockets : List Socket
  calls : List Call
  /-- The references to inodes that path walks and the like hold. -/
  walks : ℕ → ℕ

/-! ## Files -/

def setFile (f : ℕ) (x : File) (s : State) : State := { s with file := update s.file f x }

def setInode (i : ℕ) (x : Inode) (s : State) : State :=
  { s with inode := update s.inode i x }

def setSocket (k : ℕ) (x : Socket) (s : State) : State := { s with sockets := s.sockets.set k x }

def setCall (k : ℕ) (c : Call) (s : State) : State := { s with calls := s.calls.set k c }

def startCall (c : Call) (s : State) : State := { s with calls := s.calls ++ [c] }

/-- The file of a descriptor. -/
def slot (tbl fd : ℕ) (s : State) : Option ℕ :=
  s.tables[tbl]?.bind fun t => if fd < nrOpen then t.fd fd else none

/-- Change a descriptor. -/
def setSlot (tbl fd : ℕ) (f : Option ℕ) (s : State) : State :=
  { s with tables := s.tables.modify tbl fun t => { t with fd := update t.fd fd f } }

/-- `FD_SET` and `FD_CLR` of `close_on_exec`. -/
def setCloseOnExec (tbl fd : ℕ) (b : Bool) (s : State) : State :=
  { s with
    tables := s.tables.modify tbl fun t =>
      { t with closeOnExec := update t.closeOnExec fd b } }

/-- `next_fd`, and the search of the other calls. -/
def nextFd (tbl start : ℕ) (s : State) : Option ℕ :=
  s.tables[tbl]?.bind fun t => (List.range nrOpen).find? fun fd => start ≤ fd ∧ t.fd fd = none

/-- A file as `get_empty_file` returns it; `f_mode` and `f_flags` are those of its last use. -/
def File.empty (x : File) : File :=
  { x with fPos := 0, fCount := 1, fInode := none, fOp := .null, privateData := 0 }

/-- The file that `get_empty_file` finds. -/
def emptyFile (s : State) : Option ℕ := (List.range nrFile).find? fun f => (s.file f).fCount = 0

def fref (f : ℕ) (s : State) : State :=
  setFile f { s.file f with fCount := ((s.file f).fCount + 1) % shortSize } s

/-- `iput`, at the last reference with `destroy_pipe_inode_info`. -/
def Inode.put (x : Inode) : Inode :=
  if x.iCount = 1 then
    if x.isPipe then { x with iCount := 0, isPipe := false, nReader := 0, nWriter := 0, len := 0 }
    else { x with iCount := 0 }
  else { x with iCount := x.iCount - 1 }

def iput (i : ℕ) (s : State) : State := setInode i (s.inode i).put s

/-- `release_file` after the release method. -/
def finishFile (f : ℕ) (s : State) : State :=
  let s' := setFile f { s.file f with
    fCount := ((s.file f).fCount + (shortSize - 1)) % shortSize, fInode := none } s
  match (s.file f).fInode with
  | some i => iput i s'
  | none => s'

def putFile (f : ℕ) (s : State) : Option State :=
  if (s.file f).fCount = 0 then none
  else if 1 < (s.file f).fCount then
    some (setFile f { s.file f with fCount := (s.file f).fCount - 1 } s)
  else some (finishFile f s)

/-! ## Pipes -/

/-- `pipe_read_release`, `pipe_write_release` and `fifo_rdwr_release`; nothing when an assertion
fails. -/
def pipeRelease (op : FileOps) (x : Inode) : Option Inode :=
  match op with
  | .readPipe => if 0 < x.nReader then some { x with nReader := x.nReader - 1 } else none
  | .writePipe => if 0 < x.nWriter then some { x with nWriter := x.nWriter - 1 } else none
  | .rdwrPipe => some { x with nReader := x.nReader - 1, nWriter := x.nWriter - 1 }
  | _ => some x

/-- The critical section of `pipe_read`, with what it returns if it does not sleep. -/
def pipeRead (count : ℕ) (nonblock : Bool) (x : Inode) : Option ℤ × Inode :=
  if x.len = 0 then
    if x.nWriter = 0 then (some 0, x) else if nonblock then (some (-11), x) else (none, x)
  else (some (min count x.len : ℕ), { x with len := x.len - min count x.len })

/-- The critical section of `pipe_write`, with what it returns if it does not sleep. -/
def pipeWrite (count : ℕ) (nonblock : Bool) (x : Inode) : Option ℤ × Inode :=
  if x.nReader = 0 then (some (-32), x)
  else if pageSize ≤ x.len then if nonblock then (some (-11), x) else (none, x)
  else (some (min count (pageSize - x.len) : ℕ), { x with len := x.len + min count (pageSize - x.len) })

/-- `--` of an `unsigned`. -/
def decr (n : ℕ) : ℕ := (n + (wordSize - 1)) % wordSize

/-- Which end a file has, and the other one, as `fifo_open` counts them. -/
inductive End
  | read
  | write
  | both
  deriving DecidableEq

/-- The branch that `fifo_open` takes. -/
def endOf (fMode : ℕ) : End :=
  if fMode.testBit 0 ∧ fMode.testBit 1 then .both else if fMode.testBit 0 then .read else .write

/-- `f_op` of a file with this end. -/
def End.ops : End → FileOps
  | .read => .readPipe
  | .write => .writePipe
  | .both => .rdwrPipe

/-- Count a new end. -/
def Inode.link (x : Inode) : End → Inode
  | .read => { x with nReader := x.nReader + 1 }
  | .write => { x with nWriter := x.nWriter + 1 }
  | .both => { x with nReader := x.nReader + 1, nWriter := x.nWriter + 1 }

/-- Take back what was counted for a blocking open. -/
def Inode.unlink (x : Inode) : End → Inode
  | .read => { x with nReader := decr x.nReader }
  | .write => { x with nWriter := decr x.nWriter }
  | .both => x

/-- `O_NONBLOCK`. -/
def File.nonblock (x : File) : Bool := x.fFlags.testBit 11

/-! ## Sockets -/

/-- `socket_alloc`. -/
def newSocket (peer : Option ℕ) : Socket :=
  { peer := peer, opens := 1, len := 0, rights := [], readPosition := 0, writePosition := 0
    readShutdown := false, writeShutdown := false, listening := false, pending := [] }

/-- The files of the rights, after `socket_destroy` of the socket. -/
def Socket.files (x : Socket) : List ℕ := x.rights.map Right.file

/-- The rights that `socket_discard_rights` drops. -/
def discarded (position : ℕ) (l : List Right) : List Right :=
  l.takeWhile fun r => decide (r.position < position)

/-- The rights that it keeps. -/
def kept (position : ℕ) (l : List Right) : List Right :=
  l.dropWhile fun r => decide (r.position < position)

/-- `socket_release`, with the files of the rights that it destroys. -/
def socketRelease (k : ℕ) (s : State) : Option (State × List ℕ) :=
  s.sockets[k]?.bind fun x =>
    if x.opens = 0 then none
    else
      let x' : Socket := { x with opens := x.opens - 1 }
      if x'.opens ≠ 0 then some (setSocket k x' s, [])
      else
        match x.peer with
        | none => some (setSocket k { x' with rights := [], listening := false } s, x.files)
        | some p =>
            match s.sockets[p]? with
            | none => none
            | some y =>
                if y.opens ≠ 0 then some (setSocket k x' s, [])
                else
                  some (setSocket p { y with rights := [] } (setSocket k { x' with rights := [] } s),
                    -- `endpoint[0]` is the older socket of the two
                    if k < p then x.files ++ y.files else y.files ++ x.files)

/-- `release_file(f, 1)`, up to the rights that are to be released in it. -/
def releaseFile (f : ℕ) (s : State) : Option (State × List Work) :=
  if (s.file f).fCount = 0 then none
  else if 1 < (s.file f).fCount then
    some (setFile f { s.file f with fCount := (s.file f).fCount - 1 } s, [])
  else
    match (s.file f).fInode with
    | none => some (finishFile f s, [])
    | some i =>
        if (s.file f).fOp = .socket then
          (socketRelease (s.file f).privateData s).map fun r =>
            if r.2 = [] then (finishFile f r.1, []) else (r.1, r.2.map .drop ++ [.finish f])
        else
          (pipeRelease (s.file f).fOp (s.inode i)).map fun x => (finishFile f (setInode i x s), [])

/-- `get_empty_inode` with the bits of `get_pipe_inode` or `get_socket_inode`. -/
def newInode (kind : Kind) (isPipe : Bool) : Inode :=
  { iCount := 1, kind := kind, isPipe := isPipe, nReader := 0, nWriter := 0, len := 0 }

/-- `socket_install`, when there is a file. -/
def socketInstall (socket tbl fd i f : ℕ) (s : State) : State :=
  setSlot tbl fd (some f)
    (setInode i (newInode .socket false)
      (setFile f { (s.file f).empty with
        fInode := some i, fOp := .socket, privateData := socket, fMode := 3, fFlags := 2 } s))

/-- The critical section of `socket_read_data`, with the rights it discards and the one it
takes. -/
def socketReadData (count : ℕ) (wantRight : Bool) (x : Socket) :
    Socket × List Right × Option Right :=
  let start := x.readPosition
  if wantRight then
    let rest := kept start x.rights
    let count := match rest with
      | r :: _ =>
          let stop := (start + count) % wordSize
          if start < r.position ∧ r.position < stop then r.position - start
          else if r.position = start ∧ r.fin < stop then (r.fin + wordSize - start) % wordSize
          else count
      | [] => count
    let n := min count x.len
    let position := (start + n) % wordSize
    let x' : Socket := { x with readPosition := position, len := x.len - n }
    match rest with
    | r :: rest' =>
        if r.position = start ∧ start < position then
          ({ x' with rights := rest' }, discarded start x.rights, some r)
        else
          ({ x' with rights := kept position rest },
            discarded start x.rights ++ discarded position rest, none)
    | [] => ({ x' with rights := [] }, discarded start x.rights, none)
  else
    let n := min count x.len
    let position := (start + n) % wordSize
    ({ x with readPosition := position, len := x.len - n, rights := kept position x.rights },
      discarded position x.rights, none)

/-! ## Areas -/

/-- The areas that `unmap_fixup` puts back. -/
def pieces (v : Area) (addr fin : ℕ) : List Area :=
  if addr = v.vmStart ∧ fin = v.vmEnd then []
  else if fin = v.vmEnd then [{ v with vmEnd := addr }]
  else if addr = v.vmStart then [{ v with vmStart := fin }]
  else [{ v with vmEnd := addr }, { v with vmStart := fin }]

/-- The area has a page in the range. -/
def Area.overlaps (v : Area) (addr fin : ℕ) : Bool := decide (v.vmStart < fin ∧ addr < v.vmEnd)

/-- The part of the range that `do_munmap` passes to `unmap_fixup`. -/
def unmapPieces (v : Area) (addr fin : ℕ) : List Area :=
  pieces v (max addr v.vmStart) (min fin v.vmEnd)

/-- Take a reference for every file of a list. -/
def frefs (l : List ℕ) (s : State) : State := l.foldl (fun s f => fref f s) s

def unmapFixup (mm : ℕ) (v : Area) (addr fin : ℕ) (s : State) : Option State :=
  let l := unmapPieces v addr fin
  s.spaces[mm]?.bind fun areas =>
    putFile v.vmFile { frefs (l.map Area.vmFile) s with spaces := s.spaces.set mm (areas ++ l) }

/-! ## Calls -/

def dupfd (tbl fd arg : ℕ) (s : State) : State :=
  match slot tbl fd s, nextFd tbl arg s with
  | some f, some fd' => setSlot tbl fd' (some f) (fref f (setCloseOnExec tbl fd' false s))
  | _, _ => s

/-- `sys_close`, up to `release_file`. -/
def sysClose (tbl fd : ℕ) (s : State) : State × List Work :=
  match slot tbl fd s with
  | some f => (setSlot tbl fd none (setCloseOnExec tbl fd false s), [.drop f])
  | none => (setCloseOnExec tbl fd false s, [])

/-- `FD_ISSET`. -/
def isCloseOnExec (tbl fd : ℕ) (s : State) : Bool :=
  (s.tables[tbl]?.map fun t => t.closeOnExec fd).getD false

/-- One piece of work, with the work that comes before the rest. -/
def execWork (w : Work) (s : State) : Option (State × List Work) :=
  match w with
  | .close tbl fd => some (sysClose tbl fd s)
  | .closeOnExec tbl fd => some (if isCloseOnExec tbl fd s then sysClose tbl fd s else (s, []))
  | .dup tbl fd arg => some (dupfd tbl fd arg s, [])
  | .drop f => releaseFile f s
  | .finish f => some (finishFile f s, [])
  | .put f => (putFile f s).map fun s => (s, [])
  | .unmap mm v addr fin => (unmapFixup mm v addr fin s).map fun s => (s, [])

/-- What `copy_fd` adds to the counts of the inode. -/
def Inode.copied (x : Inode) (fMode : ℕ) : Inode :=
  if x.kind.isFifo then
    { x with
      iCount := x.iCount + 1
      nReader := x.nReader + (fMode.testBit 0).toNat
      nWriter := x.nWriter + (fMode.testBit 1).toNat }
  else { x with iCount := x.iCount + 1 }

def socketOpen (k : ℕ) (s : State) : State :=
  { s with sockets := s.sockets.modify k fun x => { x with opens := x.opens + 1 } }

/-- `copy_fd` of a file when `get_empty_file` finds another one, up to the open method. -/
def copyFile (f g : ℕ) (s : State) : State :=
  let s' := setFile g { s.file f with fCount := 1 } s
  match (s.file f).fInode with
  | some i => setInode i ((s.inode i).copied (s.file f).fMode) s'
  | none => s'

/-- `copy_fd`; `ok` is the answer of the open method of a device. -/
def copyFd (f g : ℕ) (ok : Bool) (s : State) : State × Option ℕ :=
  match (s.file f).fOp with
  | .socket => (socketOpen (s.file f).privateData (copyFile f g s), some g)
  | .plain => if ok then (copyFile f g s, some g) else (finishFile g (copyFile f g s), none)
  | _ => (copyFile f g s, some g)

/-- A descriptor of `copy_files`. -/
def copySlot (t : FilesStruct) (child : ℕ) (refused : List ℕ) (s : State) (fd : ℕ) : State :=
  match t.fd fd, emptyFile s with
  | some f, some g =>
      let r := copyFd f g (decide (fd ∉ refused)) s
      setSlot child fd r.2 r.1
  | _, _ => s

/-- `copy_files`; the descriptors of the child are filled in one by one. -/
def copyFiles (tbl : ℕ) (refused : List ℕ) (s : State) : State :=
  match s.tables[tbl]? with
  | some t =>
      (List.range nrOpen).foldl (copySlot t s.tables.length refused)
        { s with tables := s.tables ++ [{ t with fd := fun _ => none }] }
  | none => s

/-- `do_openat`, up to `open_namei`. -/
def doOpenat (tbl flags : ℕ) (s : State) : State :=
  match nextFd tbl 0 s with
  | some fd =>
      let s' := setCloseOnExec tbl fd (flags.testBit 19) s
      match emptyFile s' with
      | some f =>
          startCall (.lookup tbl fd f)
            (setFile f { (s.file f).empty with
              fFlags := flags % shortSize, fMode := (flags + 1) % 4 } s')
      | none => s'
  | none => s

/-- `do_openat` after `open_namei`, up to the open method. -/
def openNamei (k tbl fd f : ℕ) (found : Option ℕ) (s : State) : Option State :=
  match found with
  | none => putFile f (setCall k .done s)
  | some i =>
      let opened (op : FileOps) (c : Call) : State :=
        setCall k c { setFile f { s.file f with fInode := some i, fPos := 0, fOp := op } s with
          walks := update s.walks i (s.walks i - 1) }
      if s.walks i = 0 then none
      else
        match (s.inode i).kind with
        | .plain => some (opened .plain (.opening tbl fd f))
        | .fifo => some (opened .fifo (.fifoTest tbl fd f))
        | .pipe | .socket => none

/-- The first critical section of `fifo_open`. -/
def fifoLink (k tbl fd f i : ℕ) (s : State) : Option State :=
  let e := endOf (s.file f).fMode
  let x := (s.inode i).link e
  let s' := setInode i x (setFile f { s.file f with fOp := e.ops } s)
  match e with
  | .both => some (setCall k (.publish tbl fd f) s')
  | .read =>
      if x.nWriter = 0 ∧ (s.file f).nonblock = false then some (setCall k (.fifoWait tbl fd f) s')
      else some (setCall k (.publish tbl fd f) s')
  | .write =>
      if x.nReader = 0 then
        if (s.file f).nonblock then putFile f (setCall k .done (setInode i (x.unlink e) s'))
        else some (setCall k (.fifoWait tbl fd f) s')
      else some (setCall k (.publish tbl fd f) s')

/-- The second critical section of `fifo_open`; one that is interrupted ends the call. -/
def fifoWoken (k tbl fd f i : ℕ) (signal : Bool) (s : State) : Option State :=
  if signal then
    putFile f (setCall k .done (setInode i ((s.inode i).unlink (endOf (s.file f).fMode)) s))
  else some (setCall k (.publish tbl fd f) s)

/-- The two files that `get_two_empty_files` finds. -/
def twoEmptyFiles (s : State) : Option (ℕ × ℕ) :=
  match (List.range nrFile).filter fun f => (s.file f).fCount = 0 with
  | f :: g :: _ => some (f, g)
  | _ => none

/-- The two descriptors that `do_pipe` finds. -/
def twoFds (tbl : ℕ) (s : State) : Option (ℕ × ℕ) :=
  (nextFd tbl 0 s).bind fun fd => (nextFd tbl (fd + 1) s).map fun fd' => (fd, fd')

/-- The inode of a new pipe. -/
def pipeInode (iCount : ℕ) : Inode :=
  { iCount := iCount, kind := .pipe, isPipe := true, nReader := 1, nWriter := 1, len := 0 }

/-- The files of a new pipe. -/
def pipeFiles (i f g : ℕ) (s : State) : State :=
  setInode i (pipeInode 2)
    (setFile g { (s.file g).empty with fInode := some i, fFlags := 1, fOp := .writePipe, fMode := 2 }
      (setFile f { (s.file f).empty with
        fInode := some i, fFlags := 0, fOp := .readPipe, fMode := 1 } s))

/-- `do_pipe`, when `get_pipe_inode` returns `i`; `page` is the answer of `ring_buffer_init`. -/
def doPipe (tbl i : ℕ) (page : Bool) (s : State) : State :=
  match page, twoEmptyFiles s, twoFds tbl s with
  | true, some (f, g), some (fd, fd') =>
      setSlot tbl fd' (some g) (setSlot tbl fd (some f) (pipeFiles i f g s))
  -- this error path returns without `fail_2`
  | true, some (f, g), none =>
      setInode i (pipeInode 1) (setFile g (s.file g).empty (setFile f (s.file f).empty s))
  | _, _, _ => iput i (setInode i (newInode .pipe true) s)

/-- `sys_socket`, when `get_socket_inode` returns `i`. -/
def sysSocket (tbl i : ℕ) (s : State) : State :=
  match nextFd tbl 0 s, emptyFile s with
  | some fd, some f =>
      socketInstall s.sockets.length tbl fd i f { s with sockets := s.sockets ++ [newSocket none] }
  | _, _ => s

/-- `do_socketpair`, when `get_socket_inode` returns `i` and `j`. -/
def doSocketpair (tbl i j : ℕ) (s : State) : Option State :=
  match twoFds tbl s, emptyFile s with
  | some (fd, fd'), some f =>
      let a := s.sockets.length
      let s₁ := socketInstall a tbl fd i f
        { s with sockets := s.sockets ++ [newSocket (some (a + 1)), newSocket (some a)] }
      match emptyFile s₁ with
      | some g => some (socketInstall (a + 1) tbl fd' j g s₁)
      -- the file is released and its descriptor stays
      | none => (releaseFile f s₁).map fun r => startCall (.work r.2) r.1
  | _, _ => some s

/-- The socket of a file. -/
def socketOf (f : ℕ) (s : State) : Option Socket :=
  if (s.file f).fOp = .socket then s.sockets[(s.file f).privateData]? else none

/-- `sys_connect` to a listener. -/
def sysConnect (f listener : ℕ) (s : State) : State :=
  match socketOf f s, s.sockets[listener]? with
  | some x, some y =>
      if x.peer = none ∧ y.listening ∧ y.opens ≠ 0 then
        let client := (s.file f).privateData
        let server := s.sockets.length
        { s with
          sockets := ((s.sockets.modify client fun x => { x with peer := some server }).modify
            listener fun y => { y with pending := y.pending ++ [server] }) ++
              [newSocket (some client)] }
      else s
  | _, _ => s

/-- `sys_accept4` after a socket has come. -/
def accepted (k tbl newfd f i : ℕ) (s : State) : Option State :=
  (socketOf f s).bind fun x =>
    match x.pending with
    | [] => none
    | socket :: rest =>
        let s' := setCall k .done
          { s with sockets := s.sockets.set (s.file f).privateData { x with pending := rest } }
        match emptyFile s with
        | some g => some (socketInstall socket tbl newfd i g s')
        | none => some s'

def sysShutdown (f : ℕ) (rd wr : Bool) (s : State) : State :=
  match socketOf f s with
  | some x =>
      let x' : Socket := { x with writeShutdown := x.writeShutdown || wr }
      if rd then
        startCall (.work ((discarded x.writePosition x.rights).map fun r => .drop r.file))
          (setSocket (s.file f).privateData { x' with
            readShutdown := true, len := 0, readPosition := x.writePosition
            rights := kept x.writePosition x.rights } s)
      else setSocket (s.file f).privateData x' s
  | none => s

/-- `sys_sendmsg` with a right: the critical section. -/
def sendRight (k f right n : ℕ) (s : State) : Option State :=
  (socketOf f s).bind fun x => x.peer.bind fun p => s.sockets[p]?.bind fun y =>
    if x.writeShutdown ∨ y.opens = 0 ∨ y.readShutdown then some (setCall k .done s)
    else if y.rights.length ≠ unixRightsMax ∧ n ≤ pageSize - y.len then
      some (setCall k .done (setSocket p { y with
        len := y.len + n
        rights := y.rights ++ [⟨right, y.writePosition, (y.writePosition + n) % wordSize⟩]
        writePosition := (y.writePosition + n) % wordSize } (fref right s)))
    else none

/-- `socket_write`: the critical section. -/
def socketWrite (f n : ℕ) (s : State) : State :=
  match socketOf f s with
  | some x =>
      match x.peer with
      | some p =>
          match s.sockets[p]? with
          | some y =>
              if x.writeShutdown ∨ y.opens = 0 ∨ y.readShutdown then s
              else
                let m := min n (pageSize - y.len)
                setSocket p { y with
                  len := y.len + m, writePosition := (y.writePosition + m) % wordSize } s
          | none => s
      | none => s
  | none => s

/-- `socket_read_data`; a call that wants a right takes it in hand. -/
def socketRead (k f count : ℕ) (tbl : Option ℕ) (s : State) : Option State :=
  (socketOf f s).bind fun x =>
    if x.peer = none ∨ x.len = 0 then none
    else
      let r := socketReadData count tbl.isSome x
      let s' := startCall (.work (r.2.1.map fun right => .drop right.file))
        (setSocket (s.file f).privateData r.1 s)
      match tbl, r.2.2 with
      | some tbl, some right => some (setCall k (.received tbl right.file) s')
      | _, _ => some s'

/-- `sys_recvmsg` with a right in hand; `control` says that there is a buffer for it. -/
def recvInstall (k tbl right : ℕ) (control : Bool) (s : State) : State :=
  match nextFd tbl 0 s, control with
  | some newfd, true => setSlot tbl newfd (some right) (setCall k .done s)
  | _, _ => setCall k .done s

/-- `do_munmap`, up to `unmap_fixup`. -/
def doMunmap (mm addr fin : ℕ) (s : State) : State :=
  match s.spaces[mm]? with
  | some l =>
      startCall (.work ((l.filter fun v => v.overlaps addr fin).map fun v => .unmap mm v addr fin))
        { s with spaces := s.spaces.set mm (l.filter fun v => !v.overlaps addr fin) }
  | none => s

/-- `dup_mmap`, when there is memory for `n` areas. -/
def dupMmap (mm n : ℕ) (s : State) : State :=
  match s.spaces[mm]? with
  | some l =>
      let s' := frefs ((l.take n).map Area.vmFile) s
      if l.length ≤ n then { s' with spaces := s'.spaces ++ [l] }
      else startCall (.work ((l.take n).map fun v => .put v.vmFile)) s'
  | none => s

def exitMmap (mm : ℕ) (s : State) : State :=
  match s.spaces[mm]? with
  | some l => startCall (.work (l.map fun v => .put v.vmFile)) { s with spaces := s.spaces.set mm [] }
  | none => s

/-- The files that `poll_get_files` takes. -/
def pollFiles (tbl : ℕ) (fds : List ℕ) (s : State) : List ℕ := fds.filterMap fun fd => slot tbl fd s

/-! ## The steps -/

inductive Label
  /-- `sys_dup`, and `F_DUPFD`. -/
  | dup (tbl fd arg : ℕ)
  | dup2 (tbl old new : ℕ)
  /-- `F_SETFD`. -/
  | setFd (tbl fd : ℕ) (b : Bool)
  | close (tbl fd : ℕ)
  /-- `exit_files`. -/
  | exit (tbl : ℕ)
  | exec (tbl : ℕ)
  /-- A running call goes on. -/
  | run (k : ℕ)
  | copyFiles (tbl : ℕ) (refused : List ℕ)
  | openat (tbl flags : ℕ)
  | openNamei (k : ℕ) (found : Option ℕ)
  /-- The open method of a device returns. -/
  | opened (k : ℕ) (ok : Bool)
  | fifoTest (k : ℕ)
  | fifoInit (k : ℕ) (page : Bool)
  | fifoLink (k : ℕ)
  | fifoWoken (k : ℕ) (signal : Bool)
  | publish (k : ℕ)
  | pipe (tbl i : ℕ) (page : Bool)
  | socket (tbl i : ℕ)
  | socketpair (tbl i j : ℕ)
  | listen (tbl fd : ℕ)
  | connect (tbl fd listener : ℕ)
  | accept (tbl fd : ℕ)
  | accepted (k i : ℕ)
  | shutdown (tbl fd : ℕ) (rd wr : Bool)
  | sendmsg (tbl fd right n : ℕ)
  | sendRight (k : ℕ)
  | recvmsg (tbl fd : ℕ)
  | recvRead (k count : ℕ)
  | recvInstall (k : ℕ) (control : Bool)
  /-- A call takes the file of a descriptor, and no reference. -/
  | enter (tbl fd : ℕ)
  /-- A call that holds no reference returns. -/
  | leave (k : ℕ)
  | socketRead (k count : ℕ)
  | socketWrite (k count : ℕ)
  | pipeRead (k count : ℕ)
  | pipeWrite (k count : ℕ)
  | mmap (mm tbl fd start fin : ℕ)
  | munmap (mm addr fin : ℕ)
  | dupMmap (mm n : ℕ)
  | exitMmap (mm : ℕ)
  | poll (tbl : ℕ) (fds : List ℕ)
  | pollDone (k : ℕ)
  /-- A path walk gets a reference to an inode. -/
  | iget (i : ℕ) (kind : Kind)
  | iput (i : ℕ)

/-- A call on the file of a descriptor. -/
def onFile (tbl fd : ℕ) (s : State) (call : ℕ → State) : Option State :=
  some (match slot tbl fd s with
    | some f => call f
    | none => s)

def exec (s : State) : Label → Option State
  | .dup tbl fd arg => some (dupfd tbl fd arg s)
  | .dup2 tbl old new =>
      some (if old ≠ new ∧ (slot tbl old s).isSome ∧ new < nrOpen then
        startCall (.work [.close tbl new, .dup tbl old new]) s else s)
  | .setFd tbl fd b => some (setCloseOnExec tbl fd b s)
  | .close tbl fd => some (startCall (.work (sysClose tbl fd s).2) (sysClose tbl fd s).1)
  | .exit tbl => some (startCall (.work ((List.range nrOpen).map fun fd => .close tbl fd)) s)
  | .exec tbl => some (startCall (.work ((List.range nrOpen).map fun fd => .closeOnExec tbl fd)) s)
  | .run k =>
      match s.calls[k]? with
      | some (.work (w :: todo)) =>
          (execWork w (setCall k (.work todo) s)).map fun r => setCall k (.work (r.2 ++ todo)) r.1
      | _ => none
  | .copyFiles tbl refused => some (copyFiles tbl refused s)
  | .openat tbl flags => some (doOpenat tbl flags s)
  | .openNamei k found =>
      match s.calls[k]? with
      | some (.lookup tbl fd f) => openNamei k tbl fd f found s
      | _ => none
  | .opened k ok =>
      match s.calls[k]? with
      | some (.opening tbl fd f) =>
          if ok then some (setCall k (.publish tbl fd f) s) else putFile f (setCall k .done s)
      | _ => none
  | .fifoTest k =>
      match s.calls[k]? with
      | some (.fifoTest tbl fd f) => (s.file f).fInode.map fun i =>
          setCall k (if (s.inode i).isPipe then .fifoLink tbl fd f else .fifoInit tbl fd f) s
      | _ => none
  | .fifoInit k page =>
      match s.calls[k]? with
      | some (.fifoInit tbl fd f) => (s.file f).fInode.bind fun i =>
          if page then
            some (setCall k (.fifoLink tbl fd f)
              (setInode i { s.inode i with isPipe := true, nReader := 0, nWriter := 0, len := 0 } s))
          else putFile f (setCall k .done s)
      | _ => none
  | .fifoLink k =>
      match s.calls[k]? with
      | some (.fifoLink tbl fd f) => (s.file f).fInode.bind fun i => fifoLink k tbl fd f i s
      | _ => none
  | .fifoWoken k signal =>
      match s.calls[k]? with
      | some (.fifoWait tbl fd f) => (s.file f).fInode.bind fun i => fifoWoken k tbl fd f i signal s
      | _ => none
  | .publish k =>
      match s.calls[k]? with
      | some (.publish tbl fd f) => some (setSlot tbl fd (some f) (setCall k .done s))
      | _ => none
  | .pipe tbl i page => if (s.inode i).iCount = 0 then some (doPipe tbl i page s) else none
  | .socket tbl i => if (s.inode i).iCount = 0 then some (sysSocket tbl i s) else none
  | .socketpair tbl i j =>
      if (s.inode i).iCount = 0 ∧ (s.inode j).iCount = 0 ∧ i ≠ j then doSocketpair tbl i j s
      else none
  | .listen tbl fd => onFile tbl fd s fun f =>
      match socketOf f s with
      | some x =>
          if x.peer = none then setSocket (s.file f).privateData { x with listening := true } s else s
      | none => s
  | .connect tbl fd listener => onFile tbl fd s fun f => sysConnect f listener s
  | .accept tbl fd => onFile tbl fd s fun f =>
      match nextFd tbl 0 s with
      | some newfd => startCall (.accepting tbl newfd f) s
      | none => s
  | .accepted k i =>
      match s.calls[k]? with
      | some (.accepting tbl newfd f) =>
          if (s.inode i).iCount = 0 then accepted k tbl newfd f i s else none
      | _ => none
  | .shutdown tbl fd rd wr => onFile tbl fd s fun f => sysShutdown f rd wr s
  | .sendmsg tbl fd right n => onFile tbl fd s fun f =>
      match slot tbl right s with
      | some r => if 0 < n ∧ n ≤ pageSize then startCall (.sending f r n) s else s
      | none => s
  | .sendRight k =>
      match s.calls[k]? with
      | some (.sending f right n) => sendRight k f right n s
      | _ => none
  | .recvmsg tbl fd => onFile tbl fd s fun f => startCall (.receiving tbl f) s
  | .recvRead k count =>
      match s.calls[k]? with
      | some (.receiving tbl f) => socketRead k f count (some tbl) s
      | _ => none
  | .recvInstall k control =>
      match s.calls[k]? with
      | some (.received tbl right) => some (recvInstall k tbl right control s)
      | _ => none
  | .enter tbl fd => onFile tbl fd s fun f => startCall (.using f) s
  | .leave k =>
      match s.calls[k]? with
      | some (.using _) | some (.sending _ _ _) | some (.receiving _ _) | some (.accepting _ _ _) =>
          some (setCall k .done s)
      | _ => none
  | .socketRead k count =>
      match s.calls[k]? with
      | some (.using f) => socketRead k f count none s
      | _ => none
  | .socketWrite k count =>
      match s.calls[k]? with
      | some (.using f) => some (socketWrite f count s)
      | _ => none
  | .pipeRead k count =>
      match s.calls[k]? with
      | some (.using f) => (s.file f).fInode.map fun i =>
          setInode i (pipeRead count (s.file f).nonblock (s.inode i)).2 s
      | _ => none
  | .pipeWrite k count =>
      match s.calls[k]? with
      | some (.using f) => (s.file f).fInode.map fun i =>
          setInode i (pipeWrite count (s.file f).nonblock (s.inode i)).2 s
      | _ => none
  | .mmap mm tbl fd start fin =>
      s.spaces[mm]?.bind fun areas => onFile tbl fd s fun f =>
        if (s.file f).fOp = .plain then
          { fref f s with spaces := s.spaces.set mm (areas ++ [⟨start, fin, f⟩]) }
        else s
  | .munmap mm addr fin => some (doMunmap mm addr fin s)
  | .dupMmap mm n => some (dupMmap mm n s)
  | .exitMmap mm => some (exitMmap mm s)
  | .poll tbl fds =>
      some (startCall (.polling (pollFiles tbl fds s)) (frefs (pollFiles tbl fds s) s))
  | .pollDone k =>
      match s.calls[k]? with
      | some (.polling files) => some (setCall k (.work (files.map .drop)) s)
      | _ => none
  | .iget i kind =>
      if (s.inode i).iCount = 0 then
        if kind = .plain ∨ kind = .fifo then
          some { setInode i (newInode kind false) s with
            walks := update s.walks i (s.walks i + 1) }
        else none
      else
        some { setInode i { s.inode i with iCount := (s.inode i).iCount + 1 } s with
          walks := update s.walks i (s.walks i + 1) }
  | .iput i =>
      if s.walks i = 0 then none
      else some { iput i s with walks := update s.walks i (s.walks i - 1) }

def Step (s : State) (a : Label) (s' : State) : Prop := exec s a = some s'

/-- Nothing is open. -/
structure Initial (s : State) : Prop where
  file : ∀ f, (s.file f).fCount = 0 ∧ (s.file f).fInode = none
  inode : ∀ i, (s.inode i).iCount = 0 ∧ (s.inode i).isPipe = false
  tables : ∀ t ∈ s.tables, ∀ fd, t.fd fd = none
  spaces : ∀ l ∈ s.spaces, l = []
  sockets : s.sockets = []
  calls : s.calls = []
  walks : ∀ i, s.walks i = 0

end Mario.Fs.Files
