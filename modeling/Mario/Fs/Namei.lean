import Mathlib.Data.Nat.Notation
import Mathlib.Data.Int.Notation
import Mathlib.Tactic.SplitIfs

/-!
# Walking paths

`fs/namei.c` and the methods `follow_link` of ext2, mariofs and procfs. A path walk follows symbolic links
through a method of the file system, which opens the target and so walks a path again. The file systems are a
parameter: what their methods answer may depend on the state and may change it, so that directories and links
can form any graph, and can change during a walk. The state of the task is `link_count`. The recursion is cut
at a number of calls of `open_namei` inside one another; `none` is a walk that would need more of them.
-/

namespace Mario.Fs.Namei

/-- The bytes of a name or of a path, without the NUL byte at the end. -/
abbrev Name := List (BitVec 8)

def slash : BitVec 8 := 0x2f

def dot : BitVec 8 := 0x2e

def enoent : ℤ := -2

def eacces : ℤ := -13

def eexist : ℤ := -17

def enotdir : ℤ := -20

def eisdir : ℤ := -21

def eloop : ℤ := -40

def maxLinkCount : ℤ := 5

/-- `O_CREAT`, `O_EXCL`, `O_TRUNC`, `O_DIRECTORY` and `O_NOFOLLOW`, by the numbers of their bits. -/
def oCreat : ℕ := 6

def oExcl : ℕ := 7

def oTrunc : ℕ := 9

def oDirectory : ℕ := 16

def oNofollow : ℕ := 17

/-- The type in `i_mode`. -/
inductive Mode
  | reg
  | dir
  | lnk
  | chr
  | blk
  | fifo
  | sock
  deriving DecidableEq

/-- The methods `follow_link` that there are. -/
inductive LinkOp
  | mario
  | ext2
  | proc
  deriving DecidableEq

/-- The file systems that are mounted, and what the walk calls on inodes `ι`; `σ` is the state of everything but
the task. `covered` and `isMounted` speak of the super block of the inode, and `target` reads the target of a
symbolic link into memory of its own. -/
structure FileSys (σ ι : Type*) where
  mode : σ → ι → Mode
  root : σ → ι
  pwd : σ → ι
  isMounted : σ → ι → Bool
  covered : σ → ι → Option ι
  lookupOp : σ → ι → Option (Name → σ → σ × Except ℤ ι)
  createOp : σ → ι → Option (Name → σ → σ × Except ℤ ι)
  linkOp : σ → ι → Option LinkOp
  target : LinkOp → ι → σ → σ × Except ℤ Name
  iref : ι → σ → σ
  iput : ι → σ → σ
  down : ι → σ → σ
  up : ι → σ → σ
  truncate : ι → σ → σ

/-- The state of a walk. `tooDeep` records that a method `follow_link` has found too many links. -/
structure Walk (σ : Type*) where
  fs : σ
  linkCount : ℤ
  tooDeep : Bool

variable {σ ι α β : Type*}

/-- Do something to the file systems. -/
def Walk.run (st : Walk σ) (f : σ → σ) : Walk σ := { st with fs := f st.fs }

/-- How a call ends: with a value, with an error, or in an assertion that does not hold. -/
inductive Result (α : Type*)
  | ok (a : α)
  | err (e : ℤ)
  | halt

/-- The end of a call: the state and the result; `none` needs more recursion than there is. -/
abbrev Outcome (σ α : Type*) := Option (Walk σ × Result α)

/-- Go on after a call that has returned a value, and return its error otherwise. -/
def andThen (r : Outcome σ α) (f : α → Walk σ → Outcome σ β) : Outcome σ β :=
  match r with
  | none => none
  | some (st, .ok a) => f a st
  | some (st, .err e) => some (st, .err e)
  | some (st, .halt) => some (st, .halt)

/-- A call into a file system. -/
def call (st : Walk σ) (f : σ → σ × Except ℤ α) : Outcome σ α :=
  let r := f st.fs
  match r.2 with
  | .ok a => some ({ st with fs := r.1 }, .ok a)
  | .error e => some ({ st with fs := r.1 }, .err e)

/-- What `open_namei` and `follow_link` are called with. -/
abbrev OpenFn (σ ι : Type*) := Name → ℕ → Option ι → Walk σ → Outcome σ ι

abbrev FollowFn (σ ι : Type*) := ι → ι → ℕ → Walk σ → Outcome σ ι

variable (fs : FileSys σ ι)

/-- The end of `lookup`. -/
def lookupIn (dir : ι) (name : Name) (s : σ) : σ × Except ℤ ι :=
  match fs.lookupOp s dir with
  | none => (fs.iput dir s, .error enotdir)
  | some f => f name s

def lookup [DecidableEq ι] (dir : ι) (name : Name) (s : σ) : σ × Except ℤ ι :=
  if name.length = 0 then (s, .ok dir)
  else if name = [dot, dot] ∧ dir = fs.root s then (s, .ok dir)
  else if name = [dot, dot] ∧ fs.isMounted s dir = true then
    match fs.covered s dir with
    | none => (fs.iput dir s, .error enoent)
    | some covered => lookupIn fs covered name (fs.iref covered (fs.iput dir s))
  else lookupIn fs dir name s

/-- The methods `follow_link`: they read the target in their own way, and release the two inodes in their own
order when that fails. -/
def followTarget (op : LinkOp) (release : ι → ι → σ → σ) (openNamei : OpenFn σ ι) : FollowFn σ ι :=
  fun dir inode flags st =>
    if fs.mode st.fs inode ≠ .lnk then some (st.run (fs.iput dir), .ok inode)
    else if maxLinkCount < st.linkCount then
      some ({ st.run (fun s => fs.iput inode (fs.iput dir s)) with tooDeep := true }, .err eloop)
    else
      let r := fs.target op inode st.fs
      match r.2 with
      | .error e => some ({ st with fs := release dir inode r.1 }, .err e)
      | .ok target =>
          (openNamei target flags (some dir)
            { st with fs := fs.iput inode r.1, linkCount := st.linkCount + 1 }).map
            fun o => ({ o.1 with linkCount := o.1.linkCount - 1 }, o.2)

def ext2FollowLink (openNamei : OpenFn σ ι) : FollowFn σ ι :=
  followTarget fs .ext2 (fun dir inode s => fs.iput inode (fs.iput dir s)) openNamei

def marioFollowLink (openNamei : OpenFn σ ι) : FollowFn σ ι :=
  followTarget fs .mario (fun dir inode s => fs.iput dir (fs.iput inode s)) openNamei

def procFollowLink (openNamei : OpenFn σ ι) : FollowFn σ ι :=
  followTarget fs .proc (fun dir inode s => fs.iput inode (fs.iput dir s)) openNamei

def followLink (openNamei : OpenFn σ ι) : FollowFn σ ι :=
  fun dir inode flags st =>
    match fs.linkOp st.fs inode with
    | none => some (st.run (fs.iput dir), .ok inode)
    | some .ext2 => ext2FollowLink fs openNamei dir inode flags st
    | some .mario => marioFollowLink fs openNamei dir inode flags st
    | some .proc => procFollowLink fs openNamei dir inode flags st

/-- The components of a path that a slash follows, and the last one. -/
def splitPath : Name → List Name × Name
  | [] => ([], [])
  | c :: path =>
      let r := splitPath path
      if c = slash then ([] :: r.1, r.2)
      else
        match r.1 with
        | [] => ([], c :: r.2)
        | name :: names => ((c :: name) :: names, r.2)

section Walks

variable [DecidableEq ι] (openNamei : OpenFn σ ι)

/-- The loop of `dir_namei`. -/
def walkDirs : List Name → ι → Walk σ → Outcome σ ι
  | [], base, st => some (st, .ok base)
  | name :: names, base, st =>
      match call (st.run (fs.iref base)) (lookup fs base name) with
      | some (st, .ok inode) =>
          andThen (followLink fs openNamei base inode 0 st) fun base st => walkDirs names base st
      | some (st, .err e) => some (st.run (fs.iput base), .err e)
      | r => r

/-- The start of a walk. -/
def startDir (path : Name) (base : Option ι) (st : Walk σ) : Walk σ × ι × Name :=
  let r :=
    match base with
    | some base => (st, base)
    | none => (st.run (fs.iref (fs.pwd st.fs)), fs.pwd st.fs)
  if path.head? = some slash then
    let s := fs.iput r.2 r.1.fs
    ({ r.1 with fs := fs.iref (fs.root s) s }, fs.root s, path.tail)
  else (r.1, r.2, path)

/-- `dir_namei`: the last component, and the directory that it is looked up in. -/
def dirNamei (path : Name) (base : Option ι) (st : Walk σ) : Outcome σ (Name × ι) :=
  let r := startDir fs path base st
  let p := splitPath r.2.2
  if fs.mode r.1.fs r.2.1 ≠ .dir then some (r.1, .halt)
  else
    andThen (walkDirs fs openNamei p.1 r.2.1 r.1) fun base st =>
      if (fs.lookupOp st.fs base).isNone then some (st.run (fs.iput base), .err enotdir)
      else some (st, .ok (p.2, base))

def namei (path : Name) (base : Option ι) (follow : Bool) (st : Walk σ) : Outcome σ ι :=
  andThen (dirNamei fs openNamei path base st) fun r st =>
    match call (st.run (fs.iref r.2)) (lookup fs r.2 r.1) with
    | some (st, .ok inode) =>
        if follow then followLink fs openNamei r.2 inode 0 st else some (st.run (fs.iput r.2), .ok inode)
    | some (st, .err e) => some (st.run (fs.iput r.2), .err e)
    | o => o

/-- The end of `open_namei`, for the inode that has been found. -/
def openFound (flags : ℕ) (inode : ι) (st : Walk σ) : Outcome σ ι :=
  if fs.mode st.fs inode = .dir ∧ flags.testBit 1 = true then some (st.run (fs.iput inode), .err eisdir)
  else if flags.testBit oDirectory = true ∧ fs.mode st.fs inode ≠ .dir then
    some (st.run (fs.iput inode), .err enotdir)
  else
    let special := fs.mode st.fs inode = .blk ∨ fs.mode st.fs inode = .chr ∨ fs.mode st.fs inode = .fifo
    if flags.testBit oTrunc = true ∧ ¬ special then some (st.run (fs.truncate inode), .ok inode)
    else some (st, .ok inode)

/-- `open_namei` from the label `SHE__` on, when the lookup has succeeded. -/
def openLooked (flags : ℕ) (dir inode : ι) (st : Walk σ) : Outcome σ ι :=
  if fs.mode st.fs inode = .lnk then
    if flags.testBit oNofollow then some (st.run (fun s => fs.iput dir (fs.iput inode s)), .err eloop)
    else andThen (followLink fs openNamei dir inode flags st) fun inode st => openFound fs flags inode st
  else openFound fs flags inode (st.run (fs.iput dir))

/-- `open_namei`, with the function that links are opened with. -/
def openNameiWith : OpenFn σ ι := fun path flags base st =>
  andThen (dirNamei fs openNamei path base st) fun r st =>
    let name := r.1
    let dir := r.2
    if name.length = 0 then
      if flags.testBit 1 then some (st.run (fs.iput dir), .err eisdir) else some (st, .ok dir)
    else
      match call (st.run (fun s => fs.iref dir (fs.down dir s))) (lookup fs dir name) with
      | some (st, .ok inode) =>
          if flags.testBit oCreat = true ∧ flags.testBit oExcl = true then
            some (st.run (fun s => fs.iput dir (fs.up dir (fs.iput inode s))), .err eexist)
          else openLooked fs openNamei flags dir inode (st.run (fs.up dir))
      | some (st, .err e) =>
          if !flags.testBit oCreat then some (st.run (fun s => fs.iput dir (fs.up dir s)), .err e)
          else
            match fs.createOp st.fs dir with
            | none => some (st.run (fun s => fs.iput dir (fs.up dir s)), .err eacces)
            | some create =>
                match call (st.run (fs.iref dir)) (create name) with
                | some (st, o) => some (st.run (fun s => fs.iput dir (fs.up dir s)), o)
                | none => none
      | o => o

end Walks

/-- `open_namei`, with at most a number of its calls inside one another. -/
def openNamei [DecidableEq ι] : ℕ → OpenFn σ ι
  | 0 => fun _ _ _ _ => none
  | n + 1 => openNameiWith fs (openNamei n)

/-! ## Every walk ends -/

/-- A call ends with the number of links that it has begun with, and with `-ELOOP` when a method has found too
many links. -/
def Settles (st : Walk σ) (r : Outcome σ α) : Prop :=
  ∃ st' out, r = some (st', out) ∧ (out ≠ .halt → st'.linkCount = st.linkCount) ∧
    (st.tooDeep = false → st'.tooDeep = true → out = .err eloop)

theorem Settles.now {st st' : Walk σ} (out : Result α) (hcount : st'.linkCount = st.linkCount)
    (hdeep : st'.tooDeep = st.tooDeep) : Settles st (some (st', out)) :=
  ⟨st', out, rfl, fun _ => hcount, fun h h' => by rw [hdeep, h] at h'; cases h'⟩

/-- What begins in a state with the same counter ends in the same way. -/
theorem Settles.mono {st st' : Walk σ} {r : Outcome σ α} (h : Settles st' r)
    (hcount : st'.linkCount = st.linkCount) (hdeep : st.tooDeep = false → st'.tooDeep = false) : Settles st r := by
  obtain ⟨t, out, hr, hc, hd⟩ := h
  exact ⟨t, out, hr, fun hne => (hc hne).trans hcount, fun hst => hd (hdeep hst)⟩

theorem Settles.andThen {st : Walk σ} {r : Outcome σ α} {f : α → Walk σ → Outcome σ β} (h : Settles st r)
    (hf : ∀ a st', st'.linkCount = st.linkCount → Settles st' (f a st')) : Settles st (andThen r f) := by
  obtain ⟨st', out, rfl, hcount, hdeep⟩ := h
  cases out with
  | ok a =>
    have hsame := hcount (fun heq => by cases heq)
    refine (hf a st' hsame).mono hsame fun hst => ?_
    cases hne : st'.tooDeep with
    | false => rfl
    | true => cases hdeep hst hne
  | err e => exact ⟨st', .err e, rfl, fun _ => hcount (fun heq => by cases heq), fun hst hst' => by
      cases hdeep hst hst'
      rfl⟩
  | halt => exact ⟨st', .halt, rfl, fun hne => absurd rfl hne, fun hst hst' => by
      cases hdeep hst hst'⟩

theorem call_ok_or_err (st : Walk σ) (f : σ → σ × Except ℤ α) :
    (∃ st' a, call st f = some (st', .ok a) ∧ st'.linkCount = st.linkCount ∧ st'.tooDeep = st.tooDeep) ∨
      ∃ st' e, call st f = some (st', .err e) ∧ st'.linkCount = st.linkCount ∧ st'.tooDeep = st.tooDeep := by
  unfold call
  cases hr : (f st.fs).2 with
  | ok a =>
    refine Or.inl ⟨{ st with fs := (f st.fs).1 }, a, ?_, rfl, rfl⟩
    simp only [hr]
  | error e =>
    refine Or.inr ⟨{ st with fs := (f st.fs).1 }, e, ?_, rfl, rfl⟩
    simp only [hr]

theorem startDir_same (path : Name) (base : Option ι) (st : Walk σ) :
    (startDir fs path base st).1.linkCount = st.linkCount ∧ (startDir fs path base st).1.tooDeep = st.tooDeep := by
  unfold startDir
  cases base <;> (simp only; split_ifs <;> exact ⟨rfl, rfl⟩)

variable {fs} in
theorem openFound_settles (flags : ℕ) (inode : ι) (st : Walk σ) : Settles st (openFound fs flags inode st) := by
  unfold openFound
  simp only
  split_ifs <;> exact Settles.now _ rfl rfl

section

variable {fs} {openNamei' : OpenFn σ ι} {c : ℤ}
  (hopen : c ≤ maxLinkCount → ∀ path flags base (st : Walk σ), st.linkCount = c + 1 →
    Settles st (openNamei' path flags base st))

include hopen

/-- A link is followed at most at the bound, and its target is opened with one link more. -/
theorem followTarget_settles (op : LinkOp) (release : ι → ι → σ → σ)
    (dir inode : ι) (flags : ℕ) (st : Walk σ) (hst : st.linkCount = c) :
    Settles st (followTarget fs op release openNamei' dir inode flags st) := by
  unfold followTarget
  by_cases hlnk : fs.mode st.fs inode ≠ .lnk
  · rw [if_pos hlnk]
    exact Settles.now _ rfl rfl
  · rw [if_neg hlnk]
    by_cases hdeep : maxLinkCount < st.linkCount
    · rw [if_pos hdeep]
      exact ⟨_, _, rfl, fun _ => rfl, fun _ _ => rfl⟩
    · rw [if_neg hdeep]
      dsimp only
      cases htarget : (fs.target op inode st.fs).2 with
      | error e => exact Settles.now _ rfl rfl
      | ok target =>
        obtain ⟨st', out, hr, hcount, htoo⟩ := hopen (by omega) target flags (some dir)
          { st with fs := fs.iput inode (fs.target op inode st.fs).1, linkCount := st.linkCount + 1 }
          (by rw [hst])
        simp only [hr, Option.map_some]
        refine ⟨_, out, rfl, fun hne => ?_, htoo⟩
        have := hcount hne
        simp only at this ⊢
        omega

variable (fs) in
theorem followLink_settles (dir inode : ι) (flags : ℕ) (st : Walk σ) (hst : st.linkCount = c) :
    Settles st (followLink fs openNamei' dir inode flags st) := by
  unfold followLink
  cases hop : fs.linkOp st.fs inode with
  | none => exact Settles.now _ rfl rfl
  | some op =>
    cases op with
    | mario => exact followTarget_settles hopen _ _ dir inode flags st hst
    | ext2 => exact followTarget_settles hopen _ _ dir inode flags st hst
    | proc => exact followTarget_settles hopen _ _ dir inode flags st hst

variable [DecidableEq ι]

variable (fs) in
theorem walkDirs_settles (names : List Name) (base : ι) (st : Walk σ) (hst : st.linkCount = c) :
    Settles st (walkDirs fs openNamei' names base st) := by
  induction names generalizing base st with
  | nil => exact Settles.now _ rfl rfl
  | cons name names ih =>
    rw [walkDirs]
    rcases call_ok_or_err (st.run (fs.iref base)) (lookup fs base name) with
      ⟨st', inode, hcall, hcount, hdeep⟩ | ⟨st', e, hcall, hcount, hdeep⟩
    · have hst' : st'.linkCount = c := hcount.trans hst
      have hfollow := followLink_settles fs hopen base inode 0 st' hst'
      rw [hcall]
      refine Settles.mono (hfollow.andThen fun base st'' hst'' => ih base st'' (hst''.trans hst')) hcount fun h => ?_
      exact hdeep.trans h
    · rw [hcall]
      exact Settles.now _ hcount hdeep

variable (fs) in
theorem dirNamei_settles (path : Name) (base : Option ι) (st : Walk σ) (hst : st.linkCount = c) :
    Settles st (dirNamei fs openNamei' path base st) := by
  obtain ⟨hcount, hdeep⟩ := startDir_same fs path base st
  unfold dirNamei
  simp only
  split_ifs with hdir
  · exact Settles.now _ hcount hdeep
  · have hwalk := walkDirs_settles fs hopen (splitPath (startDir fs path base st).2.2).1
      (startDir fs path base st).2.1 _ (hcount.trans hst)
    refine Settles.mono (hwalk.andThen fun base st' _ => ?_) hcount fun h => hdeep.trans h
    split_ifs
    · exact Settles.now _ rfl rfl
    · exact Settles.now _ rfl rfl

theorem namei_settles (path : Name) (base : Option ι) (follow : Bool) (st : Walk σ) (hst : st.linkCount = c) :
    Settles st (namei fs openNamei' path base follow st) := by
  unfold namei
  refine (dirNamei_settles fs hopen path base st hst).andThen fun r st' hst' => ?_
  rcases call_ok_or_err (st'.run (fs.iref r.2)) (lookup fs r.2 r.1) with
    ⟨t, inode, hcall, hcount, hdeep⟩ | ⟨t, e, hcall, hcount, hdeep⟩
  · rw [hcall]
    simp only
    cases follow with
    | true =>
      have hfollow := followLink_settles fs hopen r.2 inode 0 t (hcount.trans (hst'.trans hst))
      exact hfollow.mono hcount fun h => hdeep.trans h
    | false => exact Settles.now _ hcount hdeep
  · rw [hcall]
    exact Settles.now _ hcount hdeep

omit [DecidableEq ι] in
variable (fs) in
theorem openLooked_settles (flags : ℕ) (dir inode : ι) (st : Walk σ) (hst : st.linkCount = c) :
    Settles st (openLooked fs openNamei' flags dir inode st) := by
  unfold openLooked
  split_ifs with hlnk hno
  · exact Settles.now _ rfl rfl
  · exact (followLink_settles fs hopen dir inode flags st hst).andThen
      fun inode st' _ => openFound_settles flags inode st'
  · exact (openFound_settles flags inode (st.run (fs.iput dir))).mono rfl fun h => h

/-- A call of `open_namei` settles when the calls for links do. -/
theorem openNameiWith_settles (path : Name) (flags : ℕ) (base : Option ι) (st : Walk σ) (hst : st.linkCount = c) :
    Settles st (openNameiWith fs openNamei' path flags base st) := by
  unfold openNameiWith
  refine (dirNamei_settles fs hopen path base st hst).andThen fun r st' hst' => ?_
  simp only
  by_cases hname : r.1.length = 0
  · rw [if_pos hname]
    split_ifs
    · exact Settles.now _ rfl rfl
    · exact Settles.now _ rfl rfl
  · rw [if_neg hname]
    rcases call_ok_or_err (st'.run (fun s => fs.iref r.2 (fs.down r.2 s))) (lookup fs r.2 r.1) with
      ⟨t, inode, hcall, hcount, hdeep⟩ | ⟨t, e, hcall, hcount, hdeep⟩
    · rw [hcall]
      simp only
      split_ifs with hexcl
      · exact Settles.now _ hcount hdeep
      · have hlooked := openLooked_settles fs hopen flags r.2 inode (t.run (fs.up r.2)) (hcount.trans (hst'.trans hst))
        exact hlooked.mono hcount fun h => hdeep.trans h
    · rw [hcall]
      simp only
      by_cases hcreat : (!flags.testBit oCreat) = true
      · rw [if_pos hcreat]
        exact Settles.now _ hcount hdeep
      · rw [if_neg hcreat]
        cases hop : fs.createOp t.fs r.2 with
        | none => exact Settles.now _ hcount hdeep
        | some create =>
          simp only
          rcases call_ok_or_err (t.run (fs.iref r.2)) (create r.1) with
            ⟨u, inode, hcall', hcount', hdeep'⟩ | ⟨u, e', hcall', hcount', hdeep'⟩
          · rw [hcall']
            exact Settles.now _ (hcount'.trans hcount) (hdeep'.trans hdeep)
          · rw [hcall']
            exact Settles.now _ (hcount'.trans hcount) (hdeep'.trans hdeep)

end

variable [DecidableEq ι]

/-- Calls of `open_namei` inside one another are needed only for the links up to the bound. -/
theorem openNamei_settles (fs : FileSys σ ι) (n : ℕ) (path : Name) (flags : ℕ) (base : Option ι)
    (st : Walk σ) (hpos : 0 < n) (hdepth : maxLinkCount + 2 ≤ n + st.linkCount) :
    Settles st (openNamei fs n path flags base st) := by
  induction n generalizing path flags base st with
  | zero => omega
  | succ n ih =>
    refine openNameiWith_settles (c := st.linkCount) (fun hle path flags base st' hst' => ?_) path flags base st rfl
    unfold maxLinkCount at hle hdepth
    refine ih path flags base st' ?_ ?_
    · omega
    · unfold maxLinkCount
      omega

/-! ## The bound -/

/-- How many calls of `open_namei` are inside one another at most, from a number of links on. -/
def nesting (linkCount : ℤ) : ℕ := (maxLinkCount + 1 - linkCount).toNat + 1

/-- Whatever the directories and the links are, every walk ends, with at most a number of calls inside one
another that depends on `link_count` alone: it leaves `link_count` as it has been, and returns `-ELOOP` when the
bound is exceeded anywhere. -/
theorem walks_settle (fs : FileSys σ ι) (st : Walk σ) :
    (∀ path flags base, Settles st (openNamei fs (nesting st.linkCount) path flags base st)) ∧
      (∀ path base, Settles st (dirNamei fs (openNamei fs (nesting st.linkCount)) path base st)) ∧
      ∀ path base follow,
        Settles st (namei fs (openNamei fs (nesting st.linkCount)) path base follow st) := by
  have hopen : ∀ k : ℤ, st.linkCount ≤ k → ∀ path flags base (st' : Walk σ), st'.linkCount = k →
      Settles st' (openNamei fs (nesting st.linkCount) path flags base st') := by
    intro k hk path flags base st' hst'
    apply openNamei_settles
    · exact Nat.succ_pos _
    · unfold nesting maxLinkCount
      omega
  refine ⟨fun path flags base => hopen _ (Int.le_refl _) path flags base st rfl, fun path base => ?_,
    fun path base follow => ?_⟩
  · exact dirNamei_settles fs (fun _ => hopen _ (by omega)) path base st rfl
  · exact namei_settles (fun _ => hopen _ (by omega)) path base follow st rfl

/-! ## Chains of links -/

/-- In every state a name of the directory is a symbolic link with a target. -/
structure LinksTo (fs : FileSys σ ι) (dir : ι) (name target : Name) : Prop where
  isDir : ∀ s, fs.mode s dir = .dir
  plain : name ≠ [] ∧ name ≠ [dot, dot] ∧ slash ∉ name
  link : ∃ inode, (∀ s, ∃ f, fs.lookupOp s dir = some f ∧ (f name s).2 = .ok inode) ∧
    (∀ s, fs.mode s inode = .lnk) ∧
    ∀ s, ∃ op, fs.linkOp s inode = some op ∧ (fs.target op inode s).2 = .ok target

/-- So many links follow one another from a name on. -/
def Leads (fs : FileSys σ ι) (dir : ι) : ℕ → Name → Prop
  | 0, _ => True
  | n + 1, name => ∃ target, LinksTo fs dir name target ∧ Leads fs dir n target

theorem splitPath_of_not_mem {path : Name} (h : slash ∉ path) : splitPath path = ([], path) := by
  induction path with
  | nil => rfl
  | cons c path ih =>
    rw [List.mem_cons, not_or] at h
    rw [splitPath, ih h.2]
    dsimp only
    rw [if_neg (Ne.symm h.1)]

theorem LinksTo.dirNamei {fs : FileSys σ ι} {dir : ι} {name target : Name} (h : LinksTo fs dir name target)
    (openNamei : OpenFn σ ι) (st : Walk σ) : dirNamei fs openNamei name (some dir) st = some (st, .ok (name, dir)) := by
  obtain ⟨-, -, hslash⟩ := h.plain
  obtain ⟨inode, hlookup, -⟩ := h.link
  obtain ⟨f, hf, -⟩ := hlookup st.fs
  have hhead : name.head? ≠ some slash := fun hhead => hslash (List.mem_of_mem_head? hhead)
  rw [Namei.dirNamei, startDir]
  dsimp only
  rw [if_neg hhead]
  dsimp only
  rw [splitPath_of_not_mem hslash, if_neg (fun hnot => hnot (h.isDir st.fs)), walkDirs, andThen, hf, if_neg (by simp)]

/-- More links in a row than the bound allows are found, whatever else there is. -/
theorem leads_eloop {fs : FileSys σ ι} {dir : ι} {name : Name} {flags n : ℕ} {st : Walk σ} (h : Leads fs dir n name)
    (hn : n = nesting st.linkCount) (hflags : flags.testBit oNofollow = false ∧ flags.testBit oExcl = false) :
    ∃ st', openNamei fs n name flags (some dir) st = some (st', .err eloop) ∧ st'.tooDeep = true := by
  induction n generalizing name st with
  | zero => exact absurd hn (Nat.succ_ne_zero _).symm
  | succ n ih =>
    obtain ⟨target, hlink, hrest⟩ := h
    obtain ⟨hne, hdots, -⟩ := hlink.plain
    obtain ⟨inode, hlookup, hmode, htarget⟩ := hlink.link
    rw [openNamei, openNameiWith, hlink.dirNamei, andThen]
    dsimp only
    rw [if_neg (fun hzero => hne (List.eq_nil_of_length_eq_zero hzero))]
    -- the name is looked up, with the directory locked
    have hcall : ∀ st : Walk σ, ∃ s, call st (lookup fs dir name) = some ({ st with fs := s }, .ok inode) := by
      intro st
      obtain ⟨f, hf, hok⟩ := hlookup st.fs
      refine ⟨(f name st.fs).1, ?_⟩
      rw [call, lookup, if_neg (fun hzero => hne (List.eq_nil_of_length_eq_zero hzero)),
        if_neg (fun hboth => hdots hboth.1), if_neg (fun hboth => hdots hboth.1), lookupIn, hf]
      dsimp only
      rw [hok]
    obtain ⟨s, hs⟩ := hcall (st.run fun s => fs.iref dir (fs.down dir s))
    rw [hs]
    dsimp only
    rw [if_neg (by rw [hflags.2]; exact fun hboth => by cases hboth.2), openLooked, if_pos (hmode _), hflags.1,
      if_neg (by decide)]
    have hfollow : ∀ (op : LinkOp) (release : ι → ι → σ → σ) (st' : Walk σ), st'.linkCount = st.linkCount →
        (fs.target op inode st'.fs).2 = .ok target →
        ∃ st'', followTarget fs op release (openNamei fs n) dir inode flags st' = some (st'', .err eloop) ∧
          st''.tooDeep = true := by
      intro op release st' hcount hok
      rw [followTarget, if_neg (fun hnot => hnot (hmode _))]
      by_cases hdeep : maxLinkCount < st'.linkCount
      · rw [if_pos hdeep]
        exact ⟨_, rfl, rfl⟩
      · rw [if_neg hdeep]
        dsimp only
        rw [hok]
        have hnext : n = nesting (st'.linkCount + 1) := by
          unfold nesting maxLinkCount at hn ⊢
          unfold maxLinkCount at hdeep
          omega
        let next : Walk σ :=
          { st' with fs := fs.iput inode (fs.target op inode st'.fs).1, linkCount := st'.linkCount + 1 }
        obtain ⟨st'', heq, hfound⟩ := ih hrest (show n = nesting next.linkCount from hnext)
        dsimp only
        rw [heq]
        exact ⟨_, rfl, hfound⟩
    have hlinked : ∀ st' : Walk σ, st'.linkCount = st.linkCount →
        ∃ st'', followLink fs (openNamei fs n) dir inode flags st' = some (st'', .err eloop) ∧ st''.tooDeep = true := by
      intro st' hcount
      obtain ⟨op, hop, hok⟩ := htarget st'.fs
      rw [followLink, hop]
      cases op <;> exact hfollow _ _ st' hcount hok
    obtain ⟨st', heq, hfound⟩ := hlinked (({ st.run (fun s => fs.iref dir (fs.down dir s)) with fs := s }).run (fs.up dir)) rfl
    rw [heq]
    exact ⟨st', rfl, hfound⟩

/-- A link to itself is followed up to the bound. -/
theorem self_link_eloop {fs : FileSys σ ι} {dir : ι} {name : Name} {flags : ℕ} (h : LinksTo fs dir name name)
    (hflags : flags.testBit oNofollow = false ∧ flags.testBit oExcl = false) (st : Walk σ) :
    ∃ st', openNamei fs (nesting st.linkCount) name flags (some dir) st = some (st', .err eloop) := by
  have hleads : ∀ n, Leads fs dir n name := by
    intro n
    induction n with
    | zero => exact trivial
    | succ n ih => exact ⟨name, h, ih⟩
  obtain ⟨st', heq, -⟩ := leads_eloop (hleads _) rfl hflags
  exact ⟨st', heq⟩

end Mario.Fs.Namei
