import Mathlib.Tactic.Abel
import Mario.Fs.Namei

/-!
# The references of a path walk

A function that is given an inode to eat releases the reference of its caller, also when it fails. The walk
keeps to this for every path, every graph of links and every error: what its callers find changed in the counts
is what the methods of the file systems have left over. A ledger beside the state records that.
-/

namespace Mario.Fs.Namei

variable {σ τ ι α β : Type*} [DecidableEq ι]

/-- One reference to an inode. -/
def one (inode : ι) : ι → ℤ := Pi.single inode 1

/-- The reference that the result of a method is. -/
def returned : Except ℤ ι → ι → ℤ
  | .ok inode => one inode
  | .error _ => 0

/-- The reference to the directory that a walk begins in. -/
def baseRef : Option ι → ι → ℤ
  | some base => one base
  | none => 0

/-- What is called on inodes keeps to the rules: `lookup` and `create` eat their directory, and the others leave
the counts alone. -/
structure Keeps (fs : FileSys σ ι) (count : σ → ι → ℤ) : Prop where
  iref : ∀ inode s, count (fs.iref inode s) = count s + one inode
  iput : ∀ inode s, count (fs.iput inode s) = count s - one inode
  down : ∀ inode s, count (fs.down inode s) = count s
  up : ∀ inode s, count (fs.up inode s) = count s
  truncate : ∀ inode s, count (fs.truncate inode s) = count s
  target : ∀ op inode s, count (fs.target op inode s).1 = count s
  lookup : ∀ s dir f, fs.lookupOp s dir = some f →
    ∀ name t, count (f name t).1 = count t - one dir + returned (f name t).2
  create : ∀ s dir f, fs.createOp s dir = some f →
    ∀ name t, count (f name t).1 = count t - one dir + returned (f name t).2

/-- The references that the result of a call is. -/
def Result.given (refs : α → ι → ℤ) : Result α → ι → ℤ
  | .ok a => refs a
  | .err _ => 0
  | .halt => 0

/-- A call that returns has eaten these references and given those of its result. -/
def Balances (count : σ → ι → ℤ) (refs : α → ι → ℤ) (eaten : ι → ℤ) (st : Walk σ) (r : Outcome σ α) : Prop :=
  ∀ st' out, r = some (st', out) → out ≠ .halt → count st'.fs = count st.fs - eaten + out.given refs

section Balance

variable {fs : FileSys σ ι} {count : σ → ι → ℤ} {refs : α → ι → ℤ} {refs' : β → ι → ℤ} {eaten : ι → ℤ}
  {openNamei' : OpenFn σ ι}

omit [DecidableEq ι] in
theorem Balances.now {st st' : Walk σ} {out : Result α} (h : count st'.fs = count st.fs - eaten + out.given refs) :
    Balances count refs eaten st (some (st', out)) := by
  rintro _ _ ⟨⟩ _
  exact h

omit [DecidableEq ι] in
theorem Balances.halt {st st' : Walk σ} : Balances count refs eaten st (some (st', Result.halt)) := by
  rintro _ _ ⟨⟩ hne
  exact absurd rfl hne

omit [DecidableEq ι] in
/-- What begins with other counts, and eats as much more or less. -/
theorem Balances.mono {st st' : Walk σ} {eaten' : ι → ℤ} {r : Outcome σ α}
    (h : Balances count refs eaten' st' r) (hsame : count st'.fs - eaten' = count st.fs - eaten) :
    Balances count refs eaten st r := by
  intro t out hr hne
  rw [h t out hr hne, hsame]

omit [DecidableEq ι] in
theorem Balances.andThen {st : Walk σ} {r : Outcome σ α} {f : α → Walk σ → Outcome σ β}
    (h : Balances count refs eaten st r) (hf : ∀ a st', Balances count refs' (refs a) st' (f a st')) :
    Balances count refs' eaten st (andThen r f) := by
  rcases r with - | ⟨st', out⟩
  · intro _ _ hr
    cases hr
  · cases out with
    | ok a =>
      refine (hf a st').mono ?_
      rw [h st' (.ok a) rfl (fun heq => by cases heq)]
      simp only [Result.given]
      abel
    | err e => exact Balances.now (h st' (.err e) rfl fun heq => by cases heq)
    | halt => exact Balances.halt

omit [DecidableEq ι] in
/-- A call into a file system gives a reference or an error. -/
theorem call_cases (st : Walk σ) (f : σ → σ × Except ℤ α) :
    (∃ a, (f st.fs).2 = .ok a ∧ call st f = some ({ st with fs := (f st.fs).1 }, .ok a)) ∨
      ∃ e, (f st.fs).2 = .error e ∧ call st f = some ({ st with fs := (f st.fs).1 }, .err e) := by
  unfold call
  cases hr : (f st.fs).2 with
  | ok a => exact Or.inl ⟨a, rfl, by simp only [hr]⟩
  | error e => exact Or.inr ⟨e, rfl, by simp only [hr]⟩

variable (hkeep : Keeps fs count)

include hkeep

theorem lookupIn_keeps (dir : ι) (name : Name) (s : σ) :
    count (lookupIn fs dir name s).1 = count s - one dir + returned (lookupIn fs dir name s).2 := by
  unfold lookupIn
  cases hop : fs.lookupOp s dir with
  | none =>
    simp only [returned, hkeep.iput]
    abel
  | some f => exact hkeep.lookup s dir f hop name s

/-- `lookup` eats its directory, also at the root and at a mount point. -/
theorem lookup_keeps (dir : ι) (name : Name) (s : σ) :
    count (lookup fs dir name s).1 = count s - one dir + returned (lookup fs dir name s).2 := by
  unfold lookup
  split_ifs with hempty hroot hmounted
  · simp only [returned]
    abel
  · simp only [returned]
    abel
  · cases hcovered : fs.covered s dir with
    | none =>
      simp only [returned, hkeep.iput]
      abel
    | some covered =>
      simp only
      rw [lookupIn_keeps hkeep, hkeep.iref, hkeep.iput]
      abel
  · exact lookupIn_keeps hkeep dir name s

theorem startDir_some (path : Name) (base : ι) (st : Walk σ) :
    count (startDir fs path (some base) st).1.fs =
      count st.fs - one base + one (startDir fs path (some base) st).2.1 := by
  unfold startDir
  dsimp only
  split_ifs with hslash
  · simp only [hkeep.iref, hkeep.iput]
  · abel

theorem startDir_balances (path : Name) (base : Option ι) (st : Walk σ) :
    count (startDir fs path base st).1.fs = count st.fs - baseRef base + one (startDir fs path base st).2.1 := by
  cases base with
  | some base => exact startDir_some hkeep path base st
  | none =>
    change count (startDir fs path (some (fs.pwd st.fs)) (st.run (fs.iref (fs.pwd st.fs)))).1.fs = _
    rw [startDir_some hkeep]
    simp only [Walk.run, hkeep.iref, baseRef]
    abel

theorem openFound_balances (flags : ℕ) (inode : ι) (st : Walk σ) :
    Balances count one (one inode) st (openFound fs flags inode st) := by
  unfold openFound
  dsimp only
  split_ifs
  all_goals
    refine Balances.now ?_
    simp only [Walk.run, Result.given, hkeep.iput, hkeep.truncate]
    abel

section

variable (hopen : ∀ path flags base (st : Walk σ), Balances count one (baseRef base) st (openNamei' path flags base st))

include hopen

theorem followTarget_balances (op : LinkOp) {release : ι → ι → σ → σ}
    (hrelease : ∀ dir inode s, count (release dir inode s) = count s - one dir - one inode)
    (dir inode : ι) (flags : ℕ) (st : Walk σ) : Balances count one (one dir + one inode) st
      (followTarget fs op release openNamei' dir inode flags st) := by
  unfold followTarget
  split_ifs with hlnk hdeep
  · refine Balances.now ?_
    simp only [Walk.run, Result.given, hkeep.iput]
    abel
  · refine Balances.now ?_
    simp only [Walk.run, Result.given, hkeep.iput]
    abel
  · dsimp only
    cases htarget : (fs.target op inode st.fs).2 with
    | error e =>
      refine Balances.now ?_
      simp only [Result.given, hrelease, hkeep.target]
      abel
    | ok target =>
      rintro st' out hr hne
      obtain ⟨⟨t, out'⟩, ho, heq⟩ := Option.map_eq_some_iff.mp hr
      cases heq
      have h := hopen target flags (some dir) _ t out' ho hne
      simp only [baseRef, hkeep.iput, hkeep.target] at h
      simp only [h]
      abel

theorem followLink_balances (dir inode : ι) (flags : ℕ) (st : Walk σ) :
    Balances count one (one dir + one inode) st (followLink fs openNamei' dir inode flags st) := by
  unfold followLink
  cases hop : fs.linkOp st.fs inode with
  | none =>
    refine Balances.now ?_
    simp only [Walk.run, Result.given, hkeep.iput]
    abel
  | some op =>
    cases op with
    | ext2 =>
      refine followTarget_balances hkeep hopen .ext2 (fun dir inode s => ?_) dir inode flags st
      rw [hkeep.iput, hkeep.iput]
    | mario =>
      refine followTarget_balances hkeep hopen .mario (fun dir inode s => ?_) dir inode flags st
      rw [hkeep.iput, hkeep.iput]
      abel
    | proc =>
      refine followTarget_balances hkeep hopen .proc (fun dir inode s => ?_) dir inode flags st
      rw [hkeep.iput, hkeep.iput]

theorem walkDirs_balances (names : List Name) (base : ι) (st : Walk σ) :
    Balances count one (one base) st (walkDirs fs openNamei' names base st) := by
  induction names generalizing base st with
  | nil =>
    refine Balances.now ?_
    simp only [Result.given]
    abel
  | cons name names ih =>
    rw [walkDirs]
    have hlookup := lookup_keeps hkeep base name (fs.iref base st.fs)
    rcases call_cases (st.run (fs.iref base)) (lookup fs base name) with
      ⟨inode, hr, hcall⟩ | ⟨e, hr, hcall⟩
    · simp only [Walk.run] at hr
      rw [hr, hkeep.iref] at hlookup
      rw [hcall]
      refine Balances.mono ((followLink_balances hkeep hopen base inode 0 _).andThen fun base st' => ih base st') ?_
      simp only [Walk.run, hlookup, returned]
      abel
    · simp only [Walk.run] at hr
      rw [hr, hkeep.iref] at hlookup
      rw [hcall]
      refine Balances.now ?_
      simp only [Walk.run, hkeep.iput, hlookup, returned, Result.given]
      abel

theorem dirNamei_balances (path : Name) (base : Option ι) (st : Walk σ) :
    Balances count (fun r : Name × ι => one r.2) (baseRef base) st (dirNamei fs openNamei' path base st) := by
  unfold dirNamei
  dsimp only
  split_ifs with hdir
  · exact Balances.halt
  · have hwalk := walkDirs_balances hkeep hopen (splitPath (startDir fs path base st).2.2).1
      (startDir fs path base st).2.1 (startDir fs path base st).1
    refine Balances.mono (hwalk.andThen fun base st' => ?_) ?_
    · split_ifs with hop
      · refine Balances.now ?_
        simp only [Walk.run, Result.given, hkeep.iput]
        abel
      · refine Balances.now ?_
        simp only [Result.given]
        abel
    · rw [startDir_balances hkeep]
      abel

theorem openLooked_balances (flags : ℕ) (dir inode : ι) (st : Walk σ) :
    Balances count one (one dir + one inode) st (openLooked fs openNamei' flags dir inode st) := by
  unfold openLooked
  split_ifs with hlnk hnofollow
  · refine Balances.now ?_
    simp only [Walk.run, Result.given, hkeep.iput]
    abel
  · exact (followLink_balances hkeep hopen dir inode flags st).andThen fun inode st' =>
      openFound_balances hkeep flags inode st'
  · refine (openFound_balances hkeep flags inode _).mono ?_
    simp only [Walk.run, hkeep.iput]
    abel

theorem openNameiWith_balances (path : Name) (flags : ℕ) (base : Option ι) (st : Walk σ) :
    Balances count one (baseRef base) st (openNameiWith fs openNamei' path flags base st) := by
  unfold openNameiWith
  refine (dirNamei_balances hkeep hopen path base st).andThen fun r st' => ?_
  obtain ⟨name, dir⟩ := r
  dsimp only
  by_cases hempty : name.length = 0
  · rw [if_pos hempty]
    split_ifs with hwrite
    · refine Balances.now ?_
      simp only [Walk.run, Result.given, hkeep.iput]
      abel
    · refine Balances.now ?_
      simp only [Result.given]
      abel
  rw [if_neg hempty]
  have hlookup := lookup_keeps hkeep dir name (fs.iref dir (fs.down dir st'.fs))
  rw [hkeep.iref, hkeep.down] at hlookup
  rcases call_cases (st'.run fun s => fs.iref dir (fs.down dir s)) (lookup fs dir name) with
    ⟨inode, hr, hcall⟩ | ⟨e, hr, hcall⟩
  · simp only [Walk.run] at hr
    rw [hr] at hlookup
    rw [hcall]
    dsimp only
    split_ifs with hexcl
    · refine Balances.now ?_
      simp only [Walk.run, Result.given, hkeep.iput, hkeep.up, hlookup, returned]
      abel
    · refine (openLooked_balances hkeep hopen flags dir inode _).mono ?_
      simp only [Walk.run, hkeep.up, hlookup, returned]
      abel
  · simp only [Walk.run] at hr
    rw [hr] at hlookup
    rw [hcall]
    dsimp only
    by_cases hcreat : (!flags.testBit oCreat) = true
    · rw [if_pos hcreat]
      refine Balances.now ?_
      simp only [Walk.run, Result.given, hkeep.iput, hkeep.up, hlookup, returned]
      abel
    rw [if_neg hcreat]
    cases hop : fs.createOp (lookup fs dir name (fs.iref dir (fs.down dir st'.fs))).1 dir with
    | none =>
      simp only [Walk.run, hop]
      refine Balances.now ?_
      simp only [Result.given, hkeep.iput, hkeep.up, hlookup, returned]
      abel
    | some create =>
      have hcreate := hkeep.create _ dir create hop name
        (fs.iref dir (lookup fs dir name (fs.iref dir (fs.down dir st'.fs))).1)
      rw [hkeep.iref, hlookup] at hcreate
      simp only [Walk.run, hop]
      rcases call_cases (st'.run fun s => fs.iref dir (lookup fs dir name (fs.iref dir (fs.down dir s))).1)
        (create name) with ⟨inode, hr', hcall'⟩ | ⟨e', hr', hcall'⟩
      · simp only [Walk.run] at hr' hcall'
        rw [hr'] at hcreate
        rw [hcall']
        refine Balances.now ?_
        simp only [Result.given, hkeep.iput, hkeep.up, hcreate, returned]
        abel
      · simp only [Walk.run] at hr' hcall'
        rw [hr'] at hcreate
        rw [hcall']
        refine Balances.now ?_
        simp only [Result.given, hkeep.iput, hkeep.up, hcreate, returned]
        abel

end

/-- `open_namei` eats the directory that it begins in and gives a reference to the inode that it finds. -/
theorem openNamei_balances (n : ℕ) (path : Name) (flags : ℕ) (base : Option ι) (st : Walk σ) :
    Balances count one (baseRef base) st (openNamei fs n path flags base st) := by
  induction n generalizing path flags base st with
  | zero =>
    intro _ _ hr
    cases hr
  | succ n ih => exact openNameiWith_balances hkeep ih path flags base st

end Balance

/-! ## What a walk does not see -/

/-- A method does the same, as far as `h` sees it. -/
def Same (h : σ → τ) (f : Name → σ → σ × Except ℤ ι) (f' : Name → τ → τ × Except ℤ ι) : Prop :=
  ∀ name s, ((h (f name s).1, (f name s).2) : τ × Except ℤ ι) = f' name (h s)

/-- The file systems do the same, as far as `h` sees it, and see no more themselves. -/
structure Simulates (fs : FileSys σ ι) (fs' : FileSys τ ι) (h : σ → τ) : Prop where
  mode : ∀ s inode, fs.mode s inode = fs'.mode (h s) inode
  root : ∀ s, fs.root s = fs'.root (h s)
  pwd : ∀ s, fs.pwd s = fs'.pwd (h s)
  isMounted : ∀ s inode, fs.isMounted s inode = fs'.isMounted (h s) inode
  covered : ∀ s inode, fs.covered s inode = fs'.covered (h s) inode
  linkOp : ∀ s inode, fs.linkOp s inode = fs'.linkOp (h s) inode
  lookupOp : ∀ s dir, Option.Rel (Same h) (fs.lookupOp s dir) (fs'.lookupOp (h s) dir)
  createOp : ∀ s dir, Option.Rel (Same h) (fs.createOp s dir) (fs'.createOp (h s) dir)
  target : ∀ op inode s, ((h (fs.target op inode s).1, (fs.target op inode s).2) : τ × Except ℤ Name) =
    fs'.target op inode (h s)
  iref : ∀ inode s, h (fs.iref inode s) = fs'.iref inode (h s)
  iput : ∀ inode s, h (fs.iput inode s) = fs'.iput inode (h s)
  down : ∀ inode s, h (fs.down inode s) = fs'.down inode (h s)
  up : ∀ inode s, h (fs.up inode s) = fs'.up inode (h s)
  truncate : ∀ inode s, h (fs.truncate inode s) = fs'.truncate inode (h s)

omit [DecidableEq ι] in
theorem isNone_of_rel {r : α → β → Prop} {a : Option α} {b : Option β} (hrel : Option.Rel r a b) :
    a.isNone = b.isNone := by
  cases hrel <;> rfl

/-- The state of a walk, as `h` sees it. -/
def Walk.map (h : σ → τ) (st : Walk σ) : Walk τ :=
  { fs := h st.fs, linkCount := st.linkCount, tooDeep := st.tooDeep }

/-- The end of a call, as `h` sees it. -/
def seen (h : σ → τ) (r : Outcome σ α) : Outcome τ α := r.map fun o => (o.1.map h, o.2)

section Seen

variable {fs : FileSys σ ι} {fs' : FileSys τ ι} {h : σ → τ} {openNamei' : OpenFn σ ι} {openNamei'' : OpenFn τ ι}

omit [DecidableEq ι] in
@[simp] theorem seen_some (st : Walk σ) (out : Result α) : seen h (some (st, out)) = some (st.map h, out) := rfl

omit [DecidableEq ι] in
theorem seen_andThen {r : Outcome σ α} {f : α → Walk σ → Outcome σ β} {f' : α → Walk τ → Outcome τ β}
    (hf : ∀ a st, seen h (f a st) = f' a (st.map h)) : seen h (andThen r f) = andThen (seen h r) f' := by
  rcases r with - | ⟨st, out⟩
  · rfl
  · cases out with
    | ok a => exact hf a st
    | err e => rfl
    | halt => rfl

omit [DecidableEq ι] in
theorem map_run (st : Walk σ) {f : σ → σ} {f' : τ → τ} (hf : ∀ s, h (f s) = f' (h s)) :
    (st.run f).map h = (st.map h).run f' := by
  simp only [Walk.map, Walk.run, hf]

omit [DecidableEq ι] in
theorem seen_call (st : Walk σ) {f : σ → σ × Except ℤ α} {f' : τ → τ × Except ℤ α}
    (hf : ∀ s, ((h (f s).1, (f s).2) : τ × Except ℤ α) = f' (h s)) : seen h (call st f) = call (st.map h) f' := by
  unfold call
  simp only [Walk.map, ← hf]
  cases (f st.fs).2 with
  | ok a => rfl
  | error e => rfl

variable (hsim : Simulates fs fs' h)

include hsim

omit [DecidableEq ι] in
theorem lookupIn_seen (dir : ι) (name : Name) (s : σ) :
    ((h (lookupIn fs dir name s).1, (lookupIn fs dir name s).2) : τ × Except ℤ ι) = lookupIn fs' dir name (h s) := by
  have hrel := hsim.lookupOp s dir
  unfold lookupIn
  rcases hop : fs.lookupOp s dir with - | f <;> rcases hop' : fs'.lookupOp (h s) dir with - | f' <;>
    rw [hop, hop'] at hrel <;> cases hrel
  · rw [← hsim.iput]
  case some.some hsame => exact hsame name s

theorem lookup_seen (dir : ι) (name : Name) (s : σ) :
    ((h (lookup fs dir name s).1, (lookup fs dir name s).2) : τ × Except ℤ ι) = lookup fs' dir name (h s) := by
  unfold lookup
  rw [← hsim.root, ← hsim.isMounted, ← hsim.covered]
  split_ifs with hempty hroot hmounted
  · rfl
  · rfl
  · cases fs.covered s dir with
    | none =>
      simp only
      rw [← hsim.iput]
    | some covered =>
      simp only
      rw [lookupIn_seen hsim, hsim.iref, hsim.iput]
  · exact lookupIn_seen hsim dir name s

omit [DecidableEq ι] in
theorem startDir_seen (path : Name) (base : Option ι) (st : Walk σ) :
    startDir fs' path base (st.map h) = ((startDir fs path base st).1.map h, (startDir fs path base st).2) := by
  unfold startDir
  cases base with
  | none =>
    dsimp only
    split_ifs with hslash <;> simp only [Walk.map, Walk.run, hsim.pwd, hsim.root, hsim.iput, hsim.iref]
  | some base =>
    dsimp only
    split_ifs with hslash <;> simp only [Walk.map, hsim.root, hsim.iput, hsim.iref]

omit [DecidableEq ι] in
theorem openFound_seen (flags : ℕ) (inode : ι) (st : Walk σ) :
    seen h (openFound fs flags inode st) = openFound fs' flags inode (st.map h) := by
  have hmode : fs'.mode (st.map h).fs inode = fs.mode st.fs inode := (hsim.mode st.fs inode).symm
  unfold openFound
  rw [hmode]
  dsimp only
  split_ifs
  · rw [seen_some, map_run st (hsim.iput inode)]
  · rw [seen_some, map_run st (hsim.iput inode)]
  · rw [seen_some, map_run st (hsim.truncate inode)]
  · rfl

section

variable (hopen : ∀ path flags base st, seen h (openNamei' path flags base st) = openNamei'' path flags base (st.map h))

include hopen

omit [DecidableEq ι] in
theorem followTarget_seen (op : LinkOp) {release : ι → ι → σ → σ} {release' : ι → ι → τ → τ}
    (hrelease : ∀ dir inode s, h (release dir inode s) = release' dir inode (h s))
    (dir inode : ι) (flags : ℕ) (st : Walk σ) :
    seen h (followTarget fs op release openNamei' dir inode flags st) =
      followTarget fs' op release' openNamei'' dir inode flags (st.map h) := by
  have htarget := hsim.target op inode st.fs
  have hmode : fs'.mode (st.map h).fs inode = fs.mode st.fs inode := (hsim.mode st.fs inode).symm
  have hcount : (st.map h).linkCount = st.linkCount := rfl
  have hfs : (st.map h).fs = h st.fs := rfl
  unfold followTarget
  rw [hmode, hcount, hfs, ← htarget]
  split_ifs with hlnk hdeep
  · rw [seen_some, map_run st (hsim.iput dir)]
  · simp only [seen_some, Walk.map, Walk.run, hsim.iput]
  · dsimp only
    cases (fs.target op inode st.fs).2 with
    | error e => simp only [seen_some, Walk.map, hrelease]
    | ok target =>
      have ho := hopen target flags (some dir)
        { st with fs := fs.iput inode (fs.target op inode st.fs).1, linkCount := st.linkCount + 1 }
      simp only [Walk.map, hsim.iput] at ho
      simp only [seen, Walk.map, Option.map_map]
      rw [← ho]
      simp only [seen, Option.map_map]
      rfl

omit [DecidableEq ι] in
theorem followLink_seen (dir inode : ι) (flags : ℕ) (st : Walk σ) :
    seen h (followLink fs openNamei' dir inode flags st) = followLink fs' openNamei'' dir inode flags (st.map h) := by
  have hop : fs'.linkOp (st.map h).fs inode = fs.linkOp st.fs inode := (hsim.linkOp st.fs inode).symm
  unfold followLink
  rw [hop]
  cases fs.linkOp st.fs inode with
  | none =>
    dsimp only
    rw [seen_some, map_run st (hsim.iput dir)]
  | some op =>
    cases op with
    | ext2 =>
      exact followTarget_seen hsim hopen .ext2 (fun dir inode s => by rw [hsim.iput, hsim.iput]) dir inode flags st
    | mario =>
      exact followTarget_seen hsim hopen .mario (fun dir inode s => by rw [hsim.iput, hsim.iput]) dir inode flags st
    | proc =>
      exact followTarget_seen hsim hopen .proc (fun dir inode s => by rw [hsim.iput, hsim.iput]) dir inode flags st

theorem walkDirs_seen (names : List Name) (base : ι) (st : Walk σ) :
    seen h (walkDirs fs openNamei' names base st) = walkDirs fs' openNamei'' names base (st.map h) := by
  induction names generalizing base st with
  | nil => rfl
  | cons name names ih =>
    have hcall := seen_call (st.run (fs.iref base)) (lookup_seen hsim base name)
    rw [map_run st (hsim.iref base)] at hcall
    rw [walkDirs, walkDirs, ← hcall]
    rcases call_cases (st.run (fs.iref base)) (lookup fs base name) with
      ⟨inode, -, hr⟩ | ⟨e, -, hr⟩
    · rw [hr]
      simp only [seen_some]
      rw [seen_andThen fun base st => ih base st, followLink_seen hsim hopen]
    · rw [hr]
      simp only [seen_some]
      rw [map_run _ (hsim.iput base)]

theorem dirNamei_seen (path : Name) (base : Option ι) (st : Walk σ) :
    seen h (dirNamei fs openNamei' path base st) = dirNamei fs' openNamei'' path base (st.map h) := by
  unfold dirNamei
  rw [startDir_seen hsim]
  dsimp only
  have hmode : fs'.mode ((startDir fs path base st).1.map h).fs (startDir fs path base st).2.1 =
      fs.mode (startDir fs path base st).1.fs (startDir fs path base st).2.1 := (hsim.mode _ _).symm
  rw [hmode]
  split_ifs with hdir
  · rfl
  · rw [← walkDirs_seen hsim hopen]
    refine seen_andThen fun base st' => ?_
    rw [(isNone_of_rel (hsim.lookupOp st'.fs base) :
      _ = (fs'.lookupOp (st'.map h).fs base).isNone)]
    split_ifs
    · rw [seen_some, map_run _ (hsim.iput base)]
    · rfl

omit [DecidableEq ι] in
theorem openLooked_seen (flags : ℕ) (dir inode : ι) (st : Walk σ) :
    seen h (openLooked fs openNamei' flags dir inode st) = openLooked fs' openNamei'' flags dir inode (st.map h) := by
  have hmode : fs'.mode (st.map h).fs inode = fs.mode st.fs inode := (hsim.mode st.fs inode).symm
  unfold openLooked
  rw [hmode]
  split_ifs
  · simp only [seen_some, Walk.map, Walk.run, hsim.iput]
  · rw [seen_andThen fun inode st => openFound_seen hsim flags inode st, followLink_seen hsim hopen]
  · rw [openFound_seen hsim, map_run st (hsim.iput dir)]

theorem openNameiWith_seen (path : Name) (flags : ℕ) (base : Option ι) (st : Walk σ) :
    seen h (openNameiWith fs openNamei' path flags base st) =
      openNameiWith fs' openNamei'' path flags base (st.map h) := by
  unfold openNameiWith
  rw [← dirNamei_seen hsim hopen]
  refine seen_andThen fun r st' => ?_
  obtain ⟨name, dir⟩ := r
  dsimp only
  by_cases hempty : name.length = 0
  · rw [if_pos hempty, if_pos hempty]
    split_ifs
    · rw [seen_some, map_run _ (hsim.iput dir)]
    · rfl
  rw [if_neg hempty, if_neg hempty]
  have hcall := seen_call (st'.run fun s => fs.iref dir (fs.down dir s)) (lookup_seen hsim dir name)
  have hrun : (st'.run fun s => fs.iref dir (fs.down dir s)).map h =
      (st'.map h).run fun s => fs'.iref dir (fs'.down dir s) :=
    map_run st' fun s => by rw [hsim.iref, hsim.down]
  rw [hrun] at hcall
  rw [← hcall]
  rcases call_cases (st'.run fun s => fs.iref dir (fs.down dir s)) (lookup fs dir name) with
    ⟨inode, -, hr⟩ | ⟨e, -, hr⟩
  · rw [hr]
    simp only [seen_some]
    split_ifs with hexcl
    · simp only [seen_some, Walk.map, Walk.run, hsim.iput, hsim.up]
    · rw [openLooked_seen hsim hopen, map_run _ (hsim.up dir)]
  · rw [hr]
    simp only [seen_some]
    by_cases hcreat : (!flags.testBit oCreat) = true
    · rw [if_pos hcreat, if_pos hcreat]
      simp only [seen_some, Walk.map, Walk.run, hsim.iput, hsim.up]
    rw [if_neg hcreat, if_neg hcreat]
    have hrel := hsim.createOp (lookup fs dir name (fs.iref dir (fs.down dir st'.fs))).1 dir
    simp only [Walk.run, Walk.map]
    rcases hop : fs.createOp (lookup fs dir name (fs.iref dir (fs.down dir st'.fs))).1 dir with - | create <;>
      rcases hop' : fs'.createOp (h (lookup fs dir name (fs.iref dir (fs.down dir st'.fs))).1) dir with
        - | create' <;>
      rw [hop, hop'] at hrel <;> cases hrel
    · simp only [seen_some, Walk.map, hsim.iput, hsim.up]
    case some.some hsame =>
      dsimp only
      have hcreated := seen_call (st'.run fun s => fs.iref dir (lookup fs dir name (fs.iref dir (fs.down dir s))).1)
        (hsame name)
      simp only [Walk.run, Walk.map, hsim.iref] at hcreated
      rw [← hcreated]
      rcases call_cases (st'.run fun s => fs.iref dir (lookup fs dir name (fs.iref dir (fs.down dir s))).1)
        (create name) with ⟨inode, -, hr'⟩ | ⟨e', -, hr'⟩
      all_goals
        simp only [Walk.run] at hr'
        rw [hr']
        simp only [seen_some, Walk.map, hsim.iput, hsim.up]

end

theorem openNamei_seen (n : ℕ) (path : Name) (flags : ℕ) (base : Option ι) (st : Walk σ) :
    seen h (openNamei fs n path flags base st) = openNamei fs' n path flags base (st.map h) := by
  induction n generalizing path flags base st with
  | zero => rfl
  | succ n ih => exact openNameiWith_seen hsim ih path flags base st

end Seen

/-! ## What the methods leave over -/

section Account

variable (fs : FileSys σ ι) (count : σ → ι → ℤ)

/-- Call a function that should change the counts by `due`, and record by how much else it does. -/
def tally (due : ι → ℤ) (f : σ → σ) (s : σ × (ι → ℤ)) : σ × (ι → ℤ) :=
  (f s.1, s.2 + (count (f s.1) - count s.1 - due))

/-- `lookup` or `create` in the directory, with the record. -/
def tallyMethod (dir : ι) (f : Name → σ → σ × Except ℤ ι) (name : Name) (s : σ × (ι → ℤ)) :
    (σ × (ι → ℤ)) × Except ℤ ι :=
  (tally count (returned (f name s.1).2 - one dir) (fun s => (f name s).1) s, (f name s.1).2)

/-- The file systems with a ledger beside their state. -/
def account : FileSys (σ × (ι → ℤ)) ι where
  mode s := fs.mode s.1
  root s := fs.root s.1
  pwd s := fs.pwd s.1
  isMounted s := fs.isMounted s.1
  covered s := fs.covered s.1
  lookupOp s dir := (fs.lookupOp s.1 dir).map (tallyMethod count dir)
  createOp s dir := (fs.createOp s.1 dir).map (tallyMethod count dir)
  linkOp s := fs.linkOp s.1
  target op inode s := (tally count 0 (fun s => (fs.target op inode s).1) s, (fs.target op inode s.1).2)
  iref inode := tally count (one inode) (fs.iref inode)
  iput inode := tally count (-one inode) (fs.iput inode)
  down inode := tally count 0 (fs.down inode)
  up inode := tally count 0 (fs.up inode)
  truncate inode := tally count 0 (fs.truncate inode)

omit [DecidableEq ι] in
theorem tally_keeps (due : ι → ℤ) (f : σ → σ) (s : σ × (ι → ℤ)) :
    count (tally count due f s).1 - (tally count due f s).2 = count s.1 - s.2 + due := by
  simp only [tally]
  abel

/-- The counts without what stands in the ledger keep to the rules. -/
theorem account_keeps : Keeps (account fs count) fun s => count s.1 - s.2 where
  iref inode s := tally_keeps count (one inode) (fs.iref inode) s
  iput inode s := by
    rw [sub_eq_add_neg _ (one inode)]
    exact tally_keeps count (-one inode) (fs.iput inode) s
  down inode s := (tally_keeps count 0 (fs.down inode) s).trans (add_zero _)
  up inode s := (tally_keeps count 0 (fs.up inode) s).trans (add_zero _)
  truncate inode s := (tally_keeps count 0 (fs.truncate inode) s).trans (add_zero _)
  target op inode s := (tally_keeps count 0 (fun s => (fs.target op inode s).1) s).trans (add_zero _)
  lookup s dir f hf name t := by
    obtain ⟨g, -, rfl⟩ := Option.map_eq_some_iff.mp hf
    refine (tally_keeps count (returned (g name t.1).2 - one dir) (fun s => (g name s).1) t).trans ?_
    simp only [tallyMethod]
    abel
  create s dir f hf name t := by
    obtain ⟨g, -, rfl⟩ := Option.map_eq_some_iff.mp hf
    refine (tally_keeps count (returned (g name t.1).2 - one dir) (fun s => (g name s).1) t).trans ?_
    simp only [tallyMethod]
    abel

theorem tallyMethod_rel (dir : ι) (op : Option (Name → σ → σ × Except ℤ ι)) :
    Option.Rel (Same Prod.fst) (op.map (tallyMethod count dir)) op := by
  cases op with
  | none => exact Option.Rel.none
  | some f => exact Option.Rel.some fun name s => rfl

theorem account_simulates : Simulates (account fs count) fs Prod.fst where
  mode _ _ := rfl
  root _ := rfl
  pwd _ := rfl
  isMounted _ _ := rfl
  covered _ _ := rfl
  linkOp _ _ := rfl
  lookupOp s dir := tallyMethod_rel count dir (fs.lookupOp s.1 dir)
  createOp s dir := tallyMethod_rel count dir (fs.createOp s.1 dir)
  target _ _ _ := rfl
  iref _ _ := rfl
  iput _ _ := rfl
  down _ _ := rfl
  up _ _ := rfl
  truncate _ _ := rfl

/-- What the calls of a walk on inodes leave over in the counts: what stands in an empty ledger after it. -/
def leftOver (n : ℕ) (path : Name) (flags : ℕ) (base : Option ι) (st : Walk σ) : ι → ℤ :=
  match openNamei (account fs count) n path flags base
      { fs := (st.fs, 0), linkCount := st.linkCount, tooDeep := st.tooDeep } with
  | some (st', _) => st'.fs.2
  | none => 0

variable {fs count}

/-- The counts after a walk: the references eaten and given, and what its calls on inodes leave over. -/
theorem openNamei_count {n : ℕ} {path : Name} {flags : ℕ} {base : Option ι} {st st' : Walk σ} {out : Result ι}
    (h : openNamei fs n path flags base st = some (st', out)) (hout : out ≠ .halt) :
    count st'.fs = count st.fs - baseRef base + out.given one + leftOver fs count n path flags base st := by
  have hseen := openNamei_seen (account_simulates fs count) n path flags base
    { fs := (st.fs, 0), linkCount := st.linkCount, tooDeep := st.tooDeep }
  have hmap : Walk.map Prod.fst
      ({ fs := (st.fs, (0 : ι → ℤ)), linkCount := st.linkCount, tooDeep := st.tooDeep } : Walk _) = st := rfl
  rw [hmap, h] at hseen
  obtain ⟨⟨t, out'⟩, hr, heq⟩ := Option.map_eq_some_iff.mp hseen
  cases heq
  have hcount := openNamei_balances (account_keeps fs count) n path flags base _ t out' hr hout
  have hleft : leftOver fs count n path flags base st = t.fs.2 := by
    unfold leftOver
    rw [hr]
  rw [hleft]
  simp only [Walk.map, sub_zero] at hcount ⊢
  rw [← hcount]
  abel

end Account

end Mario.Fs.Namei
