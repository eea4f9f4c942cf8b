import Mario.Fs.Files

/-!
# The counts of open files

`f_count` of a file is the number of its references: of the descriptors, the areas, the rights in
sockets and the running calls that have one. The proof moves references between their holders; the
invariant allows for references that nobody holds any more, which some error paths leave behind.
-/

namespace Mario.Fs.Files

open Mario.Lib Function

/-! ## References -/

/-- The descriptors of a table that have the file. -/
def slots (f : ℕ) (t : FilesStruct) : ℕ := cells nrOpen fun fd => decide (t.fd fd = some f)

/-- The areas that map the file. -/
def mapped (f : ℕ) (l : List Area) : ℕ := (l.map Area.vmFile).count f

/-- The rights that a socket has to the file. -/
def inFlight (f : ℕ) (x : Socket) : ℕ := x.files.count f

/-- The references that a piece of work has. -/
def Work.held : Work → List ℕ
  | .drop f | .finish f | .put f => [f]
  | .unmap _ v _ _ => [v.vmFile]
  | .close _ _ | .closeOnExec _ _ | .dup _ _ _ => []

/-- The references that a call has. -/
def Call.held : Call → List ℕ
  | .work todo => todo.flatMap Work.held
  | .lookup _ _ f | .opening _ _ f | .fifoTest _ _ f | .fifoInit _ _ f | .fifoLink _ _ f
  | .fifoWait _ _ f | .publish _ _ f => [f]
  | .polling files => files
  | .received _ right => [right]
  | .done | .using _ | .sending _ _ _ | .receiving _ _ | .accepting _ _ _ => []

/-- The number of references to a file. -/
def references (s : State) (f : ℕ) : ℕ :=
  total (slots f) s.tables + total (mapped f) s.spaces + total (inFlight f) s.sockets +
    total (fun c => c.held.count f) s.calls

/-- The files that a call uses without a reference of its own. -/
def Call.used : Call → List ℕ
  | .using f | .receiving _ f | .accepting _ _ f => [f]
  | .sending f right _ => [f, right]
  | _ => []

/-- A running call uses the file. -/
def InUse (s : State) (f : ℕ) : Prop := ∃ c ∈ s.calls, f ∈ c.used

instance (s : State) (f : ℕ) : Decidable (InUse s f) :=
  inferInstanceAs (Decidable (∃ c ∈ s.calls, f ∈ c.used))

/-! ## Steps that keep the counts -/

/-- The files of which a piece of work takes references. -/
def Work.taken (s : State) : Work → List ℕ
  | .dup tbl fd arg => if (nextFd tbl arg s).isSome then (slot tbl fd s).toList else []
  | .unmap _ v addr fin => (unmapPieces v addr fin).map Area.vmFile
  | _ => []

/-- The files of which a step takes references. -/
def taken (s : State) : Label → List ℕ
  | .dup tbl fd arg => Work.taken s (.dup tbl fd arg)
  | .run k =>
      match s.calls[k]? with
      | some (.work (w :: _)) => w.taken s
      | _ => []
  | .sendRight k =>
      match s.calls[k]? with
      | some (.sending _ right _) => [right]
      | _ => []
  | .mmap _ tbl fd _ _ => (slot tbl fd s).toList.filter fun f => (s.file f).fOp = .plain
  | .dupMmap mm n => ((s.spaces[mm]?.getD []).take n).map Area.vmFile
  | .poll tbl fds => pollFiles tbl fds s
  | _ => []

/-- The file of which a piece of work drops a reference. -/
def Work.dropped : Work → Option ℕ
  | .drop f | .put f => some f
  | .unmap _ v addr fin => if unmapPieces v addr fin = [] then some v.vmFile else none
  | _ => none

/-- The file of which a step drops a reference. -/
def dropped (s : State) : Label → Option ℕ
  | .run k =>
      match s.calls[k]? with
      | some (.work (w :: _)) => w.dropped
      | _ => none
  | _ => none

/-- The counts do not wrap around when references to these files are taken. -/
def Room (s : State) (l : List ℕ) : Prop := ∀ f ∈ l, (s.file f).fCount + l.count f < shortSize

instance (s : State) (l : List ℕ) : Decidable (Room s l) :=
  inferInstanceAs (Decidable (∀ f ∈ l, (s.file f).fCount + l.count f < shortSize))

/-- No file is released while a call uses it. -/
def Idle (s : State) (a : Label) : Prop :=
  ∀ f ∈ dropped s a, (s.file f).fCount = 1 → ¬ InUse s f

instance (s : State) (a : Label) : Decidable (Idle s a) :=
  inferInstanceAs (Decidable (∀ f ∈ dropped s a, (s.file f).fCount = 1 → ¬ InUse s f))

/-- A socket pair gets both files or none. -/
def Paired (s : State) : Label → Prop
  | .socketpair tbl _ _ =>
      (twoFds tbl s).isSome → (emptyFile s).isSome → (twoEmptyFiles s).isSome
  | _ => True

instance (s : State) (a : Label) : Decidable (Paired s a) := by
  cases a <;> unfold Paired <;> infer_instance

/-- A step that keeps the count of a file from falling below the number of its references. -/
structure Sound (s : State) (a : Label) : Prop where
  room : Room s (taken s a)
  idle : Idle s a
  paired : Paired s a

instance (s : State) (a : Label) : Decidable (Sound s a) :=
  decidable_of_iff (Room s (taken s a) ∧ Idle s a ∧ Paired s a)
    ⟨fun h => ⟨h.1, h.2.1, h.2.2⟩, fun h => ⟨h.room, h.idle, h.paired⟩⟩

/-- A reference in hand finds its descriptor, and the descriptor is free. -/
def Installed (s : State) : Label → Prop
  | .pipe tbl _ page => page → (twoEmptyFiles s).isSome → (twoFds tbl s).isSome
  | .publish k =>
      match s.calls[k]? with
      | some (.publish tbl fd _) => slot tbl fd s = none
      | _ => True
  | .accepted k _ =>
      match s.calls[k]? with
      | some (.accepting tbl newfd _) => (emptyFile s).isSome → slot tbl newfd s = none
      | _ => True
  | .recvInstall k control =>
      match s.calls[k]? with
      | some (.received tbl _) => control ∧ (nextFd tbl 0 s).isSome
      | _ => True
  | _ => True

instance (s : State) (a : Label) : Decidable (Installed s a) := by
  cases a <;> unfold Installed <;> try infer_instance
  all_goals
    dsimp only
    split <;> infer_instance

/-- A step that keeps the counts. -/
def Good (s : State) (a : Label) : Prop := Sound s a ∧ Installed s a

instance (s : State) (a : Label) : Decidable (Good s a) :=
  inferInstanceAs (Decidable (Sound s a ∧ Installed s a))

/-- The count of every file is the number of its references, and a file that is in use is not
free. -/
structure Counted (s : State) : Prop where
  count : ∀ f, (s.file f).fCount = references s f
  used : ∀ f, InUse s f → 0 < (s.file f).fCount

/-- The references that a step leaves without a holder. -/
def leaked (s : State) : Label → List ℕ
  | .pipe tbl _ page =>
      match page, twoEmptyFiles s, twoFds tbl s with
      | true, some (f, g), none => [f, g]
      | _, _, _ => []
  | .publish k =>
      match s.calls[k]? with
      | some (.publish tbl fd _) => (slot tbl fd s).toList
      | _ => []
  | .accepted k _ =>
      match s.calls[k]? with
      | some (.accepting tbl newfd _) =>
          if (emptyFile s).isSome then (slot tbl newfd s).toList else []
      | _ => []
  | .recvInstall k control =>
      match s.calls[k]? with
      | some (.received tbl right) => if control ∧ (nextFd tbl 0 s).isSome then [] else [right]
      | _ => []
  | _ => []

/-! ## The invariant -/

/-- The files to which only this piece of work has a reference. -/
def Work.sole : Work → List ℕ
  | .finish f => [f]
  | _ => []

/-- The files to which only this call has a reference. -/
def Call.sole : Call → List ℕ
  | .work todo => todo.flatMap Work.sole
  | .lookup _ _ f | .opening _ _ f | .fifoTest _ _ f | .fifoInit _ _ f | .fifoLink _ _ f
  | .fifoWait _ _ f | .publish _ _ f => [f]
  | _ => []

/-- One call has the only reference to the file. -/
def Sole (s : State) (f : ℕ) : Prop := ∃ c ∈ s.calls, f ∈ c.sole

/-- The descriptor that a call has chosen. -/
def Call.place : Call → Option (ℕ × ℕ)
  | .lookup tbl fd _ | .opening tbl fd _ | .fifoTest tbl fd _ | .fifoInit tbl fd _
  | .fifoLink tbl fd _ | .fifoWait tbl fd _ | .publish tbl fd _ | .accepting tbl fd _ =>
      some (tbl, fd)
  | _ => none

/-- The counts are right, up to the references that nobody holds. -/
structure Inv (lost : List ℕ) (s : State) : Prop where
  count : ∀ f, (s.file f).fCount = references s f + lost.count f
  small : ∀ f, (s.file f).fCount < shortSize
  sole : ∀ f, Sole s f → (s.file f).fCount = 1 ∧ ¬ InUse s f
  used : ∀ f, InUse s f → 0 < (s.file f).fCount
  placed : ∀ c ∈ s.calls, ∀ p ∈ c.place, p.1 < s.tables.length ∧ p.2 < nrOpen

variable {s s' : State} {lost lost' : List ℕ} {f g tbl fd i k mm : ℕ} {c c' : Call}

theorem Inv.perm (h : Inv lost s) (hperm : lost.Perm lost') : Inv lost' s :=
  { h with count := fun f => by rw [h.count f, hperm.count_eq f] }

/-- References move between descriptors, areas, sockets and those without a holder. -/
theorem Inv.moves (h : Inv lost s) (hfile : ∀ f, (s'.file f).fCount = (s.file f).fCount)
    (htables : s.tables.length ≤ s'.tables.length) (hcalls : s'.calls = s.calls)
    (hcount : ∀ f, references s' f + lost'.count f = references s f + lost.count f) : Inv lost' s' := by
  have huse : ∀ f, InUse s' f ↔ InUse s f := by
    intro f
    rw [InUse, InUse, hcalls]
  refine ⟨fun f => ?_, fun f => ?_, fun f hf => ?_, fun f hf => ?_, fun c hc p hp => ?_⟩
  · have hold := h.count f
    have hnew := hcount f
    rw [hfile]
    omega
  · rw [hfile]
    exact h.small f
  · rw [Sole, hcalls] at hf
    rw [hfile, huse]
    exact h.sole f hf
  · rw [hfile]
    exact h.used f ((huse f).mp hf)
  · rw [hcalls] at hc
    have hplace := h.placed c hc p hp
    exact ⟨hplace.1.trans_le htables, hplace.2⟩

theorem Inv.congr (h : Inv lost s) (hfile : ∀ f, (s'.file f).fCount = (s.file f).fCount)
    (htables : s'.tables = s.tables) (hspaces : s'.spaces = s.spaces)
    (hsockets : s'.sockets = s.sockets) (hcalls : s'.calls = s.calls) : Inv lost s' := by
  refine h.moves hfile (by rw [htables]) hcalls fun f => ?_
  rw [references, references, htables, hspaces, hsockets, hcalls]

/-! ## Descriptors -/

theorem slot_eq {t : FilesStruct} (ht : s.tables[tbl]? = some t) (hfd : fd < nrOpen) : slot tbl fd s = t.fd fd := by
  simp [slot, ht, hfd]

theorem slot_some (h : slot tbl fd s = some f) : tbl < s.tables.length ∧ fd < nrOpen := by
  rw [slot, Option.bind_eq_some_iff] at h
  obtain ⟨t, ht, hslot⟩ := h
  split_ifs at hslot with hfd
  exact ⟨(List.getElem?_eq_some_iff.mp ht).1, hfd⟩

theorem nextFd_some {start : ℕ} (h : nextFd tbl start s = some fd) :
    tbl < s.tables.length ∧ fd < nrOpen ∧ start ≤ fd ∧ slot tbl fd s = none := by
  rw [nextFd, Option.bind_eq_some_iff] at h
  obtain ⟨t, ht, hfind⟩ := h
  have hfd := List.mem_range.mp (List.mem_of_find?_eq_some hfind)
  have hspec := List.find?_some hfind
  simp only [decide_eq_true_eq] at hspec
  exact ⟨(List.getElem?_eq_some_iff.mp ht).1, hfd, hspec.1, by rw [slot_eq ht hfd, hspec.2]⟩

theorem slots_update (t : FilesStruct) (hfd : fd < nrOpen) (o : Option ℕ) :
    slots f { t with fd := update t.fd fd o } + (t.fd fd).toList.count f = slots f t + o.toList.count f := by
  have hcells := @cells_change fd nrOpen (fun n => decide (t.fd n = some f))
    (fun n => decide (update t.fd fd o n = some f)) hfd
    fun m hm => by rw [update_of_ne hm]
  rw [update_self] at hcells
  have hone : ∀ o' : Option ℕ, o'.toList.count f = (decide (o' = some f)).toNat := by
    intro o'
    cases o' with
    | none => simp
    | some g => by_cases hg : g = f <;> simp [hg]
  rw [hone, hone]
  exact hcells

theorem references_setSlot (htbl : tbl < s.tables.length) (hfd : fd < nrOpen) (o : Option ℕ) :
    references (setSlot tbl fd o s) f + (slot tbl fd s).toList.count f = references s f + o.toList.count f := by
  have ht := List.getElem?_eq_getElem htbl
  have htotal := total_modify (g := slots f) (F := fun t => { t with fd := update t.fd fd o }) ht
  have hslots := slots_update (f := f) s.tables[tbl] hfd o
  rw [slot_eq ht hfd]
  simp only [references, setSlot]
  omega

theorem Inv.setSlot {o : Option ℕ} (h : Inv (o.toList ++ lost) s) (tbl fd : ℕ)
    (htbl : tbl < s.tables.length) (hfd : fd < nrOpen) : Inv ((slot tbl fd s).toList ++ lost) (setSlot tbl fd o s) := by
  refine h.moves (fun _ => rfl) (by simp [Files.setSlot]) rfl fun f => ?_
  have hrefs := references_setSlot (f := f) htbl hfd o
  rw [List.count_append, List.count_append]
  omega

theorem Inv.setCloseOnExec (h : Inv lost s) (tbl fd : ℕ) (b : Bool) : Inv lost (setCloseOnExec tbl fd b s) := by
  have hrefs : ∀ f, references (Files.setCloseOnExec tbl fd b s) f = references s f := by
    intro f
    rcases htbl : s.tables[tbl]? with _ | t
    · have hsame : s.tables.modify tbl (fun t =>
          { t with closeOnExec := update t.closeOnExec fd b }) = s.tables :=
        List.modify_eq_self (List.getElem?_eq_none_iff.mp htbl)
      simp only [references, Files.setCloseOnExec, hsame]
    · have htotal := total_modify (g := slots f)
        (F := fun t => { t with closeOnExec := update t.closeOnExec fd b }) htbl
      have hslots : slots f { t with closeOnExec := update t.closeOnExec fd b } = slots f t :=
        rfl
      simp only [references, Files.setCloseOnExec]
      omega
  exact h.moves (fun _ => rfl) (by simp [Files.setCloseOnExec]) rfl fun f => by rw [hrefs]

/-! ## Calls -/

theorem sole_held (hf : f ∈ c.sole) : f ∈ c.held := by
  cases c with
  | work todo =>
    rw [Call.sole, List.mem_flatMap] at hf
    obtain ⟨w, hw, hfw⟩ := hf
    refine List.mem_flatMap.mpr ⟨w, hw, ?_⟩
    cases w <;> simp_all [Work.sole, Work.held]
  | _ => simp_all [Call.sole, Call.held]

theorem Inv.alone (h : Inv lost s) (hf : Sole s f) :
    total (slots f) s.tables = 0 ∧ total (mapped f) s.spaces = 0 ∧
      total (inFlight f) s.sockets = 0 ∧ lost.count f = 0 := by
  have hone := (h.sole f hf).1
  obtain ⟨c, hc, hfc⟩ := hf
  obtain ⟨k, hk⟩ := List.getElem?_of_mem hc
  have hle := le_total (g := fun c : Call => c.held.count f) hk
  have hpos := List.count_pos_iff.mpr (sole_held hfc)
  have hcount := h.count f
  simp only [references] at hcount
  omega

theorem Inv.not_sole_of_lost (h : Inv lost s) (hf : f ∈ lost) : ¬ Sole s f := by
  intro hsole
  have hpos := List.count_pos_iff.mpr hf
  have hzero := (h.alone hsole).2.2.2
  omega

/-- A file with a descriptor has a reference, and no sole holder. -/
theorem Inv.of_slot (h : Inv lost s) (hf : slot tbl fd s = some f) : 0 < (s.file f).fCount ∧ ¬ Sole s f := by
  have hplace := slot_some hf
  have ht := List.getElem?_eq_getElem hplace.1
  have hle := le_total (g := slots f) ht
  have hpos : 0 < slots f s.tables[tbl] := by
    rw [slot_eq ht hplace.2] at hf
    exact cells_pos.mpr ⟨fd, hplace.2, by rw [hf, decide_eq_true rfl]⟩
  constructor
  · have hcount := h.count f
    simp only [references] at hcount
    omega
  · intro hsole
    have hzero := (h.alone hsole).1
    omega

theorem references_setCall (hk : s.calls[k]? = some c) (c' : Call) :
    references (setCall k c' s) f + c.held.count f = references s f + c'.held.count f := by
  have htotal := total_set (g := fun c : Call => c.held.count f) (y := c') hk
  simp only [references, setCall]
  omega

theorem references_startCall (c : Call) : references (startCall c s) f = references s f + c.held.count f := by
  simp only [references, startCall, total_append, total_cons, total_nil]
  omega

/-- What is new in the calls of a state. -/
structure Fits (c : Call) (s : State) : Prop where
  sole : ∀ f ∈ c.sole, (s.file f).fCount = 1 ∧ ¬ InUse s f ∧ f ∉ c.used
  used : ∀ f ∈ c.used, 0 < (s.file f).fCount ∧ ¬ Sole s f
  place : ∀ p ∈ c.place, p.1 < s.tables.length ∧ p.2 < nrOpen

theorem Inv.calls (h : Inv lost s) (hfit : Fits c s) (hfile : s'.file = s.file) (htables : s'.tables = s.tables)
    (hcalls : ∀ d ∈ s'.calls, d = c ∨ d ∈ s.calls)
    (hcount : ∀ f, references s' f + lost'.count f = references s f + lost.count f) : Inv lost' s' := by
  have huse : ∀ f, InUse s' f → f ∈ c.used ∨ InUse s f := by
    rintro f ⟨d, hd, hf⟩
    rcases hcalls d hd with rfl | hd
    · exact Or.inl hf
    · exact Or.inr ⟨d, hd, hf⟩
  refine ⟨fun f => ?_, fun f => ?_, ?_, fun f hf => ?_, fun d hd p hp => ?_⟩
  · have hold := h.count f
    have hnew := hcount f
    rw [hfile]
    omega
  · rw [hfile]
    exact h.small f
  · rintro f ⟨d, hd, hf⟩
    rw [hfile]
    rcases hcalls d hd with rfl | hd
    · have hone := hfit.sole f hf
      refine ⟨hone.1, fun hin => ?_⟩
      rcases huse f hin with hin | hin
      · exact hone.2.2 hin
      · exact hone.2.1 hin
    · have hsole : Sole s f := ⟨d, hd, hf⟩
      have hone := h.sole f hsole
      refine ⟨hone.1, fun hin => ?_⟩
      rcases huse f hin with hin | hin
      · exact (hfit.used f hin).2 hsole
      · exact hone.2 hin
  · rw [hfile]
    rcases huse f hf with hf | hf
    · exact (hfit.used f hf).1
    · exact h.used f hf
  · rw [htables]
    rcases hcalls d hd with rfl | hd
    · exact hfit.place p hp
    · exact h.placed d hd p hp

theorem Inv.setCall (h : Inv lost s) (hk : s.calls[k]? = some c) (hfit : Fits c' s)
    (hcount : ∀ f, lost'.count f + c'.held.count f = lost.count f + c.held.count f) : Inv lost' (setCall k c' s) := by
  refine h.calls hfit rfl rfl (fun d hd => (List.mem_or_eq_of_mem_set hd).symm) fun f => ?_
  have hrefs := references_setCall (f := f) hk c'
  have := hcount f
  omega

theorem Inv.startCall (h : Inv (c.held ++ lost) s) (hfit : Fits c s) : Inv lost (startCall c s) := by
  refine h.calls hfit rfl rfl (fun d hd => ?_) fun f => ?_
  · rcases List.mem_append.mp hd with hd | hd
    · exact Or.inr hd
    · exact Or.inl (List.mem_singleton.mp hd)
  · rw [references_startCall, List.count_append]
    omega

theorem fits_of_nil (hsole : c.sole = []) (hused : c.used = []) (hplace : c.place = none) : Fits c s := by
  constructor
  · simp [hsole]
  · simp [hused]
  · simp [hplace]

theorem Inv.fits_of_eq (h : Inv lost s) (hk : s.calls[k]? = some c) (hsole : c'.sole ⊆ c.sole)
    (hused : c'.used = []) (hplace : c'.place = c.place) : Fits c' s := by
  have hmem := List.mem_of_getElem? hk
  refine ⟨fun f hf => ?_, by simp [hused], fun p hp => h.placed c hmem p (hplace ▸ hp)⟩
  have hone := h.sole f ⟨c, hmem, hsole hf⟩
  exact ⟨hone.1, hone.2, by simp [hused]⟩

theorem Inv.finishCall (h : Inv lost s) (hk : s.calls[k]? = some c) :
    Inv (c.held ++ lost) (Files.setCall k .done s) := by
  refine h.setCall hk (fits_of_nil rfl rfl rfl) fun f => ?_
  rw [List.count_append, Call.held, List.count_nil]
  omega

/-! ## Files -/

theorem setFile_file (f : ℕ) (x : File) (s : State) (g : ℕ) :
    (setFile f x s).file g = if g = f then x else s.file g :=
  update_apply s.file f x g

theorem Inv.setFile {x : File} (h : Inv lost s) (hcount : x.fCount + lost.count f = (s.file f).fCount + lost'.count f)
    (hother : ∀ g, g ≠ f → lost'.count g = lost.count g) (hsmall : x.fCount < shortSize)
    (hsole : Sole s f → x.fCount = 1) (hused : InUse s f → 0 < x.fCount) : Inv lost' (setFile f x s) := by
  have hfile := setFile_file f x s
  refine ⟨fun g => ?_, fun g => ?_, fun g hg => ?_, fun g hg => ?_, h.placed⟩
  · rw [hfile]
    have hold := h.count g
    change _ = references s g + _
    split_ifs with hgf
    · subst hgf
      omega
    · rw [hother g hgf]
      exact hold
  · rw [hfile]
    split_ifs
    · exact hsmall
    · exact h.small g
  · have hone := h.sole g hg
    rw [hfile]
    refine ⟨?_, hone.2⟩
    split_ifs with hgf
    · exact hsole (hgf ▸ hg)
    · exact hone.1
  · rw [hfile]
    split_ifs with hgf
    · exact hused (hgf ▸ hg)
    · exact h.used g hg

theorem Inv.setFile_eq {x : File} (h : Inv lost s) (hx : x.fCount = (s.file f).fCount) :
    Inv lost (Files.setFile f x s) := by
  refine h.setFile (by rw [hx]) (fun _ _ => rfl) (hx ▸ h.small f) (fun hf => ?_) fun hf => ?_
  · rw [hx]
    exact (h.sole f hf).1
  · rw [hx]
    exact h.used f hf

theorem Inv.setInode (h : Inv lost s) (i : ℕ) (x : Inode) : Inv lost (setInode i x s) :=
  h.congr (fun _ => rfl) rfl rfl rfl rfl

theorem count_cons_other (hg : g ≠ f) : (f :: lost).count g = lost.count g :=
  List.count_cons_of_ne (Ne.symm hg)

theorem Inv.alloc {x : File} (h : Inv lost s) (hfree : (s.file f).fCount = 0) (hx : x.fCount = 1) :
    Inv (f :: lost) (Files.setFile f x s) := by
  refine h.setFile ?_ (fun g hg => count_cons_other hg) (by rw [hx]; decide) (fun _ => hx) ?_
  · rw [hx, hfree, List.count_cons_self]
    omega
  · intro _
    omega

theorem emptyFile_some (h : emptyFile s = some f) : f < nrFile ∧ (s.file f).fCount = 0 := by
  unfold emptyFile at h
  have hmem := List.mem_of_find?_eq_some h
  have hfree := List.find?_some h
  rw [decide_eq_true_eq] at hfree
  exact ⟨List.mem_range.mp hmem, hfree⟩

theorem Inv.fref (h : Inv lost s) (hlt : (s.file f).fCount + 1 < shortSize) (hsole : ¬ Sole s f) :
    Inv (f :: lost) (fref f s) := by
  have hmod : ((s.file f).fCount + 1) % shortSize = (s.file f).fCount + 1 := Nat.mod_eq_of_lt hlt
  refine h.setFile ?_ (fun g hg => count_cons_other hg) ?_ (fun hf => absurd hf hsole) ?_
  · rw [List.count_cons_self]
    simp only [hmod]
    omega
  · simp only [hmod]
    exact hlt
  · intro _
    simp only [hmod]
    omega

theorem Inv.drop {x : File} (h : Inv (f :: lost) s) (hx : x.fCount + 1 = (s.file f).fCount)
    (hidle : (s.file f).fCount = 1 → ¬ InUse s f) : Inv lost (Files.setFile f x s) := by
  have hsmall := h.small f
  refine h.setFile ?_ (fun g hg => (count_cons_other hg).symm) (by omega) ?_ ?_
  · rw [List.count_cons_self]
    omega
  · intro hf
    exact absurd hf (h.not_sole_of_lost List.mem_cons_self)
  · intro hf
    by_contra hzero
    exact hidle (by omega) hf

theorem Inv.finishFile (h : Inv (f :: lost) s) (hone : (s.file f).fCount = 1)
    (hidle : ¬ InUse s f) : Inv lost (finishFile f s) := by
  have hdrop : Inv lost (Files.setFile f { s.file f with
      fCount := ((s.file f).fCount + (shortSize - 1)) % shortSize, fInode := none } s) := by
    refine h.drop ?_ fun _ => hidle
    simp only [hone]
    decide
  unfold Files.finishFile
  dsimp only
  split
  · exact hdrop.setInode _ _
  · exact hdrop

theorem Inv.putFile (h : Inv (f :: lost) s) (hidle : (s.file f).fCount = 1 → ¬ InUse s f)
    (hput : putFile f s = some s') : Inv lost s' := by
  unfold Files.putFile at hput
  split_ifs at hput with hzero hmore
  · cases hput
    refine h.drop ?_ hidle
    change (s.file f).fCount - 1 + 1 = _
    omega
  · cases hput
    have hone : (s.file f).fCount = 1 := by omega
    exact h.finishFile hone (hidle hone)

theorem frefs_eq (l : List ℕ) (s : State) : frefs l s = { s with file := (frefs l s).file } := by
  induction l generalizing s with
  | nil => rfl
  | cons f l ih =>
    change frefs l (fref f s) = { s with file := (frefs l (fref f s)).file }
    rw [ih (fref f s)]
    rfl

theorem room_fref {l : List ℕ} (hroom : Room s (f :: l)) : Room (Files.fref f s) l := by
  have hfirst := hroom f List.mem_cons_self
  rw [List.count_cons_self] at hfirst
  have hmod : ((s.file f).fCount + 1) % shortSize = (s.file f).fCount + 1 :=
    Nat.mod_eq_of_lt (by omega)
  intro g hg
  have hroomg := hroom g (List.mem_cons_of_mem f hg)
  rw [Files.fref, setFile_file]
  rw [List.count_cons] at hroomg
  by_cases hgf : g = f
  · subst hgf
    simp only [if_pos, hmod, beq_self_eq_true] at hroomg ⊢
    omega
  · rw [if_neg hgf]
    rw [if_neg (by simpa using Ne.symm hgf)] at hroomg
    omega

theorem Inv.frefs {l : List ℕ} (h : Inv lost s) (hroom : Room s l) (hsole : ∀ f ∈ l, ¬ Sole s f) :
    Inv (l ++ lost) (frefs l s) := by
  induction l generalizing s lost with
  | nil => exact h
  | cons f l ih =>
    have hfirst := hroom f List.mem_cons_self
    rw [List.count_cons_self] at hfirst
    have hrest := ih (h.fref (by omega) (hsole f List.mem_cons_self)) (room_fref hroom)
      fun g hg => hsole g (List.mem_cons_of_mem f hg)
    exact hrest.perm List.perm_middle

/-! ## Sockets -/

theorem references_setSocket {x : Socket} (hk : s.sockets[k]? = some x) (x' : Socket) :
    references (setSocket k x' s) f + x.files.count f = references s f + x'.files.count f := by
  have htotal := total_set (g := inFlight f) (y := x') hk
  simp only [references, setSocket, inFlight] at htotal ⊢
  omega

theorem Inv.setSocket {x x' : Socket} (h : Inv lost s) (hk : s.sockets[k]? = some x)
    (hcount : ∀ f, lost'.count f + x'.files.count f = lost.count f + x.files.count f) :
    Inv lost' (setSocket k x' s) := by
  refine h.moves (fun _ => rfl) le_rfl rfl fun f => ?_
  have hrefs := references_setSocket (f := f) hk x'
  have := hcount f
  omega

theorem Inv.setSocket_eq {x x' : Socket} (h : Inv lost s) (hk : s.sockets[k]? = some x)
    (hrights : x'.rights = x.rights) : Inv lost (Files.setSocket k x' s) :=
  h.setSocket hk fun f => by rw [Socket.files, Socket.files, hrights]

theorem Inv.destroySocket {x x' : Socket} (h : Inv lost s) (hk : s.sockets[k]? = some x)
    (hrights : x'.rights = []) : Inv (x.files ++ lost) (Files.setSocket k x' s) := by
  refine h.setSocket hk fun f => ?_
  have hnone : x'.files = [] := by rw [Socket.files, hrights, List.map_nil]
  rw [List.count_append, hnone, List.count_nil]
  omega

theorem Inv.socketRelease {l : List ℕ} (h : Inv lost s) (hr : socketRelease k s = some (s', l)) :
    Inv (l ++ lost) s' ∧ s'.file = s.file ∧ s'.calls = s.calls := by
  rw [Files.socketRelease, Option.bind_eq_some_iff] at hr
  obtain ⟨x, hk, hr⟩ := hr
  dsimp only at hr
  split_ifs at hr with hzero hopens
  · cases hr
    exact ⟨h.setSocket_eq hk rfl, rfl, rfl⟩
  · split at hr
    · cases hr
      exact ⟨h.destroySocket hk rfl, rfl, rfl⟩
    · rename_i p hpeer
      split at hr
      · cases hr
      · rename_i y hy
        split_ifs at hr with hyopens hlt
        · cases hr
          exact ⟨h.setSocket_eq hk rfl, rfl, rfl⟩
        all_goals
          cases hr
          -- a socket that is open is not its own peer
          have hne : k ≠ p := by
            rintro rfl
            rw [hk] at hy
            cases hy
            omega
          have hfirst : Inv (x.files ++ lost) (Files.setSocket k { x with opens := x.opens - 1, rights := [] } s) :=
            h.destroySocket hk rfl
          have hother : (Files.setSocket k { x with opens := x.opens - 1, rights := [] }
              s).sockets[p]? = some y := by
            rw [Files.setSocket, List.getElem?_set_ne hne]
            exact hy
          have hboth : Inv (y.files ++ (x.files ++ lost))
              (Files.setSocket p { y with rights := [] }
                (Files.setSocket k { x with opens := x.opens - 1, rights := [] } s)) :=
            hfirst.destroySocket hother rfl
          refine ⟨hboth.perm ?_, rfl, rfl⟩
          rw [← List.append_assoc]
        exact List.perm_append_comm.append_right lost

/-! ## Work -/

/-- What a piece of work returns. -/
structure Worked (lost : List ℕ) (s : State) (r : State × List Work) : Prop where
  inv : Inv (r.2.flatMap Work.held ++ lost) r.1
  calls : r.1.calls = s.calls
  sole : ∀ f ∈ r.2.flatMap Work.sole, (r.1.file f).fCount = 1 ∧ ¬ InUse s f

theorem flatMap_drop_held (l : List ℕ) : (l.map Work.drop).flatMap Work.held = l := by
  induction l with
  | nil => rfl
  | cons f l ih => rw [List.map_cons, List.flatMap_cons, ih, Work.held, List.singleton_append]

theorem flatMap_drop_sole (l : List ℕ) : (l.map Work.drop).flatMap Work.sole = [] := by
  simp [List.flatMap_eq_nil_iff, Work.sole]

theorem finishFile_calls (f : ℕ) (s : State) : (finishFile f s).calls = s.calls := by
  unfold finishFile
  dsimp only
  split <;> rfl

theorem putFile_calls (h : putFile f s = some s') : s'.calls = s.calls := by
  unfold putFile at h
  split_ifs at h
  · rw [← Option.some.inj h]
    rfl
  · rw [← Option.some.inj h]
    exact finishFile_calls f s

theorem Inv.releaseFile {r : State × List Work} (h : Inv (f :: lost) s)
    (hidle : (s.file f).fCount = 1 → ¬ InUse s f) (hr : releaseFile f s = some r) : Worked lost s r := by
  unfold Files.releaseFile at hr
  by_cases hzero : (s.file f).fCount = 0
  · rw [if_pos hzero] at hr
    cases hr
  rw [if_neg hzero] at hr
  by_cases hmore : 1 < (s.file f).fCount
  · rw [if_pos hmore] at hr
    cases hr
    refine ⟨h.drop ?_ hidle, rfl, by simp⟩
    change (s.file f).fCount - 1 + 1 = _
    omega
  · rw [if_neg hmore] at hr
    have hone : (s.file f).fCount = 1 := by omega
    have hfinish : ∀ s₁, Inv (f :: lost) s₁ → s₁.file = s.file → s₁.calls = s.calls →
        Worked lost s (Files.finishFile f s₁, []) := by
      intro s₁ h₁ hfile hcalls
      refine ⟨?_, (finishFile_calls f s₁).trans hcalls, by simp⟩
      refine h₁.finishFile (by rw [hfile, hone]) ?_
      rw [InUse, hcalls]
      exact hidle hone
    split at hr
    · cases hr
      exact hfinish s h rfl rfl
    · split_ifs at hr with hsocket
      · obtain ⟨⟨s₁, l⟩, hrelease, rfl⟩ := Option.map_eq_some_iff.mp hr
        obtain ⟨hinv, hfile, hcalls⟩ := h.socketRelease hrelease
        dsimp only
        split_ifs with hnil
        · subst hnil
          exact hfinish s₁ hinv hfile hcalls
        · refine ⟨?_, hcalls, ?_⟩
          · refine hinv.perm ?_
            rw [List.flatMap_append, flatMap_drop_held, List.append_assoc]
            rfl
          · intro g hg
            rw [List.flatMap_append, flatMap_drop_sole, List.nil_append] at hg
            obtain rfl : g = f := by simpa [Work.sole] using hg
            exact ⟨by rw [hfile, hone], hidle hone⟩
      · obtain ⟨x, -, rfl⟩ := Option.map_eq_some_iff.mp hr
        exact hfinish _ (h.setInode _ x) rfl rfl

theorem slot_setCloseOnExec (tbl fd : ℕ) (b : Bool) (s : State) (tbl' fd' : ℕ) :
    slot tbl' fd' (setCloseOnExec tbl fd b s) = slot tbl' fd' s := by
  simp only [slot, setCloseOnExec, List.getElem?_modify]
  rcases s.tables[tbl']? with _ | t
  · rfl
  · by_cases htbl : tbl = tbl' <;> simp [htbl]

theorem setCloseOnExec_length (tbl fd : ℕ) (b : Bool) (s : State) :
    (setCloseOnExec tbl fd b s).tables.length = s.tables.length := List.length_modify ..

theorem Inv.dupfd {arg : ℕ} (h : Inv lost s) (hroom : Room s (Work.taken s (.dup tbl fd arg))) :
    Inv lost (dupfd tbl fd arg s) := by
  unfold Files.dupfd
  split
  · rename_i f fd' hf hfd'
    obtain ⟨htbl, hlt, -, hnone⟩ := nextFd_some hfd'
    have hmem : f ∈ Work.taken s (.dup tbl fd arg) := by simp [Work.taken, hf, hfd']
    have hcount := hroom f hmem
    have hpos := List.count_pos_iff.mpr hmem
    have hclear := h.setCloseOnExec tbl fd' false
    have hrefd : Inv (f :: lost) (Files.fref f (Files.setCloseOnExec tbl fd' false s)) :=
      hclear.fref (by change (s.file f).fCount + 1 < _; omega) (h.of_slot hf).2
    have hslot := Inv.setSlot (o := some f) hrefd tbl fd'
      (by change tbl < (Files.setCloseOnExec tbl fd' false s).tables.length
          rw [setCloseOnExec_length]; exact htbl) hlt
    have hfree : slot tbl fd' (Files.fref f (Files.setCloseOnExec tbl fd' false s)) = none :=
      (slot_setCloseOnExec tbl fd' false s tbl fd').trans hnone
    rw [hfree] at hslot
    exact hslot
  · exact h

theorem dupfd_calls (tbl fd arg : ℕ) (s : State) : (dupfd tbl fd arg s).calls = s.calls := by
  unfold dupfd
  split <;> rfl

theorem Inv.sysClose (h : Inv lost s) (tbl fd : ℕ) : Worked lost s (sysClose tbl fd s) := by
  have hclear := h.setCloseOnExec tbl fd false
  unfold Files.sysClose
  split
  · rename_i f hf
    obtain ⟨htbl, hlt⟩ := slot_some hf
    have hslot := Inv.setSlot (o := none) hclear tbl fd
      (by rw [setCloseOnExec_length]; exact htbl) hlt
    rw [slot_setCloseOnExec, hf] at hslot
    exact ⟨hslot, rfl, by simp [Work.sole]⟩
  · exact ⟨hclear, rfl, by simp⟩

theorem vmFile_of_mem_pieces {v w : Area} {addr fin : ℕ} (hw : w ∈ unmapPieces v addr fin) : w.vmFile = v.vmFile := by
  unfold unmapPieces pieces at hw
  split_ifs at hw <;> simp at hw
  · rw [hw]
  · rw [hw]
  · rcases hw with rfl | rfl <;> rfl

theorem references_spaces {l l' : List Area} (hmm : s.spaces[mm]? = some l)
    (hspaces : s'.spaces = s.spaces.set mm l') (htables : s'.tables = s.tables)
    (hsockets : s'.sockets = s.sockets) (hcalls : s'.calls = s.calls) :
    references s' f + (l.map Area.vmFile).count f = references s f + (l'.map Area.vmFile).count f := by
  have htotal := total_set (g := mapped f) (y := l') hmm
  simp only [references, hspaces, htables, hsockets, hcalls, mapped] at htotal ⊢
  omega

theorem Inv.spaces {l l' : List Area} (h : Inv lost s) (hmm : s.spaces[mm]? = some l)
    (hcount : ∀ f, lost'.count f + (l'.map Area.vmFile).count f = lost.count f + (l.map Area.vmFile).count f) :
    Inv lost' { s with spaces := s.spaces.set mm l' } := by
  refine h.moves (fun _ => rfl) le_rfl rfl fun f => ?_
  have hrefs : references { s with spaces := s.spaces.set mm l' } f + _ = _ :=
    references_spaces hmm rfl rfl rfl rfl
  have := hcount f
  omega

/-- `unmap_fixup`: the pieces take a reference each and the old area drops its own. -/
theorem Inv.unmapFixup {v : Area} {addr fin : ℕ} (h : Inv (v.vmFile :: lost) s)
    (hroom : Room s ((unmapPieces v addr fin).map Area.vmFile))
    (hidle : unmapPieces v addr fin = [] → (s.file v.vmFile).fCount = 1 → ¬ InUse s v.vmFile)
    (hr : unmapFixup mm v addr fin s = some s') : Inv lost s' ∧ s'.calls = s.calls := by
  obtain ⟨areas, hmm, hput⟩ := Option.bind_eq_some_iff.mp hr
  have hsole : ∀ f ∈ (unmapPieces v addr fin).map Area.vmFile, ¬ Sole s f := by
    intro f hf
    obtain ⟨w, hw, rfl⟩ := List.mem_map.mp hf
    rw [vmFile_of_mem_pieces hw]
    exact h.not_sole_of_lost List.mem_cons_self
  have hrefs := h.frefs hroom hsole
  rw [frefs_eq] at hrefs hput
  have hspaces : Inv (v.vmFile :: lost) { s with
      file := (Files.frefs ((unmapPieces v addr fin).map Area.vmFile) s).file
      spaces := s.spaces.set mm (areas ++ unmapPieces v addr fin) } := by
    refine Inv.spaces hrefs hmm fun f => ?_
    rw [List.map_append, List.count_append, List.count_append]
    omega
  refine ⟨hspaces.putFile ?_ hput, (putFile_calls hput).trans rfl⟩
  -- the file is released only if no piece is left
  intro hone
  by_cases hnil : unmapPieces v addr fin = []
  · refine hidle hnil ?_
    rw [hnil] at hone
    exact hone
  · exfalso
    obtain ⟨w, hw⟩ := List.exists_mem_of_ne_nil _ hnil
    have hlost : v.vmFile ∈ (unmapPieces v addr fin).map Area.vmFile :=
      List.mem_map.mpr ⟨w, hw, vmFile_of_mem_pieces hw⟩
    have hcount := hrefs.count v.vmFile
    have hpos := List.count_pos_iff.mpr hlost
    rw [List.count_append, List.count_cons_self] at hcount
    change ((Files.frefs _ s).file v.vmFile).fCount = 1 at hone
    change ((Files.frefs _ s).file v.vmFile).fCount = _ at hcount
    omega

theorem Inv.execWork {w : Work} {r : State × List Work} (h : Inv (w.held ++ lost) s) (hroom : Room s (w.taken s))
    (hidle : ∀ f ∈ w.dropped, (s.file f).fCount = 1 → ¬ InUse s f)
    (hsole : ∀ f ∈ w.sole, (s.file f).fCount = 1 ∧ ¬ InUse s f) (hr : execWork w s = some r) : Worked lost s r := by
  cases w with
  | close tbl fd =>
    cases hr
    exact Inv.sysClose h tbl fd
  | closeOnExec tbl fd =>
    cases hr
    split_ifs
    · exact Inv.sysClose h tbl fd
    · exact ⟨h, rfl, by simp⟩
  | dup tbl fd arg =>
    cases hr
    exact ⟨Inv.dupfd h hroom, dupfd_calls tbl fd arg s, by simp⟩
  | drop f => exact Inv.releaseFile h (hidle f rfl) hr
  | finish f =>
    cases hr
    have hone := hsole f (by simp [Work.sole])
    exact ⟨Inv.finishFile h hone.1 hone.2, finishFile_calls f s, by simp⟩
  | put f =>
    obtain ⟨s', hput, rfl⟩ := Option.map_eq_some_iff.mp hr
    exact ⟨Inv.putFile h (hidle f rfl) hput, putFile_calls hput, by simp⟩
  | unmap mm v addr fin =>
    obtain ⟨s', hunmap, rfl⟩ := Option.map_eq_some_iff.mp hr
    have hdone := Inv.unmapFixup h hroom
      (fun hnil => hidle v.vmFile (by simp [Work.dropped, hnil])) hunmap
    exact ⟨hdone.1, hdone.2, by simp⟩

theorem inUse_of_setCall (hused : c'.used = []) (h : InUse (setCall k c' s) f) : InUse s f := by
  obtain ⟨d, hd, hf⟩ := h
  rcases List.mem_or_eq_of_mem_set hd with hd | rfl
  · exact ⟨d, hd, hf⟩
  · rw [hused] at hf
    cases hf

theorem Worked.push {todo : List Work} {r : State × List Work} (hr : Worked lost s r)
    (hk : s.calls[k]? = some (.work todo)) : Inv lost (setCall k (.work (r.2 ++ todo)) r.1) := by
  have hk' : r.1.calls[k]? = some (.work todo) := by rw [hr.calls, hk]
  refine hr.inv.setCall hk' ⟨fun f hf => ?_, by simp [Call.used], by simp [Call.place]⟩ fun f => ?_
  · simp only [Call.sole, List.flatMap_append, List.mem_append] at hf
    refine (fun hone : _ ∧ _ => ⟨hone.1, hone.2, by simp [Call.used]⟩) ?_
    rcases hf with hf | hf
    · have hone := hr.sole f hf
      refine ⟨hone.1, ?_⟩
      rw [InUse, hr.calls]
      exact hone.2
    · exact hr.inv.sole f ⟨_, List.mem_of_getElem? hk', hf⟩
  · simp only [Call.held, List.flatMap_append, List.count_append]
    omega

theorem Worked.start {r : State × List Work} (hr : Worked lost s r) : Inv lost (startCall (.work r.2) r.1) := by
  refine hr.inv.startCall ⟨fun f hf => ?_, by simp [Call.used], by simp [Call.place]⟩
  have hone := hr.sole f hf
  refine ⟨hone.1, ?_, by simp [Call.used]⟩
  rw [InUse, hr.calls]
  exact hone.2

theorem Inv.run {w : Work} {todo : List Work} (h : Inv lost s)
    (hk : s.calls[k]? = some (.work (w :: todo))) (hroom : Room s (w.taken s))
    (hidle : ∀ f ∈ w.dropped, (s.file f).fCount = 1 → ¬ InUse s f) {r : State × List Work}
    (hr : Files.execWork w (Files.setCall k (.work todo) s) = some r) :
    Inv lost (Files.setCall k (.work (r.2 ++ todo)) r.1) := by
  have hmem := List.mem_of_getElem? hk
  have hpop : Inv (w.held ++ lost) (Files.setCall k (.work todo) s) := by
    refine h.setCall hk ?_ fun f => ?_
    · refine h.fits_of_eq hk ?_ rfl rfl
      exact List.subset_append_right _ _
    · simp only [Call.held, List.flatMap_cons, List.count_append]
      omega
  have huse : ∀ f, ¬ InUse s f → ¬ InUse (Files.setCall k (.work todo) s) f :=
    fun f hf hin => hf (inUse_of_setCall rfl hin)
  have hworked := hpop.execWork hroom (fun f hf hone => huse f (hidle f hf hone)) (fun f hf => ?_) hr
  · refine hworked.push ?_
    rw [Files.setCall, List.getElem?_set_self (List.getElem?_eq_some_iff.mp hk).1]
  · have hone := h.sole f ⟨_, hmem, List.mem_append_left _ hf⟩
    exact ⟨hone.1, huse f hone.2⟩

/-! ## Descriptors of a child -/

theorem inFlight_modify {F : Socket → Socket} (hF : ∀ x, (F x).rights = x.rights)
    (l : List Socket) (k : ℕ) : total (inFlight f) (l.modify k F) = total (inFlight f) l := by
  rcases hk : l[k]? with _ | x
  · rw [List.modify_eq_self (List.getElem?_eq_none_iff.mp hk)]
  · have htotal := total_modify (g := inFlight f) (F := F) hk
    have hsame : inFlight f (F x) = inFlight f x := by
      rw [inFlight, inFlight, Socket.files, Socket.files, hF]
    omega

theorem Inv.socketOpen (h : Inv lost s) (k : ℕ) : Inv lost (socketOpen k s) := by
  refine h.moves (fun _ => rfl) le_rfl rfl fun f => ?_
  have hsame := inFlight_modify (f := f) (F := fun x => { x with opens := x.opens + 1 }) (fun _ => rfl) s.sockets k
  simp only [references, Files.socketOpen, hsame]

theorem Inv.not_inUse (h : Inv lost s) (hfree : (s.file f).fCount = 0) : ¬ InUse s f := by
  intro hin
  have := h.used f hin
  omega

theorem copyFile_frame (f g : ℕ) (s : State) :
    (copyFile f g s).file = (setFile g { s.file f with fCount := 1 } s).file ∧
      (copyFile f g s).calls = s.calls ∧ (copyFile f g s).tables = s.tables := by
  unfold copyFile
  dsimp only
  split <;> exact ⟨rfl, rfl, rfl⟩

theorem Inv.copyFile (h : Inv lost s) (f : ℕ) (hfree : (s.file g).fCount = 0) : Inv (g :: lost) (copyFile f g s) := by
  have hnew : Inv (g :: lost) (Files.setFile g { s.file f with fCount := 1 } s) :=
    h.alloc hfree rfl
  unfold Files.copyFile
  dsimp only
  split
  · exact hnew.setInode _ _
  · exact hnew

theorem Inv.copyFd (h : Inv lost s) (f : ℕ) (ok : Bool) (hfree : (s.file g).fCount = 0) :
    Inv ((copyFd f g ok s).2.toList ++ lost) (copyFd f g ok s).1 := by
  have hcopy := h.copyFile f hfree
  have hframe := copyFile_frame f g s
  unfold Files.copyFd
  split
  · exact hcopy.socketOpen _
  · split_ifs
    · exact hcopy
    · refine hcopy.finishFile ?_ ?_
      · rw [hframe.1, setFile_file, if_pos rfl]
      · rw [InUse, hframe.2.1]
        exact h.not_inUse hfree
  · exact hcopy

theorem finishFile_tables (f : ℕ) (s : State) : (finishFile f s).tables = s.tables := by
  unfold finishFile
  dsimp only
  split <;> rfl

theorem copyFd_tables (f g : ℕ) (ok : Bool) (s : State) : (copyFd f g ok s).1.tables = s.tables := by
  have htables := (copyFile_frame f g s).2.2
  unfold copyFd
  split
  · exact htables
  · split_ifs
    · exact htables
    · rw [finishFile_tables]
      exact htables
  · exact htables

theorem slot_setSlot {o : Option ℕ} {m n : ℕ} (htbl : tbl < s.tables.length) (hfd : fd < nrOpen) :
    slot m n (setSlot tbl fd o s) = if m = tbl ∧ n = fd then o else slot m n s := by
  by_cases hm : m = tbl
  · subst hm
    simp only [slot, setSlot, List.getElem?_modify, List.getElem?_eq_getElem htbl]
    by_cases hn : n = fd
    · simp [hn, hfd]
    · simp [hn]
  · simp [slot, setSlot, Ne.symm hm, hm]

theorem slot_congr (h : s'.tables = s.tables) : slot tbl fd s' = slot tbl fd s := by
  rw [slot, slot, h]

theorem Inv.copySlots {t : FilesStruct} {child : ℕ} {refused l : List ℕ} (h : Inv lost s)
    (hchild : child < s.tables.length) (hl : ∀ fd ∈ l, fd < nrOpen ∧ slot child fd s = none)
    (hnodup : l.Nodup) : Inv lost (l.foldl (copySlot t child refused) s) := by
  induction l generalizing s with
  | nil => exact h
  | cons fd l ih =>
    rw [List.foldl_cons]
    have hfirst := hl fd List.mem_cons_self
    have hrest : ∀ fd' ∈ l, fd' < nrOpen ∧ slot child fd' s = none :=
      fun fd' hfd' => hl fd' (List.mem_cons_of_mem fd hfd')
    have hnodup' := List.nodup_cons.mp hnodup
    unfold copySlot
    split
    · rename_i f g hf hg
      dsimp only
      have hfree := (emptyFile_some hg).2
      have htables := copyFd_tables f g (decide (fd ∉ refused)) s
      have hcopy := h.copyFd f (decide (fd ∉ refused)) hfree
      have hslot := hcopy.setSlot child fd (by rw [htables]; exact hchild) hfirst.1
      rw [slot_congr htables, hfirst.2] at hslot
      refine ih hslot ?_ (fun fd' hfd' => ?_) hnodup'.2
      · rw [Files.setSlot, List.length_modify, htables]
        exact hchild
      · refine ⟨(hrest fd' hfd').1, ?_⟩
        have hne : fd' ≠ fd := by
          rintro rfl
          exact hnodup'.1 hfd'
        rw [slot_setSlot (by rw [htables]; exact hchild) hfirst.1, if_neg (by simp [hne]), slot_congr htables]
        exact (hrest fd' hfd').2
    · exact ih h hchild hrest hnodup'.2

theorem slots_none {t : FilesStruct} (ht : ∀ fd, t.fd fd = none) : slots f t = 0 := by
  refine cells_eq_zero.mpr fun fd _ => ?_
  rw [ht]
  rfl

theorem Inv.copyFiles (h : Inv lost s) (tbl : ℕ) (refused : List ℕ) : Inv lost (copyFiles tbl refused s) := by
  unfold Files.copyFiles
  split
  · rename_i t ht
    have hnew : Inv lost { s with tables := s.tables ++ [{ t with fd := fun _ => none }] } := by
      refine h.moves (fun _ => rfl) (by simp) rfl fun f => ?_
      have hnone : slots f { t with fd := fun _ => none } = 0 := slots_none fun _ => rfl
      simp only [references, total_append, total_cons, total_nil, hnone]
      omega
    refine hnew.copySlots (by simp) (fun fd hfd => ⟨List.mem_range.mp hfd, ?_⟩) List.nodup_range
    simp [slot]
  · exact h

end Mario.Fs.Files
