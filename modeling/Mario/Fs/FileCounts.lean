import Mario.Fs.FileRefs

/-!
# The counts of open files along runs

Every call keeps the counts, under the conditions that make a step good. The counts do not hold
without them: nothing limits how many areas map a file, and `f_count` has sixteen bits.
-/

namespace Mario.Fs.Files

open Mario.Lib Function

variable {s s' : State} {lost lost' : List ℕ} {f g tbl fd i k mm : ℕ} {c c' : Call}

/-! ## Opening a file -/

theorem Inv.phase (h : Inv lost s) (hk : s.calls[k]? = some c) (hheld : c'.held = c.held)
    (hsole : c'.sole ⊆ c.sole) (hused : c'.used = []) (hplace : c'.place = c.place) :
    Inv lost (Files.setCall k c' s) :=
  h.setCall hk (h.fits_of_eq hk hsole hused hplace) fun f => by rw [hheld]

theorem Inv.abort (h : Inv lost s) (hk : s.calls[k]? = some c) (hheld : c.held = [f])
    (hsole : f ∈ c.sole) (hput : Files.putFile f (Files.setCall k .done s) = some s') : Inv lost s' := by
  have hdone := h.finishCall hk
  rw [hheld] at hdone
  refine Inv.putFile hdone (fun _ hin => ?_) hput
  exact (h.sole f ⟨c, List.mem_of_getElem? hk, hsole⟩).2 (inUse_of_setCall rfl hin)

theorem Inv.doOpenat (h : Inv lost s) (tbl flags : ℕ) : Inv lost (doOpenat tbl flags s) := by
  unfold Files.doOpenat
  split
  · rename_i fd hfd
    obtain ⟨htbl, hlt, -, -⟩ := nextFd_some hfd
    have hclear := h.setCloseOnExec tbl fd (flags.testBit 19)
    dsimp only
    split
    · rename_i f hf
      have hfree := (emptyFile_some hf).2
      refine Inv.startCall (hclear.alloc hfree rfl) ⟨fun g hg => ?_, by simp [Call.used], ?_⟩
      · obtain rfl : g = f := by simpa [Call.sole] using hg
        refine ⟨by rw [setFile_file, if_pos rfl]; rfl, ?_, by simp [Call.used]⟩
        exact h.not_inUse hfree
      · intro p hp
        obtain rfl : (tbl, fd) = p := by simpa [Call.place] using hp
        refine ⟨?_, hlt⟩
        change tbl < (Files.setCloseOnExec tbl fd _ s).tables.length
        rw [setCloseOnExec_length]
        exact htbl
    · exact hclear
  · exact h

theorem Inv.openNamei {found : Option ℕ} (h : Inv lost s)
    (hk : s.calls[k]? = some (.lookup tbl fd f)) (hr : openNamei k tbl fd f found s = some s') : Inv lost s' := by
  unfold Files.openNamei at hr
  split at hr
  · exact h.abort hk rfl (by simp [Call.sole]) hr
  · rename_i i
    dsimp only at hr
    split_ifs at hr
    have hopened : ∀ op c', c'.held = [f] → c'.sole ⊆ [f] → c'.used = [] →
        c'.place = some (tbl, fd) →
        Inv lost (Files.setCall k c' { Files.setFile f { s.file f with
          fInode := some i, fPos := 0, fOp := op } s with
          walks := update s.walks i (s.walks i - 1) }) := by
      intro op c' hheld hsole hused hplace
      have hfile := h.setFile_eq (f := f) (x := { s.file f with
        fInode := some i, fPos := 0, fOp := op }) rfl
      have hwalks : Inv lost { Files.setFile f { s.file f with
          fInode := some i, fPos := 0, fOp := op } s with
          walks := update s.walks i (s.walks i - 1) } :=
        hfile.congr (fun _ => rfl) rfl rfl rfl rfl
      exact hwalks.phase hk hheld hsole hused hplace
    split at hr
    · rw [← Option.some.inj hr]
      exact hopened .plain _ rfl (by simp [Call.sole]) rfl rfl
    · rw [← Option.some.inj hr]
      exact hopened .fifo _ rfl (by simp [Call.sole]) rfl rfl
    · cases hr
    · cases hr

theorem Inv.fifoLink (h : Inv lost s) (hk : s.calls[k]? = some (.fifoLink tbl fd f))
    (hr : fifoLink k tbl fd f i s = some s') : Inv lost s' := by
  have hlinked : ∀ x op, Inv lost (Files.setInode i x (Files.setFile f { s.file f with fOp := op } s)) :=
    fun x op => (h.setFile_eq (x := { s.file f with fOp := op }) rfl).setInode i x
  unfold Files.fifoLink at hr
  dsimp only at hr
  split at hr
  · rw [← Option.some.inj hr]
    exact (hlinked _ _).phase hk rfl (by simp [Call.sole]) rfl rfl
  · split_ifs at hr
    all_goals
      rw [← Option.some.inj hr]
      exact (hlinked _ _).phase hk rfl (by simp [Call.sole]) rfl rfl
  · split_ifs at hr
    · exact ((hlinked _ _).setInode i _).abort hk rfl (by simp [Call.sole]) hr
    all_goals
      rw [← Option.some.inj hr]
      exact (hlinked _ _).phase hk rfl (by simp [Call.sole]) rfl rfl

theorem Inv.fifoWoken {signal : Bool} (h : Inv lost s) (hk : s.calls[k]? = some (.fifoWait tbl fd f))
    (hr : fifoWoken k tbl fd f i signal s = some s') : Inv lost s' := by
  unfold Files.fifoWoken at hr
  split_ifs at hr
  · exact (h.setInode i _).abort hk rfl (by simp [Call.sole]) hr
  · rw [← Option.some.inj hr]
    exact h.phase hk rfl (by simp [Call.sole]) rfl rfl

theorem Inv.publish (h : Inv lost s) (hk : s.calls[k]? = some (.publish tbl fd f)) :
    Inv ((slot tbl fd s).toList ++ lost) (Files.setSlot tbl fd (some f) (Files.setCall k .done s)) := by
  have hplace := h.placed _ (List.mem_of_getElem? hk) (tbl, fd) rfl
  exact (h.finishCall hk).setSlot (o := some f) tbl fd hplace.1 hplace.2

/-! ## Making files -/

theorem twoEmptyFiles_some (h : twoEmptyFiles s = some (f, g)) :
    (s.file f).fCount = 0 ∧ (s.file g).fCount = 0 ∧ f ≠ g ∧ f < nrFile ∧ g < nrFile := by
  unfold twoEmptyFiles at h
  split at h
  · rename_i f' g' l hfilter
    obtain ⟨rfl, rfl⟩ := Prod.mk.inj (Option.some.inj h)
    have hmem : ∀ x ∈ f' :: g' :: l, x < nrFile ∧ (s.file x).fCount = 0 := by
      intro x hx
      rw [← hfilter, List.mem_filter, List.mem_range, decide_eq_true_eq] at hx
      exact hx
    have hnodup : (f' :: g' :: l).Nodup := hfilter ▸ List.nodup_range.filter _
    have hne : f' ≠ g' := by
      rintro rfl
      simp at hnodup
    have hf := hmem f' (by simp)
    have hg := hmem g' (by simp)
    exact ⟨hf.2, hg.2, hne, hf.1, hg.1⟩
  · cases h

theorem twoFds_some {fd' : ℕ} (h : twoFds tbl s = some (fd, fd')) :
    tbl < s.tables.length ∧ fd < nrOpen ∧ fd' < nrOpen ∧ fd ≠ fd' ∧ slot tbl fd s = none ∧ slot tbl fd' s = none := by
  rw [twoFds, Option.bind_eq_some_iff] at h
  obtain ⟨fd₁, hfd₁, h⟩ := h
  obtain ⟨fd₂, hfd₂, hpair⟩ := Option.map_eq_some_iff.mp h
  cases hpair
  obtain ⟨htbl, hlt, -, hnone⟩ := nextFd_some hfd₁
  obtain ⟨-, hlt', hle, hnone'⟩ := nextFd_some hfd₂
  exact ⟨htbl, hlt, hlt', by omega, hnone, hnone'⟩

theorem Inv.alloc_two {x y : File} (h : Inv lost s) (hf : (s.file f).fCount = 0)
    (hg : (s.file g).fCount = 0) (hne : f ≠ g) (hx : x.fCount = 1) (hy : y.fCount = 1) :
    Inv (g :: f :: lost) (Files.setFile g y (Files.setFile f x s)) := by
  refine (h.alloc hf hx).alloc ?_ hy
  rw [setFile_file, if_neg (Ne.symm hne)]
  exact hg

theorem Inv.pipeFiles {fd' : ℕ} (h : Inv lost s) (hfiles : twoEmptyFiles s = some (f, g))
    (hfds : twoFds tbl s = some (fd, fd')) :
    Inv lost (Files.setSlot tbl fd' (some g) (Files.setSlot tbl fd (some f) (pipeFiles i f g s))) := by
  obtain ⟨hf, hg, hne, -, -⟩ := twoEmptyFiles_some hfiles
  obtain ⟨htbl, hlt, hlt', hfdne, hnone, hnone'⟩ := twoFds_some hfds
  have hmade : Inv (f :: g :: lost) (Files.pipeFiles i f g s) :=
    ((h.alloc_two hf hg hne rfl rfl).setInode i _).perm (List.Perm.swap f g lost)
  have hfirst := Inv.setSlot (o := some f) hmade tbl fd htbl hlt
  have hslot : slot tbl fd (Files.pipeFiles i f g s) = none := hnone
  rw [hslot] at hfirst
  have hsecond := Inv.setSlot (o := some g) hfirst tbl fd'
    (by rw [Files.setSlot, List.length_modify]; exact htbl) hlt'
  have hslot' : slot tbl fd' (Files.setSlot tbl fd (some f) (Files.pipeFiles i f g s)) = none := by
    have hother := slot_setSlot (s := Files.pipeFiles i f g s) (o := some f) (m := tbl) (n := fd') htbl hlt
    rw [hother, if_neg (by simp [Ne.symm hfdne])]
    exact hnone'
  rw [hslot'] at hsecond
  exact hsecond

theorem Inv.doPipe {page : Bool} (h : Inv lost s) :
    Inv (leaked s (.pipe tbl i page) ++ lost) (doPipe tbl i page s) := by
  have hfail : Inv lost (Files.iput i (Files.setInode i (newInode .pipe true) s)) :=
    (h.setInode i _).setInode i _
  unfold Files.doPipe leaked
  dsimp only
  cases page with
  | false => exact hfail
  | true =>
    rcases hfiles : twoEmptyFiles s with _ | ⟨f, g⟩
    · exact hfail
    · rcases hfds : twoFds tbl s with _ | ⟨fd, fd'⟩
      · obtain ⟨hf, hg, hne, -, -⟩ := twoEmptyFiles_some hfiles
        have hleak := (h.alloc_two (x := (s.file f).empty) (y := (s.file g).empty) hf hg hne rfl
          rfl).setInode i (pipeInode 1)
        exact hleak.perm (List.Perm.swap f g lost)
      · exact h.pipeFiles hfiles hfds

theorem Inv.appendSockets {l : List Socket} (h : Inv lost s) (hl : ∀ x ∈ l, x.rights = []) :
    Inv lost { s with sockets := s.sockets ++ l } := by
  refine h.moves (fun _ => rfl) le_rfl rfl fun f => ?_
  have hzero : total (inFlight f) l = 0 := by
    refine total_eq_zero fun x hx => ?_
    rw [inFlight, Socket.files, hl x hx]
    rfl
  simp only [references, total_append, hzero]
  omega

theorem Inv.socketInstall (h : Inv lost s) (socket i : ℕ) (hfree : (s.file f).fCount = 0)
    (htbl : tbl < s.tables.length) (hfd : fd < nrOpen) :
    Inv ((slot tbl fd s).toList ++ lost) (socketInstall socket tbl fd i f s) :=
  Inv.setSlot (o := some f) ((h.alloc hfree rfl).setInode i _) tbl fd htbl hfd

theorem Inv.sysSocket (h : Inv lost s) (tbl i : ℕ) : Inv lost (sysSocket tbl i s) := by
  unfold Files.sysSocket
  split
  · rename_i fd f hfd hf
    obtain ⟨htbl, hlt, -, hnone⟩ := nextFd_some hfd
    have hnew : Inv lost { s with sockets := s.sockets ++ [newSocket none] } :=
      h.appendSockets (by simp [newSocket])
    have hinstall := hnew.socketInstall s.sockets.length i (emptyFile_some hf).2 htbl hlt
    have hslot : slot tbl fd { s with sockets := s.sockets ++ [newSocket none] } = none := hnone
    rw [hslot] at hinstall
    exact hinstall
  · exact h

theorem emptyFile_isSome (hf : f < nrFile) (hfree : (s.file f).fCount = 0) : (emptyFile s).isSome = true := by
  rw [emptyFile, List.find?_isSome]
  exact ⟨f, List.mem_range.mpr hf, by simpa using hfree⟩

theorem Inv.doSocketpair {j : ℕ} (h : Inv lost s)
    (hpaired : (twoFds tbl s).isSome → (emptyFile s).isSome → (twoEmptyFiles s).isSome)
    (hr : doSocketpair tbl i j s = some s') : Inv lost s' := by
  unfold Files.doSocketpair at hr
  split at hr
  · rename_i fd fd' f hfds hf
    obtain ⟨htbl, hlt, hlt', hfdne, hnone, hnone'⟩ := twoFds_some hfds
    have hfree := (emptyFile_some hf).2
    dsimp only at hr
    generalize hs₀ : ({ s with sockets := s.sockets ++ [newSocket (some (s.sockets.length + 1)),
      newSocket (some s.sockets.length)] } : State) = s₀ at hr
    have h₀ : Inv lost s₀ := by
      rw [← hs₀]
      exact h.appendSockets (by simp [newSocket])
    have hfile₀ : s₀.file = s.file := by rw [← hs₀]
    have htables₀ : s₀.tables = s.tables := by rw [← hs₀]
    have hfree₀ : (s₀.file f).fCount = 0 := by rw [hfile₀, hfree]
    have htbl₀ : tbl < s₀.tables.length := by rw [htables₀]; exact htbl
    have hfirst := h₀.socketInstall s.sockets.length i hfree₀ htbl₀ hlt
    rw [slot_congr htables₀, hnone] at hfirst
    have htables₁ : (Files.socketInstall s.sockets.length tbl fd i f s₀).tables.length =
        s.tables.length := by
      rw [Files.socketInstall, Files.setSlot, List.length_modify]
      exact congrArg List.length htables₀
    split at hr
    · rename_i g hg
      rw [← Option.some.inj hr]
      have hsecond := hfirst.socketInstall (s.sockets.length + 1) j (emptyFile_some hg).2 (htables₁ ▸ htbl) hlt'
      have hslot : slot tbl fd' (Files.socketInstall s.sockets.length tbl fd i f s₀) = none := by
        rw [Files.socketInstall, slot_setSlot (by exact htbl₀) hlt, if_neg (by simp [Ne.symm hfdne])]
        exact (slot_congr htables₀).trans hnone'
      rw [hslot] at hsecond
      exact hsecond
    · -- there is a second file
      rename_i hg
      exfalso
      obtain ⟨⟨a, b⟩, hab⟩ := Option.isSome_iff_exists.mp
        (hpaired (by rw [hfds]; rfl) (by rw [hf]; rfl))
      obtain ⟨ha, hb, hne, halt, hblt⟩ := twoEmptyFiles_some hab
      have hfree₁ : ∀ x, x ≠ f → (s.file x).fCount = 0 →
          ((Files.socketInstall s.sockets.length tbl fd i f s₀).file x).fCount = 0 := by
        intro x hx hzero
        change ((Files.setFile f _ s₀).file x).fCount = 0
        rw [setFile_file, if_neg hx, hfile₀]
        exact hzero
      have hsome : (emptyFile (Files.socketInstall s.sockets.length tbl fd i f s₀)).isSome = true := by
        by_cases haf : a = f
        · exact emptyFile_isSome hblt (hfree₁ b (by rw [← haf]; exact Ne.symm hne) hb)
        · exact emptyFile_isSome halt (hfree₁ a haf ha)
      rw [hg] at hsome
      cases hsome
  · rw [← Option.some.inj hr]
    exact h

/-! ## Passing descriptors -/

theorem socketOf_some {x : Socket} (h : socketOf f s = some x) : s.sockets[(s.file f).privateData]? = some x := by
  unfold socketOf at h
  split_ifs at h
  exact h

theorem Inv.sysConnect (h : Inv lost s) (f k : ℕ) : Inv lost (sysConnect f k s) := by
  unfold Files.sysConnect
  split
  · split_ifs
    · refine h.moves (fun _ => rfl) le_rfl rfl fun g => ?_
      simp only [references, total_append, total_cons, total_nil]
      rw [inFlight_modify (by exact fun _ => rfl), inFlight_modify (by exact fun _ => rfl)]
      have hnew : ∀ p, inFlight g (newSocket p) = 0 := fun _ => rfl
      rw [hnew]
      omega
    · exact h
  · exact h

theorem Inv.startUse (h : Inv lost s) (hheld : c.held = []) (hsole : c.sole = [])
    (hused : ∀ f ∈ c.used, ∃ tbl fd, slot tbl fd s = some f)
    (hplace : ∀ p ∈ c.place, p.1 < s.tables.length ∧ p.2 < nrOpen) : Inv lost (Files.startCall c s) := by
  refine Inv.startCall (by rw [hheld]; exact h) ⟨by simp [hsole], fun f hf => ?_, hplace⟩
  obtain ⟨tbl, fd, hslot⟩ := hused f hf
  exact h.of_slot hslot

theorem Inv.leave (h : Inv lost s) (hk : s.calls[k]? = some c) (hheld : c.held = []) :
    Inv lost (Files.setCall k .done s) := by
  have hdone := h.finishCall hk
  rw [hheld] at hdone
  exact hdone

theorem Inv.accepted {newfd : ℕ} (h : Inv lost s) (hk : s.calls[k]? = some (.accepting tbl newfd f))
    (hr : accepted k tbl newfd f i s = some s') : Inv (leaked s (.accepted k i) ++ lost) s' := by
  have hplace := h.placed _ (List.mem_of_getElem? hk) (tbl, newfd) rfl
  have hleak : leaked s (.accepted k i) =
      if (emptyFile s).isSome then (slot tbl newfd s).toList else [] := by
    unfold leaked
    dsimp only
    rw [hk]
  obtain ⟨x, hx, hr⟩ := Option.bind_eq_some_iff.mp hr
  split at hr
  · cases hr
  · rename_i socket rest hpending
    dsimp only at hr
    have hsockets : Inv lost (Files.setCall k .done
        { s with sockets := s.sockets.set (s.file f).privateData { x with pending := rest } }) :=
      Inv.leave (s := Files.setSocket _ _ s) (h.setSocket_eq (socketOf_some hx) rfl) hk rfl
    rcases hg : emptyFile s with _ | g
    · rw [hg] at hr
      rw [← Option.some.inj hr]
      rw [hleak, hg, if_neg (by simp)]
      exact hsockets
    · rw [hg] at hr
      rw [← Option.some.inj hr]
      have hinstall := hsockets.socketInstall socket i (emptyFile_some hg).2 hplace.1 hplace.2
      rw [hleak, hg, if_pos (by simp)]
      exact hinstall

theorem count_files_append (l l' : List Right) :
    ((l ++ l').map Right.file).count f = (l.map Right.file).count f + (l'.map Right.file).count f := by
  rw [List.map_append, List.count_append]

theorem Inv.discard {x x' : Socket} {l : List Right} (h : Inv lost s) (hk : s.sockets[k]? = some x)
    (hrights : x.rights = l ++ x'.rights) : Inv (l.map Right.file ++ lost) (Files.setSocket k x' s) := by
  refine h.setSocket hk fun f => ?_
  rw [List.count_append, Socket.files, Socket.files, hrights, count_files_append]
  omega

theorem Inv.startDrops {l : List Right} (h : Inv (l.map Right.file ++ lost) s) :
    Inv lost (Files.startCall (.work (l.map fun r => .drop r.file)) s) := by
  have hmap : (l.map fun r => Work.drop r.file) = (l.map Right.file).map Work.drop := by
    rw [List.map_map]
    rfl
  refine Inv.startCall ?_ ⟨?_, by simp [Call.used], by simp [Call.place]⟩
  · rw [Call.held, hmap, flatMap_drop_held]
    exact h
  · rw [Call.sole, hmap, flatMap_drop_sole]
    simp

theorem discarded_append_kept (n : ℕ) (l : List Right) : discarded n l ++ kept n l = l :=
  List.takeWhile_append_dropWhile

theorem Inv.sysShutdown (h : Inv lost s) (f : ℕ) (rd wr : Bool) : Inv lost (sysShutdown f rd wr s) := by
  unfold Files.sysShutdown
  split
  · rename_i x hx
    dsimp only
    split_ifs
    · exact (h.discard (socketOf_some hx) (discarded_append_kept _ _).symm).startDrops
    · exact h.setSocket_eq (socketOf_some hx) rfl
  · exact h

theorem Inv.sendRight {right n : ℕ} (h : Inv lost s) (hk : s.calls[k]? = some (.sending f right n))
    (hroom : Room s [right]) (hr : sendRight k f right n s = some s') : Inv lost s' := by
  obtain ⟨x, hx, hr⟩ := Option.bind_eq_some_iff.mp hr
  obtain ⟨p, hp, hr⟩ := Option.bind_eq_some_iff.mp hr
  obtain ⟨y, hy, hr⟩ := Option.bind_eq_some_iff.mp hr
  split_ifs at hr
  · rw [← Option.some.inj hr]
    exact h.leave hk rfl
  · rw [← Option.some.inj hr]
    have hlt := hroom right List.mem_cons_self
    rw [List.count_singleton_self] at hlt
    have hsole : ¬ Sole s right := by
      intro hsole
      refine (h.sole right hsole).2 ⟨_, List.mem_of_getElem? hk, ?_⟩
      simp [Call.used]
    refine Inv.leave (s := Files.setSocket p _ (Files.fref right s)) ?_ hk rfl
    refine (h.fref hlt hsole).setSocket hy fun g => ?_
    · simp only [Socket.files, List.map_append, List.map_cons, List.map_nil, List.count_append,
        List.count_cons, List.count_nil]
      omega

theorem socketReadData_rights (count : ℕ) (want : Bool) (x : Socket) :
    x.rights = (socketReadData count want x).2.1 ++ ((socketReadData count want x).2.2.toList ++
      (socketReadData count want x).1.rights) ∧ (want = false → (socketReadData count want x).2.2 = none) := by
  unfold socketReadData
  dsimp only
  split_ifs with hwant
  · refine ⟨?_, fun h => absurd hwant (by simp [h])⟩
    have hfirst := discarded_append_kept x.readPosition x.rights
    split
    · rename_i r rest hrest
      split_ifs
      · dsimp only
        rw [Option.toList_some, List.singleton_append, ← hrest]
        exact hfirst.symm
      · dsimp only
        rw [Option.toList_none, List.nil_append, List.append_assoc, discarded_append_kept]
        exact hfirst.symm
    · rename_i hrest
      rw [hrest] at hfirst
      exact hfirst.symm
  · exact ⟨(discarded_append_kept _ _).symm, fun _ => rfl⟩

theorem Inv.socketRead {count : ℕ} {tbl : Option ℕ} (h : Inv lost s) (hk : s.calls[k]? = some c) (hheld : c.held = [])
    (hr : socketRead k f count tbl s = some s') : Inv lost s' := by
  obtain ⟨x, hx, hr⟩ := Option.bind_eq_some_iff.mp hr
  split_ifs at hr
  obtain ⟨hrights, hnone⟩ := socketReadData_rights count tbl.isSome x
  dsimp only at hr
  generalize socketReadData count tbl.isSome x = r at hr hrights hnone
  have htaken : Inv (r.2.1.map Right.file ++ (r.2.2.toList.map Right.file ++ lost))
      (Files.setSocket (s.file f).privateData r.1 s) := by
    refine (h.discard (l := r.2.1 ++ r.2.2.toList) (socketOf_some hx) ?_).perm ?_
    · rw [hrights, List.append_assoc]
    · rw [List.map_append, List.append_assoc]
  have hdrops := htaken.startDrops
  have hk' : (Files.startCall (.work (r.2.1.map fun right => Work.drop right.file))
      (Files.setSocket (s.file f).privateData r.1 s)).calls[k]? = some c := by
    change (s.calls ++ _)[k]? = some c
    rw [List.getElem?_append_left (List.getElem?_eq_some_iff.mp hk).1]
    exact hk
  rcases hright : r.2.2 with _ | right
  · rw [hright] at hr hdrops
    obtain rfl := Option.some.inj (show some _ = some s' from by cases tbl <;> exact hr)
    exact hdrops
  · rw [hright] at hr hdrops
    rcases tbl with _ | tbl
    · rw [hnone rfl] at hright
      cases hright
    · rw [← Option.some.inj hr]
      refine hdrops.setCall hk' ⟨by simp [Call.sole], by simp [Call.used], by simp [Call.place]⟩ fun g => ?_
      rw [hheld, List.count_append, List.count_nil]
      change lost.count g + [right.file].count g = [right.file].count g + lost.count g + 0
      omega

theorem Inv.recvInstall {right : ℕ} {control : Bool} (h : Inv lost s) (hk : s.calls[k]? = some (.received tbl right)) :
    Inv (leaked s (.recvInstall k control) ++ lost) (recvInstall k tbl right control s) := by
  have hleak : leaked s (.recvInstall k control) =
      if control ∧ (nextFd tbl 0 s).isSome then [] else [right] := by
    unfold leaked
    dsimp only
    rw [hk]
  have hdone := h.finishCall hk
  rw [hleak]
  unfold Files.recvInstall
  rcases hfd : nextFd tbl 0 s with _ | newfd
  · rw [if_neg (by simp)]
    exact hdone
  · cases control with
    | false =>
      rw [if_neg (by simp)]
      exact hdone
    | true =>
      obtain ⟨htbl, hlt, -, hnone⟩ := nextFd_some hfd
      have hslot := Inv.setSlot (o := some right) hdone tbl newfd htbl hlt
      have hfree : slot tbl newfd (Files.setCall k .done s) = none := hnone
      rw [hfree] at hslot
      rw [if_pos (by simp)]
      exact hslot

theorem Inv.socketWrite (h : Inv lost s) (f n : ℕ) : Inv lost (socketWrite f n s) := by
  unfold Files.socketWrite
  split
  · split
    · split
      · rename_i y hy
        split_ifs
        · exact h
        · exact h.setSocket_eq hy rfl
      · exact h
    · exact h
  · exact h

/-! ## Mapping files -/

/-- A file that is mapped has a reference, and no sole holder. -/
theorem Inv.of_area {l : List Area} {v : Area} (h : Inv lost s) (hmm : s.spaces[mm]? = some l)
    (hv : v ∈ l) : ¬ Sole s v.vmFile := by
  intro hsole
  have hle := le_total (g := mapped v.vmFile) hmm
  have hpos : 0 < mapped v.vmFile l := List.count_pos_iff.mpr (List.mem_map_of_mem hv)
  have hzero := (h.alone hsole).2.1
  omega

theorem Inv.mmap {l : List Area} {start fin : ℕ} (h : Inv lost s) (hmm : s.spaces[mm]? = some l)
    (hf : slot tbl fd s = some f) (hroom : Room s [f]) :
    Inv lost { Files.fref f s with spaces := s.spaces.set mm (l ++ [⟨start, fin, f⟩]) } := by
  have hlt := hroom f List.mem_cons_self
  rw [List.count_singleton_self] at hlt
  have hrefd := h.fref hlt (h.of_slot hf).2
  refine Inv.spaces hrefd hmm fun g => ?_
  simp only [List.map_append, List.map_cons, List.map_nil, List.count_append, List.count_cons, List.count_nil]
  omega

theorem Inv.startAreas {l : List Area} {F : Area → Work} (h : Inv (l.map Area.vmFile ++ lost) s)
    (hheld : ∀ v, (F v).held = [v.vmFile]) (hsole : ∀ v, (F v).sole = []) :
    Inv lost (Files.startCall (.work (l.map F)) s) := by
  have hfiles : (l.map F).flatMap Work.held = l.map Area.vmFile := by
    rw [List.flatMap_map, List.map_eq_flatMap]
    exact congrArg (l.flatMap ·) (funext hheld)
  have hnone : (l.map F).flatMap Work.sole = [] := by
    rw [List.flatMap_map, List.flatMap_eq_nil_iff]
    exact fun v _ => hsole v
  refine Inv.startCall ?_ ⟨?_, by simp [Call.used], by simp [Call.place]⟩
  · rw [Call.held, hfiles]
    exact h
  · rw [Call.sole, hnone]
    simp

theorem Inv.doMunmap (h : Inv lost s) (mm addr fin : ℕ) : Inv lost (doMunmap mm addr fin s) := by
  unfold Files.doMunmap
  split
  · rename_i l hmm
    have hunlink : Inv ((l.filter fun v => v.overlaps addr fin).map Area.vmFile ++ lost)
        { s with spaces := s.spaces.set mm (l.filter fun v => !v.overlaps addr fin) } := by
      refine h.spaces hmm fun f => ?_
      have hperm := List.filter_append_perm (fun v : Area => v.overlaps addr fin) l
      have hcount := (hperm.map Area.vmFile).count_eq f
      rw [List.map_append, List.count_append] at hcount
      rw [List.count_append]
      omega
    exact hunlink.startAreas (fun _ => rfl) fun _ => rfl
  · exact h

theorem Inv.dupMmap {n : ℕ} (h : Inv lost s) (hroom : Room s (taken s (.dupMmap mm n))) :
    Inv lost (dupMmap mm n s) := by
  unfold Files.dupMmap
  split
  · rename_i l hmm
    have htaken : taken s (.dupMmap mm n) = (l.take n).map Area.vmFile := by
      unfold taken
      dsimp only
      rw [hmm, Option.getD_some]
    rw [htaken] at hroom
    have hsole : ∀ f ∈ (l.take n).map Area.vmFile, ¬ Sole s f := by
      intro f hf
      obtain ⟨v, hv, rfl⟩ := List.mem_map.mp hf
      exact h.of_area hmm (List.mem_of_mem_take hv)
    have hrefs := h.frefs hroom hsole
    dsimp only
    split_ifs with hall
    · rw [List.take_of_length_le hall] at hrefs ⊢
      rw [frefs_eq] at hrefs ⊢
      refine hrefs.moves (fun _ => rfl) le_rfl rfl fun f => ?_
      simp only [references, total_append, total_cons, total_nil, List.count_append, mapped]
      omega
    · exact hrefs.startAreas (fun _ => rfl) fun _ => rfl
  · exact h

theorem Inv.exitMmap (h : Inv lost s) (mm : ℕ) : Inv lost (exitMmap mm s) := by
  unfold Files.exitMmap
  split
  · rename_i l hmm
    have hempty : Inv (l.map Area.vmFile ++ lost) { s with spaces := s.spaces.set mm [] } := by
      refine h.spaces hmm fun f => ?_
      rw [List.count_append, List.map_nil, List.count_nil]
      omega
    exact hempty.startAreas (fun _ => rfl) fun _ => rfl
  · exact h

/-! ## Polling -/

theorem Inv.poll {fds : List ℕ} (h : Inv lost s) (hroom : Room s (pollFiles tbl fds s)) :
    Inv lost (Files.startCall (.polling (pollFiles tbl fds s)) (Files.frefs (pollFiles tbl fds s) s)) := by
  have hsole : ∀ f ∈ pollFiles tbl fds s, ¬ Sole s f := by
    intro f hf
    obtain ⟨fd, -, hslot⟩ := List.mem_filterMap.mp hf
    exact (h.of_slot hslot).2
  exact (h.frefs hroom hsole).startCall ⟨by simp [Call.sole], by simp [Call.used], by simp [Call.place]⟩

theorem Inv.pollDone {files : List ℕ} (h : Inv lost s) (hk : s.calls[k]? = some (.polling files)) :
    Inv lost (Files.setCall k (.work (files.map .drop)) s) := by
  refine h.setCall hk ⟨?_, by simp [Call.used], by simp [Call.place]⟩ fun f => ?_
  · rw [Call.sole, flatMap_drop_sole]
    simp
  · rw [Call.held, flatMap_drop_held, Call.held]

/-! ## Runs -/

theorem Inv.onFile {call : ℕ → State} (h : Inv lost s) (hcall : ∀ f, slot tbl fd s = some f → Inv lost (call f))
    (hr : onFile tbl fd s call = some s') : Inv lost s' := by
  rw [← Option.some.inj hr]
  split
  · rename_i f hf
    exact hcall f hf
  · exact h

theorem Inv.startOn (h : Inv lost s) (hf : slot tbl fd s = some f) (hheld : c.held = [])
    (hsole : c.sole = []) (hused : c.used = [f]) (hplace : c.place = none) : Inv lost (Files.startCall c s) := by
  refine h.startUse hheld hsole (fun g hg => ?_) (by simp [hplace])
  obtain rfl : g = f := by simpa [hused] using hg
  exact ⟨tbl, fd, hf⟩

theorem Inv.startLoop {F : ℕ → Work} (h : Inv lost s) (hheld : ∀ fd, (F fd).held = [])
    (hsole : ∀ fd, (F fd).sole = []) : Inv lost (Files.startCall (.work ((List.range nrOpen).map F)) s) := by
  have hnone : ((List.range nrOpen).map F).flatMap Work.held = [] := by
    rw [List.flatMap_map, List.flatMap_eq_nil_iff]
    exact fun fd _ => hheld fd
  refine Inv.startCall ?_ (fits_of_nil ?_ rfl rfl)
  · rw [Call.held, hnone]
    exact h
  · rw [Call.sole, List.flatMap_map, List.flatMap_eq_nil_iff]
    exact fun fd _ => hsole fd

theorem Inv.step {a : Label} (h : Inv lost s) (hsound : Sound s a) (hstep : Step s a s') :
    Inv (leaked s a ++ lost) s' := by
  unfold Step at hstep
  cases a with
  | dup tbl fd arg =>
    cases hstep
    exact h.dupfd hsound.room
  | dup2 tbl old new =>
    cases hstep
    split_ifs
    · exact Inv.startCall h (fits_of_nil rfl rfl rfl)
    · exact h
  | setFd tbl fd b =>
    cases hstep
    exact h.setCloseOnExec tbl fd b
  | close tbl fd =>
    cases hstep
    exact (h.sysClose tbl fd).start
  | exit tbl =>
    cases hstep
    exact Inv.startLoop h (fun _ => rfl) fun _ => rfl
  | exec tbl =>
    cases hstep
    exact Inv.startLoop h (fun _ => rfl) fun _ => rfl
  | run k =>
    simp only [Files.exec] at hstep
    split at hstep
    · rename_i w todo hk
      obtain ⟨r, hr, rfl⟩ := Option.map_eq_some_iff.mp hstep
      have hroom : Room s (w.taken s) := by
        have hroom := hsound.room
        unfold taken at hroom
        dsimp only at hroom
        rw [hk] at hroom
        exact hroom
      refine h.run hk hroom (fun f hf => hsound.idle f ?_) hr
      unfold dropped
      dsimp only
      rw [hk]
      exact hf
    · cases hstep
  | copyFiles tbl refused =>
    cases hstep
    exact h.copyFiles tbl refused
  | openat tbl flags =>
    cases hstep
    exact h.doOpenat tbl flags
  | openNamei k found =>
    simp only [Files.exec] at hstep
    split at hstep
    · rename_i hk
      exact h.openNamei hk hstep
    · cases hstep
  | opened k ok =>
    simp only [Files.exec] at hstep
    split at hstep
    · rename_i hk
      split_ifs at hstep
      · cases hstep
        exact h.phase hk rfl (by simp [Call.sole]) rfl rfl
      · exact h.abort hk rfl (by simp [Call.sole]) hstep
    · cases hstep
  | fifoTest k =>
    simp only [Files.exec] at hstep
    split at hstep
    · rename_i hk
      obtain ⟨i, -, rfl⟩ := Option.map_eq_some_iff.mp hstep
      split_ifs
      · exact h.phase hk rfl (by simp [Call.sole]) rfl rfl
      · exact h.phase hk rfl (by simp [Call.sole]) rfl rfl
    · cases hstep
  | fifoInit k page =>
    simp only [Files.exec] at hstep
    split at hstep
    · rename_i hk
      obtain ⟨i, -, hstep⟩ := Option.bind_eq_some_iff.mp hstep
      split_ifs at hstep
      · cases hstep
        exact (h.setInode i _).phase hk rfl (by simp [Call.sole]) rfl rfl
      · exact h.abort hk rfl (by simp [Call.sole]) hstep
    · cases hstep
  | fifoLink k =>
    simp only [Files.exec] at hstep
    split at hstep
    · rename_i hk
      obtain ⟨i, -, hstep⟩ := Option.bind_eq_some_iff.mp hstep
      exact h.fifoLink hk hstep
    · cases hstep
  | fifoWoken k signal =>
    simp only [Files.exec] at hstep
    split at hstep
    · rename_i hk
      obtain ⟨i, -, hstep⟩ := Option.bind_eq_some_iff.mp hstep
      exact h.fifoWoken hk hstep
    · cases hstep
  | publish k =>
    simp only [Files.exec] at hstep
    split at hstep
    · rename_i tbl fd f hk
      cases hstep
      have hleak : leaked s (.publish k) = (slot tbl fd s).toList := by
        unfold leaked
        dsimp only
        rw [hk]
      rw [hleak]
      exact h.publish hk
    · cases hstep
  | pipe tbl i page =>
    simp only [Files.exec] at hstep
    split_ifs at hstep
    cases hstep
    exact h.doPipe
  | socket tbl i =>
    simp only [Files.exec] at hstep
    split_ifs at hstep
    cases hstep
    exact h.sysSocket tbl i
  | socketpair tbl i j =>
    simp only [Files.exec] at hstep
    split_ifs at hstep
    exact h.doSocketpair hsound.paired hstep
  | listen tbl fd =>
    refine h.onFile (fun f _ => ?_) hstep
    split
    · rename_i x hx
      split_ifs
      · exact h.setSocket_eq (socketOf_some hx) rfl
      · exact h
    · exact h
  | connect tbl fd listener => exact h.onFile (fun f _ => h.sysConnect f listener) hstep
  | accept tbl fd =>
    refine h.onFile (fun f hf => ?_) hstep
    split
    · rename_i newfd hfd
      obtain ⟨htbl, hlt, -, -⟩ := nextFd_some hfd
      refine h.startUse rfl rfl (fun g hg => ?_) fun p hp => ?_
      · obtain rfl : g = f := by simpa [Call.used] using hg
        exact ⟨tbl, fd, hf⟩
      · obtain rfl : (tbl, newfd) = p := by simpa [Call.place] using hp
        exact ⟨htbl, hlt⟩
    · exact h
  | accepted k i =>
    simp only [Files.exec] at hstep
    split at hstep
    · rename_i hk
      split_ifs at hstep
      exact h.accepted hk hstep
    · cases hstep
  | shutdown tbl fd rd wr => exact h.onFile (fun f _ => h.sysShutdown f rd wr) hstep
  | sendmsg tbl fd right n =>
    refine h.onFile (fun f hf => ?_) hstep
    split
    · rename_i r hr
      split_ifs
      · refine h.startUse rfl rfl (fun g hg => ?_) (by simp [Call.place])
        rcases (by simpa [Call.used] using hg : g = f ∨ g = r) with rfl | rfl
        · exact ⟨tbl, fd, hf⟩
        · exact ⟨tbl, right, hr⟩
      · exact h
    · exact h
  | sendRight k =>
    simp only [Files.exec] at hstep
    split at hstep
    · rename_i f right n hk
      have hroom := hsound.room
      unfold taken at hroom
      dsimp only at hroom
      rw [hk] at hroom
      exact h.sendRight hk hroom hstep
    · cases hstep
  | recvmsg tbl fd => exact h.onFile (fun f hf => h.startOn hf rfl rfl rfl rfl) hstep
  | recvRead k count =>
    simp only [Files.exec] at hstep
    split at hstep
    · rename_i hk
      exact h.socketRead hk rfl hstep
    · cases hstep
  | recvInstall k control =>
    simp only [Files.exec] at hstep
    split at hstep
    · rename_i hk
      cases hstep
      exact h.recvInstall hk
    · cases hstep
  | enter tbl fd => exact h.onFile (fun f hf => h.startOn hf rfl rfl rfl rfl) hstep
  | leave k =>
    simp only [Files.exec] at hstep
    split at hstep
    case h_5 => cases hstep
    all_goals
      rename_i hk
      cases hstep
      exact h.leave hk rfl
  | socketRead k count =>
    simp only [Files.exec] at hstep
    split at hstep
    · rename_i hk
      exact h.socketRead hk rfl hstep
    · cases hstep
  | socketWrite k count =>
    simp only [Files.exec] at hstep
    split at hstep
    · cases hstep
      exact h.socketWrite _ count
    · cases hstep
  | pipeRead k count =>
    simp only [Files.exec] at hstep
    split at hstep
    · obtain ⟨i, -, rfl⟩ := Option.map_eq_some_iff.mp hstep
      exact h.setInode i _
    · cases hstep
  | pipeWrite k count =>
    simp only [Files.exec] at hstep
    split at hstep
    · obtain ⟨i, -, rfl⟩ := Option.map_eq_some_iff.mp hstep
      exact h.setInode i _
    · cases hstep
  | mmap mm tbl fd start fin =>
    obtain ⟨l, hmm, hstep⟩ := Option.bind_eq_some_iff.mp hstep
    refine h.onFile (fun f hf => ?_) hstep
    split_ifs with hplain
    · refine h.mmap hmm hf ?_
      have hroom := hsound.room
      unfold taken at hroom
      dsimp only at hroom
      rw [hf, Option.toList_some, List.filter_singleton, decide_eq_true hplain] at hroom
      exact hroom
    · exact h
  | munmap mm addr fin =>
    cases hstep
    exact h.doMunmap mm addr fin
  | dupMmap mm n =>
    cases hstep
    exact h.dupMmap hsound.room
  | exitMmap mm =>
    cases hstep
    exact h.exitMmap mm
  | poll tbl fds =>
    cases hstep
    exact h.poll hsound.room
  | pollDone k =>
    simp only [Files.exec] at hstep
    split at hstep
    · rename_i hk
      cases hstep
      exact h.pollDone hk
    · cases hstep
  | iget i kind =>
    simp only [Files.exec] at hstep
    split_ifs at hstep
    all_goals
      cases hstep
      exact h.congr (fun _ => rfl) rfl rfl rfl rfl
  | iput i =>
    simp only [Files.exec] at hstep
    split_ifs at hstep
    cases hstep
    exact h.congr (fun _ => rfl) rfl rfl rfl rfl

theorem leaked_eq_nil {a : Label} (h : Installed s a) : leaked s a = [] := by
  cases a with
  | pipe tbl i page =>
    unfold leaked
    dsimp only
    split
    · rename_i hfiles hfds
      have hsome := h rfl (by rw [hfiles]; rfl)
      rw [hfds] at hsome
      cases hsome
    · rfl
  | publish k =>
    unfold Installed at h
    unfold leaked
    dsimp only at h ⊢
    split at h
    · rw [h]
      rfl
    · rfl
  | accepted k i =>
    unfold Installed at h
    unfold leaked
    dsimp only at h ⊢
    split at h
    · split_ifs with hsome
      · rw [h hsome]
        rfl
      · rfl
    · rfl
  | recvInstall k control =>
    unfold Installed at h
    unfold leaked
    dsimp only at h ⊢
    split at h
    · rw [if_pos h]
    · rfl
  | _ => rfl

theorem Initial.inv (h : Initial s) : Inv [] s := by
  have hrefs : ∀ f, references s f = 0 := by
    intro f
    have hslots : total (slots f) s.tables = 0 :=
      total_eq_zero fun t ht => slots_none (h.tables t ht)
    have hmapped : total (mapped f) s.spaces = 0 := by
      refine total_eq_zero fun l hl => ?_
      rw [h.spaces l hl]
      rfl
    rw [references, hslots, hmapped, h.sockets, h.calls, total_nil, total_nil]
  refine ⟨fun f => ?_, fun f => ?_, ?_, ?_, ?_⟩
  · rw [(h.file f).1, hrefs, List.count_nil]
  · rw [(h.file f).1]
    decide
  · rintro f ⟨c, hc, -⟩
    rw [h.calls] at hc
    cases hc
  · rintro f ⟨c, hc, -⟩
    rw [h.calls] at hc
    cases hc
  · intro c hc
    rw [h.calls] at hc
    cases hc

/-- The count of every file is the number of its references in every state that is reached in good
steps. -/
theorem fCount_eq_references {as : List Label} (hinit : Initial s)
    (hrun : Run (Guarded Good Step) s as s') : Counted s' := by
  have hinv : Inv [] s' := by
    refine Run.invariant hrun hinit.inv fun {u v a} h hstep => ?_
    have hnext := h.step hstep.1.1 hstep.2
    rw [leaked_eq_nil hstep.1.2] at hnext
    exact hnext
  refine ⟨fun f => ?_, hinv.used⟩
  rw [hinv.count f, List.count_nil]
  omega

/-! ## Examples of runs -/

/-- No file is open. -/
def boot : State :=
  { file := fun _ => ⟨0, 0, 0, 0, none, .null, 0⟩
    inode := fun _ => ⟨0, .plain, false, 0, 0, 0⟩
    tables := [⟨fun _ => none, fun _ => false⟩]
    spaces := [[]]
    sockets := []
    calls := []
    walks := fun _ => 0 }

theorem boot_initial : Initial boot := by
  refine ⟨fun _ => ⟨rfl, rfl⟩, fun _ => ⟨rfl, rfl⟩, ?_, ?_, rfl, rfl, fun _ => rfl⟩
  · intro t ht fd
    rw [List.mem_singleton.mp ht]
  · intro l hl
    exact List.mem_singleton.mp hl

/-- A task opens a file. -/
def opening : List Label := [.iget 0 .plain, .openat 0 0, .openNamei 0 (some 0), .opened 0 true, .publish 0]

/-- It maps the file, unmaps a page in the middle, duplicates the descriptor, forks, passes the file
over a socket to itself and polls it. -/
def tour : List Label :=
  opening ++ [.mmap 0 0 0 0 12288, .munmap 0 4096 8192, .run 1, .dup 0 0 0, .copyFiles 0 [],
    .socketpair 0 1 2, .sendmsg 0 2 0 1, .sendRight 2, .recvmsg 0 3, .recvRead 3 1,
    .recvInstall 3 true, .poll 0 [0, 1]]

theorem tour_replays : (replay Good exec boot tour).isSome := by decide +kernel

/-- The file has three descriptors, two areas and a call that polls it twice. -/
def toured : State := (replay Good exec boot tour).get tour_replays

theorem tour_run : Run (Guarded Good Step) boot tour toured :=
  run_of_replay (Option.some_get tour_replays).symm

theorem fCount_eq_references_toured :
    Initial boot ∧ Run (Guarded Good Step) boot tour toured ∧ (toured.file 0).fCount = 7 ∧
      Counted toured :=
  ⟨boot_initial, tour_run, by decide +kernel, fCount_eq_references boot_initial tour_run⟩

theorem opening_replays : (replay (fun _ _ => True) exec boot opening).isSome := by decide +kernel

/-- The file has one descriptor. -/
@[irreducible] def opened : State := (replay (fun _ _ => True) exec boot opening).get opening_replays

theorem opening_run : Run Step boot opening opened := by
  unfold opened
  exact (run_of_replay (Option.some_get opening_replays).symm).mono fun _ _ _ hstep => hstep.2

/-- The pages that are mapped one by one. -/
def page (j : ℕ) : Area := ⟨pageSize * j, pageSize * (j + 1), 0⟩

/-- The task has mapped the file `n` times. -/
def mapping (n : ℕ) : State :=
  { opened with
    file := update opened.file 0 { opened.file 0 with fCount := (n + 1) % shortSize }
    spaces := [(List.range n).map page] }

theorem mapping_file (n : ℕ) : (mapping n).file 0 = { opened.file 0 with fCount := (n + 1) % shortSize } := by
  unfold mapping
  exact update_self 0 _ opened.file

theorem slot_mapping (n : ℕ) : slot 0 0 (mapping n) = some 0 := by
  have hopened : slot 0 0 opened = some 0 := by decide +kernel
  exact (slot_congr rfl).trans hopened

theorem exec_mapping (n : ℕ) :
    exec (mapping n) (.mmap 0 0 0 (pageSize * n) (pageSize * (n + 1))) = some (mapping (n + 1)) := by
  have hspaces : (mapping n).spaces[0]? = some ((List.range n).map page) := rfl
  have hplain : ((mapping n).file 0).fOp = .plain := by
    have hop : (opened.file 0).fOp = .plain := by decide +kernel
    rw [mapping_file]
    exact hop
  have hcount : ((n + 1) % shortSize + 1) % shortSize = (n + 1 + 1) % shortSize :=
    Nat.mod_add_mod ..
  simp only [exec, hspaces, Option.bind_some, onFile, slot_mapping, hplain, if_true, Option.some.injEq]
  simp only [mapping, fref, setFile, update_self, update_idem, hcount,
    List.range_succ, List.map_append, List.map_cons, List.map_nil, page, List.set_cons_zero]

theorem mapping_zero : mapping 0 = opened := by
  have hspaces : opened.spaces = [[]] := by decide +kernel
  have hcount : (opened.file 0).fCount = (0 + 1) % shortSize := by decide +kernel
  rw [mapping, ← hcount, List.range_zero, List.map_nil, ← hspaces]
  exact congrArg (fun file => { opened with file := file }) (update_eq_self 0 opened.file)

theorem mapping_run (n : ℕ) : Run Step boot
      (opening ++ (List.range n).map fun j => .mmap 0 0 0 (pageSize * j) (pageSize * (j + 1))) (mapping n) := by
  induction n with
  | zero =>
    rw [List.range_zero, List.map_nil, List.append_nil, mapping_zero]
    exact opening_run
  | succ n ih =>
    rw [List.range_succ, List.map_append, ← List.append_assoc]
    exact Run.snoc ih (exec_mapping n)

/-- When the count has come round to zero, the descriptor is still there. -/
theorem mapping_uncounted {n : ℕ} (hround : (n + 1) % shortSize = 0) : ¬ Counted (mapping n) := by
  intro h
  have hcount := h.count 0
  have hzero : ((mapping n).file 0).fCount = 0 := by
    rw [mapping_file]
    exact hround
  obtain ⟨t, ht, hfd⟩ := Option.bind_eq_some_iff.mp (slot_mapping n)
  have hle := le_total (g := slots 0) ht
  have hpos : 0 < slots 0 t := cells_pos.mpr ⟨0, by decide, by simpa [nrOpen] using hfd⟩
  simp only [references] at hcount
  omega

/-- A file that is mapped 65535 times has a count of zero. -/
theorem mapping_not_counted :
    ¬ ∀ s₀, Initial s₀ → ∀ as s, Run Step s₀ as s → Counted s := by
  intro h
  exact mapping_uncounted (by decide) (h boot boot_initial _ _ (mapping_run 65535))

end Mario.Fs.Files
